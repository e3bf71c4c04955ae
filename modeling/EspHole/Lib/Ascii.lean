/-
Bytes as C programs see them: ASCII text, the `ctype.h` classes in the C locale, and
strings that end at their first NUL.

A property of every byte is decided by running through the 256 of them, which
`forall_byte` does once and for all.
-/
import Mathlib.Data.List.DropRight
import Mathlib.Data.List.TakeWhile

namespace Ascii

/-- The bytes of an ASCII literal. -/
def ascii (s : String) : List UInt8 := s.toList.map Char.toUInt8

/-- The byte `.`, which separates the labels of a name. -/
abbrev dot : UInt8 := '.'.toUInt8

/-- `isspace` -/
def isSpace (c : UInt8) : Bool := c == 32 || (9 ≤ c && c ≤ 13)

/-- `isdigit` -/
def isDigit (c : UInt8) : Bool := '0'.toUInt8 ≤ c && c ≤ '9'.toUInt8

/-- `isalpha` -/
def isAlpha (c : UInt8) : Bool :=
  ('A'.toUInt8 ≤ c && c ≤ 'Z'.toUInt8) || ('a'.toUInt8 ≤ c && c ≤ 'z'.toUInt8)

/-- `isalnum` -/
def isAlnum (c : UInt8) : Bool := isAlpha c || isDigit c

/-- An upper-case letter's lower case; any other byte is kept. -/
def lower (c : UInt8) : UInt8 := if 'A'.toUInt8 ≤ c ∧ c ≤ 'Z'.toUInt8 then c + 32 else c

/-- Drop white space at both ends. -/
def trim (s : List UInt8) : List UInt8 := (s.dropWhile isSpace).rdropWhile isSpace

/-- What a `char *` to these bytes spells: they are followed by a NUL. -/
def cstr (s : List UInt8) : List UInt8 := s.takeWhile (· ≠ 0)

/-- To hold of every byte is to hold of the 256 of them. -/
theorem forall_byte {P : UInt8 → Prop} (h : ∀ n < 256, P (UInt8.ofNat n)) (c : UInt8) : P c := by
  have := h c.toNat c.toNat_lt
  rwa [UInt8.ofNat_toNat] at this

@[simp] theorem lower_lower (c : UInt8) : lower (lower c) = lower c := by
  revert c
  exact forall_byte (by decide +kernel)

theorem lower_eq_dot (c : UInt8) : lower c = dot ↔ c = dot := by
  revert c
  exact forall_byte (by decide +kernel)

theorem lower_eq_zero (c : UInt8) : lower c = 0 ↔ c = 0 := by
  revert c
  exact forall_byte (by decide +kernel)

/-- Where a run of `p` ends before something that is not `p`, that is all of the run. -/
theorem takeWhile_append_stop {p : UInt8 → Bool} {l rest : List UInt8} (hl : ∀ c ∈ l, p c = true)
    (hrest : ∀ c ∈ rest.head?, p c = false) : (l ++ rest).takeWhile p = l := by
  rw [List.takeWhile_append_of_pos hl]
  cases rest with
  | nil => simp
  | cons c rest => simp [hrest c rfl]

theorem dropWhile_append_stop {p : UInt8 → Bool} {l rest : List UInt8} (hl : ∀ c ∈ l, p c = true)
    (hrest : ∀ c ∈ rest.head?, p c = false) : (l ++ rest).dropWhile p = rest := by
  rw [List.dropWhile_append_of_pos hl]
  cases rest with
  | nil => rfl
  | cons c rest => simp [hrest c rfl]

/-- A string without white space has none at its ends. -/
theorem trim_eq_self {s : List UInt8} (h : ∀ c ∈ s, isSpace c = false) : trim s = s := by
  have hleft : s.dropWhile isSpace = s := by
    cases s with
    | nil => rfl
    | cons c s => simp [h c (by simp)]
  unfold trim
  rw [hleft, List.rdropWhile_eq_self_iff]
  intro hne
  simp [h _ (List.getLast_mem hne)]

theorem cstr_eq_self {s : List UInt8} (h : 0 ∉ s) : cstr s = s := by
  refine List.takeWhile_eq_self_iff.mpr fun x hx => ?_
  simp only [ne_eq, decide_eq_true_eq]
  rintro rfl
  exact h hx

theorem not_mem_cstr (s : List UInt8) : 0 ∉ cstr s := by
  intro h
  have := List.mem_takeWhile_imp h
  simp at this

@[simp] theorem cstr_cstr (s : List UInt8) : cstr (cstr s) = cstr s :=
  cstr_eq_self (not_mem_cstr s)

end Ascii
