/-
Strings in a buffer that is written to while they are read.

A pointer is an index, and the string it points to ends at the next NUL.  Programs that
cut a string by writing a NUL into it change every string that runs past that place, and
no other.  `Spells buf p s` says which string a pointer has; the lemmas say what a search
finds in it and what a cut leaves of it.
-/
import EspHole.Lib.Ascii

namespace CString

open Ascii

/-- The string at `p`. -/
def str (buf : List UInt8) (p : Nat) : List UInt8 := cstr (buf.drop p)

/-- `strlen`, where a NUL ends the string inside the buffer -/
def strlen (buf : List UInt8) (p : Nat) : Option Nat :=
  if 0 ∈ buf.drop p then some (str buf p).length else none

/-- `strchr`, for a byte that is not NUL -/
def strchr (buf : List UInt8) (p : Nat) (c : UInt8) : Option Nat :=
  if c ∈ str buf p then some (p + (str buf p).idxOf c) else none

/-- `memchr` -/
def memchr (buf : List UInt8) (p : Nat) (c : UInt8) (n : Nat) : Option Nat :=
  if c ∈ (buf.drop p).take n then some (p + (buf.drop p).idxOf c) else none

/-- The bytes at `p` are `s` and a NUL. -/
structure Spells (buf : List UInt8) (p : Nat) (s : List UInt8) : Prop where
  plain : 0 ∉ s
  bytes : ∃ rest, buf.drop p = s ++ 0 :: rest

variable {buf : List UInt8} {p : Nat} {s : List UInt8}

theorem Spells.str_eq (h : Spells buf p s) : str buf p = s := by
  obtain ⟨rest, hrest⟩ := h.bytes
  unfold str
  rw [hrest]
  refine takeWhile_append_stop (fun c hc => ?_) (by rintro c ⟨⟩; rfl)
  simp only [ne_eq, decide_eq_true_eq]
  rintro rfl
  exact h.plain hc

theorem Spells.length_lt (h : Spells buf p s) : p + s.length < buf.length := by
  obtain ⟨rest, hrest⟩ := h.bytes
  have := congrArg List.length hrest
  rw [List.length_drop, List.length_append, List.length_cons] at this
  omega

theorem Spells.strlen_eq (h : Spells buf p s) : strlen buf p = some s.length := by
  obtain ⟨rest, hrest⟩ := h.bytes
  have hmem : (0 : UInt8) ∈ buf.drop p := by rw [hrest]; simp
  unfold strlen
  rw [if_pos hmem, h.str_eq]

/-- Bytes with a NUL put behind them spell what is in front of their first one. -/
theorem spells_cstr (s : List UInt8) : Spells (s ++ [0]) 0 (cstr s) := by
  have hsplit : cstr s ++ s.dropWhile (· ≠ 0) = s := List.takeWhile_append_dropWhile
  refine ⟨not_mem_cstr s, ?_⟩
  cases hrest : s.dropWhile (· ≠ 0) with
  | nil =>
      rw [hrest, List.append_nil] at hsplit
      exact ⟨[], by rw [List.drop_zero, hsplit]⟩
  | cons c t =>
      have hc : c = 0 := by
        have hhead := List.head?_dropWhile_not (· ≠ (0 : UInt8)) s
        rw [hrest] at hhead
        simpa using hhead
      subst hc
      refine ⟨t ++ [0], ?_⟩
      rw [hrest] at hsplit
      rw [List.drop_zero, ← List.cons_append, ← List.append_assoc, hsplit]

/-- Behind a pointer that is moved inside the string is the rest of it. -/
theorem Spells.shift {a : List UInt8} (h : Spells buf p (a ++ s)) :
    Spells buf (p + a.length) s := by
  obtain ⟨rest, hrest⟩ := h.bytes
  refine ⟨fun h0 => h.plain (List.mem_append_right a h0), rest, ?_⟩
  rw [← List.drop_drop, hrest, List.append_assoc, List.drop_left]

/-- Behind a byte of a string the rest of it is spelt. -/
theorem Spells.skip {a : List UInt8} {c : UInt8} (h : Spells buf p (a ++ c :: s)) :
    Spells buf (p + a.length + 1) s := by
  have hshift : Spells buf (p + (a ++ [c]).length) s := Spells.shift (by simpa using h)
  rwa [List.length_append, List.length_singleton, ← Nat.add_assoc] at hshift

/-- A search that fails, -/
theorem Spells.strchr_none (h : Spells buf p s) {c : UInt8} (hc : c ∉ s) :
    strchr buf p c = none := by
  unfold strchr
  rw [h.str_eq, if_neg hc]

/-- and one that stops at the first place there is. -/
theorem Spells.strchr_some {a b : List UInt8} {c : UInt8} (h : Spells buf p (a ++ c :: b))
    (hc : c ∉ a) : strchr buf p c = some (p + a.length) := by
  unfold strchr
  rw [h.str_eq, if_pos (by simp), List.idxOf_append_of_notMem hc, List.idxOf_cons_self,
    Nat.add_zero]

/-- The first bytes of a string. -/
theorem Spells.take {a : List UInt8} (h : Spells buf p (a ++ s)) :
    (buf.drop p).take a.length = a := by
  obtain ⟨rest, hrest⟩ := h.bytes
  rw [hrest, List.append_assoc, List.take_left]

/-- A search that is bounded fails there, -/
theorem Spells.memchr_none {a : List UInt8} {c : UInt8} (h : Spells buf p (a ++ s))
    (hc : c ∉ a) : memchr buf p c a.length = none := by
  unfold memchr
  rw [h.take, if_neg hc]

/-- and it stops where the other does. -/
theorem Spells.memchr_some {a b : List UInt8} {c : UInt8} (h : Spells buf p (a ++ c :: b))
    (hc : c ∉ a) {n : Nat} (hn : a.length < n) : memchr buf p c n = some (p + a.length) := by
  obtain ⟨rest, hrest⟩ := h.bytes
  obtain ⟨m, hm⟩ : ∃ m, n - a.length = m + 1 := ⟨n - a.length - 1, by omega⟩
  have hmem : c ∈ (a ++ c :: (b ++ 0 :: rest)).take n := by
    rw [List.take_append, hm, List.take_succ_cons]
    simp
  unfold memchr
  rw [hrest, List.append_assoc, List.cons_append, if_pos hmem, List.idxOf_append_of_notMem hc,
    List.idxOf_cons_self, Nat.add_zero]

/-- A byte that is written before a string leaves it. -/
theorem Spells.set_before (h : Spells buf p s) {k : Nat} (hk : k < p) (v : UInt8) :
    Spells (buf.set k v) p s := by
  obtain ⟨rest, hrest⟩ := h.bytes
  refine ⟨h.plain, rest, ?_⟩
  rw [List.drop_set_of_lt hk, hrest]

/-- A cut leaves the string before it, -/
theorem Spells.cut {a b : List UInt8} {c : UInt8} (h : Spells buf p (a ++ c :: b)) :
    Spells (buf.set (p + a.length) 0) p a := by
  obtain ⟨rest, hrest⟩ := h.bytes
  refine ⟨fun h0 => h.plain (List.mem_append_left _ h0), b ++ 0 :: rest, ?_⟩
  rw [List.drop_set, if_neg (by omega), hrest, Nat.add_sub_cancel_left, List.append_assoc,
    List.set_append_right _ _ (Nat.le_refl _), Nat.sub_self]
  rfl

/-- and the string behind it. -/
theorem Spells.cut_rest {a b : List UInt8} {c : UInt8} (h : Spells buf p (a ++ c :: b)) :
    Spells (buf.set (p + a.length) 0) (p + a.length + 1) b := by
  have hb : Spells buf (p + (a ++ [c]).length) b := by
    refine Spells.shift ?_
    rwa [List.append_assoc, List.singleton_append]
  rw [List.length_append, List.length_singleton, ← Nat.add_assoc] at hb
  exact hb.set_before (Nat.lt_succ_self _) 0

/-! ### Buffers that are only cut -/

/-- Nothing but bytes from `lo` to before `hi` is different, and those are NUL now. -/
def Cuts (lo hi : Nat) (buf buf' : List UInt8) : Prop :=
  ∀ k, buf'[k]? = buf[k]? ∨ lo ≤ k ∧ k < hi ∧ buf'[k]? = some 0

namespace Cuts

variable {lo hi lo' hi' : Nat} {buf' buf'' : List UInt8}

theorem refl (lo hi : Nat) (buf : List UInt8) : Cuts lo hi buf buf := fun _ => Or.inl rfl

theorem set {k : Nat} (hlo : lo ≤ k) (hhi : k < hi) (hk : k < buf.length) :
    Cuts lo hi buf (buf.set k 0) := by
  intro j
  by_cases hj : k = j
  · subst hj
    exact Or.inr ⟨hlo, hhi, List.getElem?_set_self hk⟩
  · exact Or.inl (List.getElem?_set_ne hj)

theorem mono (h : Cuts lo hi buf buf') (hlo : lo' ≤ lo) (hhi : hi ≤ hi') :
    Cuts lo' hi' buf buf' := fun k =>
  (h k).imp_right fun ⟨h1, h2, h3⟩ => ⟨by omega, by omega, h3⟩

theorem trans (h : Cuts lo hi buf buf') (h' : Cuts lo hi buf' buf'') : Cuts lo hi buf buf'' := by
  intro k
  rcases h' k with hk' | hk'
  · rw [hk']
    exact h k
  · exact Or.inr hk'

/-- A string outside is still there. -/
theorem spells (h : Cuts lo hi buf buf') {p : Nat} {s : List UInt8} (hs : Spells buf p s)
    (hp : hi ≤ p) : Spells buf' p s := by
  obtain ⟨rest, hrest⟩ := hs.bytes
  refine ⟨hs.plain, rest, hrest ▸ List.ext_getElem? fun k => ?_⟩
  rw [List.getElem?_drop, List.getElem?_drop]
  rcases h (p + k) with hk | ⟨-, hk, -⟩
  · exact hk
  · omega

/-- A byte that is not there does not come back. -/
theorem ne (h : Cuts lo hi buf buf') {k : Nat} {c : UInt8} (hc : c ≠ 0)
    (hk : buf[k]? ≠ some c) : buf'[k]? ≠ some c := by
  rcases h k with hsame | ⟨-, -, hzero⟩
  · rwa [hsame]
  · rw [hzero]
    exact fun he => hc (Option.some.inj he).symm

end Cuts

/-- The bytes of a string in the buffer. -/
theorem Spells.getElem? (h : Spells buf p s) {k : Nat} (hk : k < s.length) :
    buf[p + k]? = s[k]? := by
  obtain ⟨rest, hrest⟩ := h.bytes
  rw [← List.getElem?_drop, hrest, List.getElem?_append_left hk]

/-- The byte a pointer is on, -/
theorem Spells.head {c : UInt8} (h : Spells buf p (c :: s)) : buf[p]? = some c ∧ c ≠ 0 := by
  refine ⟨h.getElem? (k := 0) (Nat.succ_pos _), ?_⟩
  rintro rfl
  exact h.plain List.mem_cons_self

/-- and what the next pointer spells. -/
theorem Spells.tail {c : UInt8} (h : Spells buf p (c :: s)) : Spells buf (p + 1) s :=
  Spells.skip (a := []) h

/-- The NUL behind it. -/
theorem Spells.getElem?_end (h : Spells buf p s) : buf[p + s.length]? = some 0 := by
  obtain ⟨rest, hrest⟩ := h.bytes
  rw [← List.getElem?_drop, hrest, List.getElem?_append_right (Nat.le_refl _), Nat.sub_self]
  rfl

end CString
