/-
The block decision in memory: `is_blocked` of `main/dns_sinkhole.c` over its pointers.

`isBlocked` takes a name as the list of its bytes.  The code has a pointer to it: it walks to
the NUL once to count the labels, and then moves the pointer behind one dot after another,
with the count as the only thing that stops it before `strchr` finds none.  A read past the
buffer, and a NULL from `strchr`, are errors here.  The two agree on every string that a NUL
ends, whatever its labels are, and so the loop tries exactly the suffixes that
`mem_lookups` names.
-/
import EspHole.Lib.CString
import EspHole.Sinkhole.Lookup
import Mathlib.Data.Set.Defs

namespace EspHole.Sinkhole

open Ascii CString Dotted

/-- The loop that counts the labels, with `q` on the byte it looks at.  An `int` holds the
count: no object of the target has `2 ^ 31` bytes. -/
def countLabels (buf : Bytes) (q labels : Nat) : Option Nat :=
  if h : q < buf.length then
    let c := buf.get ⟨q, h⟩
    if c = 0 then some labels
    else countLabels buf (q + 1) (if c = dot then labels + 1 else labels)
  else none
termination_by buf.length - q

/-- `domain_hash(p, strlen(p))` -/
def hashAt (buf : Bytes) (p : Nat) : Option UInt64 := do
  let len ← strlen buf p
  return domainHash ((buf.drop p).take len)

section Loop

variable {m : Type → Type} [Monad m] [MonadExcept Unit m]

/-- The rest of `is_blocked`, from its `for (;;)` on. -/
def leftDropAt (contains : UInt64 → m Bool) (buf : Bytes) : Nat → Nat → m Bool
  | labels, p =>
      match hashAt buf p with
      | none => throw ()
      | some h => do
          if ← contains h then return true
          match labels with
          | rest + 3 =>
              match strchr buf p dot with
              | some q => leftDropAt contains buf (rest + 2) (q + 1)
              | none => throw ()
          | _ => return false

/-- `is_blocked`, with `name` as a pointer. -/
def isBlockedAt (contains : UInt64 → m Bool) (buf : Bytes) (name : Nat) : m Bool :=
  match buf[name]? with
  | none => throw ()
  | some c =>
      if c = 0 then pure false
      else
        match countLabels buf name 1 with
        | none => throw ()
        | some labels => leftDropAt contains buf labels name

end Loop

/-! ### What the pointers point to -/

variable {buf : Bytes} {p : Nat} {s : Bytes}

/-- The count ends at the NUL, with one more for each dot. -/
theorem countLabels_eq :
    ∀ {s : Bytes} {p labels : Nat}, Spells buf p s →
      countLabels buf p labels = some (labels + s.count dot) := by
  intro s
  induction s with
  | nil =>
      intro p labels h
      have hnul : buf[p]? = some 0 := h.getElem?_end
      obtain ⟨hp, hget⟩ := List.getElem?_eq_some_iff.mp hnul
      rw [countLabels, dif_pos hp]
      simp only [List.get_eq_getElem, hget, if_true, List.count_nil, Nat.add_zero]
  | cons c s ih =>
      intro p labels h
      obtain ⟨hbyte, hc⟩ := h.head
      obtain ⟨hp, hget⟩ := List.getElem?_eq_some_iff.mp hbyte
      rw [countLabels, dif_pos hp]
      simp only [List.get_eq_getElem, hget, if_neg hc]
      rw [ih h.tail, List.count_cons]
      by_cases hdot : c = dot
      · simp [hdot]
        omega
      · simp [hdot]

theorem hashAt_eq (h : Spells buf p s) : hashAt buf p = some (domainHash s) := by
  have htake : (buf.drop p).take s.length = s := Spells.take (s := []) (by simpa using h)
  unfold hashAt
  rw [h.strlen_eq]
  simp only [Option.bind_eq_bind, Option.bind_some, htake]
  rfl

/-- `strchr` and the list agree on where the next label starts, -/
theorem strchr_dot_some {t : Bytes} (h : Spells buf p s) (ht : afterSep dot s = some t) :
    ∃ q, strchr buf p dot = some q ∧ Spells buf (q + 1) t := by
  obtain ⟨a, ha, rfl⟩ := afterSep_eq_some ht
  exact ⟨_, h.strchr_some ha, h.skip⟩

/-- and on whether there is one. -/
theorem strchr_dot_none (h : Spells buf p s) (hs : afterSep dot s = none) :
    strchr buf p dot = none :=
  h.strchr_none (afterSep_eq_none.mp hs)

/-! ### The loop over memory is the loop over the list -/

section Refine

variable {m : Type → Type} [Monad m] [MonadExcept Unit m]

theorem leftDropAt_eq (contains : UInt64 → m Bool) :
    ∀ (labels p : Nat) (s : Bytes), Spells buf p s →
      leftDropAt contains buf labels p = leftDrop contains labels s := by
  intro labels
  induction labels with
  | zero =>
      intro p s h
      rw [leftDropAt, leftDrop, hashAt_eq h]
      all_goals omega
  | succ n ih =>
      intro p s h
      rcases n with _ | _ | rest
      · rw [leftDropAt, leftDrop, hashAt_eq h]
        all_goals omega
      · rw [leftDropAt, leftDrop, hashAt_eq h]
        all_goals omega
      · rw [leftDropAt, leftDrop, hashAt_eq h]
        rcases ht : afterSep dot s with _ | t
        · rw [strchr_dot_none h ht]
        · obtain ⟨q, hq, hsp⟩ := strchr_dot_some h ht
          simp only [hq, ih (q + 1) t hsp]

/-- **`is_blocked` over memory** decides what `isBlocked` decides of the string. -/
theorem isBlockedAt_eq (contains : UInt64 → m Bool) (h : Spells buf p s) :
    isBlockedAt contains buf p = isBlocked contains s := by
  have hcstr : cstr s = s := cstr_eq_self h.plain
  unfold isBlockedAt isBlocked
  simp only [hcstr]
  cases s with
  | nil =>
      have hnul : buf[p]? = some 0 := h.getElem?_end
      rw [hnul]
      rfl
  | cons c s =>
      obtain ⟨hbyte, hc⟩ := h.head
      rw [hbyte, countLabels_eq h, if_neg (List.cons_ne_nil c s)]
      simp only [if_neg hc]
      rw [leftDropAt_eq contains _ _ _ h, Nat.add_comm]

end Refine

/-- **The loop on any string**: it reads no byte behind the NUL, `strchr` finds a dot each
time it is called, and the answer says whether the string is there and it, or what follows
one of its dots and has another, is in the list. -/
theorem isBlockedAt_iff (L : Set UInt64) [DecidablePred (· ∈ L)] {name : Bytes}
    (h : Spells buf p name) :
    ∃ r, isBlockedAt (fun x => some (decide (x ∈ L))) buf p = some r ∧
      (r = true ↔ name ≠ [] ∧ (domainHash name ∈ L ∨
        ∃ a d, name = a ++ dot :: d ∧ dot ∈ d ∧ domainHash d ∈ L)) := by
  have hlisted : ∀ x, (fun x => some (decide (x ∈ L))) x = some (decide (x ∈ L)) := fun _ => rfl
  obtain ⟨r, hr, hiff⟩ := isBlocked_iff hlisted name
  refine ⟨r, by rw [isBlockedAt_eq _ h, hr], ?_⟩
  rw [cstr_eq_self h.plain] at hiff
  rw [hiff]
  refine and_congr_right fun _ => ?_
  constructor
  · rintro ⟨d, hd, hdot, hl⟩
    by_cases hall : d = name
    · exact Or.inl (hall ▸ hl)
    · obtain ⟨a, ha⟩ := hd.resolve_left hall
      exact Or.inr ⟨a, d, ha.symm, hdot.resolve_left hall, hl⟩
  · rintro (hl | ⟨a, d, rfl, hdot, hl⟩)
    · exact ⟨name, AtBoundary.refl _, Or.inl rfl, hl⟩
    · exact ⟨d, Or.inr ⟨a, rfl⟩, Or.inr hdot, hl⟩

/-- A name with an empty label, and what follows its first dot in the list. -/
theorem isBlockedAt_iff_emptyLabel :
    ∃ r, isBlockedAt (fun x => some (decide (x ∈ ({domainHash (ascii ".b.c")} : Set UInt64))))
        (ascii "a..b.c" ++ [0]) 0 = some r ∧
      (r = true ↔ ascii "a..b.c" ≠ [] ∧
        (domainHash (ascii "a..b.c") ∈ ({domainHash (ascii ".b.c")} : Set UInt64) ∨
          ∃ a d, ascii "a..b.c" = a ++ dot :: d ∧ dot ∈ d ∧
            domainHash d ∈ ({domainHash (ascii ".b.c")} : Set UInt64))) :=
  isBlockedAt_iff {domainHash (ascii ".b.c")} ⟨by decide, [], rfl⟩

end EspHole.Sinkhole
