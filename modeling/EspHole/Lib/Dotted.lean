/-
Strings cut into labels by a separator, and their suffixes at a label boundary.

A name such as `ads.example.com` covers its parents `example.com` and `com`: the
suffixes that start right after a separator.  `AtBoundary` is that relation on strings,
`afterSep` is the step a program takes through it — everything after the first
separator — and the lemmas say that repeating the step meets every boundary once.
Joining labels and splitting at a separator is `List.intercalate` and `List.splitOn`.
-/
import Mathlib.Data.List.Basic
import Mathlib.Data.List.Infix

namespace Dotted

variable {α : Type} {sep : α}

/-- `d` is all of `s`, or what follows one of its separators. -/
def AtBoundary (sep : α) (d s : List α) : Prop := d = s ∨ (sep :: d) <:+ s

theorem AtBoundary.refl (s : List α) : AtBoundary sep s s := Or.inl rfl

/-- A boundary of the tail is one of the whole. -/
theorem AtBoundary.of_append {d t : List α} (h : AtBoundary sep d t) (p : List α) :
    AtBoundary sep d (p ++ sep :: t) := by
  rcases h with rfl | hsuf
  · exact Or.inr ⟨p, rfl⟩
  · exact Or.inr (hsuf.trans ⟨p ++ [sep], by simp⟩)

theorem AtBoundary.length_le {d s : List α} (h : AtBoundary sep d s) : d.length ≤ s.length := by
  rcases h with rfl | hsuf
  · exact Nat.le_refl _
  · have := hsuf.length_le
    simp at this
    omega

/-- Nothing is left to drop in a string without separators. -/
theorem atBoundary_of_not_mem {d s : List α} (h : sep ∉ s) : AtBoundary sep d s ↔ d = s := by
  refine ⟨?_, Or.inl⟩
  rintro (rfl | hsuf)
  · rfl
  · exact absurd (hsuf.subset (by simp)) h

theorem suffix_append_of_not_mem {d p t : List α} (hp : sep ∉ p)
    (h : (sep :: d) <:+ p ++ t) : (sep :: d) <:+ t := by
  induction p with
  | nil => exact h
  | cons c p ih =>
      rcases List.suffix_cons_iff.mp h with heq | hin
      · exact absurd (List.cons.inj heq).1 fun he => hp (by simp [he])
      · exact ih (fun hmem => hp (by simp [hmem])) hin

/-- One label in front: the boundaries are the whole string and those of the rest. -/
theorem atBoundary_append {d p t : List α} (hp : sep ∉ p) :
    AtBoundary sep d (p ++ sep :: t) ↔ d = p ++ sep :: t ∨ AtBoundary sep d t := by
  constructor
  · rintro (rfl | hsuf)
    · exact Or.inl rfl
    · right
      rcases List.suffix_cons_iff.mp (suffix_append_of_not_mem hp hsuf) with heq | hin
      · exact Or.inl (List.cons.inj heq).2
      · exact Or.inr hin
  · rintro (rfl | h)
    · exact AtBoundary.refl _
    · exact h.of_append p

/-- **The boundaries of joined labels** are the joins of what is left after dropping some
from the left, as long as no label holds a separator. -/
theorem atBoundary_intercalate {d : List α} (ls : List (List α)) :
    ls ≠ [] → (∀ l ∈ ls, sep ∉ l) →
      (AtBoundary sep d ([sep].intercalate ls) ↔
        ∃ k < ls.length, d = [sep].intercalate (ls.drop k)) := by
  induction ls with
  | nil => intro h _; exact absurd rfl h
  | cons l rest ih =>
      intro _ hsep
      have hl : sep ∉ l := hsep l (by simp)
      by_cases hr : rest = []
      · subst hr
        rw [List.intercalate_singleton, atBoundary_of_not_mem hl]
        constructor
        · rintro rfl
          exact ⟨0, by simp, by simp⟩
        · rintro ⟨k, hk, rfl⟩
          obtain rfl : k = 0 := by simp at hk; omega
          simp
      · rw [List.intercalate_cons_of_ne_nil hr, List.append_assoc, List.singleton_append,
          atBoundary_append hl, ih hr fun l' hl' => hsep l' (by simp [hl'])]
        constructor
        · rintro (rfl | ⟨k, hk, rfl⟩)
          · exact ⟨0, by simp, by simp [List.intercalate_cons_of_ne_nil hr]⟩
          · exact ⟨k + 1, by simpa using hk, by simp⟩
        · rintro ⟨k, hk, rfl⟩
          cases k with
          | zero => exact Or.inl (by simp [List.intercalate_cons_of_ne_nil hr])
          | succ k => exact Or.inr ⟨k, by simpa using hk, by simp⟩

variable [DecidableEq α]

/-- What follows the first separator, if there is one. -/
def afterSep (sep : α) : List α → Option (List α)
  | [] => none
  | c :: t => if c = sep then some t else afterSep sep t

theorem afterSep_eq_none {s : List α} : afterSep sep s = none ↔ sep ∉ s := by
  induction s with
  | nil => simp [afterSep]
  | cons c t ih =>
      unfold afterSep
      by_cases hc : c = sep
      · simp [hc]
      · rw [if_neg hc, ih, List.mem_cons]
        tauto

theorem afterSep_eq_some {s t : List α} (h : afterSep sep s = some t) :
    ∃ p, sep ∉ p ∧ s = p ++ sep :: t := by
  induction s with
  | nil => simp [afterSep] at h
  | cons c r ih =>
      unfold afterSep at h
      by_cases hc : c = sep
      · rw [if_pos hc] at h
        obtain rfl := Option.some.inj h
        exact ⟨[], by simp, by rw [hc]; rfl⟩
      · rw [if_neg hc] at h
        obtain ⟨p, hp, rfl⟩ := ih h
        refine ⟨c :: p, ?_, rfl⟩
        intro hmem
        rcases List.mem_cons.mp hmem with heq | hmem
        · exact hc heq.symm
        · exact hp hmem

/-- **Dropping one label** leaves every other boundary. -/
theorem atBoundary_afterSep {d s t : List α} (h : afterSep sep s = some t) :
    AtBoundary sep d s ↔ d = s ∨ AtBoundary sep d t := by
  obtain ⟨p, hp, rfl⟩ := afterSep_eq_some h
  exact atBoundary_append hp

theorem count_afterSep {s t : List α} (h : afterSep sep s = some t) :
    s.count sep = t.count sep + 1 := by
  obtain ⟨p, hp, rfl⟩ := afterSep_eq_some h
  simp [List.count_eq_zero_of_not_mem hp]

end Dotted
