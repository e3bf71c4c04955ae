/-
The block decision: `domain_hash` and `is_blocked` of `main/dns_sinkhole.c`.

A name is blocked when it, or one of its parents, is listed.  The loop hashes the whole
name, then drops labels from the left until two are left.  It is written for any way of
asking about one hash, so that it can be run against a list that changes between two
questions; `isBlocked_eq_anyM` says that it asks about the entries of `asked`, in order,
until one is listed, and `mem_asked` says which strings these are.
-/
import EspHole.Basic
import EspHole.Lib.Ascii
import EspHole.Lib.Dotted
import EspHole.Pipeline.Hash

namespace EspHole.Sinkhole

open Ascii Dotted

/-- `domain_hash` of `dns_sinkhole.c`. -/
def domainHash (s : Bytes) : UInt64 :=
  s.foldl (fun h c => (h ^^^ c.toUInt64) * 0x100000001b3) 0xcbf29ce484222325

/-- The two copies of the hash agree. -/
theorem domainHash_eq (s : Bytes) : domainHash s = Pipeline.domainHash s := rfl

section Loop

variable {m : Type → Type} [Monad m] [MonadExcept Unit m]

/-- The loop of `is_blocked`, with `labels` and `p` as there.  It fails where `strchr`
would return NULL. -/
def leftDrop (contains : UInt64 → m Bool) : Nat → Bytes → m Bool
  | labels, p => do
      if ← contains (domainHash p) then return true
      match labels with
      | rest + 3 =>
          match afterSep dot p with
          | some p => leftDrop contains (rest + 2) p
          | none => throw ()
      | _ => return false

/-- `is_blocked`, asking `contains` about each hash. -/
def isBlocked (contains : UInt64 → m Bool) (name : Bytes) : m Bool :=
  let name := cstr name
  if name = [] then pure false else leftDrop contains (name.count dot + 1) name

end Loop

/-- The strings the loop hashes, in order. -/
def lookups : Nat → Bytes → List Bytes
  | labels, p => p :: match labels with
      | rest + 3 =>
          match afterSep dot p with
          | some p => lookups (rest + 2) p
          | none => []
      | _ => []

/-- Where `labels` counts the dots, the loop never runs past the last one: it is the
search of its lookups. -/
theorem leftDrop_eq_anyM {m : Type → Type} [Monad m] [LawfulMonad m] [MonadExcept Unit m]
    (contains : UInt64 → m Bool) :
    ∀ (labels : Nat) (p : Bytes), labels = p.count dot + 1 →
      leftDrop contains labels p =
        (lookups labels p).anyM fun d => contains (domainHash d) := by
  intro labels
  induction labels with
  | zero => intro p h; omega
  | succ n ih =>
      intro p h
      match n, ih, h with
      | 0, _, _ =>
          show (contains (domainHash p) >>= _) = (contains (domainHash p) >>= _)
          exact bind_congr fun b => by cases b <;> rfl
      | 1, _, _ =>
          show (contains (domainHash p) >>= _) = (contains (domainHash p) >>= _)
          exact bind_congr fun b => by cases b <;> rfl
      | rest + 2, ih, h =>
          have hdot : dot ∈ p := List.count_pos_iff.mp (by omega)
          obtain ⟨t, ht⟩ : ∃ t, afterSep dot p = some t := by
            rcases hp : afterSep dot p with _ | t
            · exact absurd hdot (afterSep_eq_none.mp hp)
            · exact ⟨t, rfl⟩
          have hcount := count_afterSep ht
          rw [leftDrop, lookups, List.anyM]
          simp only [ht]
          refine bind_congr fun b => ?_
          cases b with
          | true => rfl
          | false => simpa using ih t (by omega)

/-- The suffixes `is_blocked` looks up, until one is listed. -/
def asked (name : Bytes) : List Bytes :=
  if cstr name = [] then [] else lookups ((cstr name).count dot + 1) (cstr name)

theorem isBlocked_eq_anyM {m : Type → Type} [Monad m] [LawfulMonad m] [MonadExcept Unit m]
    (contains : UInt64 → m Bool) (name : Bytes) :
    isBlocked contains name = (asked name).anyM fun d => contains (domainHash d) := by
  unfold isBlocked asked
  simp only
  rw [leftDrop_eq_anyM contains _ _ rfl]
  by_cases hname : cstr name = []
  · rw [if_pos hname, if_pos hname]
    rfl
  · rw [if_neg hname, if_neg hname]

/-- **What the loop looks up**: the name itself, and every parent with a dot in it. -/
theorem mem_lookups :
    ∀ (labels : Nat) (p d : Bytes), labels = p.count dot + 1 →
      (d ∈ lookups labels p ↔ AtBoundary dot d p ∧ (d = p ∨ dot ∈ d)) := by
  intro labels
  induction labels with
  | zero => intro p d h; omega
  | succ n ih =>
      intro p d h
      -- With at most one dot, what follows it has none.
      have hshort : n ≤ 1 → (d ∈ lookups (n + 1) p ↔ d = p) := by
        intro hn
        match n, hn with
        | 0, _ => simp [lookups]
        | 1, _ => simp [lookups]
      have hfew : n ≤ 1 → AtBoundary dot d p → d = p ∨ dot ∉ d := by
        intro hn hb
        rcases hp : afterSep dot p with _ | t
        · exact Or.inl ((atBoundary_of_not_mem (afterSep_eq_none.mp hp)).mp hb)
        · rcases (atBoundary_afterSep hp).mp hb with rfl | hb
          · exact Or.inl rfl
          · have hcount := count_afterSep hp
            have ht : dot ∉ t := fun hm => by have := List.count_pos_iff.mpr hm; omega
            rw [(atBoundary_of_not_mem ht).mp hb]
            exact Or.inr ht
      by_cases hn : n ≤ 1
      · rw [hshort hn]
        constructor
        · rintro rfl
          exact ⟨AtBoundary.refl _, Or.inl rfl⟩
        · rintro ⟨hb, rfl | hdot⟩
          · rfl
          · exact (hfew hn hb).resolve_right (fun hno => hno hdot)
      · obtain ⟨rest, rfl⟩ : ∃ rest, n = rest + 2 := ⟨n - 2, by omega⟩
        have hdot : dot ∈ p := List.count_pos_iff.mp (by omega)
        rcases hp : afterSep dot p with _ | t
        · exact absurd hdot (afterSep_eq_none.mp hp)
        · have hcount := count_afterSep hp
          have ht : dot ∈ t := List.count_pos_iff.mp (by omega)
          rw [lookups]
          simp only [hp, List.mem_cons]
          rw [ih t d (by omega), atBoundary_afterSep hp]
          constructor
          · rintro (rfl | ⟨hb, rfl | hd⟩)
            · exact ⟨Or.inl rfl, Or.inl rfl⟩
            · exact ⟨Or.inr hb, Or.inr ht⟩
            · exact ⟨Or.inr hb, Or.inr hd⟩
          · rintro ⟨rfl | hb, hd⟩
            · exact Or.inl rfl
            · rcases hd with rfl | hd
              · exact Or.inl rfl
              · exact Or.inr ⟨hb, Or.inr hd⟩

theorem mem_asked {name d : Bytes} : d ∈ asked name ↔
    cstr name ≠ [] ∧ AtBoundary dot d (cstr name) ∧ (d = cstr name ∨ dot ∈ d) := by
  unfold asked
  by_cases h : cstr name = []
  · simp [h]
  · rw [if_neg h, mem_lookups _ _ _ rfl]
    exact (and_iff_right h).symm

/-- **The decision against one list.**  The loop answers, and says that the name or a
parent with a dot in it is listed. -/
theorem isBlocked_iff {contains : UInt64 → Option Bool} {listed : UInt64 → Prop}
    [DecidablePred listed] (h : ∀ x, contains x = some (decide (listed x))) (name : Bytes) :
    ∃ r, isBlocked contains name = some r ∧
      (r = true ↔ cstr name ≠ [] ∧ ∃ d, AtBoundary dot d (cstr name) ∧
        (d = cstr name ∨ dot ∈ d) ∧ listed (domainHash d)) := by
  rw [isBlocked_eq_anyM, anyM_some (p := fun d => decide (listed (domainHash d))) fun d _ => h _]
  refine ⟨_, rfl, ?_⟩
  rw [List.any_eq_true]
  simp only [decide_eq_true_eq]
  constructor
  · rintro ⟨d, hd, hl⟩
    obtain ⟨hname, hb, hdot⟩ := mem_asked.mp hd
    exact ⟨hname, d, hb, hdot, hl⟩
  · rintro ⟨hname, d, hb, hdot, hl⟩
    exact ⟨d, mem_asked.mpr ⟨hname, hb, hdot⟩, hl⟩

end EspHole.Sinkhole
