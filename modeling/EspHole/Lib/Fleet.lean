/-
Several machines beside one another, and what they share.

Each member runs its own program over its own state, and starts its job again whenever it
is idle.  What they share moves on its own, and what a member's call may answer depends on
where it stands.  A run is any interleaving of single calls and single moves.

A member's triple is not about one shared state but about all that the member may meet on
its way, which is what `within` collects.  `reach_good` is the induction over
interleavings; the shared states it speaks of are those from which the one at the end of the
run can still be reached.
-/
import Mathlib.Logic.Function.Basic
import EspHole.Lib.Prog

/-- What every member does, how its calls may answer, and how what is shared may move. -/
structure Fleet (Op : Type) (Res : Op → Type) (S E : Type) where
  job : Prog Op Res Unit
  step : E → Prog.StepRel Op Res S
  env : E → E → Prop

namespace Fleet

variable {Op : Type} {Res : Op → Type} {S E ι : Type}

/-- Where a member stands: its state, and what is left of its program. -/
structure Member (Op : Type) (Res : Op → Type) (S : Type) where
  state : S
  prog : Prog Op Res Unit

/-- Where all of them stand. -/
structure Config (Op : Type) (Res : Op → Type) (S E ι : Type) where
  shared : E
  member : ι → Member Op Res S

/-- The member is about to make this call. -/
def Config.Calls (c : Config Op Res S E ι) (i : ι) (o : Op) : Prop :=
  ∃ k, (c.member i).prog = .op o k

variable [DecidableEq ι]

/-- One member moved. -/
def Config.set (c : Config Op Res S E ι) (i : ι) (x : Member Op Res S) : Config Op Res S E ι :=
  { c with member := Function.update c.member i x }

@[simp] theorem Config.set_shared (c : Config Op Res S E ι) (i : ι) (x : Member Op Res S) :
    (c.set i x).shared = c.shared := rfl

@[simp] theorem Config.set_member_same (c : Config Op Res S E ι) (i : ι) (x : Member Op Res S) :
    (c.set i x).member i = x := by
  simp [Config.set]

theorem Config.set_member_of_ne (c : Config Op Res S E ι) {i j : ι} (x : Member Op Res S)
    (h : j ≠ i) : (c.set i x).member j = c.member j := by
  simp [Config.set, h]

@[simp] theorem Config.set_set (c : Config Op Res S E ι) (i : ι) (x y : Member Op Res S) :
    (c.set i x).set i y = c.set i y := by
  simp [Config.set]

/-- One step of the fleet. -/
inductive Step (f : Fleet Op Res S E) : Config Op Res S E ι → Config Op Res S E ι → Prop
  | env {c : Config Op Res S E ι} {e : E} (h : f.env c.shared e) :
      Step f c { c with shared := e }
  | call {c : Config Op Res S E ι} {i : ι} {o : Op} {k : Res o → Prog Op Res Unit} {r : Res o}
      {s : S} (hp : (c.member i).prog = .op o k) (h : f.step c.shared (c.member i).state o r s) :
      Step f c (c.set i ⟨s, k r⟩)
  | next {c : Config Op Res S E ι} {i : ι} (hp : (c.member i).prog = .pure ()) :
      Step f c (c.set i ⟨(c.member i).state, f.job⟩)

/-- Any number of steps. -/
abbrev Reach (f : Fleet Op Res S E) : Config Op Res S E ι → Config Op Res S E ι → Prop :=
  Relation.ReflTransGen (Step f)

/-- What a member is after a step: where it was, unless the step was a call of its own. -/
theorem step_member {f : Fleet Op Res S E} {c c' : Config Op Res S E ι} (hs : Step f c c') (i : ι) :
    (c'.member i).state = (c.member i).state ∨
      ∃ o r, c.Calls i o ∧ f.step c.shared (c.member i).state o r (c'.member i).state := by
  cases hs with
  | env _ => exact Or.inl rfl
  | @call j o k r s hp h =>
      by_cases hij : i = j
      · subst hij
        rw [Config.set_member_same]
        exact Or.inr ⟨o, r, ⟨k, hp⟩, h⟩
      · exact Or.inl (by rw [Config.set_member_of_ne _ _ hij])
  | @next j hp =>
      by_cases hij : i = j
      · subst hij
        exact Or.inl (by rw [Config.set_member_same])
      · exact Or.inl (by rw [Config.set_member_of_ne _ _ hij])

/-- What every move of the shared state keeps holds of it all along. -/
theorem reach_shared {f : Fleet Op Res S E} {A : E → Prop}
    (hA : ∀ e e', A e → f.env e e' → A e') {c c' : Config Op Res S E ι} (ha : A c.shared)
    (hr : Reach f c c') : A c'.shared := by
  induction hr with
  | refl => exact ha
  | tail _ hs ih =>
      cases hs with
      | env h => exact hA _ _ ih h
      | call _ _ => exact ih
      | next _ => exact ih

section Good

variable {within : Prog.StepRel Op Res S} {G : S → Op → Prop} {J : S → Prop}

/-- What is left of every member's program is safe. -/
def Config.Good (within : Prog.StepRel Op Res S) (G : S → Op → Prop) (J : S → Prop)
    (c : Config Op Res S E ι) : Prop :=
  ∀ i, (c.member i).prog.Safe within G (fun _ => J) (c.member i).state

omit [DecidableEq ι] in
/-- The guard holds of every call that is about to be made. -/
theorem Config.Good.calls {c : Config Op Res S E ι} (h : c.Good within G J) {i : ι} {o : Op}
    (hc : c.Calls i o) : G (c.member i).state o := by
  obtain ⟨k, hk⟩ := hc
  have hi := h i
  rw [hk] at hi
  exact hi.1

/-- A member that moved safely leaves the others as they were. -/
theorem Config.Good.set {c : Config Op Res S E ι} (h : c.Good within G J) {i : ι}
    {x : Member Op Res S} (hx : x.prog.Safe within G (fun _ => J) x.state) :
    (c.set i x).Good within G J := by
  intro j
  by_cases hj : j = i
  · subst hj
    rw [Config.set_member_same]
    exact hx
  · rw [Config.set_member_of_ne c x hj]
    exact h j

/-- One step keeps a configuration good. -/
theorem step_good {f : Fleet Op Res S E} {c c' : Config Op Res S E ι}
    (hwithin : ∀ s o r s', f.step c.shared s o r s' → within s o r s')
    (hjob : ∀ s, J s → f.job.Safe within G (fun _ => J) s) (hc : c.Good within G J)
    (hs : Step f c c') : c'.Good within G J := by
  cases hs with
  | env _ => exact hc
  | @call i o k r s hp h =>
      have hi := hc i
      rw [hp] at hi
      exact hc.set (hi.2 _ _ (hwithin _ _ _ _ h))
  | @next i hp =>
      have hi := hc i
      rw [hp] at hi
      exact hc.set (hjob _ hi)

/-- **Every configuration of an interleaving is good**, as long as what is shared stays among
the states that `within` was made for. -/
theorem reach_good {f : Fleet Op Res S E} {A : E → Prop}
    (hback : ∀ e e', f.env e e' → A e' → A e)
    (hwithin : ∀ e, A e → ∀ s o r s', f.step e s o r s' → within s o r s')
    (hjob : ∀ s, J s → f.job.Safe within G (fun _ => J) s) {c c' : Config Op Res S E ι}
    (hc : c.Good within G J) (hr : Reach f c c') (ha : A c'.shared) : c'.Good within G J := by
  induction hr with
  | refl => exact hc
  | @tail b _ _ hs ih =>
      have hbefore : A b.shared := by
        cases hs with
        | env h => exact hback _ _ h ha
        | call _ _ => exact ha
        | next _ => exact ha
      exact step_good (hwithin _ hbefore) hjob (ih hbefore) hs

end Good

/-- A run of one member's program against a handler, while what is shared stays put. -/
theorem reach_of_run {f : Fleet Op Res S E} {α : Type} {c : Config Op Res S E ι} {i : ι}
    {h : (o : Op) → S → Option (Res o × S)} {within : Prog.StepRel Op Res S} {G : S → Op → Prop}
    {Q : α → S → Prop}
    (hh : ∀ s o r s', G s o → h o s = some (r, s') → f.step c.shared s o r s' ∧ within s o r s')
    {p : Prog Op Res α} : ∀ {s s' : S} {a : α} {k : α → Prog Op Res Unit},
      p.Safe within G Q s → Prog.run h p s = some (a, s') →
        Q a s' ∧ Reach f (c.set i ⟨s, p >>= k⟩) (c.set i ⟨s', k a⟩) := by
  induction p with
  | pure b =>
      intro s s' a k hsafe hrun
      obtain ⟨rfl, rfl⟩ := Prod.mk.inj (Option.some.inj hrun)
      exact ⟨hsafe, .refl⟩
  | op o g ih =>
      intro s s' a k hsafe hrun
      obtain ⟨⟨r, s₁⟩, hcall, hrun⟩ := Option.bind_eq_some_iff.mp hrun
      obtain ⟨hstep, hwithin⟩ := hh s o r s₁ hsafe.1 hcall
      obtain ⟨hpost, hreach⟩ := ih (k := k) r (hsafe.2 r s₁ hwithin) hrun
      refine ⟨hpost, .head (b := c.set i ⟨s₁, g r >>= k⟩) ?_ hreach⟩
      have hfirst := Step.call (f := f) (c := c.set i ⟨s, .op o g >>= k⟩) (i := i) (r := r)
        (s := s₁) (k := fun r => g r >>= k) (by rw [Config.set_member_same]; rfl)
        (by rw [Config.set_member_same]; exact hstep)
      rwa [Config.set_set] at hfirst

end Fleet
