/-
Programs beside one another, over one state.

Every task runs a program, one call at a time, and takes up another when it is done.  A call
of one task may come between any two of another's.

What a task may rely on is a relation: what the others can have done to the state since it
looked last.  `Stable` is the triple that allows for it: between any two calls the state may
have moved so, and every call of the program moves it only as the others rely on.
`Tasks.reach_stable` is the induction over interleavings; a user supplies one triple for each
job, and that no task does what another does not allow for.
-/
import Mathlib.Logic.Function.Basic
import EspHole.Lib.Prog

namespace Prog

variable {Op : Type} {Res : Op → Type} {S α β : Type} {step : StepRel Op Res S}
  {rely gives : S → S → Prop} {G : S → Op → Prop}

/-- `G` holds of every call, although the others may have moved the state by `rely` before it;
the call moves it by `gives`; and `Q` holds of what is returned, and goes on holding. -/
def Stable (step : StepRel Op Res S) (rely gives : S → S → Prop) (G : S → Op → Prop)
    (Q : α → S → Prop) : Prog Op Res α → S → Prop
  | .pure a, s => ∀ s', rely s s' → Q a s'
  | .op o k, s => ∀ s₁, rely s s₁ → G s₁ o ∧
      ∀ r s₂, step s₁ o r s₂ → gives s₁ s₂ ∧ Stable step rely gives G Q (k r) s₂

theorem stable_call_bind {Q : α → S → Prop} {o : Op} {f : Res o → Prog Op Res α} {s : S} :
    Stable step rely gives G Q (call o >>= f) s ↔ ∀ s₁, rely s s₁ → G s₁ o ∧
      ∀ r s₂, step s₁ o r s₂ → gives s₁ s₂ ∧ Stable step rely gives G Q (f r) s₂ := Iff.rfl

/-- What is left of a program is as good after the others have moved. -/
theorem Stable.relied (htrans : ∀ s s' s'', rely s s' → rely s' s'' → rely s s'')
    {Q : α → S → Prop} {p : Prog Op Res α} {s s' : S} (h : p.Stable step rely gives G Q s)
    (hs : rely s s') : p.Stable step rely gives G Q s' := by
  cases p with
  | pure a => exact fun s'' hs' => h s'' (htrans _ _ _ hs hs')
  | op o k => exact fun s₁ hs₁ => h s₁ (htrans _ _ _ hs hs₁)

theorem Stable.mono {Q Q' : α → S → Prop} {p : Prog Op Res α} :
    ∀ {s : S}, p.Stable step rely gives G Q s → (∀ a s, Q a s → Q' a s) →
      p.Stable step rely gives G Q' s := by
  induction p with
  | pure a => intro s h hQ s' hs; exact hQ a s' (h s' hs)
  | op o k ih =>
      intro s h hQ s₁ hs₁
      obtain ⟨hguard, hnext⟩ := h s₁ hs₁
      exact ⟨hguard, fun r s₂ hs => ⟨(hnext r s₂ hs).1, ih r (hnext r s₂ hs).2 hQ⟩⟩

/-- One program after another. -/
theorem Stable.bind (hrefl : ∀ s, rely s s) {Q : α → S → Prop} {p : Prog Op Res β}
    {f : β → Prog Op Res α} : ∀ {s : S},
      p.Stable step rely gives G (fun b s => (f b).Stable step rely gives G Q s) s →
        (p >>= f).Stable step rely gives G Q s := by
  induction p with
  | pure b => intro s h; exact h s (hrefl s)
  | op o k ih =>
      intro s h s₁ hs₁
      obtain ⟨hguard, hnext⟩ := h s₁ hs₁
      exact ⟨hguard, fun r s₂ hs => ⟨(hnext r s₂ hs).1, ih r (hnext r s₂ hs).2⟩⟩

end Prog

/-- What each task's calls do, and the jobs it may take up. -/
structure Tasks (Op : Type) (Res : Op → Type) (S ι : Type) where
  step : ι → Prog.StepRel Op Res S
  job : ι → Prog Op Res Unit → Prop

namespace Tasks

variable {Op : Type} {Res : Op → Type} {S ι : Type}

/-- Where all of them stand. -/
structure Config (Op : Type) (Res : Op → Type) (S ι : Type) where
  state : S
  prog : ι → Prog Op Res Unit

/-- A task is about to make this call. -/
def Config.Calls (c : Config Op Res S ι) (i : ι) (o : Op) : Prop := ∃ k, c.prog i = .op o k

variable [DecidableEq ι]

/-- One call of one task, or a job taken up. -/
inductive Step (t : Tasks Op Res S ι) : Config Op Res S ι → Config Op Res S ι → Prop
  | call {c : Config Op Res S ι} {i : ι} {o : Op} {k : Res o → Prog Op Res Unit} {r : Res o}
      {s : S} (hp : c.prog i = .op o k) (h : t.step i c.state o r s) :
      Step t c ⟨s, Function.update c.prog i (k r)⟩
  | next {c : Config Op Res S ι} {i : ι} {p : Prog Op Res Unit} (hp : c.prog i = .pure ())
      (hj : t.job i p) : Step t c ⟨c.state, Function.update c.prog i p⟩

/-- Any number of these. -/
abbrev Reach (t : Tasks Op Res S ι) : Config Op Res S ι → Config Op Res S ι → Prop :=
  Relation.ReflTransGen (Step t)

variable {t : Tasks Op Res S ι} {rely gives : ι → S → S → Prop} {G : ι → S → Op → Prop}
  {J : ι → S → Prop}

/-- A task may go on alone, to its end -/
theorem reach_leads {i : ι} {p : Prog Op Res Unit} {s' : S} :
    ∀ {c : Config Op Res S ι}, Prog.Leads (t.step i) p c.state () s' → c.prog i = p →
      Reach t c ⟨s', Function.update c.prog i (pure ())⟩ := by
  induction p with
  | pure b =>
      rintro c ⟨calls, hx⟩ hp
      cases hx
      have hself : Function.update c.prog i (pure ()) = c.prog := by
        rw [show pure () = c.prog i from hp.symm, Function.update_eq_self]
      rw [hself]
  | op o k ih =>
      rintro c ⟨calls, hx⟩ hp
      cases hx with
      | @op _ _ r _ s₁ _ _ _ hs hk =>
          have hrest := ih r (c := ⟨s₁, Function.update c.prog i (k r)⟩) ⟨_, hk⟩
            (Function.update_self ..)
          rw [Function.update_idem] at hrest
          exact .head (.call hp hs) hrest

/-- or to some call of it. -/
theorem reach_gets {i : ι} {o : Op} {p : Prog Op Res Unit} {s s' : S}
    (h : Prog.Gets (t.step i) p s o s') : ∀ {c : Config Op Res S ι}, c.state = s → c.prog i = p →
      ∃ c', Reach t c c' ∧ c'.state = s' ∧ c'.Calls i o := by
  induction h with
  | here =>
      intro c hs hp
      exact ⟨c, .refl, hs, _, hp⟩
  | @there o o' k r s s₁ s' hs h ih =>
      rintro c rfl hp
      obtain ⟨c', hr, hdone⟩ := ih (c := ⟨s₁, Function.update c.prog i (k r)⟩) rfl
        (Function.update_self ..)
      exact ⟨c', .head (.call hp hs) hr, hdone⟩

/-- What is left of every task's program is stable. -/
def Config.Good (t : Tasks Op Res S ι) (rely gives : ι → S → S → Prop) (G : ι → S → Op → Prop)
    (J : ι → S → Prop) (c : Config Op Res S ι) : Prop :=
  ∀ i, (c.prog i).Stable (t.step i) (rely i) (gives i) (G i) (fun _ => J i) c.state

/-- What the tasks are to each other: relying is reflexive and transitive, no task does what
another does not allow for, and every job can be taken up by a task that is idle. -/
structure Agree (t : Tasks Op Res S ι) (rely gives : ι → S → S → Prop) (G : ι → S → Op → Prop)
    (J : ι → S → Prop) : Prop where
  refl : ∀ i s, rely i s s
  trans : ∀ i s s' s'', rely i s s' → rely i s' s'' → rely i s s''
  allows : ∀ i j s s', i ≠ j → gives i s s' → rely j s s'
  job : ∀ i p s, t.job i p → J i s → p.Stable (t.step i) (rely i) (gives i) (G i) (fun _ => J i) s

/-- One step keeps every task stable. -/
theorem step_stable (ha : Agree t rely gives G J) {c c' : Config Op Res S ι}
    (hc : c.Good t rely gives G J) (hs : Step t c c') : c'.Good t rely gives G J := by
  cases hs with
  | @call i o k r s hp h =>
      have hi := hc i
      rw [hp] at hi
      obtain ⟨hgives, hnext⟩ := (hi c.state (ha.refl i c.state)).2 r s h
      intro j
      show Prog.Stable _ _ _ _ _ (Function.update c.prog i (k r) j) s
      by_cases hj : j = i
      · subst hj
        rw [Function.update_self]
        exact hnext
      · rw [Function.update_of_ne hj]
        exact (hc j).relied (ha.trans j) (ha.allows i j _ _ (Ne.symm hj) hgives)
  | @next i p hp hj =>
      have hi := hc i
      rw [hp] at hi
      intro j
      show Prog.Stable _ _ _ _ _ (Function.update c.prog i p j) c.state
      by_cases hji : j = i
      · subst hji
        rw [Function.update_self]
        exact ha.job j p c.state hj (hi c.state (ha.refl j c.state))
      · rw [Function.update_of_ne hji]
        exact hc j

/-- **Every task stays stable**, in any interleaving. -/
theorem reach_stable (ha : Agree t rely gives G J) {c c' : Config Op Res S ι}
    (hc : c.Good t rely gives G J) (hr : Reach t c c') : c'.Good t rely gives G J := by
  induction hr with
  | refl => exact hc
  | tail _ hs ih => exact step_stable ha ih hs

omit [DecidableEq ι] in
/-- So the guard holds of every call that is about to be made. -/
theorem Config.Good.calls (ha : Agree t rely gives G J) {c : Config Op Res S ι}
    (hc : c.Good t rely gives G J) {i : ι} {o : Op} (h : c.Calls i o) : G i c.state o := by
  obtain ⟨k, hk⟩ := h
  have hi := hc i
  rw [hk] at hi
  exact (hi c.state (ha.refl i c.state)).1

/-- What every call keeps where its guard holds is kept in any interleaving. -/
theorem reach_invariant (ha : Agree t rely gives G J) {A : S → Prop}
    (hstep : ∀ i s o r s', A s → G i s o → t.step i s o r s' → A s') {c c' : Config Op Res S ι}
    (hc : c.Good t rely gives G J) (hs : A c.state) (hr : Reach t c c') : A c'.state := by
  induction hr with
  | refl => exact hs
  | tail hr hs ih =>
      cases hs with
      | call hp h => exact hstep _ _ _ _ _ ih ((reach_stable ha hc hr).calls ha ⟨_, hp⟩) h
      | next _ _ => exact ih

end Tasks
