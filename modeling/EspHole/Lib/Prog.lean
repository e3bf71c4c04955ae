/-
Programs that call a device, and what holds while they run.

A `Prog` is a tree: it either returns a value or makes one call and goes on with
the answer.  What a call does to the state is not part of the tree.  Two readings
are given.  `run` takes a handler, a function that answers every call, and computes
the outcome; this is the reading a fixed pattern of failures is stated in.  `Safe`
takes a step relation, so a call may have many answers, and says that a guard holds
at every call the program makes and a postcondition when it returns.

The guard is what makes `Safe` usable across a crash.  A power cut can fall only
between two calls, so whatever the guard says of the state in which a call is about
to be made is what a reboot finds.  `Machine` puts the pieces together: a boot
program, a job that is started again whenever the machine is idle, and a restart
that drops whatever was running.  `Machine.reach_good` is the one induction over
runs; a user supplies the two triples, for the boot program and for the job.  The
guard says once what the programs do, and an invariant is then a fact about single
calls that meet it (`Machine.reach_invariant`).
-/
import Mathlib.Logic.Relation

/-- What a run shows at its end it showed at the start, or some step of it made it so. -/
theorem Relation.ReflTransGen.origin {α β : Type} {R : α → α → Prop} (f : α → β) {c c' : α}
    (hr : Relation.ReflTransGen R c c') :
    f c' = f c ∨ ∃ c₁ c₂, Relation.ReflTransGen R c c₁ ∧ R c₁ c₂ ∧ Relation.ReflTransGen R c₂ c' ∧
      f c₂ = f c' ∧ f c₁ ≠ f c₂ := by
  induction hr with
  | refl => exact Or.inl rfl
  | @tail c₁ c₂ hr hs ih =>
      by_cases hf : f c₁ = f c₂
      · rcases ih with heq | ⟨d₁, d₂, h₁, h₂, h₃, heq, hne⟩
        · exact Or.inl (hf ▸ heq)
        · exact Or.inr ⟨d₁, d₂, h₁, h₂, h₃.tail hs, heq.trans hf, hne⟩
      · exact Or.inr ⟨c₁, c₂, hr, hs, .refl, rfl, hf⟩

/-- A program that calls a device: `Res o` is what the call `o` answers. -/
inductive Prog (Op : Type) (Res : Op → Type) (α : Type) : Type
  | pure (a : α)
  | op (o : Op) (k : Res o → Prog Op Res α)

namespace Prog

variable {Op : Type} {Res : Op → Type} {S α β : Type}

/-- Go on with `f` where `p` returns. -/
def bind : Prog Op Res α → (α → Prog Op Res β) → Prog Op Res β
  | .pure a, f => f a
  | .op o k, f => .op o fun r => bind (k r) f

instance : Monad (Prog Op Res) where
  pure := .pure
  bind := bind

/-- Make one call and return its answer. -/
def call (o : Op) : Prog Op Res (Res o) := .op o .pure

@[simp] theorem pure_eq (a : α) : (.pure a : Prog Op Res α) = Pure.pure a := rfl

@[simp] theorem pure_bind (a : α) (f : α → Prog Op Res β) : (Pure.pure a >>= f) = f a := rfl

@[simp] theorem op_bind (o : Op) (k : Res o → Prog Op Res α) (f : α → Prog Op Res β) :
    (Prog.op o k >>= f) = .op o fun r => k r >>= f := rfl

@[simp] theorem bind_pure (p : Prog Op Res α) : (p >>= Pure.pure) = p := by
  induction p with
  | pure a => rfl
  | op o k ih => exact congrArg (Prog.op o) (funext ih)

theorem bind_assoc {γ : Type} (p : Prog Op Res α) (f : α → Prog Op Res β)
    (g : β → Prog Op Res γ) : (p >>= f >>= g) = (p >>= fun a => f a >>= g) := by
  induction p with
  | pure a => rfl
  | op o k ih => exact congrArg (Prog.op o) (funext ih)

instance : LawfulMonad (Prog Op Res) :=
  LawfulMonad.mk' _ (fun p => bind_pure p) (fun _ _ => rfl) (fun p f g => bind_assoc p f g)

/-! ### Running against a handler -/

/-- Run a program, every call being answered by `h`; `none` is a call that never comes
back, and neither does a program that makes it. -/
def run (h : (o : Op) → S → Option (Res o × S)) : Prog Op Res α → S → Option (α × S)
  | .pure a, s => some (a, s)
  | .op o k, s => (h o s).bind fun x => run h (k x.1) x.2

section Run

variable (h : (o : Op) → S → Option (Res o × S))

@[simp] theorem run_pure (a : α) (s : S) : run h (Pure.pure a) s = some (a, s) := rfl

@[simp] theorem run_op (o : Op) (k : Res o → Prog Op Res α) (s : S) :
    run h (.op o k) s = (h o s).bind fun x => run h (k x.1) x.2 := rfl

@[simp] theorem run_call (o : Op) (s : S) : run h (call o) s = h o s := by
  show ((h o s).bind fun x => some (x.1, x.2)) = h o s
  cases h o s <;> rfl

@[simp] theorem run_bind (p : Prog Op Res β) (f : β → Prog Op Res α) :
    ∀ s : S, run h (p >>= f) s = (run h p s).bind fun x => run h (f x.1) x.2 := by
  induction p with
  | pure b => intro s; rfl
  | op o k ih =>
      intro s
      show ((h o s).bind fun x => run h (k x.1 >>= f) x.2) = _
      rw [run_op]
      cases h o s with
      | none => rfl
      | some x => exact ih x.1 x.2

@[simp] theorem run_map (f : β → α) (p : Prog Op Res β) (s : S) :
    run h (f <$> p) s = (run h p s).bind fun x => some (f x.1, x.2) :=
  run_bind h p (fun b => Pure.pure (f b)) s

end Run

/-! ### What holds while a program runs -/

/-- How a call may change the state: `step s o r s'` when `o`, made in `s`, may answer
`r` and leave `s'`. -/
abbrev StepRel (Op : Type) (Res : Op → Type) (S : Type) : Type :=
  S → (o : Op) → Res o → S → Prop

/-- Every call the program makes from `s` is made in a state that meets the guard `G`,
and whatever it returns meets `Q`. -/
def Safe (step : StepRel Op Res S) (G : S → Op → Prop) (Q : α → S → Prop) :
    Prog Op Res α → S → Prop
  | .pure a, s => Q a s
  | .op o k, s => G s o ∧ ∀ r s', step s o r s' → Safe step G Q (k r) s'

section Safe

variable {step : StepRel Op Res S} {G G' : S → Op → Prop} {Q Q' : α → S → Prop}

@[simp] theorem safe_pure {a : α} {s : S} :
    Safe step G Q (Pure.pure a) s ↔ Q a s := Iff.rfl

@[simp] theorem safe_op {o : Op} {k : Res o → Prog Op Res α} {s : S} :
    Safe step G Q (.op o k) s ↔ G s o ∧ ∀ r s', step s o r s' → Safe step G Q (k r) s' :=
  Iff.rfl

@[simp] theorem safe_call {o : Op} {Q : Res o → S → Prop} {s : S} :
    Safe step G Q (call o) s ↔ G s o ∧ ∀ r s', step s o r s' → Q r s' := Iff.rfl

theorem safe_call_bind {o : Op} {f : Res o → Prog Op Res α} {s : S} :
    Safe step G Q (call o >>= f) s ↔ G s o ∧ ∀ r s', step s o r s' → Safe step G Q (f r) s' :=
  Iff.rfl

/-- A sequence is safe when its first part is, with the second part's safety as
postcondition. -/
@[simp] theorem safe_bind {p : Prog Op Res β} {f : β → Prog Op Res α} :
    ∀ {s : S}, Safe step G Q (p >>= f) s ↔
      Safe step G (fun b s' => Safe step G Q (f b) s') p s := by
  induction p with
  | pure b => intro s; exact Iff.rfl
  | op o k ih =>
      intro s
      exact and_congr Iff.rfl (forall_congr' fun r => forall_congr' fun s' =>
        imp_congr Iff.rfl (ih r))

@[simp] theorem safe_map {p : Prog Op Res β} {f : β → α} {s : S} :
    Safe step G Q (f <$> p) s ↔ Safe step G (fun b s' => Q (f b) s') p s :=
  safe_bind (f := fun b => Pure.pure (f b))

/-- A weaker guard and a weaker postcondition. -/
theorem Safe.mono (hG : ∀ s o, G s o → G' s o) (hQ : ∀ a s, Q a s → Q' a s)
    {p : Prog Op Res α} : ∀ {s : S}, Safe step G Q p s → Safe step G' Q' p s := by
  induction p with
  | pure a => intro s h; exact hQ a s h
  | op o k ih =>
      intro s h
      exact ⟨hG s o h.1, fun r s' hs => ih r (h.2 r s' hs)⟩

/-- A weaker postcondition. -/
theorem Safe.post (hQ : ∀ a s, Q a s → Q' a s) {p : Prog Op Res α} {s : S}
    (h : Safe step G Q p s) : Safe step G Q' p s :=
  h.mono (fun _ _ hg => hg) hQ

/-- Two triples of one program hold together. -/
theorem Safe.and {p : Prog Op Res α} :
    ∀ {s : S}, Safe step G Q p s → Safe step G' Q' p s →
      Safe step (fun s o => G s o ∧ G' s o) (fun a s => Q a s ∧ Q' a s) p s := by
  induction p with
  | pure a => intro s h h'; exact ⟨h, h'⟩
  | op o k ih =>
      intro s h h'
      exact ⟨⟨h.1, h'.1⟩, fun r s' hs => ih r (h.2 r s' hs) (h'.2 r s' hs)⟩

/-- A relation with fewer answers keeps every triple. -/
theorem Safe.anti {step' : StepRel Op Res S}
    (hstep : ∀ s o r s', step' s o r s' → step s o r s') {p : Prog Op Res α} :
    ∀ {s : S}, Safe step G Q p s → Safe step' G Q p s := by
  induction p with
  | pure a => intro s h; exact h
  | op o k ih =>
      intro s h
      exact ⟨h.1, fun r s' hs => ih r (h.2 r s' (hstep s o r s' hs))⟩

/-- The answers need only be fewer where the guard holds. -/
theorem Safe.guarded {step' : StepRel Op Res S}
    (hstep : ∀ s o r s', G s o → step' s o r s' → step s o r s') {p : Prog Op Res α} :
    ∀ {s : S}, Safe step G Q p s → Safe step' G Q p s := by
  induction p with
  | pure a => intro s h; exact h
  | op o k ih =>
      intro s h
      exact ⟨h.1, fun r s' hs => ih r (h.2 r s' (hstep s o r s' h.1 hs))⟩

/-- A triple of a part of the state is one of the whole. -/
theorem Safe.comap {T : Type} {f : T → S} {stepT : StepRel Op Res T}
    (hstep : ∀ t o r t', stepT t o r t' → step (f t) o r (f t')) {p : Prog Op Res α} :
    ∀ {t : T}, Safe step G Q p (f t) →
      Safe stepT (fun t o => G (f t) o) (fun a t => Q a (f t)) p t := by
  induction p with
  | pure a => intro t h; exact h
  | op o k ih =>
      intro t h
      exact ⟨h.1, fun r t' hs => ih r (h.2 r (f t') (hstep t o r t' hs))⟩

/-- What every step keeps where the guard holds is kept to the end, and the guard may
use it. -/
theorem Safe.keep {A : S → Prop}
    (hA : ∀ s o r s', A s → G s o → step s o r s' → A s') {p : Prog Op Res α} :
    ∀ {s : S}, A s → Safe step G Q p s →
      Safe step (fun s o => G s o ∧ A s) (fun a s => Q a s ∧ A s) p s := by
  induction p with
  | pure a => intro s ha h; exact ⟨h, ha⟩
  | op o k ih =>
      intro s ha h
      exact ⟨⟨h.1, ha⟩, fun r s' hs => ih r (hA s o r s' ha h.1 hs) (h.2 r s' hs)⟩

/-- What a triple says of the run against a handler that answers within the relation. -/
theorem Safe.run {h : (o : Op) → S → Option (Res o × S)}
    (hh : ∀ s o r s', h o s = some (r, s') → step s o r s') {p : Prog Op Res α} :
    ∀ {s : S} {a : α} {s' : S}, Safe step G Q p s → Prog.run h p s = some (a, s') → Q a s' := by
  induction p with
  | pure b =>
      intro s a s' hs hrun
      obtain ⟨rfl, rfl⟩ := Prod.mk.inj (Option.some.inj hrun)
      exact hs
  | op o k ih =>
      intro s a s' hs hrun
      obtain ⟨⟨r, s₁⟩, hcall, hrun⟩ := Option.bind_eq_some_iff.mp hrun
      exact ih r (hs.2 r s₁ (hh s o r s₁ hcall)) hrun

/-- A run comes back when the handler answers every call the guard allows. -/
theorem Safe.run_ne_none {h : (o : Op) → S → Option (Res o × S)}
    (hh : ∀ s o r s', h o s = some (r, s') → step s o r s') (hG : ∀ s o, G s o → h o s ≠ none)
    {p : Prog Op Res α} : ∀ {s : S}, Safe step G Q p s → Prog.run h p s ≠ none := by
  induction p with
  | pure a => intro s _; exact Option.some_ne_none _
  | op o k ih =>
      intro s hs
      obtain ⟨⟨r, s₁⟩, hcall⟩ := Option.ne_none_iff_exists'.mp (hG s o hs.1)
      rw [Prog.run, hcall]
      exact ih r (hs.2 r s₁ (hh s o r s₁ hcall))

/-- A run that comes back makes no call that does not. -/
theorem Safe.of_run_ne_none {h : (o : Op) → S → Option (Res o × S)} {p : Prog Op Res α} :
    ∀ {s : S}, Prog.run h p s ≠ none →
      Safe (fun s o r s' => h o s = some (r, s')) (fun s o => h o s ≠ none) (fun _ _ => True)
        p s := by
  induction p with
  | pure a => intro s _; trivial
  | op o k ih =>
      intro s hrun
      refine ⟨fun hnone => hrun ?_, fun r s' hstep => ih r fun hnone => hrun ?_⟩
      · show ((h o s).bind _) = none
        rw [hnone]
        rfl
      · show ((h o s).bind _) = none
        rw [hstep]
        exact hnone

/-- Against a handler, what a triple says of the outcome may be read off the run. -/
theorem Safe.of_run {h : (o : Op) → S → Option (Res o × S)} {p : Prog Op Res α} :
    ∀ {s : S} {a : α} {s₁ : S}, Safe (fun s o r s' => h o s = some (r, s')) G Q p s →
      Prog.run h p s = some (a, s₁) →
        Safe (fun s o r s' => h o s = some (r, s')) G (fun b t => b = a ∧ t = s₁ ∧ Q b t) p s := by
  induction p with
  | pure b =>
      intro s a s₁ hs hrun
      obtain ⟨rfl, rfl⟩ := Prod.mk.inj (Option.some.inj hrun)
      exact ⟨rfl, rfl, hs⟩
  | op o k ih =>
      intro s a s₁ hs hrun
      obtain ⟨⟨r, t⟩, hcall, hrun⟩ := Option.bind_eq_some_iff.mp hrun
      refine ⟨hs.1, fun r' s' hstep => ?_⟩
      obtain ⟨rfl, rfl⟩ := Prod.mk.inj (Option.some.inj (hcall.symm.trans hstep))
      exact ih r (hs.2 r t hcall) hrun

end Safe

/-! ### The calls of an execution -/

/-- One execution of a program: the calls it makes, each with its answer, what it returns
and the state it leaves. -/
inductive Exec (step : StepRel Op Res S) :
    Prog Op Res α → S → List (Σ o, Res o) → α → S → Prop
  | pure {a : α} {s : S} : Exec step (.pure a) s [] a s
  | op {o : Op} {k : Res o → Prog Op Res α} {r : Res o} {s s₁ s' : S} {calls : List (Σ o, Res o)}
      {a : α} (h : step s o r s₁) (hk : Exec step (k r) s₁ calls a s') :
      Exec step (.op o k) s (⟨o, r⟩ :: calls) a s'

section Exec

variable {step : StepRel Op Res S}

theorem exec_pure {P : List (Σ o, Res o) → α → S → Prop} {a : α} {s : S} :
    (∀ calls b s', Exec step (Pure.pure a) s calls b s' → P calls b s') ↔ P [] a s := by
  constructor
  · intro h
    exact h [] a s .pure
  · intro h calls b s' hx
    cases hx
    exact h

/-- What holds of the executions of a program holds, one call earlier, of those of the
program that makes the call first. -/
theorem exec_call_bind {P : List (Σ o, Res o) → α → S → Prop} {o : Op}
    {f : Res o → Prog Op Res α} {s : S} :
    (∀ calls a s', Exec step (call o >>= f) s calls a s' → P calls a s') ↔
      ∀ r s₁, step s o r s₁ → ∀ calls a s', Exec step (f r) s₁ calls a s' →
        P (⟨o, r⟩ :: calls) a s' := by
  constructor
  · intro h r s₁ hs calls a s' hx
    exact h _ _ _ (.op hs hx)
  · intro h calls a s' hx
    cases hx with
    | op hs hk => exact h _ _ hs _ _ _ hk

/-- An execution of a sequence is one of its first part, and then one of its second. -/
theorem exec_bind {P : List (Σ o, Res o) → α → S → Prop} {p : Prog Op Res β}
    {f : β → Prog Op Res α} :
    ∀ {s : S}, (∀ calls b s₁, Exec step p s calls b s₁ → ∀ calls' a s',
        Exec step (f b) s₁ calls' a s' → P (calls ++ calls') a s') →
      ∀ calls a s', Exec step (p >>= f) s calls a s' → P calls a s' := by
  induction p generalizing P with
  | pure b =>
      intro s h calls a s' hx
      exact h [] b s .pure calls a s' hx
  | op o k ih =>
      intro s h calls a s' hx
      cases hx with
      | @op _ _ r _ s₁ _ calls _ hs hk =>
          refine ih r (P := fun calls a s' => P (⟨o, r⟩ :: calls) a s') ?_ calls a s' hk
          intro calls₁ b s₂ h₁
          exact h _ b s₂ (.op hs h₁)

/-- Some execution returns this and leaves this. -/
def Leads (step : StepRel Op Res S) (p : Prog Op Res α) (s : S) (a : α) (s' : S) : Prop :=
  ∃ calls, Exec step p s calls a s'

/-- Some execution gets as far as this call, in this state. -/
inductive Gets (step : StepRel Op Res S) : Prog Op Res α → S → Op → S → Prop
  | here {o : Op} {k : Res o → Prog Op Res α} {s : S} : Gets step (.op o k) s o s
  | there {o o' : Op} {k : Res o → Prog Op Res α} {r : Res o} {s s₁ s' : S} (hs : step s o r s₁)
      (h : Gets step (k r) s₁ o' s') : Gets step (.op o k) s o' s'

/-- Some call leads to where this holds. -/
def Backwards (step : StepRel Op Res S) (R : Prog Op Res α → S → Prop) : Prop :=
  ∀ ⦃o : Op⦄ ⦃k : Res o → Prog Op Res α⦄ ⦃r : Res o⦄ ⦃s s₁ : S⦄, step s o r s₁ →
    R (k r) s₁ → R (.op o k) s

theorem leads_backwards (step : StepRel Op Res S) (a : α) (s' : S) :
    Backwards step fun (p : Prog Op Res α) s => Leads step p s a s' := by
  rintro o k r s s₁ hs ⟨calls, hx⟩
  exact ⟨_, .op hs hx⟩

theorem gets_backwards (o : Op) (s' : S) :
    Backwards step fun (p : Prog Op Res α) s => Gets step p s o s' :=
  fun _ _ _ _ _ hs h => .there hs h

theorem leads_pure (a : α) (s : S) : Leads step (Pure.pure a) s a s := ⟨[], .pure⟩

theorem Backwards.call_bind {R : Prog Op Res α → S → Prop} (hR : Backwards step R) {o : Op}
    {f : Res o → Prog Op Res α} {r : Res o} {s s₁ : S} (hs : step s o r s₁) (h : R (f r) s₁) :
    R (call o >>= f) s :=
  hR hs h

/-- So does any execution. -/
theorem Backwards.bind {R : Prog Op Res α → S → Prop} (hR : Backwards step R)
    {p : Prog Op Res β} {f : β → Prog Op Res α} {b : β} {s₁ : S} (h : R (f b) s₁) :
    ∀ {s : S}, Leads step p s b s₁ → R (p >>= f) s := by
  induction p with
  | pure c =>
      rintro s ⟨calls, hx⟩
      cases hx
      exact h
  | op o k ih =>
      rintro s ⟨calls, hx⟩
      cases hx with
      | op hs hk => exact hR hs (ih _ ⟨_, hk⟩)

/-- What is got to in a program is got to in any that goes on after it. -/
theorem Gets.bind {p : Prog Op Res β} {f : β → Prog Op Res α} {s s' : S} {o : Op}
    (h : Gets step p s o s') : Gets step (p >>= f) s o s' := by
  induction h with
  | here => exact .here
  | there hs _ ih => exact .there hs ih

theorem Exec.split {p : Prog Op Res β} {f : β → Prog Op Res α} {s s' : S} {a : α}
    {calls : List (Σ o, Res o)} (h : Exec step (p >>= f) s calls a s') :
    ∃ calls₁ b s₁ calls₂, calls = calls₁ ++ calls₂ ∧ Exec step p s calls₁ b s₁ ∧
      Exec step (f b) s₁ calls₂ a s' :=
  exec_bind (P := fun calls a s' => ∃ calls₁ b s₁ calls₂, calls = calls₁ ++ calls₂ ∧
      Exec step p s calls₁ b s₁ ∧ Exec step (f b) s₁ calls₂ a s')
    (fun calls₁ b s₁ h₁ calls₂ _ _ h₂ => ⟨calls₁, b, s₁, calls₂, rfl, h₁, h₂⟩) _ _ _ h

/-- The answers settle where a program goes: of two executions that begin in the same way, both
return the same, and after the same calls. -/
theorem Exec.unique {p : Prog Op Res α} {a b : α} {s' t' : S} {rest rest' : List (Σ o, Res o)} :
    ∀ {s t : S} {calls calls' : List (Σ o, Res o)}, Exec step p s calls a s' →
      Exec step p t calls' b t' → calls ++ rest = calls' ++ rest' → a = b ∧ rest = rest' := by
  induction p with
  | pure c =>
      intro s t calls calls' hx hy heq
      cases hx
      cases hy
      exact ⟨rfl, heq⟩
  | op o k ih =>
      intro s t calls calls' hx hy heq
      cases hx with
      | op hs hk =>
          cases hy with
          | op hs' hk' =>
              obtain ⟨hcall, htail⟩ := List.cons.inj heq
              obtain rfl := eq_of_heq (Sigma.mk.inj hcall).2
              exact ih _ hk hk' htail

/-- A run against a handler that answers within the relation is an execution. -/
theorem exec_of_run {h : (o : Op) → S → Option (Res o × S)}
    (hh : ∀ s o r s', h o s = some (r, s') → step s o r s') {p : Prog Op Res α} :
    ∀ {s : S} {a : α} {s' : S}, Prog.run h p s = some (a, s') →
      ∃ calls, Exec step p s calls a s' := by
  induction p with
  | pure b =>
      intro s a s' hrun
      obtain ⟨rfl, rfl⟩ := Prod.mk.inj (Option.some.inj hrun)
      exact ⟨[], .pure⟩
  | op o k ih =>
      intro s a s' hrun
      obtain ⟨⟨r, s₁⟩, hcall, hrun⟩ := Option.bind_eq_some_iff.mp hrun
      obtain ⟨calls, hx⟩ := ih r hrun
      exact ⟨⟨o, r⟩ :: calls, .op (hh s o r s₁ hcall) hx⟩

end Exec

/-! ### What every execution comes to -/

/-- Every execution comes to a point where `Q` holds of what is left of the program and of
the state, and until then each call comes back. -/
inductive Comes (step : StepRel Op Res S) (Q : Prog Op Res α → S → Prop) :
    Prog Op Res α → S → Prop
  | here {p : Prog Op Res α} {s : S} (h : Q p s) : Comes step Q p s
  | call {o : Op} {k : Res o → Prog Op Res α} {s : S} (hback : ∃ r s', step s o r s')
      (hk : ∀ r s', step s o r s' → Comes step Q (k r) s') : Comes step Q (.op o k) s

section Comes

variable {step : StepRel Op Res S} {Q : Prog Op Res α → S → Prop} {s : S}

end Comes

/-! ### The calls a program can make -/

/-- Every call of the program is one of these, whatever it is answered. -/
def Only (P : Op → Prop) : Prog Op Res α → Prop
  | .pure _ => True
  | .op o k => P o ∧ ∀ r, Only P (k r)

section Only

variable {P : Op → Prop}

@[simp] theorem only_pure (a : α) : Only P (Pure.pure a : Prog Op Res α) ↔ True := Iff.rfl

@[simp] theorem only_op {o : Op} {k : Res o → Prog Op Res α} :
    Only P (.op o k) ↔ P o ∧ ∀ r, Only P (k r) := Iff.rfl

@[simp] theorem only_call_bind {o : Op} {f : Res o → Prog Op Res α} :
    Only P (call o >>= f) ↔ P o ∧ ∀ r, Only P (f r) := Iff.rfl

theorem Only.bind {p : Prog Op Res β} {f : β → Prog Op Res α} (hp : p.Only P)
    (hf : ∀ b, (f b).Only P) : (p >>= f).Only P := by
  induction p with
  | pure b => exact hf b
  | op o k ih => exact ⟨hp.1, fun r => ih r (hp.2 r)⟩

@[simp] theorem only_call {o : Op} : Only P (call o : Prog Op Res (Res o)) ↔ P o :=
  and_iff_left fun _ => trivial

@[simp] theorem only_map {p : Prog Op Res β} {f : β → α} : Only P (f <$> p) ↔ p.Only P := by
  induction p with
  | pure b => exact Iff.rfl
  | op o k ih => exact and_congr Iff.rfl (forall_congr' ih)

theorem only_ite {c : Prop} [Decidable c] {p q : Prog Op Res α} :
    Only P (if c then p else q) ↔ (c → p.Only P) ∧ (¬ c → q.Only P) := by
  by_cases hc : c
  · simp [hc]
  · simp [hc]

/-- In whatever way the calls may answer. -/
theorem Only.safe {step : StepRel Op Res S} {p : Prog Op Res α} :
    ∀ {s : S}, p.Only P → p.Safe step (fun _ o => P o) (fun _ _ => True) s := by
  induction p with
  | pure a => intro s _; trivial
  | op o k ih => intro s h; exact ⟨h.1, fun r s' _ => ih r (h.2 r)⟩

/-- A program whose calls all come back comes to its end. -/
theorem Only.comes {step : StepRel Op Res S} {p : Prog Op Res α}
    (hback : ∀ o s, P o → ∃ r s', step s o r s') : ∀ {s : S}, p.Only P →
      p.Comes step (fun p' _ => ∃ a, p' = Pure.pure a) s := by
  induction p with
  | pure a => intro s _; exact .here ⟨a, rfl⟩
  | op o k ih =>
      intro s hp
      exact .call (hback o s hp.1) fun r s' _ => ih r (hp.2 r)

/-- What the device does on other calls does not matter. -/
theorem Only.of_step {step : StepRel Op Res S} {G : S → Op → Prop} {Q : α → S → Prop}
    {p : Prog Op Res α} : ∀ {s : S}, p.Only P →
      p.Safe (fun s o r s' => P o ∧ step s o r s') G Q s → p.Safe step G Q s := by
  induction p with
  | pure a => intro s _ h; exact h
  | op o k ih =>
      intro s hp h
      exact ⟨h.1, fun r s' hs => ih r (hp.2 r) (h.2 r s' ⟨hp.1, hs⟩)⟩

end Only

/-! ### The same program on a larger device -/

section Lift

variable {Op' : Type} {Res' : Op' → Type} {T : Type}

/-- The program on a device that has its calls among others: `f` says which call of the
device each call is, and `g` what its answer tells the program. -/
def lift (f : Op → Op') (g : ∀ o, Res' (f o) → Res o) : Prog Op Res α → Prog Op' Res' α
  | .pure a => .pure a
  | .op o k => .op (f o) fun r => lift f g (k (g o r))

variable {f : Op → Op'} {g : ∀ o, Res' (f o) → Res o}

/-- What a triple says of the program's own part of the state it says of the device, and of
the device's other calls the program makes none. -/
theorem Safe.lift {step : StepRel Op Res S} {step' : StepRel Op' Res' T} {G : S → Op → Prop}
    {Q : α → S → Prop} {part : T → S}
    (hstep : ∀ t o r t', step' t (f o) r t' → step (part t) o (g o r) (part t'))
    {p : Prog Op Res α} : ∀ {t : T}, p.Safe step G Q (part t) →
      (p.lift f g).Safe step' (fun t o' => ∃ o, o' = f o ∧ G (part t) o)
        (fun a t => Q a (part t)) t := by
  induction p with
  | pure a => intro t h; exact h
  | op o k ih =>
      intro t h
      exact ⟨⟨o, rfl, h.1⟩, fun r t' hs => ih (g o r) (h.2 _ _ (hstep t o r t' hs))⟩

/-- A run against a handler is one against the device's, where that answers alike. -/
theorem run_lift {h : (o : Op) → S → Option (Res o × S)}
    {h' : (o : Op') → T → Option (Res' o × T)} {part : T → S}
    (hh : ∀ t o r s', h o (part t) = some (r, s') →
      ∃ r' t', h' (f o) t = some (r', t') ∧ g o r' = r ∧ part t' = s')
    {p : Prog Op Res α} : ∀ {t : T} {a : α} {s' : S}, p.run h (part t) = some (a, s') →
      ∃ t', (p.lift f g).run h' t = some (a, t') ∧ part t' = s' := by
  induction p with
  | pure b =>
      intro t a s' hrun
      obtain ⟨rfl, rfl⟩ := Prod.mk.inj (Option.some.inj hrun)
      exact ⟨t, rfl, rfl⟩
  | op o k ih =>
      intro t a s' hrun
      obtain ⟨⟨r, s₁⟩, hcall, hrun⟩ := Option.bind_eq_some_iff.mp hrun
      obtain ⟨r', t₁, hcall', rfl, rfl⟩ := hh t o r s₁ hcall
      obtain ⟨t', hrun', hpart⟩ := ih (g o r') hrun
      refine ⟨t', ?_, hpart⟩
      show ((h' (f o) t).bind fun x => Prog.run h' (Prog.lift f g (k (g o x.1))) x.2) = _
      rw [hcall', Option.bind_some]
      exact hrun'

end Lift

/-! ### Where the power can go -/

/-- The states a program can be stopped in: between two calls, or in the middle of one,
which leaves what `torn` says. -/
inductive Cut (step : StepRel Op Res S) (torn : S → Op → S → Prop) :
    Prog Op Res α → S → S → Prop
  | before {p : Prog Op Res α} {s : S} : Cut step torn p s s
  | during {o : Op} {k : Res o → Prog Op Res α} {s s' : S} (h : torn s o s') :
      Cut step torn (.op o k) s s'
  | after {o : Op} {k : Res o → Prog Op Res α} {s s₁ s' : S} {r : Res o}
      (h : step s o r s₁) (hc : Cut step torn (k r) s₁ s') : Cut step torn (.op o k) s s'

/-- What the guard says of every call, in its middle too, is what a cut leaves. -/
theorem Safe.cut {step : StepRel Op Res S} {torn : S → Op → S → Prop} {G : S → Op → Prop}
    {Q : α → S → Prop} {I : S → Prop} (hG : ∀ s o, G s o → I s)
    (htorn : ∀ s o s', G s o → torn s o s' → I s') (hQ : ∀ a s, Q a s → I s)
    {p : Prog Op Res α} {s s' : S} (hs : Safe step G Q p s) (hc : Cut step torn p s s') :
    I s' := by
  induction hc with
  | @before p s =>
      cases p with
      | pure a => exact hQ a s hs
      | op o k => exact hG s o hs.1
  | during h => exact htorn _ _ _ hs.1 h
  | after h _ ih => exact ih (hs.2 _ _ h)

end Prog

/-! ### A machine that boots, works and loses power -/

/-- What a machine is doing: starting up, or running its job. -/
inductive Phase
  | boot
  | job
  deriving DecidableEq, Repr

/-- A boot program and a job, with what their calls do and what a restart leaves.
`restart` sees the program that was running, so a development can say at which calls
the power may go. -/
structure Machine (Op : Type) (Res : Op → Type) (S : Type) where
  boot : Prog Op Res Unit
  job : Prog Op Res Unit
  step : Phase → Prog.StepRel Op Res S
  restart : S → Prog Op Res Unit → S → Prop

namespace Machine

variable {Op : Type} {Res : Op → Type} {S : Type}

/-- Where a machine stands: its phase, its state, and what is left of its program. -/
structure Config (Op : Type) (Res : Op → Type) (S : Type) where
  phase : Phase
  state : S
  prog : Prog Op Res Unit

/-- One step of a machine. -/
inductive Step (m : Machine Op Res S) : Config Op Res S → Config Op Res S → Prop
  | call {ph : Phase} {s s' : S} {o : Op} {k : Res o → Prog Op Res Unit} {r : Res o}
      (h : m.step ph s o r s') : Step m ⟨ph, s, .op o k⟩ ⟨ph, s', k r⟩
  | next {ph : Phase} {s : S} : Step m ⟨ph, s, .pure ()⟩ ⟨.job, s, m.job⟩
  | power {ph : Phase} {s s' : S} {p : Prog Op Res Unit} (h : m.restart s p s') :
      Step m ⟨ph, s, p⟩ ⟨.boot, s', m.boot⟩

/-- Any number of steps. -/
abbrev Reach (m : Machine Op Res S) : Config Op Res S → Config Op Res S → Prop :=
  Relation.ReflTransGen (Step m)

/-- A run against a handler is a run of the machine, when the machine allows every answer
that is given under the guard. -/
theorem reach_of_run {m : Machine Op Res S} {ph : Phase} {α : Type}
    {h : (o : Op) → S → Option (Res o × S)} {step : Prog.StepRel Op Res S} {G : S → Op → Prop}
    {Q : α → S → Prop} (hh : ∀ s o r s', h o s = some (r, s') → step s o r s')
    (hm : ∀ s o r s', G s o → h o s = some (r, s') → m.step ph s o r s') {p : Prog Op Res α} :
    ∀ {s s' : S} {a : α} {k : α → Prog Op Res Unit}, p.Safe step G Q s →
      Prog.run h p s = some (a, s') → Reach m ⟨ph, s, p >>= k⟩ ⟨ph, s', k a⟩ := by
  induction p with
  | pure b =>
      intro s s' a k _ hrun
      obtain ⟨rfl, rfl⟩ := Prod.mk.inj (Option.some.inj hrun)
      exact .refl
  | op o f ih =>
      intro s s' a k hsafe hrun
      obtain ⟨⟨r, s₁⟩, hcall, hrun⟩ := Option.bind_eq_some_iff.mp hrun
      exact .head (.call (hm s o r s₁ hsafe.1 hcall)) (ih r (hsafe.2 r s₁ (hh s o r s₁ hcall)) hrun)

/-- The same for a program that is the machine's own. -/
theorem reach_of_run_unit {m : Machine Op Res S} {ph : Phase}
    {h : (o : Op) → S → Option (Res o × S)} {step : Prog.StepRel Op Res S} {G : S → Op → Prop}
    {Q : Unit → S → Prop} (hh : ∀ s o r s', h o s = some (r, s') → step s o r s')
    (hm : ∀ s o r s', G s o → h o s = some (r, s') → m.step ph s o r s') {p : Prog Op Res Unit}
    {s s' : S} (hsafe : p.Safe step G Q s) (hrun : Prog.run h p s = some ((), s')) :
    Reach m ⟨ph, s, p⟩ ⟨ph, s', .pure ()⟩ := by
  have hreach := reach_of_run (k := Pure.pure) hh hm hsafe hrun
  rwa [Prog.bind_pure] at hreach

/-- What is known of a state from the program left to run in it: the guard of the call
it is about to make, or the idle invariant. -/
def Ready (G : S → Op → Prop) (J : S → Prop) : Prog Op Res Unit → S → Prop
  | .pure _, s => J s
  | .op o _, s => G s o

theorem ready_of_safe {step : Prog.StepRel Op Res S} {G : S → Op → Prop} {J : S → Prop}
    {p : Prog Op Res Unit} {s : S} (h : p.Safe step G (fun _ => J) s) : Ready G J p s := by
  cases p with
  | pure a => exact h
  | op o k => exact h.1

variable {m : Machine Op Res S} {G : S → Op → Prop} {J : S → Prop}

/-- A configuration whose remaining program is safe. -/
def Config.Good (m : Machine Op Res S) (G : S → Op → Prop) (J : S → Prop)
    (c : Config Op Res S) : Prop :=
  c.prog.Safe (m.step c.phase) G (fun _ => J) c.state

/-- One step keeps a configuration good, when every restart lands in a state the boot
program is safe from and the job is safe from every idle state. -/
theorem step_good
    (hboot : ∀ s p s', Ready G J p s → m.restart s p s' →
      m.boot.Safe (m.step .boot) G (fun _ => J) s')
    (hjob : ∀ s, J s → m.job.Safe (m.step .job) G (fun _ => J) s)
    {c c' : Config Op Res S} (hc : c.Good m G J) (hs : Step m c c') : c'.Good m G J := by
  cases hs with
  | call h => exact hc.2 _ _ h
  | next => exact hjob _ hc
  | power h => exact hboot _ _ _ (ready_of_safe hc) h

/-- **Every configuration of a run is good.**  The induction over runs: boots, jobs and
restarts in any order, any number of times. -/
theorem reach_good
    (hboot : ∀ s p s', Ready G J p s → m.restart s p s' →
      m.boot.Safe (m.step .boot) G (fun _ => J) s')
    (hjob : ∀ s, J s → m.job.Safe (m.step .job) G (fun _ => J) s)
    {c c' : Config Op Res S} (hc : c.Good m G J) (hr : Reach m c c') : c'.Good m G J := by
  induction hr with
  | refl => exact hc
  | tail _ hs ih => exact step_good hboot hjob ih hs

/-- What every call keeps under the guard, and every restart, holds all along a run. -/
theorem reach_invariant {A : S → Prop}
    (hboot : ∀ s p s', Ready G J p s → m.restart s p s' →
      m.boot.Safe (m.step .boot) G (fun _ => J) s')
    (hjob : ∀ s, J s → m.job.Safe (m.step .job) G (fun _ => J) s)
    (hstep : ∀ ph s o r s', A s → G s o → m.step ph s o r s' → A s')
    (hrestart : ∀ s p s', A s → m.restart s p s' → A s')
    {c c' : Config Op Res S} (hc : c.Good m G J) (ha : A c.state) (hr : Reach m c c') :
    A c'.state := by
  induction hr with
  | refl => exact ha
  | tail hr hs ih =>
      have hgood := reach_good hboot hjob hc hr
      cases hs with
      | call h => exact hstep _ _ _ _ _ ih hgood.1 h
      | next => exact ih
      | power h => exact hrestart _ _ _ ih h

/-- A part of the state is what it was at the start, or some step of the run made it so. -/
theorem reach_origin {β : Type} (f : S → β) {c c' : Config Op Res S} (hr : Reach m c c') :
    f c'.state = f c.state ∨ ∃ c₁ c₂, Reach m c c₁ ∧ Step m c₁ c₂ ∧ Reach m c₂ c' ∧
      f c₂.state = f c'.state ∧ f c₁.state ≠ f c₂.state :=
  Relation.ReflTransGen.origin (fun c => f c.state) hr

end Machine
