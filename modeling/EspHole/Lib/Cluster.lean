/-
Machines beside one another, which restart, and what they share.

Each member is a machine: it boots, does its job again and again, and may lose power at any
call.  What its calls may answer depends on what is shared, which moves on its own.  A run is
any interleaving of single steps.

Seen alone, a member's run is a run of the machine whose calls answer from any of the shared
states met on the way (`reach_member`), and the shared part of a run is a run of its own
(`reach_shared`).  So what is known of either machine is known of it here, and there is no
second induction over interleavings.
-/
import Mathlib.Logic.Function.Basic
import EspHole.Lib.Prog

/-- What every member does, how its calls may answer and what a restart leaves, and how what
is shared may move. -/
structure Cluster (Op : Type) (Res : Op → Type) (S E : Type) where
  boot : Prog Op Res Unit
  job : Prog Op Res Unit
  step : E → Prog.StepRel Op Res S
  restart : S → Prog Op Res Unit → S → Prop
  env : E → E → Prop

namespace Cluster

open Machine (Step Reach)

variable {Op : Type} {Res : Op → Type} {S E ι : Type}

/-- Where all of them stand. -/
structure Config (Op : Type) (Res : Op → Type) (S E ι : Type) where
  shared : E
  member : ι → Machine.Config Op Res S

/-- The machine that a member is, while what is shared is one of these. -/
def machine (m : Cluster Op Res S E) (A : E → Prop) : Machine Op Res S where
  boot := m.boot
  job := m.job
  step := fun _ s o r s' => ∃ e, A e ∧ m.step e s o r s'
  restart := m.restart

variable [DecidableEq ι]

/-- One member moved. -/
def Config.set (c : Config Op Res S E ι) (i : ι) (x : Machine.Config Op Res S) :
    Config Op Res S E ι :=
  { c with member := Function.update c.member i x }

@[simp] theorem Config.set_shared (c : Config Op Res S E ι) (i : ι)
    (x : Machine.Config Op Res S) : (c.set i x).shared = c.shared := rfl

@[simp] theorem Config.set_same (c : Config Op Res S E ι) (i : ι) (x : Machine.Config Op Res S) :
    (c.set i x).member i = x := by
  simp [Config.set]

theorem Config.set_of_ne (c : Config Op Res S E ι) {i j : ι} (x : Machine.Config Op Res S)
    (h : j ≠ i) : (c.set i x).member j = c.member j := by
  simp [Config.set, h]

@[simp] theorem Config.set_set (c : Config Op Res S E ι) (i : ι) (x y : Machine.Config Op Res S) :
    (c.set i x).set i y = c.set i y := by
  simp [Config.set]

@[simp] theorem Config.set_self (c : Config Op Res S E ι) (i : ι) :
    c.set i (c.member i) = c := by
  simp [Config.set]

/-- One step: what is shared moves, or one member does. -/
inductive Moves (m : Cluster Op Res S E) : Config Op Res S E ι → Config Op Res S E ι → Prop
  | shared {c : Config Op Res S E ι} {e : E} (h : m.env c.shared e) :
      Moves m c { c with shared := e }
  | member {c : Config Op Res S E ι} {i : ι} {x : Machine.Config Op Res S}
      (h : Step (m.machine (· = c.shared)) (c.member i) x) : Moves m c (c.set i x)

/-- Any number of steps. -/
abbrev Runs (m : Cluster Op Res S E) : Config Op Res S E ι → Config Op Res S E ι → Prop :=
  Relation.ReflTransGen (Moves m)

variable {m : Cluster Op Res S E} {c c' : Config Op Res S E ι}

omit [DecidableEq ι] in
/-- More may be shared. -/
theorem step_mono {A B : E → Prop} (h : ∀ e, A e → B e) {x y : Machine.Config Op Res S}
    (hs : Step (m.machine A) x y) : Step (m.machine B) x y := by
  cases hs with
  | call hcall =>
      obtain ⟨e, he, hcall⟩ := hcall
      exact .call ⟨e, h e he, hcall⟩
  | next => exact .next
  | power hpower => exact .power hpower

/-- **The shared part of a run** is a run of its own. -/
theorem reach_shared (hr : Runs m c c') : Relation.ReflTransGen m.env c.shared c'.shared := by
  induction hr with
  | refl => exact .refl
  | tail _ hs ih =>
      cases hs with
      | shared h => exact ih.tail h
      | member _ => exact ih

/-- **A member's part of a run** is one of its machine's, among the shared states that led
up to the last one. -/
theorem reach_member {A : E → Prop} (hback : ∀ e e', m.env e e' → A e' → A e)
    (hr : Runs m c c') (ha : A c'.shared) (i : ι) :
    Reach (m.machine A) (c.member i) (c'.member i) := by
  induction hr with
  | refl => exact .refl
  | @tail b _ _ hs ih =>
      cases hs with
      | shared h => exact ih (hback _ _ h ha)
      | @member j x h =>
          have hbefore := ih ha
          by_cases hij : i = j
          · subst hij
            rw [Config.set_same]
            refine hbefore.tail (step_mono ?_ h)
            rintro e rfl
            exact ha
          · rw [Config.set_of_ne _ _ hij]
            exact hbefore

/-- A run of one member, while what is shared stays put. -/
theorem reach_alone {i : ι} {x y : Machine.Config Op Res S}
    (hr : Reach (m.machine (· = c.shared)) x y) : Runs m (c.set i x) (c.set i y) := by
  induction hr with
  | refl => exact .refl
  | @tail y z _ hs ih =>
      refine ih.tail ?_
      have hmove : Moves m (c.set i y) ((c.set i y).set i z) :=
        .member (by rw [Config.set_same]; exact hs)
      rwa [Config.set_set] at hmove

/-- What is shared moves, while the members stay put. -/
theorem reach_env {e : E} (hr : Relation.ReflTransGen m.env c.shared e) :
    Runs m c { c with shared := e } := by
  induction hr with
  | refl => exact .refl
  | tail _ hs ih => exact ih.tail (.shared hs)

end Cluster
