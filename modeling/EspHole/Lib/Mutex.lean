/-
Memory that tasks share under a lock.

An object lies in blocks of memory, and statics say where.  A task reads it while it holds the
lock; another builds a new one aside, puts the statics to it under the lock, and frees the old
blocks once the lock is given back.  Whether a block can still be in use when it is freed is a
question about every interleaving.

The answer is kept in two fields no call reads.  `owner` says who answers for a block: the task
that allocated it, or, with no owner, whoever holds the lock.  To give the lock back is to settle
this anew: the blocks of the object belong to the lock, and the others the task could use are
its own.  So what a task `sees` is a heap of its own, the others leave it alone
(`Step.allows`), and the rules below are those of a program that runs by itself.  `served`
keeps the values the object has had, so that what a task answered can be compared with them.
-/
import EspHole.Lib.Rely

namespace Mutex

variable {W R T A E ι : Type} {Ans : E → Type}

/-! ### Memory -/

/-- Blocks of words, by their addresses. -/
abbrev Heap (W : Type) : Type := Nat → Option (List W)

/-- No block. -/
def Heap.empty : Heap W := fun _ => none

/-- The blocks of both; where both have one, the first's. -/
def Heap.or (h h' : Heap W) : Heap W := fun p => (h p).or (h' p)

/-- The blocks but these. -/
def Heap.without (h : Heap W) (f : List Nat) : Heap W := fun p => if p ∈ f then none else h p

@[simp] theorem Heap.empty_or (h : Heap W) : Heap.empty.or h = h := rfl

@[simp] theorem Heap.or_empty (h : Heap W) : h.or Heap.empty = h :=
  funext fun _ => Option.or_none

theorem Heap.without_of_subset {h : Heap W} {f : List Nat} (hw : ∀ p, h p ≠ none → p ∈ f) :
    h.without f = Heap.empty := by
  funext p
  show (if p ∈ f then none else h p) = none
  by_cases hp : p ∈ f
  · exact if_pos hp
  · rw [if_neg hp]
    by_contra hne
    exact hp (hw p hne)

theorem Heap.without_without (h : Heap W) (f f' : List Nat) :
    (h.without f).without f' = h.without (f ++ f') := by
  funext p
  by_cases hp : p ∈ f
  · simp [Heap.without, hp]
  · simp [Heap.without, hp]

/-- What one hands over beside what one found. -/
theorem Heap.or_without {h g : Heap W} {f : List Nat} (hw : ∀ p, h p ≠ none → p ∈ f)
    (hg : ∀ p ∈ f, g p = none) : (h.or g).without f = g := by
  funext p
  by_cases hp : p ∈ f
  · simp [Heap.without, hp, hg p hp]
  · have hnone : h p = none := by
      by_contra hne
      exact hp (hw p hne)
    simp [Heap.without, Heap.or, hp, hnone]

/-- How the object lies in memory: the statics and the blocks give its value and the blocks it
takes.  These are allocated, and nothing else has a part in it.  `valid` is what its values are
to be. -/
structure Layout (W R T : Type) where
  object : R → Heap W → Option (T × List Nat)
  valid : T → Prop
  live : ∀ {r h v f}, object r h = some (v, f) → ∀ p ∈ f, h p ≠ none
  reads : ∀ {r h h' v f}, object r h = some (v, f) → (∀ p ∈ f, h' p = h p) →
    object r h' = some (v, f)

/-- What tasks share: the blocks, the statics, and who holds the lock.  The other fields are
for statements only. -/
structure Shared (W R T ι : Type) where
  block : Heap W
  statics : R
  holder : Option ι
  owner : Nat → Option ι
  served : List T
  refused : ι → Nat

/-- Before any call, with this value of the object. -/
def Shared.init (r : R) (v : T) : Shared W R T ι :=
  ⟨Heap.empty, r, none, fun _ => none, [v], fun _ => 0⟩

/-! ### Calls -/

/-- The calls of a task.  `tryTake` may give up; `write` puts words into a block; `other` is a
call to a device that has no part in this memory.  `mark` and `answer` are for statements: where
an answer is begun, and what it is. -/
inductive Call (W R A E : Type)
  | take
  | tryTake
  | give
  | get
  | put (f : R → R)
  | malloc (n : Nat)
  | free (p : Option Nat)
  | load (p : Option Nat) (k : Nat)
  | write (p : Option Nat) (k : Nat) (ws : List W)
  | other (e : E)
  | mark
  | answer (since : Nat × Nat) (a : A)

/-- What each call answers. -/
@[reducible] def Res (Ans : E → Type) : Call W R A E → Type
  | .take | .give | .put _ | .free _ | .write _ _ _ | .answer _ _ => Unit
  | .tryTake => Bool
  | .get => R
  | .malloc _ => Option Nat
  | .load _ _ => W
  | .other e => Ans e
  | .mark => Nat × Nat

/-- The block a call touches. -/
def Call.touches : Call W R A E → Option Nat
  | .free p | .load p _ | .write p _ _ => p
  | _ => none

variable [DecidableEq ι]

/-- A task may use its own blocks, and those of the lock while it holds it. -/
def Shared.MayUse (s : Shared W R T ι) (i : ι) (p : Nat) : Prop :=
  s.owner p = some i ∨ s.owner p = none ∧ s.holder = some i

instance (s : Shared W R T ι) (i : ι) (p : Nat) : Decidable (s.MayUse i p) :=
  inferInstanceAs (Decidable (_ ∨ _))

/-- The blocks a task may use. -/
def Shared.sees (s : Shared W R T ι) (i : ι) : Heap W :=
  fun p => if s.MayUse i p then s.block p else none

/-- The blocks that belong to the lock. -/
def Shared.guarded (s : Shared W R T ι) : Heap W :=
  fun p => if s.owner p = none then s.block p else none

/-- One block made another, or freed. -/
def Shared.setBlock (s : Shared W R T ι) (p : Nat) (b : Option (List W)) : Shared W R T ι :=
  { s with block := Function.update s.block p b }

/-- A block fresh from the allocator. -/
def Shared.alloc (s : Shared W R T ι) (i : ι) (p : Nat) (ws : List W) : Shared W R T ι :=
  { s.setBlock p (some ws) with owner := Function.update s.owner p (some i) }

/-- The lock given back by `i`, the object having the value `v` and taking the blocks `f`. -/
def Shared.given (s : Shared W R T ι) (i : ι) (v : T) (f : List Nat) : Shared W R T ι :=
  { s with
    holder := none
    owner := fun p => if p ∈ f then none else if s.owner p = none then some i else s.owner p
    served := s.served ++ [v] }

variable (L : Layout W R T) (env : (e : E) → Ans e → Prop)

/-- What a call of task `i` does. -/
inductive Step (i : ι) : Prog.StepRel (Call W R A E) (Res Ans) (Shared W R T ι)
  | take {s} (h : s.holder = none) : Step i s .take () { s with holder := some i }
  | taken {s} (h : s.holder = none) : Step i s .tryTake true { s with holder := some i }
  | refused {s} : Step i s .tryTake false
      { s with refused := Function.update s.refused i (s.refused i + 1) }
  | give {s v f} (h : L.object s.statics (s.sees i) = some (v, f)) :
      Step i s .give () (s.given i v f)
  | get {s} : Step i s .get s.statics s
  | put {s f} : Step i s (.put f) () { s with statics := f s.statics }
  | noMem {s n} : Step i s (.malloc n) none s
  | malloc {s p} {ws : List W} (h : s.block p = none) : Step i s (.malloc ws.length) (some p)
      (s.alloc i p ws)
  | freeNull {s} : Step i s (.free none) () s
  | free {s p} : Step i s (.free (some p)) () (s.setBlock p none)
  | load {s p ws k w} (h : s.block p = some ws) (hk : ws[k]? = some w) :
      Step i s (.load (some p) k) w s
  | write {s p ws k new} (h : s.block p = some ws) : Step i s (.write (some p) k new) ()
      (s.setBlock p (some (ws.take k ++ new ++ ws.drop (k + new.length))))
  | other {s e a} (h : env e a) : Step i s (.other e) a s
  | mark {s} : Step i s .mark (s.served.length, s.refused i) s
  | answer {s t a} : Step i s (.answer t a) () s

/-- When a call is in order.  The lock is not taken twice and is given back by its holder, with
an object to guard; the statics are its holder's; a device has an answer; a block that is touched
is allocated, within its length, and the task's to use.  An answer is right about the values the
object had since it was begun, or about having been refused. -/
def Permitted (Right : A → List T → Nat → Prop) (i : ι) (s : Shared W R T ι) :
    Call W R A E → Prop
  | .take | .tryTake => s.holder ≠ some i
  | .give => s.holder = some i ∧
      ∃ v f, L.object s.statics (s.sees i) = some (v, f) ∧ L.valid v
  | .get | .put _ => s.holder = some i
  | .malloc _ | .mark => True
  | .other e => ∃ a, env e a
  | .free p => ∀ q ∈ p, s.sees i q ≠ none
  | .load p k => ∃ q ws, p = some q ∧ s.sees i q = some ws ∧ k < ws.length
  | .write p k new => ∃ q ws, p = some q ∧ s.sees i q = some ws ∧ k + new.length ≤ ws.length
  | .answer t a => Right a (s.served.drop (t.1 - 1)) (s.refused i - t.2)

/-- While nobody holds the lock, its blocks are those of the object, whose value was the last to
be served. -/
def Shared.Settled (s : Shared W R T ι) : Prop :=
  s.holder = none → ∃ v f, L.object s.statics s.guarded = some (v, f) ∧ L.valid v ∧
    s.served.getLast? = some v ∧ ∀ p, s.guarded p ≠ none → p ∈ f

/-- What task `i` may rely on while others make calls. -/
structure Rely (i : ι) (s s' : Shared W R T ι) : Prop where
  settled : s.Settled L → s'.Settled L
  sees : s'.sees i = s.sees i
  holder : s'.holder = some i ↔ s.holder = some i
  statics : s.holder = some i → s'.statics = s.statics
  served : s.served <+: s'.served
  refused : s'.refused i = s.refused i

/-! ### A call of one task, as the others see it -/

section Calls

variable {L} {env} {Right : A → List T → Nat → Prop} {i j : ι} {s s' s'' : Shared W R T ι}

theorem Shared.sees_eq_some {p : Nat} {ws : List W} (h : s.sees i p = some ws) :
    s.MayUse i p ∧ s.block p = some ws := by
  unfold Shared.sees at h
  split at h
  · exact ⟨‹_›, h⟩
  · cases h

theorem Shared.mayUse_of_sees {p : Nat} (h : s.sees i p ≠ none) : s.MayUse i p := by
  by_contra hno
  exact h (if_neg hno)

omit [DecidableEq ι] in
/-- No block is two tasks' to use. -/
theorem Shared.MayUse.unique {p : Nat} (hi : s.MayUse i p) (hj : s.MayUse j p) : i = j := by
  rcases hi with hi | ⟨hi, hi'⟩
  · rcases hj with hj | ⟨hj, -⟩
    · exact Option.some.inj (hi.symm.trans hj)
    · rw [hi] at hj
      cases hj
  · rcases hj with hj | ⟨-, hj'⟩
    · rw [hi] at hj
      cases hj
    · exact Option.some.inj (hi'.symm.trans hj')

theorem Shared.sees_setBlock_self {p : Nat} (hp : s.MayUse i p) (b : Option (List W)) :
    (s.setBlock p b).sees i = Function.update (s.sees i) p b := by
  funext q
  show (if s.MayUse i q then Function.update s.block p b q else none) = _
  by_cases hq : q = p
  · subst hq
    rw [if_pos hp, Function.update_self, Function.update_self]
  · rw [Function.update_of_ne hq, Function.update_of_ne hq]
    rfl

theorem Shared.sees_setBlock {p : Nat} (hp : ¬ s.MayUse i p) (b : Option (List W)) :
    (s.setBlock p b).sees i = s.sees i := by
  funext q
  show (if s.MayUse i q then Function.update s.block p b q else none) = _
  by_cases hq : q = p
  · subst hq
    rw [if_neg hp]
    exact (if_neg hp).symm
  · rw [Function.update_of_ne hq]
    rfl

omit [DecidableEq ι] in
theorem Shared.guarded_setBlock {p : Nat} (hp : s.owner p ≠ none) (b : Option (List W)) :
    (s.setBlock p b).guarded = s.guarded := by
  funext q
  show (if s.owner q = none then Function.update s.block p b q else none) = _
  by_cases hq : q = p
  · subst hq
    rw [if_neg hp]
    exact (if_neg hp).symm
  · rw [Function.update_of_ne hq]
    rfl

theorem Rely.refl (i : ι) (s : Shared W R T ι) : Rely L i s s :=
  ⟨id, rfl, Iff.rfl, fun _ => rfl, List.prefix_rfl, rfl⟩

theorem Rely.trans (h : Rely L i s s') (h' : Rely L i s' s'') : Rely L i s s'' :=
  ⟨fun hs => h'.settled (h.settled hs), h'.sees.trans h.sees, h'.holder.trans h.holder,
    fun hi => (h'.statics (h.holder.mpr hi)).trans (h.statics hi), h.served.trans h'.served,
    h'.refused.trans h.refused⟩

omit [DecidableEq ι] in
/-- A block that a task may use is changed: the lock stays settled. -/
theorem settled_setBlock {p : Nat} (hp : s.MayUse i p) (b : Option (List W))
    (hs : s.Settled L) : (s.setBlock p b).Settled L := by
  intro hnone
  rcases hp with hp | ⟨-, hp⟩
  · rw [Shared.guarded_setBlock (by rw [hp]; exact nofun)]
    exact hs hnone
  · rw [show s.holder = none from hnone] at hp
    cases hp

/-- And the others see nothing of it. -/
theorem rely_setBlock (hij : i ≠ j) {p : Nat} (hp : s.MayUse i p) (b : Option (List W)) :
    Rely L j s (s.setBlock p b) :=
  ⟨settled_setBlock hp b, Shared.sees_setBlock (fun hj => hij (hp.unique hj)) b, Iff.rfl,
    fun _ => rfl, List.prefix_rfl, rfl⟩

omit [DecidableEq ι] in
theorem settled_of_held (h : s'.holder ≠ none) : s'.Settled L := fun hnone => absurd hnone h

/-- The lock given back: what the object takes belongs to it. -/
theorem settled_given {v : T} {f : List Nat} (h : L.object s.statics (s.sees i) = some (v, f))
    (hv : L.valid v) : (s.given i v f).Settled L := by
  have hin : ∀ p ∈ f, (s.given i v f).guarded p = s.sees i p := by
    intro p hp
    have hsees : s.sees i p = s.block p := if_pos (Shared.mayUse_of_sees (L.live h p hp))
    rw [hsees]
    exact if_pos (if_pos hp)
  refine fun _ => ⟨v, f, L.reads h hin, hv, List.getLast?_concat, fun p hp => ?_⟩
  by_contra hf
  refine hp (if_neg ?_)
  show ¬ (if p ∈ f then none else if s.owner p = none then some i else s.owner p) = none
  rw [if_neg hf]
  split
  · exact nofun
  · assumption

/-- What the lock takes over or leaves to its holder was not for others to use. -/
theorem sees_given (hij : i ≠ j) {v : T} {f : List Nat}
    (h : L.object s.statics (s.sees i) = some (v, f)) (hi : s.holder = some i) :
    (s.given i v f).sees j = s.sees j := by
  have hj : s.holder ≠ some j := fun hj => hij (Option.some.inj (hi.symm.trans hj))
  have hiff : ∀ p, (s.given i v f).MayUse j p ↔ s.MayUse j p := by
    intro p
    show ((if p ∈ f then none else if s.owner p = none then some i else s.owner p) = some j ∨
      _ ∧ none = some j) ↔ (s.owner p = some j ∨ _ ∧ s.holder = some j)
    simp only [hj, reduceCtorEq, and_false, or_false]
    by_cases hp : p ∈ f
    · rw [if_pos hp]
      refine ⟨nofun, fun hown => ?_⟩
      exact absurd ((Shared.mayUse_of_sees (L.live h p hp)).unique (Or.inl hown)) hij
    · rw [if_neg hp]
      split
      · rename_i hnone
        rw [hnone]
        exact ⟨fun heq => absurd (Option.some.inj heq) hij, nofun⟩
      · exact Iff.rfl
  funext p
  show (if _ then s.block p else none) = if _ then s.block p else none
  exact if_congr (hiff p) rfl rfl

theorem sees_alloc {p : Nat} (h : s.block p = none) (ws : List W) (j : ι) :
    (s.alloc i p ws).sees j =
      if i = j then Function.update (s.sees j) p (some ws) else s.sees j := by
  funext q
  show (if Function.update s.owner p (some i) q = some j ∨
      Function.update s.owner p (some i) q = none ∧ s.holder = some j
    then Function.update s.block p (some ws) q else none) = _
  by_cases hq : q = p
  · subst hq
    have hsees : s.sees j q = none := by
      show (if _ then s.block q else none) = none
      rw [h, ite_self]
    by_cases hij : i = j
    · simp [hij]
    · simp [hij, hsees]
  · rw [Function.update_of_ne hq, Function.update_of_ne hq]
    by_cases hij : i = j
    · rw [if_pos hij, Function.update_of_ne hq]
      rfl
    · rw [if_neg hij]
      rfl

omit [DecidableEq ι] in
theorem guarded_alloc {p : Nat} (h : s.block p = none) (ws : List W) :
    (s.alloc i p ws).guarded = s.guarded := by
  funext q
  show (if Function.update s.owner p (some i) q = none
    then Function.update s.block p (some ws) q else none) = if _ then s.block q else none
  by_cases hq : q = p
  · subst hq
    rw [Function.update_self, if_neg nofun, h, ite_self]
  · rw [Function.update_of_ne hq, Function.update_of_ne hq]

omit [DecidableEq ι] in
theorem settled_alloc {p : Nat} (h : s.block p = none) (ws : List W) (hs : s.Settled L) :
    (s.alloc i p ws).Settled L := by
  intro hnone
  rw [guarded_alloc h ws]
  exact hs hnone

/-- **What a call in order does to the others** is what they rely on. -/
theorem Step.allows {o : Call W R A E} {r : Res Ans o} (hp : Permitted L env Right i s o)
    (h : Step L env i s o r s') (hij : i ≠ j) : Rely L j s s' := by
  have hne : ∀ {k : ι}, s.holder = some k → s.holder = some j → k = j :=
    fun hk hj => Option.some.inj (hk.symm.trans hj)
  -- The lock taken: nobody held it.
  have htake : s.holder = none → Rely L j s { s with holder := some i } := by
    intro hnone
    refine ⟨fun _ => settled_of_held nofun, ?_, ?_, fun _ => rfl, List.prefix_rfl, rfl⟩
    · funext p
      refine if_congr ?_ rfl rfl
      show (_ ∨ _ ∧ some i = some j) ↔ (_ ∨ _ ∧ s.holder = some j)
      rw [hnone]
      simp [hij]
    · show some i = some j ↔ s.holder = some j
      rw [hnone]
      simp [hij]
  cases h with
  | take hnone => exact htake hnone
  | taken hnone => exact htake hnone
  | refused =>
      exact ⟨id, rfl, Iff.rfl, fun _ => rfl, List.prefix_rfl,
        Function.update_of_ne (Ne.symm hij) _ _⟩
  | give hobj =>
      obtain ⟨v, f, hobj', hv⟩ := hp.2
      obtain ⟨rfl, rfl⟩ := Prod.mk.inj (Option.some.inj (hobj.symm.trans hobj'))
      refine ⟨fun _ => settled_given hobj hv, sees_given hij hobj hp.1, ?_,
        fun hj => absurd (hne hp.1 hj) hij, List.prefix_append _ _, rfl⟩
      show none = some j ↔ s.holder = some j
      exact ⟨nofun, fun hj => absurd (hne hp.1 hj) hij⟩
  | put =>
      have hi : s.holder = some i := hp
      refine ⟨fun _ => settled_of_held ?_, rfl, Iff.rfl, fun hj => absurd (hne hi hj) hij,
        List.prefix_rfl, rfl⟩
      show s.holder ≠ none
      rw [hi]
      exact nofun
  | malloc hfree =>
      refine ⟨settled_alloc hfree _, ?_, Iff.rfl, fun _ => rfl, List.prefix_rfl, rfl⟩
      rw [sees_alloc hfree, if_neg hij]
  | free => exact rely_setBlock hij (Shared.mayUse_of_sees (hp _ rfl)) _
  | write hblock =>
      obtain ⟨q, ws, hq, hsees, -⟩ := hp
      obtain rfl := Option.some.inj hq
      exact rely_setBlock hij (Shared.sees_eq_some hsees).1 _
  | get | noMem | freeNull | load | other | mark | answer => exact .refl j s

/-- And the lock stays settled. -/
theorem Step.settled {o : Call W R A E} {r : Res Ans o} (hp : Permitted L env Right i s o)
    (h : Step L env i s o r s') (hs : s.Settled L) : s'.Settled L := by
  cases h with
  | take | taken => exact settled_of_held nofun
  | refused => exact hs
  | give hobj =>
      obtain ⟨-, v, f, hobj', hv⟩ := hp
      obtain ⟨rfl, rfl⟩ := Prod.mk.inj (Option.some.inj (hobj.symm.trans hobj'))
      exact settled_given hobj hv
  | put =>
      refine settled_of_held ?_
      show s.holder ≠ none
      rw [show s.holder = some i from hp]
      exact nofun
  | malloc hfree => exact settled_alloc hfree _ hs
  | free => exact settled_setBlock (Shared.mayUse_of_sees (hp _ rfl)) _ hs
  | write hblock =>
      obtain ⟨q, ws, hq, hsees, -⟩ := hp
      obtain rfl := Option.some.inj hq
      exact settled_setBlock (Shared.sees_eq_some hsees).1 _ hs
  | get | noMem | freeNull | load | other | mark | answer => exact hs

/-! ### Rules for one task -/

variable (L) in
/-- Where a task stands: the blocks it may use, and the statics if it holds the lock. -/
structure At (i : ι) (h : Heap W) (held : Option R) (s : Shared W R T ι) : Prop where
  settled : s.Settled L
  sees : s.sees i = h
  held : (if s.holder = some i then some s.statics else none) = held

/-- What only grows. -/
structure Later (i : ι) (s s' : Shared W R T ι) : Prop where
  served : s.served <+: s'.served
  refused : s.refused i ≤ s'.refused i

/-- What a task finds when it takes the lock: statics `r` and blocks `g`, apart from its own. -/
structure Found (L : Layout W R T) (h : Heap W) (r : R) (g : Heap W) (v : T) (f : List Nat) :
    Prop where
  object : L.object r g = some (v, f)
  valid : L.valid v
  within : ∀ p, g p ≠ none → p ∈ f
  apart : ∀ p, h p ≠ none → g p = none

variable {α β : Type} {h : Heap W} {held : Option R} {r : R} {v : T} {fp : List Nat}
  {Q Q' : α → Shared W R T ι → Prop}

variable (L env Right) in
/-- The triple for task `i`: the calls it makes are in order whatever the others do, and `Q`
holds when it is done. -/
abbrev Does (i : ι) (Q : α → Shared W R T ι → Prop) (p : Prog (Call W R A E) (Res Ans) α)
    (s : Shared W R T ι) : Prop :=
  p.Stable (Step L env i) (Rely L i) (fun s s' => ∀ j, i ≠ j → Rely L j s s')
    (Permitted L env Right i) Q s

omit [DecidableEq ι] in
theorem Later.refl (i : ι) (s : Shared W R T ι) : Later i s s := ⟨List.prefix_rfl, Nat.le_refl _⟩

omit [DecidableEq ι] in
theorem Later.trans (h : Later i s s') (h' : Later i s' s'') : Later i s s'' :=
  ⟨h.served.trans h'.served, Nat.le_trans h.refused h'.refused⟩

omit [DecidableEq ι] in
/-- What was served since some point goes on having been. -/
theorem Later.mem {n : Nat} {v : T} (h : Later i s s') (hv : v ∈ s.served.drop n) :
    v ∈ s'.served.drop n := by
  obtain ⟨more, hmore⟩ := h.served
  rw [← hmore, List.drop_append]
  exact List.mem_append_left _ hv

omit [DecidableEq ι] in
/-- What is served last has been served since any earlier point. -/
theorem Later.last {v : T} (h : Later i s s') (hv : s'.served.getLast? = some v) :
    v ∈ s'.served.drop (s.served.length - 1) := by
  have hle := h.served.length_le
  rw [List.getLast?_eq_getElem?] at hv
  refine List.mem_of_getElem? (i := s'.served.length - 1 - (s.served.length - 1)) ?_
  rw [List.getElem?_drop, ← hv]
  congr 1
  omega

theorem Rely.later (h : Rely L i s s') : Later i s s' := ⟨h.served, Nat.le_of_eq h.refused.symm⟩

theorem At.relied (hx : At L i h held s) (hr : Rely L i s s') : At L i h held s' := by
  refine ⟨hr.settled hx.settled, hr.sees.trans hx.sees, ?_⟩
  rw [← hx.held]
  by_cases hi : s.holder = some i
  · rw [if_pos hi, if_pos (hr.holder.mpr hi), hr.statics hi]
  · rw [if_neg hi, if_neg (fun hi' => hi (hr.holder.mp hi'))]

theorem At.holder (hx : At L i h (some r) s) : s.holder = some i ∧ s.statics = r := by
  have hheld := hx.held
  split at hheld
  · exact ⟨‹_›, Option.some.inj hheld⟩
  · cases hheld

theorem At.not_holder (hx : At L i h none s) : s.holder ≠ some i := by
  have hheld := hx.held
  split at hheld
  · cases hheld
  · assumption

/-- Only the blocks changed. -/
theorem At.moved (hx : At L i h held s) {h' : Heap W} (hs : s'.Settled L)
    (hsees : s'.sees i = h') (hholder : s'.holder = s.holder) (hstatics : s'.statics = s.statics) :
    At L i h' held s' := by
  refine ⟨hs, hsees, ?_⟩
  rw [hholder, hstatics]
  exact hx.held

theorem does_pure {a : α} (hx : At L i h held s)
    (hQ : ∀ s', At L i h held s' → Later i s s' → Q a s') : Does L env Right i Q (pure a) s :=
  fun s' hr => hQ s' (hx.relied hr) hr.later

/-- One call, in order wherever the others have moved to. -/
theorem does_call {o : Call W R A E} {f : Res Ans o → Prog (Call W R A E) (Res Ans) α}
    (hx : At L i h held s)
    (hk : ∀ s₁, At L i h held s₁ → Later i s s₁ → Permitted L env Right i s₁ o ∧
      ∀ r s₂, Step L env i s₁ o r s₂ → s₂.Settled L → Does L env Right i Q (f r) s₂) :
    Does L env Right i Q (Prog.call o >>= f) s := by
  refine Prog.stable_call_bind.mpr fun s₁ hr => ?_
  obtain ⟨hp, hnext⟩ := hk s₁ (hx.relied hr) hr.later
  exact ⟨hp, fun r s₂ hs => ⟨fun j hij => hs.allows hp hij,
    hnext r s₂ hs (hs.settled hp (hx.relied hr).settled)⟩⟩

/-- One program after another. -/
theorem does_bind {p : Prog (Call W R A E) (Res Ans) β}
    {f : β → Prog (Call W R A E) (Res Ans) α}
    (hp : Does L env Right i (fun b s => Does L env Right i Q (f b) s) p s) :
    Does L env Right i Q (p >>= f) s :=
  Prog.Stable.bind (Rely.refl i) hp

/-- The lock taken. -/
theorem At.took (hx : At L i h none s) (hnone : s.holder = none) :
    ∃ r g v f, Found L h r g v f ∧ s.served.getLast? = some v ∧
      At L i (h.or g) (some r) { s with holder := some i } := by
  obtain ⟨v, f, hobj, hv, hlast, hwithin⟩ := hx.settled hnone
  refine ⟨s.statics, s.guarded, v, f, ⟨hobj, hv, hwithin, fun p hp => ?_⟩, hlast,
    settled_of_held nofun, ?_, if_pos rfl⟩
  · rw [← hx.sees] at hp
    rcases Shared.mayUse_of_sees hp with hown | ⟨-, hi⟩
    · exact if_neg (by rw [hown]; exact nofun)
    · exact absurd hi hx.not_holder
  · funext p
    rw [← hx.sees]
    show (if s.owner p = some i ∨ s.owner p = none ∧ some i = some i then s.block p else none) =
      Option.or (if s.owner p = some i ∨ s.owner p = none ∧ s.holder = some i then s.block p
        else none) (if s.owner p = none then s.block p else none)
    rw [hnone]
    by_cases hown : s.owner p = some i
    · simp [hown]
    · by_cases hno : s.owner p = none
      · simp [hno]
      · simp [hown, hno]

section Rules

variable {o : Call W R A E}

theorem does_take {f : Unit → Prog (Call W R A E) (Res Ans) α} (hx : At L i h none s)
    (hk : ∀ s' r g v fp, Found L h r g v fp → s'.served.getLast? = some v →
      At L i (h.or g) (some r) s' → Later i s s' → Does L env Right i Q (f ()) s') :
    Does L env Right i Q (Prog.call .take >>= f) s := by
  refine does_call hx fun s₁ hx₁ hl => ⟨hx₁.not_holder, fun _ s₂ hs _ => ?_⟩
  cases hs with
  | take hnone =>
      obtain ⟨r, g, v, fp, hfound, hlast, hat⟩ := hx₁.took hnone
      exact hk _ r g v fp hfound hlast hat ⟨hl.served, hl.refused⟩

theorem does_tryTake {f : Bool → Prog (Call W R A E) (Res Ans) α} (hx : At L i h none s)
    (hno : ∀ s', s.refused i < s'.refused i → At L i h none s' → Later i s s' →
      Does L env Right i Q (f false) s')
    (hk : ∀ s' r g v fp, Found L h r g v fp → s'.served.getLast? = some v →
      At L i (h.or g) (some r) s' → Later i s s' → Does L env Right i Q (f true) s') :
    Does L env Right i Q (Prog.call .tryTake >>= f) s := by
  refine does_call hx fun s₁ hx₁ hl => ⟨hx₁.not_holder, fun _ s₂ hs hset => ?_⟩
  cases hs with
  | taken hnone =>
      obtain ⟨r, g, v, fp, hfound, hlast, hat⟩ := hx₁.took hnone
      exact hk _ r g v fp hfound hlast hat ⟨hl.served, hl.refused⟩
  | refused =>
      have hmore := hl.refused
      refine hno _ ?_ (hx₁.moved hset hx₁.sees rfl rfl) ⟨hl.served, ?_⟩
      · show s.refused i < Function.update s₁.refused i (s₁.refused i + 1) i
        rw [Function.update_self]
        omega
      · show s.refused i ≤ Function.update s₁.refused i (s₁.refused i + 1) i
        rw [Function.update_self]
        omega

theorem does_give {f : Unit → Prog (Call W R A E) (Res Ans) α} (hx : At L i h (some r) s)
    (hobj : L.object r h = some (v, fp)) (hv : L.valid v)
    (hk : ∀ s', At L i (h.without fp) none s' → Later i s s' → Does L env Right i Q (f ()) s') :
    Does L env Right i Q (Prog.call .give >>= f) s := by
  refine does_call hx fun s₁ hx₁ hl => ?_
  obtain ⟨hi, hr⟩ := hx₁.holder
  rw [← hx₁.sees, ← hr] at hobj
  refine ⟨⟨hi, v, fp, hobj, hv⟩, fun _ s₂ hs hset => ?_⟩
  cases hs with
  | give hobj' =>
      obtain ⟨rfl, rfl⟩ := Prod.mk.inj (Option.some.inj (hobj.symm.trans hobj'))
      refine hk _ ⟨hset, ?_, if_neg nofun⟩ ⟨hl.served.trans (List.prefix_append _ _), hl.refused⟩
      funext p
      rw [← hx₁.sees]
      show (if (if p ∈ fp then none else if s₁.owner p = none then some i else s₁.owner p) = some i
        ∨ _ ∧ none = some i then s₁.block p else none) = if p ∈ fp then none else
          if s₁.owner p = some i ∨ s₁.owner p = none ∧ s₁.holder = some i then s₁.block p else none
      rw [hi]
      by_cases hp : p ∈ fp
      · simp [hp]
      · by_cases hown : s₁.owner p = none
        · simp [hp, hown]
        · simp [hp, hown]

theorem does_get {f : R → Prog (Call W R A E) (Res Ans) α} (hx : At L i h (some r) s)
    (hk : ∀ s', At L i h (some r) s' → Later i s s' → Does L env Right i Q (f r) s') :
    Does L env Right i Q (Prog.call .get >>= f) s := by
  refine does_call hx fun s₁ hx₁ hl => ⟨hx₁.holder.1, fun _ s₂ hs _ => ?_⟩
  cases hs with
  | get =>
      obtain rfl := hx₁.holder.2
      exact hk _ hx₁ hl

theorem does_put {g : R → R} {f : Unit → Prog (Call W R A E) (Res Ans) α}
    (hx : At L i h (some r) s)
    (hk : ∀ s', At L i h (some (g r)) s' → Later i s s' → Does L env Right i Q (f ()) s') :
    Does L env Right i Q (Prog.call (.put g) >>= f) s := by
  refine does_call hx fun s₁ hx₁ hl => ⟨hx₁.holder.1, fun _ s₂ hs hset => ?_⟩
  cases hs with
  | put =>
      refine hk _ ⟨hset, hx₁.sees, ?_⟩ ⟨hl.served, hl.refused⟩
      obtain ⟨hi, rfl⟩ := hx₁.holder
      exact if_pos hi

theorem does_malloc {n : Nat} {f : Option Nat → Prog (Call W R A E) (Res Ans) α}
    (hx : At L i h held s)
    (hno : ∀ s', At L i h held s' → Later i s s' → Does L env Right i Q (f none) s')
    (hk : ∀ s' p ws, h p = none → ws.length = n →
      At L i (Function.update h p (some ws)) held s' → Later i s s' →
        Does L env Right i Q (f (some p)) s') :
    Does L env Right i Q (Prog.call (.malloc n) >>= f) s := by
  refine does_call hx fun s₁ hx₁ hl => ⟨trivial, fun _ s₂ hs hset => ?_⟩
  cases hs with
  | noMem => exact hno _ hx₁ hl
  | @malloc _ p ws hfree =>
      have hp : h p = none := by
        rw [← hx₁.sees]
        show (if _ then s₁.block p else none) = none
        rw [hfree, ite_self]
      refine hk _ p ws hp rfl (hx₁.moved hset ?_ rfl rfl) ⟨hl.served, hl.refused⟩
      rw [sees_alloc hfree, if_pos rfl, hx₁.sees]

theorem does_free {p : Option Nat} {f : Unit → Prog (Call W R A E) (Res Ans) α}
    (hx : At L i h held s) (hp : ∀ q ∈ p, h q ≠ none)
    (hk : ∀ s', At L i (h.without p.toList) held s' → Later i s s' →
      Does L env Right i Q (f ()) s') :
    Does L env Right i Q (Prog.call (.free p) >>= f) s := by
  refine does_call hx fun s₁ hx₁ hl => ⟨fun q hq => ?_, fun _ s₂ hs hset => ?_⟩
  · rw [hx₁.sees]
    exact hp q hq
  cases hs with
  | freeNull => exact hk _ (hx₁.moved hset (by rw [hx₁.sees]; rfl) rfl rfl) hl
  | @free _ q =>
      have hq := hp q rfl
      rw [← hx₁.sees] at hq
      refine hk _ (hx₁.moved hset ?_ rfl rfl) ⟨hl.served, hl.refused⟩
      rw [Shared.sees_setBlock_self (Shared.mayUse_of_sees hq), hx₁.sees]
      funext p
      by_cases hpq : p = q
      · subst hpq
        simp [Heap.without]
      · simp [Heap.without, hpq]

theorem does_load {p : Option Nat} {q k : Nat} {ws : List W} {w : W}
    {f : W → Prog (Call W R A E) (Res Ans) α} (hx : At L i h held s) (hp : p = some q)
    (hq : h q = some ws) (hw : ws[k]? = some w)
    (hk : ∀ s', At L i h held s' → Later i s s' → Does L env Right i Q (f w) s') :
    Does L env Right i Q (Prog.call (.load p k) >>= f) s := by
  subst hp
  refine does_call hx fun s₁ hx₁ hl => ⟨⟨q, ws, rfl, by rw [hx₁.sees, hq],
    (List.getElem?_eq_some_iff.mp hw).1⟩, fun _ s₂ hs _ => ?_⟩
  rw [← hx₁.sees] at hq
  cases hs with
  | load hblock hget =>
      obtain rfl := Option.some.inj ((Shared.sees_eq_some hq).2.symm.trans hblock)
      obtain rfl := Option.some.inj (hw.symm.trans hget)
      exact hk _ hx₁ hl

theorem does_write {p : Option Nat} {q k : Nat} {ws new : List W}
    {f : Unit → Prog (Call W R A E) (Res Ans) α} (hx : At L i h held s) (hp : p = some q)
    (hq : h q = some ws) (hle : k + new.length ≤ ws.length)
    (hk : ∀ s', At L i (Function.update h q
        (some (ws.take k ++ new ++ ws.drop (k + new.length)))) held s' → Later i s s' →
      Does L env Right i Q (f ()) s') :
    Does L env Right i Q (Prog.call (.write p k new) >>= f) s := by
  subst hp
  refine does_call hx fun s₁ hx₁ hl => ⟨⟨q, ws, rfl, by rw [hx₁.sees, hq], hle⟩,
    fun _ s₂ hs hset => ?_⟩
  rw [← hx₁.sees] at hq
  obtain ⟨huse, hblock⟩ := Shared.sees_eq_some hq
  cases hs with
  | write hblock' =>
      obtain rfl := Option.some.inj (hblock.symm.trans hblock')
      refine hk _ (hx₁.moved hset ?_ rfl rfl) ⟨hl.served, hl.refused⟩
      rw [Shared.sees_setBlock_self huse, hx₁.sees]

theorem does_other {e : E} {f : Ans e → Prog (Call W R A E) (Res Ans) α}
    (hx : At L i h held s) (he : ∃ a, env e a)
    (hk : ∀ a, env e a → ∀ s', At L i h held s' → Later i s s' →
      Does L env Right i Q (f a) s') :
    Does L env Right i Q (Prog.call (.other e) >>= f) s := by
  refine does_call hx fun s₁ hx₁ hl => ⟨he, fun a s₂ hs _ => ?_⟩
  cases hs with
  | other ha => exact hk a ha _ hx₁ hl

theorem does_mark {f : Nat × Nat → Prog (Call W R A E) (Res Ans) α} (hx : At L i h held s)
    (hk : ∀ s', At L i h held s' → Later i s s' →
      Does L env Right i Q (f (s'.served.length, s'.refused i)) s') :
    Does L env Right i Q (Prog.call .mark >>= f) s := by
  refine does_call hx fun s₁ hx₁ hl => ⟨trivial, fun _ s₂ hs _ => ?_⟩
  cases hs with
  | mark => exact hk _ hx₁ hl

theorem does_answer {t : Nat × Nat} {a : A} {f : Unit → Prog (Call W R A E) (Res Ans) α}
    (hx : At L i h held s)
    (ha : ∀ s', Later i s s' → Right a (s'.served.drop (t.1 - 1)) (s'.refused i - t.2))
    (hk : ∀ s', At L i h held s' → Later i s s' → Does L env Right i Q (f ()) s') :
    Does L env Right i Q (Prog.call (.answer t a) >>= f) s := by
  refine does_call hx fun s₁ hx₁ hl => ⟨ha s₁ hl, fun _ s₂ hs _ => ?_⟩
  cases hs with
  | answer => exact hk _ hx₁ hl

end Rules

end Calls

/-! ### Tasks beside one another -/

section Tasks

variable (L : Layout W R T) (env : (e : E) → Ans e → Prop) (Right : A → List T → Nat → Prop)
  (job : ι → Prog (Call W R A E) (Res Ans) Unit → Prop)

/-- The tasks and their jobs. -/
def tasks : Tasks (Call W R A E) (Res Ans) (Shared W R T ι) ι := ⟨Step L env, job⟩

/-- What is wanted wherever the tasks stand.  Nothing is read, written or freed that is not
allocated, nor past the end of a block, and no two tasks are about to touch one block.  An
answer is right about the values the object had meanwhile.  When all are idle nothing is
allocated but the object; and until then some task can go on. -/
structure Sound (c : Tasks.Config (Call W R A E) (Res Ans) (Shared W R T ι) ι) : Prop where
  loads : ∀ {i p k}, c.Calls i (.load p k) →
    ∃ q ws, p = some q ∧ c.state.block q = some ws ∧ k < ws.length
  writes : ∀ {i p k new}, c.Calls i (.write p k new) →
    ∃ q ws, p = some q ∧ c.state.block q = some ws ∧ k + new.length ≤ ws.length
  frees : ∀ {i q}, c.Calls i (.free (some q)) → c.state.block q ≠ none
  alone : ∀ {i j o o' p}, c.Calls i o → c.Calls j o' → o.touches = some p →
    o'.touches = some p → i = j
  answers : ∀ {i t a}, c.Calls i (.answer t a) →
    Right a (c.state.served.drop (t.1 - 1)) (c.state.refused i - t.2)
  rest : (∀ i, c.prog i = pure ()) → c.state.holder = none ∧
    ∃ v f, L.object c.state.statics c.state.block = some (v, f) ∧
      c.state.served.getLast? = some v ∧ ∀ p, c.state.block p ≠ none → p ∈ f
  moves : (∃ i, c.prog i ≠ pure ()) →
    ∃ i o k r s', c.prog i = .op o k ∧ Step L env i c.state o r s'

/-- Nobody has begun. -/
def start (r : R) (v : T) : Tasks.Config (Call W R A E) (Res Ans) (Shared W R T ι) ι :=
  ⟨Shared.init r v, fun _ => pure ()⟩

/-- A job begins and ends with no block in hand and without the lock. -/
def Fit (i : ι) (p : Prog (Call W R A E) (Res Ans) Unit) : Prop :=
  ∀ s, At L i Heap.empty none s →
    Does L env Right i (fun _ s' => At L i Heap.empty none s') p s

variable {L env Right job}
  (hfit : ∀ i p, job i p → Fit L env Right i p) {r : R} {v : T}
  (h₀ : L.object r Heap.empty = some (v, [])) (hv₀ : L.valid v)
  {c : Tasks.Config (Call W R A E) (Res Ans) (Shared W R T ι) ι}
  (hr : (tasks L env job).Reach (start r v) c)

omit [DecidableEq ι] in
include h₀ hv₀ in
theorem settled_init : (Shared.init r v : Shared W R T ι).Settled L := fun _ =>
  ⟨v, [], L.reads h₀ nofun, hv₀, rfl, fun _ hp => absurd (ite_self _) hp⟩

include hfit

theorem agree : Tasks.Agree (tasks L env job) (Rely L) (fun i s s' => ∀ j, i ≠ j → Rely L j s s')
    (Permitted L env Right) (fun i => At L i Heap.empty none) where
  refl := Rely.refl
  trans _ _ _ _ := Rely.trans
  allows _ j _ _ hij h := h j hij
  job i p s hj := hfit i p hj s

include h₀ hv₀ hr

/-- Wherever they stand, what is left of every task's job is in order. -/
theorem reach_good : c.Good (tasks L env job) (Rely L) (fun i s s' => ∀ j, i ≠ j → Rely L j s s')
    (Permitted L env Right) (fun i => At L i Heap.empty none) := by
  refine Tasks.reach_stable (agree hfit) (fun i => ?_) hr
  have hat : At L i Heap.empty none (Shared.init r v : Shared W R T ι) :=
    ⟨settled_init h₀ hv₀, funext fun p => ite_self _, if_neg nofun⟩
  exact fun s' hrely => hat.relied hrely

/-- Every call is in order. -/
theorem reach_permitted {i : ι} {o : Call W R A E} (ho : c.Calls i o) :
    Permitted L env Right i c.state o :=
  (reach_good hfit h₀ hv₀ hr).calls (agree hfit) ho

/-- No two tasks are about to touch one block. -/
theorem reach_alone {i j : ι} {o o' : Call W R A E} {p : Nat} (hi : c.Calls i o)
    (hj : c.Calls j o') (ho : o.touches = some p) (ho' : o'.touches = some p) : i = j := by
  have huse : ∀ {k : ι} {o : Call W R A E}, c.Calls k o → o.touches = some p →
      c.state.MayUse k p := by
    intro k o hk ho
    have hp := reach_permitted hfit h₀ hv₀ hr hk
    cases o with
    | free q => exact Shared.mayUse_of_sees (hp p ho)
    | load q n =>
        obtain ⟨q, ws, rfl, hsees, -⟩ := hp
        obtain rfl := Option.some.inj ho
        exact (Shared.sees_eq_some hsees).1
    | write q n new =>
        obtain ⟨q, ws, rfl, hsees, -⟩ := hp
        obtain rfl := Option.some.inj ho
        exact (Shared.sees_eq_some hsees).1
    | _ => cases ho
  exact (huse hi ho).unique (huse hj ho')

/-- An idle task has nothing in hand. -/
theorem reach_idle {i : ι} (hi : c.prog i = pure ()) : At L i Heap.empty none c.state := by
  have hgood := reach_good hfit h₀ hv₀ hr i
  rw [hi] at hgood
  exact hgood c.state (Rely.refl i _)

theorem reach_settled : c.state.Settled L :=
  Tasks.reach_invariant (agree hfit) (fun _ _ _ _ _ hs hp h => Step.settled hp h hs)
    (reach_good hfit h₀ hv₀ .refl) (settled_init h₀ hv₀) hr

/-- When all are idle, what is allocated is the object that was served
last, and the lock is free. -/
theorem reach_rest (hidle : ∀ i, c.prog i = pure ()) : c.state.holder = none ∧
    ∃ v f, L.object c.state.statics c.state.block = some (v, f) ∧
      c.state.served.getLast? = some v ∧ ∀ p, c.state.block p ≠ none → p ∈ f := by
  have hat := fun i => reach_idle hfit h₀ hv₀ hr (hidle i)
  have hfree : c.state.holder = none := by
    rcases hc : c.state.holder with _ | i
    · rfl
    · exact absurd hc (hat i).not_holder
  -- What somebody owned, he would see.
  have hblock : ∀ p, c.state.block p ≠ none → c.state.guarded p = c.state.block p := by
    intro p hp
    refine if_pos ?_
    rcases hown : c.state.owner p with _ | i
    · rfl
    · have hsees : c.state.sees i p = c.state.block p := if_pos (Or.inl hown)
      rw [(hat i).sees] at hsees
      exact absurd hsees.symm hp
  obtain ⟨v, f, hobj, -, hlast, hwithin⟩ := reach_settled hfit h₀ hv₀ hr hfree
  refine ⟨hfree, v, f, L.reads hobj fun p hp => ?_, hlast, fun p hp => hwithin p ?_⟩
  · by_contra hne
    have hp' := L.live hobj p hp
    unfold Shared.guarded at hne hp'
    split at hp'
    · rename_i hown
      rw [if_pos hown] at hne
      exact hne rfl
    · exact hp' rfl
  · rw [hblock p hp]
    exact hp

/-- Unless all are idle, some task can make its call. -/
theorem reach_moves (hbusy : ∃ i, c.prog i ≠ pure ()) :
    ∃ i o k r s', c.prog i = .op o k ∧ Step L env i c.state o r s' := by
  have hcall : ∀ i, c.prog i ≠ pure () → ∃ o k, c.prog i = .op o k := by
    intro i hi
    rcases hc : c.prog i with a | ⟨o, k⟩
    · exact absurd hc hi
    · exact ⟨o, k, rfl⟩
  -- Only taking the lock can wait, and then its holder has a call to make.
  have hwaits : ∀ i o k, c.prog i = .op o k → (o = .take → c.state.holder = none) →
      ∃ r s', Step L env i c.state o r s' := by
    intro i o k hk htake
    have hp := reach_permitted hfit h₀ hv₀ hr ⟨k, hk⟩
    cases o with
    | take => exact ⟨_, _, .take (htake rfl)⟩
    | tryTake => exact ⟨_, _, .refused⟩
    | give =>
        obtain ⟨-, v, f, hobj, -⟩ := hp
        exact ⟨_, _, .give hobj⟩
    | get => exact ⟨_, _, .get⟩
    | put f => exact ⟨_, _, .put⟩
    | malloc n => exact ⟨_, _, .noMem⟩
    | free p =>
        cases p with
        | none => exact ⟨_, _, .freeNull⟩
        | some p => exact ⟨_, _, .free⟩
    | load p n =>
        obtain ⟨q, ws, rfl, hsees, hlt⟩ := hp
        exact ⟨_, _, .load (Shared.sees_eq_some hsees).2 (List.getElem?_eq_getElem hlt)⟩
    | write p n new =>
        obtain ⟨q, ws, rfl, hsees, -⟩ := hp
        exact ⟨_, _, .write (Shared.sees_eq_some hsees).2⟩
    | other e =>
        obtain ⟨a, ha⟩ := hp
        exact ⟨a, _, .other ha⟩
    | mark => exact ⟨_, _, .mark⟩
    | answer t a => exact ⟨_, _, .answer⟩
  rcases hh : c.state.holder with _ | j
  · obtain ⟨i, hi⟩ := hbusy
    obtain ⟨o, k, hk⟩ := hcall i hi
    obtain ⟨r, s', hs⟩ := hwaits i o k hk fun _ => hh
    exact ⟨i, o, k, r, s', hk, hs⟩
  · obtain ⟨o, k, hk⟩ := hcall j fun hj => (reach_idle hfit h₀ hv₀ hr hj).not_holder hh
    have htake : o ≠ .take := by
      rintro rfl
      exact reach_permitted hfit h₀ hv₀ hr ⟨k, hk⟩ hh
    obtain ⟨r, s', hs⟩ := hwaits j o k hk fun ho => absurd ho htake
    exact ⟨j, o, k, r, s', hk, hs⟩

/-- **All of this holds in any interleaving** of jobs that fit. -/
theorem reach_sound : Sound L env Right c where
  loads ho := by
    obtain ⟨q, ws, hp, hsees, hlt⟩ := reach_permitted hfit h₀ hv₀ hr ho
    exact ⟨q, ws, hp, (Shared.sees_eq_some hsees).2, hlt⟩
  writes ho := by
    obtain ⟨q, ws, hp, hsees, hle⟩ := reach_permitted hfit h₀ hv₀ hr ho
    exact ⟨q, ws, hp, (Shared.sees_eq_some hsees).2, hle⟩
  frees {i q} ho := by
    obtain ⟨ws, hsees⟩ := Option.ne_none_iff_exists'.mp (reach_permitted hfit h₀ hv₀ hr ho q rfl)
    rw [(Shared.sees_eq_some hsees).2]
    exact nofun
  alone := reach_alone hfit h₀ hv₀ hr
  answers ho := reach_permitted hfit h₀ hv₀ hr ho
  rest := reach_rest hfit h₀ hv₀ hr
  moves := reach_moves hfit h₀ hv₀ hr

end Tasks

end Mutex
