/-
Which calls each part of an update makes.

What a function does to the device can often be told from the calls it can make at all,
whatever they answer.  Each function of `blocklist.c` and `updater.c` is walked once here,
for any predicate that holds of its calls; a user says which predicate and no longer looks
at the function.  `loadSlot_swaps` does the same for the one thing a load is for: the list
it swaps in is that of its own slot, under the version it has read.
-/
import EspHole.Sinkhole.Updater

namespace EspHole.Sinkhole

open Ascii Ascending

section Only

variable {P : Op → Prop}

/-! ### A load -/

/-- The calls of a load. -/
def Op.loads : Op → Bool
  | .nvsGet _ | .heapCapsMalloc _ | .partitionRead _ _ | .hashCompute _ | .setRam _ | .fault => true
  | _ => false

theorem loadSlot_only (hP : ∀ o, Op.loads o = true → P o) (slot : Int) :
    (loadSlot slot).Only P := by
  unfold loadSlot
  refine Prog.only_call_bind.mpr ⟨hP _ rfl, fun (count : Option Nat) => ?_⟩
  rcases count with _ | count
  · trivial
  refine Prog.only_call_bind.mpr ⟨hP _ rfl, fun (sha : Option Bytes) => ?_⟩
  rcases sha with _ | shaWant
  · trivial
  refine Prog.only_ite.mpr ⟨fun _ => trivial, fun _ => Prog.only_call_bind.mpr
    ⟨hP _ rfl, fun ver => ?_⟩⟩
  rcases blocklistSlotPartition slot with _ | partSize
  · trivial
  refine Prog.only_ite.mpr ⟨fun _ => trivial, fun _ => ?_⟩
  unfold loadBuffer
  refine Prog.only_call_bind.mpr
    ⟨hP _ rfl, fun ok => Prog.only_ite.mpr ⟨fun _ => trivial, fun _ => ?_⟩⟩
  refine Prog.only_call_bind.mpr ⟨hP _ rfl, fun (buf : Option Bytes) => ?_⟩
  rcases buf with _ | buf
  · trivial
  refine Prog.only_call_bind.mpr ⟨hP _ rfl, fun (got : Option Digest) => ?_⟩
  rcases got with _ | got
  · trivial
  refine Prog.only_ite.mpr ⟨fun _ => trivial, fun _ => ?_⟩
  rcases check (fun i => (Words.words buf)[i]?) 1 (count - 1) with _ | _ | _
  · exact ⟨hP _ rfl, fun r => r.elim⟩
  · trivial
  · exact ⟨hP _ rfl, fun _ => trivial⟩

/-! ### A commit -/

/-- The calls of a commit, which records one digest. -/
def Op.Commits (digest : Digest) : Op → Prop
  | .nvsSet (.sha _) v => v = digest.bytes
  | .nvsSet _ _ | .nvsCommit _ | .getRam => True
  | o => o.loads = true

theorem Op.commits_of_loads {digest : Digest} {o : Op} (h : o.loads = true) :
    o.Commits digest := by
  cases o with
  | nvsSet k v => cases h
  | nvsCommit site => cases h
  | getRam => cases h
  | _ => exact h

theorem activateSlot_only {digest : Digest} (hP : ∀ o, Op.Commits digest o → P o) (slot : Int) :
    (activateSlot slot).Only P := by
  unfold activateSlot
  refine (loadSlot_only (fun o ho => hP o (Op.commits_of_loads ho)) slot).bind fun e =>
    Prog.only_ite.mpr ⟨fun _ => trivial, fun _ => ?_⟩
  exact Prog.only_call_bind.mpr ⟨hP _ trivial, fun _ => Prog.only_call_bind.mpr
    ⟨hP _ trivial, fun _ => trivial⟩⟩

theorem blocklistCommitSlot_only {digest : Digest} (hP : ∀ o, Op.Commits digest o → P o)
    (slot : Int) (count : Nat) (version : Bytes) :
    (blocklistCommitSlot slot count digest version).Only P := by
  unfold blocklistCommitSlot
  refine Prog.only_call_bind.mpr
    ⟨hP _ trivial, fun (ram : Ram) => Prog.only_ite.mpr ⟨fun _ => trivial, fun _ => ?_⟩⟩
  refine Prog.only_call_bind.mpr
    ⟨hP _ trivial, fun ok => Prog.only_ite.mpr ⟨fun _ => trivial, fun _ => ?_⟩⟩
  refine Prog.only_call_bind.mpr
    ⟨hP _ rfl, fun ok => Prog.only_ite.mpr ⟨fun _ => trivial, fun _ => ?_⟩⟩
  refine Prog.only_call_bind.mpr
    ⟨hP _ trivial, fun ok => Prog.only_ite.mpr ⟨fun _ => trivial, fun _ => ?_⟩⟩
  exact Prog.only_call_bind.mpr ⟨hP _ trivial, fun ok =>
    Prog.only_ite.mpr ⟨fun _ => trivial, fun _ => activateSlot_only hP slot⟩⟩

/-! ### A download -/

/-- The calls of a download. -/
def Op.downloads : Op → Bool
  | .partitionErase _ _ | .partitionWrite _ _ _ => true
  | .hashSetup | .hashUpdate _ | .hashCompute _ => true
  | .httpInit _ | .httpOpen | .httpStatus | .httpRead _ => true
  | _ => false

theorem downloadLoop_only (hP : ∀ o, Op.downloads o = true → P o) (m : Manifest) (slot : Int)
    (left : Nat) : ∀ fed : Bytes, m.size - fed.length = left →
      (downloadLoop m slot fed).Only P := by
  induction left using Nat.strong_induction_on with
  | _ left ih =>
      intro fed hleft
      rw [downloadLoop]
      refine Prog.only_call_bind.mpr ⟨hP _ rfl, fun (r : Option Bytes) => ?_⟩
      rcases r with _ | _ | ⟨b, bs⟩
      · trivial
      · trivial
      show Prog.Only _ (if _ then _ else _)
      by_cases hroom : fed.length + (b :: bs).length > m.size
      · rw [if_pos hroom]
        trivial
      rw [if_neg hroom]
      refine Prog.only_call_bind.mpr
        ⟨hP _ rfl, fun ok => Prog.only_ite.mpr ⟨fun _ => trivial, fun _ => ?_⟩⟩
      refine Prog.only_call_bind.mpr
        ⟨hP _ rfl, fun ok => Prog.only_ite.mpr ⟨fun _ => trivial, fun _ => ?_⟩⟩
      refine ih _ ?_ _ rfl
      simp only [List.length_append, List.length_cons] at hroom ⊢
      omega

theorem downloadToSlot_only (hP : ∀ o, Op.downloads o = true → P o) (m : Manifest) (slot : Int) :
    (downloadToSlot m slot).Only P := by
  unfold downloadToSlot
  rcases blocklistSlotPartition slot with _ | partSize
  · trivial
  refine Prog.only_ite.mpr ⟨fun _ => trivial, fun _ => Prog.only_call_bind.mpr
    ⟨hP _ rfl, fun ok => Prog.only_ite.mpr ⟨fun _ => trivial, fun _ => ?_⟩⟩⟩
  refine Prog.only_call_bind.mpr
    ⟨hP _ rfl, fun ok => Prog.only_ite.mpr ⟨fun _ => trivial, fun _ => ?_⟩⟩
  refine Prog.only_call_bind.mpr
    ⟨hP _ rfl, fun ok => Prog.only_ite.mpr ⟨fun _ => trivial, fun _ => ?_⟩⟩
  refine Prog.only_call_bind.mpr
    ⟨hP _ rfl, fun ok => Prog.only_ite.mpr ⟨fun _ => trivial, fun _ => ?_⟩⟩
  refine Prog.only_call_bind.mpr
    ⟨hP _ rfl, fun status => Prog.only_ite.mpr ⟨fun _ => trivial, fun _ => ?_⟩⟩
  refine (downloadLoop_only hP m slot _ [] rfl).bind fun r => ?_
  rcases r with e | fed
  · trivial
  refine Prog.only_ite.mpr ⟨fun _ => trivial, fun _ => Prog.only_call_bind.mpr
    ⟨hP _ rfl, fun (got : Option Digest) => ?_⟩⟩
  rcases got with _ | got
  · trivial
  · exact Prog.only_ite.mpr ⟨fun _ => trivial, fun _ => trivial⟩

end Only

/-! ### What a load swaps in -/

section Swaps

variable {S : Type} {step : Prog.StepRel Op Res S} {J : S → Prop} {slot : Int}

/-- Until it swaps, in states that its reads keep in `J`, a load only reads; then the list it
installs goes by this slot and this version. -/
abbrev SwapGuard (J : S → Prop) (slot : Int) (version : Bytes) (s : S) (o : Op) : Prop :=
  J s ∧ o.loads = true ∧ ∀ ram, o = .setRam ram → ram.active = slot ∧ ram.version = version

/-- It has failed, and no list was swapped in, or the last call was the swap. -/
abbrev Swapped (step : Prog.StepRel Op Res S) (J : S → Prop) (slot : Int) (version : Bytes)
    (e : EspErr) (s : S) : Prop :=
  (e ≠ .ok ∧ J s) ∨ e = .ok ∧ ∃ s₀ ram, J s₀ ∧ ram.active = slot ∧ ram.version = version ∧
    step s₀ (.setRam ram) () s

theorem loadBuffer_swaps
    (hJ : ∀ s o r s', J s → o.loads = true → o.reads = true → step s o r s' → J s')
    (count : Nat) (shaWant version : Bytes) {s : S} (hs : J s) :
    (loadBuffer slot count shaWant version).Safe step (SwapGuard J slot version)
      (Swapped step J slot version) s := by
  unfold loadBuffer
  refine Prog.safe_call_bind.mpr ⟨⟨hs, rfl, nofun⟩, fun (ok : Bool) s₁ h₁ => ?_⟩
  have hs₁ := hJ _ _ _ _ hs rfl rfl h₁
  cases ok with
  | false => exact Or.inl ⟨by decide, hs₁⟩
  | true =>
  refine Prog.safe_call_bind.mpr ⟨⟨hs₁, rfl, nofun⟩, fun (buf : Option Bytes) s₂ h₂ => ?_⟩
  have hs₂ := hJ _ _ _ _ hs₁ rfl rfl h₂
  rcases buf with _ | buf
  · exact Or.inl ⟨by decide, hs₂⟩
  refine Prog.safe_call_bind.mpr ⟨⟨hs₂, rfl, nofun⟩, fun (got : Option Digest) s₃ h₃ => ?_⟩
  have hs₃ := hJ _ _ _ _ hs₂ rfl rfl h₃
  rcases got with _ | got
  · exact Or.inl ⟨by decide, hs₃⟩
  show Prog.Safe _ _ _ (if _ then _ else _) s₃
  by_cases hdig : got.bytes ≠ shaWant
  · rw [if_pos hdig]
    exact Or.inl ⟨by decide, hs₃⟩
  rw [if_neg hdig]
  rcases check (fun i => (Words.words buf)[i]?) 1 (count - 1) with _ | ok
  · exact ⟨⟨hs₃, rfl, nofun⟩, fun r => r.elim⟩
  · cases ok with
    | false => exact Or.inl ⟨by decide, hs₃⟩
    | true =>
        refine ⟨⟨hs₃, rfl, fun ram hram => ?_⟩, fun _ s₄ h₄ => ?_⟩
        · obtain rfl := Op.setRam.inj hram
          exact ⟨rfl, rfl⟩
        · exact Or.inr ⟨rfl, s₃, _, hs₃, rfl, rfl, h₄⟩

/-- **A load installs its own slot**, under the version that it has read. -/
theorem loadSlot_swaps (step : Prog.StepRel Op Res S) (slot : Int) (ver : Option Bytes)
    (hJ : ∀ s o r s', J s → o.loads = true → o.reads = true → step s o r s' → J s')
    (hver : ∀ s r s', J s → step s (.nvsGet (.ver slot)) r s' → r = ver)
    {s : S} (hs : J s) :
    (loadSlot slot).Safe step (SwapGuard J slot (storedVersion ver))
      (Swapped step J slot (storedVersion ver)) s := by
  unfold loadSlot
  refine Prog.safe_call_bind.mpr ⟨⟨hs, rfl, nofun⟩, fun (count : Option Nat) s₁ h₁ => ?_⟩
  have hs₁ := hJ _ _ _ _ hs rfl rfl h₁
  rcases count with _ | count
  · exact Or.inl ⟨by decide, hs₁⟩
  refine Prog.safe_call_bind.mpr ⟨⟨hs₁, rfl, nofun⟩, fun (sha : Option Bytes) s₂ h₂ => ?_⟩
  have hs₂ := hJ _ _ _ _ hs₁ rfl rfl h₂
  rcases sha with _ | shaWant
  · exact Or.inl ⟨by decide, hs₂⟩
  show Prog.Safe _ _ _ (if _ then _ else _) s₂
  by_cases hlen : shaWant.length ≠ 32
  · rw [if_pos hlen]
    exact Or.inl ⟨by decide, hs₂⟩
  rw [if_neg hlen]
  refine Prog.safe_call_bind.mpr ⟨⟨hs₂, rfl, nofun⟩, fun (got : Option Bytes) s₃ h₃ => ?_⟩
  have hs₃ := hJ _ _ _ _ hs₂ rfl rfl h₃
  obtain rfl : got = ver := hver _ _ _ hs₂ h₃
  rcases blocklistSlotPartition slot with _ | partSize
  · exact Or.inl ⟨by decide, hs₃⟩
  show Prog.Safe _ _ _ (if _ then _ else _) s₃
  by_cases hrange : count < blocklistMinDomains ∨ sizeT (count * 8) > partSize
  · rw [if_pos hrange]
    exact Or.inl ⟨by decide, hs₃⟩
  rw [if_neg hrange]
  exact loadBuffer_swaps hJ count shaWant (storedVersion got) hs₃

end Swaps

end EspHole.Sinkhole
