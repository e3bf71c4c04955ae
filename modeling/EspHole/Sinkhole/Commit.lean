/-
One commit against a fixed pattern of failing calls.

`Sinkhole/Run.lean` speaks of what may happen; here each call either fails or does not,
and `handle` computes.  `Loadable` is the condition under which `load_slot` succeeds,
down to the calls that must not fail, and `loadSlot_run` says that it is exact.  What
`blocklist_commit_slot` returns and leaves is then read off for every pattern.
-/
import EspHole.Lib.Sha256
import EspHole.Sinkhole.Updater

namespace EspHole.Sinkhole

open Ascending Ascii

variable {sha256 : Bytes → Digest} {fails : Op → Bool}

theorem readInbox_length (room : Nat) (inbox : List Bytes) :
    (readInbox room inbox).1.length ≤ room := by
  unfold readInbox
  split
  · exact Nat.zero_le _
  · split
    · assumption
    · simp

/-- A failing flash operation that changes nothing. -/
theorem World.Touches.refl {rot : Prop} (slot : Int) (lo hi : Nat) (s : World) :
    s.Touches rot slot lo hi s := ⟨rfl, rfl, rfl, List.Subset.refl _, fun _ _ _ _ => rfl⟩

theorem World.erase_touches {rot : Prop} (s : World) (slot : Int) (n : Nat) :
    s.Touches rot slot 0 n (s.erase slot n) := by
  refine ⟨rfl, rfl, rfl, List.Subset.refl _, fun _ sl a hout => ?_⟩
  by_cases hsl : sl = slot
  · subst hsl
    have ha : ¬ a < n := by omega
    simp [World.erase, ha]
  · simp [World.erase, hsl]

theorem World.program_touches {rot : Prop} (s : World) (slot : Int) (off : Nat) (data : Bytes) :
    s.Touches rot slot off (off + data.length) (s.program slot off data) := by
  refine ⟨rfl, rfl, rfl, List.Subset.refl _, fun _ sl a hout => ?_⟩
  by_cases hsl : sl = slot
  · subst hsl
    rcases (by omega : a < off ∨ off + data.length ≤ a) with hlo | hhi
    · have ha : ¬ off ≤ a := by omega
      simp [World.program, ha]
    · have hout : data.length ≤ a - off := by omega
      have hff : ∀ b : UInt8, b &&& 255 = b := Ascii.forall_byte (by decide +kernel)
      simp [World.program, List.getElem?_eq_none hout, hff]
  · simp [World.program, hsl]

/-- A computed answer is one of the possible ones, where reads may fail. -/
theorem handle_answers {F : Faults} (hreads : ∀ o, fails o = true → F.reads)
    {s s' : World} {o : Op} {r : Res o} (hoffers : ∀ m, o = .announce m → F.offers m)
    (h : handle sha256 fails o s = some (r, s')) : Answers sha256 F s o r s' := by
  have hsome : ∀ {α : Type} {a b : α × World}, some a = some b → a = b := fun h => Option.some.inj h
  cases o with
  | nvsGet k =>
      obtain ⟨rfl, rfl⟩ := Prod.mk.inj (hsome h)
      refine ⟨.refl s, ?_⟩
      by_cases hf : fails (.nvsGet k) = true
      · exact Or.inr ⟨hreads _ hf, if_pos hf⟩
      · exact Or.inl (if_neg hf)
  | nvsSet k v =>
      by_cases hf : fails (.nvsSet k v) = true
      · rw [handle, if_pos hf] at h
        obtain ⟨rfl, rfl⟩ := Prod.mk.inj (hsome h)
        exact Or.inr ⟨rfl, .refl s⟩
      · rw [handle, if_neg hf] at h
        obtain ⟨rfl, rfl⟩ := Prod.mk.inj (hsome h)
        exact Or.inl (.refl _)
  | heapCapsMalloc n =>
      obtain ⟨rfl, rfl⟩ := Prod.mk.inj (hsome h)
      refine ⟨.refl s, ?_⟩
      by_cases hf : fails (.heapCapsMalloc n) = true
      · exact Or.inr (hreads _ hf)
      · exact Or.inl (by simpa using hf)
  | partitionRead slot n =>
      obtain ⟨rfl, rfl⟩ := Prod.mk.inj (hsome h)
      refine ⟨.refl s, ?_⟩
      by_cases hf : fails (.partitionRead slot n) = true
      · exact Or.inr ⟨hreads _ hf, if_pos hf⟩
      · exact Or.inl ⟨s.slotBytes slot n, if_neg hf, by simp, fun _ => rfl⟩
  | partitionErase slot n =>
      by_cases hf : fails (.partitionErase slot n) = true
      · rw [handle, if_pos hf] at h
        obtain ⟨rfl, rfl⟩ := Prod.mk.inj (hsome h)
        exact ⟨.refl .., fun hb => by cases hb⟩
      · rw [handle, if_neg hf] at h
        obtain ⟨rfl, rfl⟩ := Prod.mk.inj (hsome h)
        refine ⟨s.erase_touches slot n, fun _ _ a ha => ?_⟩
        simp [World.erase, ha]
  | partitionWrite slot off data =>
      by_cases hf : fails (.partitionWrite slot off data) = true
      · rw [handle, if_pos hf] at h
        obtain ⟨rfl, rfl⟩ := Prod.mk.inj (hsome h)
        exact ⟨.refl .., fun hb => by cases hb⟩
      · rw [handle, if_neg hf] at h
        obtain ⟨rfl, rfl⟩ := Prod.mk.inj (hsome h)
        exact ⟨s.program_touches slot off data, fun _ _ => rfl⟩
  | hashCompute data =>
      obtain ⟨rfl, rfl⟩ := Prod.mk.inj (hsome h)
      refine ⟨⟨rfl, rfl, rfl, List.subset_cons_self _ _, fun _ => rfl⟩, List.mem_cons_self, ?_⟩
      by_cases hf : fails (.hashCompute data) = true
      · exact Or.inr ⟨hreads _ hf, if_pos hf⟩
      · exact Or.inl (if_neg hf)
  | httpRead room =>
      by_cases hf : fails (.httpRead room) = true
      · rw [handle, if_pos hf] at h
        obtain ⟨rfl, rfl⟩ := Prod.mk.inj (hsome h)
        exact ⟨.refl s, fun chunk hc => by cases hc⟩
      · rw [handle, if_neg hf] at h
        obtain ⟨rfl, rfl⟩ := Prod.mk.inj (hsome h)
        refine ⟨⟨rfl, rfl, rfl, List.Subset.refl _, fun _ => rfl⟩, fun chunk hc => ?_⟩
        obtain rfl := Option.some.inj hc
        exact readInbox_length room s.inbox
  | setRam ram =>
      obtain ⟨rfl, rfl⟩ := Prod.mk.inj (hsome h)
      exact .refl _
  | announce m =>
      obtain ⟨rfl, rfl⟩ := Prod.mk.inj (hsome h)
      exact ⟨.refl _, hoffers m rfl⟩
  | getRam =>
      obtain ⟨rfl, rfl⟩ := Prod.mk.inj (hsome h)
      exact ⟨.refl s, rfl⟩
  | fault => cases h
  | _ =>
      obtain ⟨rfl, rfl⟩ := Prod.mk.inj (hsome h)
      exact .refl s

/-! ### When a load succeeds -/

/-- The slot holds a valid list, and no call that the load depends on fails. -/
structure Loadable (sha256 : Bytes → Digest) (fails : Op → Bool) (s : World) (slot : Int)
    (count : Nat) : Prop where
  valid : ValidSlot sha256 s slot count
  getCnt : fails (.nvsGet (.cnt slot)) = false
  getSha : fails (.nvsGet (.sha slot)) = false
  malloc : fails (.heapCapsMalloc (8 * count)) = false
  read : fails (.partitionRead slot (8 * count)) = false
  hash : fails (.hashCompute (s.slotBytes slot (8 * count))) = false

/-- The version a load reads back. -/
def readBackVersion (fails : Op → Bool) (s : World) (slot : Int) : Bytes :=
  storedVersion (if fails (.nvsGet (.ver slot)) then none else s.nvs (.ver slot))

/-- The state a load of `count` entries leaves. -/
def World.install (s : World) (slot : Int) (count : Nat) (version : Bytes) : World :=
  { s with
    ram := ⟨Words.words (s.slotBytes slot (8 * count)), count, slot, version⟩
    hashed := s.slotBytes slot (8 * count) :: s.hashed }

theorem sizeT_mul_eight {count : Nat} (h : 8 * count ≤ slotSize) :
    sizeT (count * 8) = 8 * count := by
  unfold slotSize at h
  rw [sizeT_of_lt (by omega), Nat.mul_comm]

theorem loadSlot_run_loadable {s : World} {slot : Int} {count : Nat}
    (h : Loadable sha256 fails s slot count) :
    (loadSlot slot).run (handle sha256 fails) s =
      some (.ok, s.install slot count (readBackVersion fails s slot)) := by
  have hv := h.valid
  have hsize := sizeT_mul_eight hv.fits
  have hcheck : check (fun i => (Words.words (s.slotBytes slot (8 * count)))[i]?) 1 (count - 1) =
      some true := by
    rw [check_words (World.slotBytes_length s slot _), decide_eq_true hv.ascending]
  have hrange : ¬ (count < blocklistMinDomains ∨ 8 * count > slotSize) := by
    have := hv.floor
    have := hv.fits
    omega
  unfold loadSlot loadBuffer
  simp [handle, h.getCnt, h.getSha, hv.stored, hv.digest, hsize, hrange, h.malloc, h.read, h.hash,
    hcheck, blocklistSlotPartition_isSlot hv.isSlot, World.install, readBackVersion]

/-- A fault model that has every answer of `handle`. -/
def anyFailure : Faults := ⟨True, False, fun _ => True⟩

theorem handle_anyFailure {s s' : World} {o : Op} {r : Res o}
    (h : handle sha256 fails o s = some (r, s')) : Answers sha256 anyFailure s o r s' :=
  handle_answers (fun _ _ => trivial) (fun _ _ => trivial) h

/-- A load that succeeded met the condition. -/
theorem loadable_of_run {s s' : World} {slot : Int}
    (hrun : (loadSlot slot).run (handle sha256 fails) s = some (.ok, s')) :
    ∃ count, Loadable sha256 fails s slot count := by
  have hpost : LoadPost sha256 anyFailure s slot .ok s' :=
    (loadSlot_safe s slot).run (h := handle sha256 fails)
      (fun _ _ _ _ h => handle_anyFailure h) hrun
  rcases hpost with ⟨hne, -, -⟩ | ⟨-, hact, hstill, buf, hl⟩
  · exact absurd rfl hne
  have hbuf := hl.content not_false
  have hflash := hstill.flash not_false
  have hsame : s'.slotBytes slot (8 * s'.ram.count) = s.slotBytes slot (8 * s'.ram.count) := by
    unfold World.slotBytes
    rw [hflash]
  have hv : ValidSlot sha256 s slot s'.ram.count := by
    rw [hact] at hbuf
    have hstored := hl.stored
    have hdigest := hl.digest
    have hasc := hl.ascending
    rw [hact, hstill.nvs] at hstored hdigest
    rw [hl.hashes] at hasc
    rw [hbuf, hsame] at hdigest hasc
    exact ⟨hact ▸ hl.isSlot, hstored, hl.floor, hl.fits, hdigest, hasc⟩
  have hsize := sizeT_mul_eight hv.fits
  have hrange : ¬ (s'.ram.count < blocklistMinDomains ∨ 8 * s'.ram.count > slotSize) := by
    have := hv.floor
    have := hv.fits
    omega
  have hpart := blocklistSlotPartition_isSlot hv.isSlot
  -- Any of the calls failing would have shown.
  unfold loadSlot loadBuffer at hrun
  have h1 : fails (.nvsGet (.cnt slot)) = false := by
    by_contra hf
    rw [Bool.not_eq_false] at hf
    simp [handle, hf] at hrun
  have h2 : fails (.nvsGet (.sha slot)) = false := by
    by_contra hf
    rw [Bool.not_eq_false] at hf
    simp [handle, h1, hv.stored, hf] at hrun
  have h3 : fails (.heapCapsMalloc (8 * s'.ram.count)) = false := by
    by_contra hf
    rw [Bool.not_eq_false] at hf
    simp [handle, h1, h2, hv.stored, hv.digest, hpart, hsize, hrange, hf] at hrun
  have h4 : fails (.partitionRead slot (8 * s'.ram.count)) = false := by
    by_contra hf
    rw [Bool.not_eq_false] at hf
    simp [handle, h1, h2, h3, hv.stored, hv.digest, hpart, hsize, hrange, hf] at hrun
  have h5 : fails (.hashCompute (s.slotBytes slot (8 * s'.ram.count))) = false := by
    by_contra hf
    rw [Bool.not_eq_false] at hf
    simp [handle, h1, h2, h3, h4, hv.stored, hv.digest, hpart, hsize, hrange, hf] at hrun
  exact ⟨s'.ram.count, hv, h1, h2, h3, h4, h5⟩

/-- **What `load_slot` does against a fixed pattern of failures**: the condition decides. -/
theorem loadSlot_run {s s' : World} {slot : Int} {e : EspErr}
    (hrun : (loadSlot slot).run (handle sha256 fails) s = some (e, s')) :
    (∃ count, Loadable sha256 fails s slot count ∧ e = .ok ∧
        s' = s.install slot count (readBackVersion fails s slot)) ∨
      ((∀ count, ¬ Loadable sha256 fails s slot count) ∧ e ≠ .ok ∧ s.Still False s') := by
  by_cases h : ∃ count, Loadable sha256 fails s slot count
  · obtain ⟨count, hl⟩ := h
    rw [loadSlot_run_loadable hl] at hrun
    obtain ⟨rfl, rfl⟩ := Prod.mk.inj (Option.some.inj hrun)
    exact Or.inl ⟨count, hl, rfl, rfl⟩
  · have hpost : LoadPost sha256 anyFailure s slot e s' :=
      (loadSlot_safe s slot).run (h := handle sha256 fails)
      (fun _ _ _ _ h => handle_anyFailure h) hrun
    rcases hpost with ⟨hne, hstill, -⟩ | ⟨rfl, -⟩
    · exact Or.inr ⟨fun count hl => h ⟨count, hl⟩, hne, hstill⟩
    · exact absurd (loadable_of_run hrun) h

/-! ### What a commit returns and leaves -/

/-- A slot's three keys written. -/
def World.record (s : World) (slot : Int) (count : Nat) (digest : Digest) (version : Bytes) :
    World :=
  ((s.setNvs (.cnt slot) (sizeT count)).setNvs (.sha slot) digest.bytes).setNvs (.ver slot) version

section Record

variable (s : World) (slot : Int) (count : Nat) (digest : Digest) (version : Bytes)

theorem record_cnt : (s.record slot count digest version).nvs (.cnt slot) = some (sizeT count) := by
  unfold World.record
  rw [World.setNvs_of_ne _ _ (by simp), World.setNvs_of_ne _ _ (by simp), World.setNvs_same]

theorem record_sha : (s.record slot count digest version).nvs (.sha slot) = some digest.bytes := by
  unfold World.record
  rw [World.setNvs_of_ne _ _ (by simp), World.setNvs_same]

theorem record_ver : (s.record slot count digest version).nvs (.ver slot) = some version := by
  unfold World.record
  rw [World.setNvs_same]

theorem record_active : (s.record slot count digest version).nvs .active = s.nvs .active := by
  unfold World.record
  rw [World.setNvs_of_ne _ _ (by simp), World.setNvs_of_ne _ _ (by simp),
    World.setNvs_of_ne _ _ (by simp)]

end Record

/-- The commit gets as far as serving the slot: its arguments are in order, the metadata
is written, and the load it makes then succeeds. -/
structure CommitLoads (sha256 : Bytes → Digest) (fails : Op → Bool) (s : World) (slot : Int)
    (count : Nat) (digest : Digest) (version : Bytes) : Prop where
  isSlot : IsSlot slot
  inactive : slot ≠ s.ram.active
  setCnt : fails (.nvsSet (.cnt slot) (sizeT count)) = false
  setSha : fails (.nvsSet (.sha slot) digest.bytes) = false
  setVer : fails (.nvsSet (.ver slot) version) = false
  commit : fails (.nvsCommit .metadata) = false
  load : Loadable sha256 fails (s.record slot count digest version) slot (sizeT count)

/-- The slot number as the active-slot record stores it. -/
def activeRecord (slot : Int) : UInt8 := slot.toNat.toUInt8

/-- The state once the slot is served, before the active-slot record is written. -/
def World.commitServed (fails : Op → Bool) (s : World) (slot : Int) (count : Nat)
    (digest : Digest) (version : Bytes) : World :=
  (s.record slot count digest version).install slot (sizeT count)
    (readBackVersion fails (s.record slot count digest version) slot)

/-- The state at the end, the active-slot record written or not. -/
def World.commitDone (fails : Op → Bool) (s : World) (slot : Int) (count : Nat)
    (digest : Digest) (version : Bytes) : World :=
  if fails (.nvsSet .active (activeRecord slot)) then
    s.commitServed fails slot count digest version
  else (s.commitServed fails slot count digest version).setNvs .active (activeRecord slot)

variable {s : World} {slot : Int} {count : Nat} {digest : Digest} {version : Bytes}

theorem IsSlot.range (h : IsSlot slot) (hne : slot ≠ s.ram.active) :
    ¬ (slot < 0 ∨ slot ≥ blocklistSlots ∨ slot = s.ram.active) := by
  obtain ⟨h0, h2⟩ := h
  rintro (hlt | hge | heq)
  · omega
  · omega
  · exact hne heq

/-- With the metadata written, the rest is the activation. -/
theorem commit_run_record
    (hrange : ¬ (slot < 0 ∨ slot ≥ blocklistSlots ∨ slot = s.ram.active))
    (h1 : fails (.nvsSet (.cnt slot) (sizeT count)) = false)
    (h2 : fails (.nvsSet (.sha slot) digest.bytes) = false)
    (h3 : fails (.nvsSet (.ver slot) version) = false)
    (h4 : fails (.nvsCommit .metadata) = false) :
    (blocklistCommitSlot slot count digest version).run (handle sha256 fails) s =
      (activateSlot slot).run (handle sha256 fails) (s.record slot count digest version) := by
  unfold blocklistCommitSlot
  simp [handle, hrange, h1, h2, h3, h4, World.record]

theorem commit_run_loads (h : CommitLoads sha256 fails s slot count digest version) :
    (blocklistCommitSlot slot count digest version).run (handle sha256 fails) s =
      some (if fails (.nvsCommit .active) then .driver else .ok,
        s.commitDone fails slot count digest version) := by
  rw [commit_run_record (h.isSlot.range h.inactive) h.setCnt h.setSha h.setVer h.commit]
  unfold activateSlot
  rw [Prog.run_bind, loadSlot_run_loadable h.load]
  unfold World.commitDone activeRecord
  cases hset : fails (.nvsSet .active slot.toNat.toUInt8) <;>
    cases hcommit : fails (.nvsCommit .active) <;>
    simp [handle, -Nat.toUInt8_eq, hset, hcommit, World.commitServed]

/-- Short of that, a commit fails and leaves what is served, and the active-slot record. -/
theorem commit_run_fails {e : EspErr} {s' : World}
    (h : ¬ CommitLoads sha256 fails s slot count digest version)
    (hrun : (blocklistCommitSlot slot count digest version).run (handle sha256 fails) s =
      some (e, s')) :
    e ≠ .ok ∧ s'.ram = s.ram ∧ s'.nvs .active = s.nvs .active := by
  by_cases hrange : slot < 0 ∨ slot ≥ blocklistSlots ∨ slot = s.ram.active
  · simp [blocklistCommitSlot, handle, hrange] at hrun
    obtain ⟨rfl, rfl⟩ := hrun
    exact ⟨by decide, rfl, rfl⟩
  cases h1 : fails (.nvsSet (.cnt slot) (sizeT count)) with
  | true =>
      simp [blocklistCommitSlot, handle, hrange, h1] at hrun
      obtain ⟨rfl, rfl⟩ := hrun
      exact ⟨by decide, rfl, rfl⟩
  | false =>
  cases h2 : fails (.nvsSet (.sha slot) digest.bytes) with
  | true =>
      simp [blocklistCommitSlot, handle, hrange, h1, h2] at hrun
      obtain ⟨rfl, rfl⟩ := hrun
      exact ⟨by decide, rfl, World.setNvs_of_ne _ _ (by simp)⟩
  | false =>
  cases h3 : fails (.nvsSet (.ver slot) version) with
  | true =>
      simp [blocklistCommitSlot, handle, hrange, h1, h2, h3] at hrun
      obtain ⟨rfl, rfl⟩ := hrun
      refine ⟨by decide, rfl, ?_⟩
      rw [World.setNvs_of_ne _ _ (by simp), World.setNvs_of_ne _ _ (by simp)]
  | false =>
  cases h4 : fails (.nvsCommit .metadata) with
  | true =>
      simp [blocklistCommitSlot, handle, hrange, h1, h2, h3, h4] at hrun
      obtain ⟨rfl, rfl⟩ := hrun
      exact ⟨by decide, rfl, record_active s slot count digest version⟩
  | false =>
      have hslot : IsSlot slot := ⟨by omega, by omega⟩
      have hno : ∀ n, ¬ Loadable sha256 fails (s.record slot count digest version) slot n := by
        intro n hl
        have hn := hl.valid.stored
        rw [record_cnt] at hn
        obtain rfl := Option.some.inj hn
        exact h ⟨hslot, fun he => hrange (Or.inr (Or.inr he)), h1, h2, h3, h4, hl⟩
      have hact : (activateSlot slot).run (handle sha256 fails)
          (s.record slot count digest version) = some (e, s') := by
        rw [← commit_run_record hrange h1 h2 h3 h4]
        exact hrun
      unfold activateSlot at hact
      rw [Prog.run_bind] at hact
      obtain ⟨⟨e₁, s₁⟩, hload, hact⟩ := Option.bind_eq_some_iff.mp hact
      rcases loadSlot_run hload with ⟨n, hl, -⟩ | ⟨-, hne, hstill⟩
      · exact absurd hl (hno n)
      · simp [hne] at hact
        obtain ⟨rfl, rfl⟩ := hact
        refine ⟨hne, hstill.ram, ?_⟩
        rw [hstill.nvs]
        exact record_active s slot count digest version

/-! ### All or nothing -/

/-- A boot whose record names a valid slot serves that slot. -/
theorem boot_run_recorded {s : World} {slot : Int} {count : Nat}
    (hrec : s.nvs .active = some (activeRecord slot)) (hv : ValidSlot sha256 s slot count) :
    blocklistInit.run (handle sha256 noFailure) s =
      some (.ok, s.install slot count (readBackVersion noFailure s slot)) := by
  have hslot := slot_toUInt8 hv.isSlot
  have hl : Loadable sha256 noFailure s slot count := ⟨hv, rfl, rfl, rfl, rfl, rfl⟩
  have hget : (nvsGet .active).run (handle sha256 noFailure) s =
      some (some (activeRecord slot), s) := by
    rw [Prog.run_call]
    show some (s.nvs .active, s) = _
    rw [hrec]
  unfold blocklistInit
  rw [Prog.run_bind, hget]
  simp only [Option.bind_some, Option.getD_some, activeRecord, hslot]
  rw [if_pos hv.isSlot.2, Prog.run_bind, loadSlot_run_loadable hl]
  rfl

/-- What a boot makes of this state, no call failing. -/
def BootsTo (sha256 : Bytes → Digest) (s : World) (ram : Ram) : Prop :=
  ∃ s', blocklistInit.run (handle sha256 noFailure) { s with ram := Ram.init } = some (.ok, s') ∧
    s'.ram = ram

/-- The header's promise: on `ESP_OK` the new list is served under its version and the
record names its slot, so that the next boot serves it too; otherwise neither has changed. -/
def AllOrNothing (sha256 : Bytes → Digest) (fails : Op → Bool) (s : World) (slot : Int)
    (count : Nat) (digest : Digest) (version : Bytes) : Prop :=
  ∀ e s', (blocklistCommitSlot slot count digest version).run (handle sha256 fails) s =
      some (e, s') →
    (e = .ok →
      s'.ram = ⟨Words.words (s.slotBytes slot (8 * sizeT count)), sizeT count, slot, version⟩ ∧
        s'.nvs .active = some (activeRecord slot) ∧ BootsTo sha256 s' s'.ram) ∧
    (e ≠ .ok → s'.ram = s.ram ∧ s'.nvs .active = s.nvs .active)

theorem commitDone_ram : (s.commitDone fails slot count digest version).ram =
    ⟨Words.words (s.slotBytes slot (8 * sizeT count)), sizeT count, slot,
      readBackVersion fails (s.record slot count digest version) slot⟩ := by
  unfold World.commitDone
  split <;> rfl

theorem commitDone_active : (s.commitDone fails slot count digest version).nvs .active =
    if fails (.nvsSet .active (activeRecord slot)) then s.nvs .active
    else some (activeRecord slot) := by
  unfold World.commitDone
  by_cases hf : fails (.nvsSet .active (activeRecord slot)) = true
  · rw [if_pos hf, if_pos hf]
    exact record_active s slot count digest version
  · rw [if_neg hf, if_neg hf, World.setNvs_same]

theorem readBackVersion_record (s : World) (count : Nat) (digest : Digest) :
    readBackVersion fails (s.record slot count digest version) slot = version ↔
      version = [] ∨
        version.length < blocklistVersionMax ∧ fails (.nvsGet (.ver slot)) = false := by
  unfold readBackVersion
  rw [record_ver]
  by_cases hf : fails (.nvsGet (.ver slot)) = true
  · simp [hf, storedVersion, eq_comm]
  · by_cases hlen : version.length < blocklistVersionMax
    · simp [hf, storedVersion, hlen]
    · simp [hf, storedVersion, hlen, eq_comm]

theorem commitDone_flash : (s.commitDone fails slot count digest version).flash = s.flash := by
  unfold World.commitDone
  split <;> rfl

theorem commitDone_nvs {k : Key} (hk : k ≠ .active) :
    (s.commitDone fails slot count digest version).nvs k =
      (s.record slot count digest version).nvs k := by
  unfold World.commitDone
  split
  · rfl
  · rw [World.setNvs_of_ne _ _ hk]
    rfl

/-- Once the record names the slot and the version can be read back, a boot serves what
the commit served. -/
theorem commitDone_boots (hl : CommitLoads sha256 fails s slot count digest version)
    (hrec : (s.commitDone fails slot count digest version).nvs .active = some (activeRecord slot))
    (hversion : version = [] ∨
      version.length < blocklistVersionMax ∧ fails (.nvsGet (.ver slot)) = false) :
    BootsTo sha256 (s.commitDone fails slot count digest version)
      (s.commitDone fails slot count digest version).ram := by
  generalize hdone : s.commitDone fails slot count digest version = t at hrec
  have hkeys : ∀ k, k ≠ .active → t.nvs k = (s.record slot count digest version).nvs k :=
    fun k hk => hdone ▸ commitDone_nvs hk
  have hflash : t.flash = s.flash := hdone ▸ commitDone_flash
  have hv : ValidSlot sha256 { t with ram := Ram.init } slot (sizeT count) :=
    hl.load.valid.congr (hkeys _ (by simp)) (hkeys _ (by simp)) fun a => by
      show t.flash slot a = _
      rw [hflash]
      rfl
  refine ⟨_, boot_run_recorded (s := { t with ram := Ram.init }) hrec hv, ?_⟩
  have hread : readBackVersion noFailure { t with ram := Ram.init } slot = version := by
    have hver : t.nvs (.ver slot) = some version := (hkeys _ (by simp)).trans (record_ver ..)
    show storedVersion (t.nvs (.ver slot)) = version
    rw [hver]
    rcases hversion with rfl | ⟨hlen, -⟩
    · rfl
    · exact if_pos hlen
  rw [← hdone, commitDone_ram, (readBackVersion_record s count digest).mpr hversion, hdone]
  simp only [World.install, hread]
  simp only [World.slotBytes, hflash]

/-- **Exactly when a commit keeps the header's promise**: unless it gets as far as serving
the slot; or, if it does, when the last commit succeeds, the record is written or names
the slot already, and the version reads back. -/
theorem commit_allOrNothing_iff (sha256 : Bytes → Digest) (fails : Op → Bool) (s : World)
    (slot : Int) (count : Nat) (digest : Digest) (version : Bytes) :
    AllOrNothing sha256 fails s slot count digest version ↔
      (CommitLoads sha256 fails s slot count digest version →
        fails (.nvsCommit .active) = false ∧
        (fails (.nvsSet .active (activeRecord slot)) = false ∨
          s.nvs .active = some (activeRecord slot)) ∧
        (version = [] ∨
          version.length < blocklistVersionMax ∧ fails (.nvsGet (.ver slot)) = false)) := by
  unfold AllOrNothing
  by_cases hl : CommitLoads sha256 fails s slot count digest version
  · rw [commit_run_loads hl]
    constructor
    · intro h _
      obtain ⟨hok, hfail⟩ := h _ _ rfl
      rw [commitDone_ram, commitDone_active] at hok hfail
      have hcommit : fails (.nvsCommit .active) = false := by
        by_contra hc
        rw [Bool.not_eq_false] at hc
        rw [if_pos hc] at hfail
        exact hl.inactive (congrArg Ram.active (hfail (by decide)).1)
      rw [hcommit] at hok
      obtain ⟨hnew, hrec, -⟩ := hok rfl
      refine ⟨hcommit, ?_, (readBackVersion_record s count digest).mp (congrArg Ram.version hnew)⟩
      by_cases hset : fails (.nvsSet .active (activeRecord slot)) = true
      · rw [if_pos hset] at hrec
        exact Or.inr hrec
      · exact Or.inl (by simpa using hset)
    · intro h e s' hrun
      obtain ⟨hcommit, hset, hversion⟩ := h hl
      rw [hcommit] at hrun
      obtain ⟨rfl, rfl⟩ := Prod.mk.inj (Option.some.inj hrun)
      have hrec : (s.commitDone fails slot count digest version).nvs .active =
          some (activeRecord slot) := by
        rw [commitDone_active]
        by_cases hf : fails (.nvsSet .active (activeRecord slot)) = true
        · rw [if_pos hf]
          exact hset.resolve_left (by simp [hf])
        · rw [if_neg hf]
      refine ⟨fun _ => ⟨?_, hrec, commitDone_boots hl hrec hversion⟩, fun hne => absurd rfl hne⟩
      rw [commitDone_ram, (readBackVersion_record s count digest).mpr hversion]
  · refine iff_of_true ?_ fun h => absurd h hl
    intro e s' hrun
    obtain ⟨hne, hkeep⟩ := commit_run_fails hl hrun
    exact ⟨fun he => absurd he hne, fun _ => hkeep⟩

/-! ### A slot that holds a list -/

/-- A slot that holds a list in order, and whose keys say so, is valid. -/
theorem validSlot_encoded {s : World} {slot : Int} {ws : List UInt64} (hslot : IsSlot slot)
    (hws : Ascending ws) (hbytes : s.slotBytes slot (8 * ws.length) = ws.flatMap Words.encode)
    (hcnt : s.nvs (.cnt slot) = some ws.length)
    (hsha : s.nvs (.sha slot) = some (sha256 (ws.flatMap Words.encode)).bytes)
    (hfloor : blocklistMinDomains ≤ ws.length) (hfits : 8 * ws.length ≤ slotSize) :
    ValidSlot sha256 s slot ws.length := by
  refine ⟨hslot, hcnt, hfloor, hfits, by rw [hbytes]; exact hsha, ?_⟩
  rw [hbytes, Words.words_encode]
  exact hws

/-- A commit of a list that is in the slot gets as far as serving it, when no call but the
writing of the record fails. -/
theorem commitLoads_encoded {s : World} {slot : Int} {ws : List UInt64} {digest : Digest}
    {version : Bytes} (hslot : IsSlot slot) (hact : slot ≠ s.ram.active) (hws : Ascending ws)
    (hbytes : s.slotBytes slot (8 * ws.length) = ws.flatMap Words.encode)
    (hdigest : digest = sha256 (ws.flatMap Words.encode))
    (hfloor : blocklistMinDomains ≤ ws.length) (hfits : 8 * ws.length ≤ slotSize)
    (hfails : ∀ o, (∀ v, o ≠ .nvsSet .active v) → fails o = false) :
    CommitLoads sha256 fails s slot ws.length digest version := by
  have hn : sizeT ws.length = ws.length := sizeT_of_lt (by unfold slotSize at hfits; omega)
  refine ⟨hslot, hact, hfails _ (by simp), hfails _ (by simp), hfails _ (by simp),
    hfails _ (by simp), ?_, hfails _ (by simp), hfails _ (by simp), hfails _ (by simp),
    hfails _ (by simp), hfails _ (by simp)⟩
  rw [hn]
  refine validSlot_encoded hslot hws hbytes ?_ ?_ hfloor hfits
  · rw [record_cnt, hn]
  · rw [record_sha, hdigest]

/-- The first `n` words in order: a list of any length to try things on. -/
def entries (n : Nat) : List UInt64 := (List.range n).map UInt64.ofNat

theorem entries_ascending {n : Nat} (h : n ≤ 2 ^ 64) : Ascending (entries n) := by
  refine List.pairwise_map.mpr ((List.pairwise_lt_range).imp_of_mem ?_)
  intro i j hi hj hij
  have hj' := List.mem_range.mp hj
  rw [UInt64.lt_iff_toNat_lt, UInt64.toNat_ofNat_of_lt' (by show i < 2 ^ 64; omega),
    UInt64.toNat_ofNat_of_lt' (by show j < 2 ^ 64; omega)]
  exact hij

@[simp] theorem entries_length (n : Nat) : (entries n).length = n := by simp [entries]

/-- The bytes of those words. -/
def entriesBlob (n : Nat) : Bytes := (entries n).flatMap Words.encode

@[simp] theorem entriesBlob_length (n : Nat) : (entriesBlob n).length = 8 * n := by
  rw [entriesBlob, Words.flatMap_encode_length, entries_length]

/-- A device as it leaves the factory. -/
def World.blank : World := ⟨fun _ _ => 0xFF, fun _ => none, Ram.init, [], [], []⟩

/-- A blob at the start of a slot. -/
def World.store (s : World) (slot : Int) (blob : Bytes) : World :=
  { s with flash := Function.update s.flash slot fun a => blob.getD a 0xFF }

theorem slotBytes_store (s : World) (slot : Int) (blob : Bytes) :
    (s.store slot blob).slotBytes slot blob.length = blob := by
  refine List.ext_getElem (by simp) fun i hi hi' => ?_
  simp [World.slotBytes, World.store, List.getElem?_eq_getElem hi']

theorem validSlot_entries {s : World} {slot : Int} {n : Nat} (hslot : IsSlot slot)
    (hbytes : s.slotBytes slot (8 * n) = entriesBlob n) (hcnt : s.nvs (.cnt slot) = some n)
    (hsha : s.nvs (.sha slot) = some (sha256 (entriesBlob n)).bytes)
    (hfloor : blocklistMinDomains ≤ n) (hfits : 8 * n ≤ slotSize) :
    ValidSlot sha256 s slot n := by
  have hasc : Ascending (entries n) :=
    entries_ascending (by unfold slotSize at hfits; omega)
  have := validSlot_encoded hslot hasc (by rw [entries_length]; exact hbytes)
    (by rw [entries_length]; exact hcnt) hsha (by rwa [entries_length]) (by rwa [entries_length])
  rwa [entries_length] at this

theorem commitLoads_entries {s : World} {slot : Int} {n : Nat} {digest : Digest} {version : Bytes}
    (hslot : IsSlot slot) (hact : slot ≠ s.ram.active)
    (hbytes : s.slotBytes slot (8 * n) = entriesBlob n) (hdigest : digest = sha256 (entriesBlob n))
    (hfloor : blocklistMinDomains ≤ n) (hfits : 8 * n ≤ slotSize)
    (hfails : ∀ o, (∀ v, o ≠ .nvsSet .active v) → fails o = false) :
    CommitLoads sha256 fails s slot n digest version := by
  have hasc : Ascending (entries n) :=
    entries_ascending (by unfold slotSize at hfits; omega)
  have : CommitLoads sha256 fails s slot (entries n).length digest version :=
    commitLoads_encoded hslot hact hasc (by rw [entries_length]; exact hbytes) hdigest
      (by rwa [entries_length]) (by rwa [entries_length]) hfails
  rwa [entries_length] at this

/-- The record of which slot is active cannot be written. -/
def recordFails : Op → Bool
  | .nvsSet .active _ => true
  | _ => false

/-- **A commit that is not atomic**: the slot is loaded and served, the record of it is not
written, and the call still reports success. -/
theorem commit_half_done : ¬ AllOrNothing Sha256.sha256 recordFails
    (World.blank.store 1 (entriesBlob 10000)) 1 10000 (Sha256.sha256 (entriesBlob 10000))
    (ascii "v1") := by
  have hl : CommitLoads Sha256.sha256 recordFails (World.blank.store 1 (entriesBlob 10000)) 1 10000
      (Sha256.sha256 (entriesBlob 10000)) (ascii "v1") := by
    refine commitLoads_entries (by decide) (by decide) ?_ rfl (by decide) (by decide) ?_
    · have h := slotBytes_store World.blank 1 (entriesBlob 10000)
      rwa [entriesBlob_length] at h
    · intro o ho
      cases o with
      | nvsSet k v =>
          cases k with
          | active => exact absurd rfl (ho v)
          | _ => rfl
      | _ => rfl
  intro h
  have hrec := ((h _ _ (commit_run_loads hl)).1 rfl).2.1
  rw [commitDone_active] at hrec
  cases hrec

end EspHole.Sinkhole
