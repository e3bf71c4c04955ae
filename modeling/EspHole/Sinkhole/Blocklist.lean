/-
The two-slot blocklist: `main/blocklist.c`.

A slot's metadata are three NVS keys, its content is flash, and what is served is a copy
in RAM that was checked when it was loaded.  `loadSlot` is where everything meets: the
floor, the slot bound, the digest, the order.  The two ways in are `blocklistInit`, at
boot, and `blocklistCommitSlot`, after a download.

`Disciplined` says once what these programs, and the updater on top of them, do to
NVS, flash and RAM, and in which states; the triples below prove it of every path, for
any fault model.  The invariants in `Sinkhole/Run.lean` are then facts about single calls.
-/
import EspHole.Lib.Ascending
import EspHole.Sinkhole.Device

namespace EspHole.Sinkhole

open Ascending

/-- `BLOCKLIST_SLOTS` -/
def blocklistSlots : Int := 2

/-- The size of `blk_a` and `blk_b` in `partitions.csv`. -/
def slotSize : Nat := 0xe00000

/-- `blocklist_slot_partition`: the size of a slot's partition. -/
def blocklistSlotPartition (slot : Int) : Option Nat :=
  if slot < 0 ∨ slot ≥ blocklistSlots then none else some slotSize

/-- The version `load_slot` reads back: a string that does not fit is an error, and an
error leaves the empty string. -/
def storedVersion (v : Option Bytes) : Bytes :=
  match v with
  | some v => if v.length < blocklistVersionMax then v else []
  | none => []

/-- The second half of `load_slot`: the buffer, its checks and the swap.  The statics are
written in one step; only the task that loads reads the last two of them. -/
def loadBuffer (slot : Int) (count : Nat) (shaWant version : Bytes) : Code EspErr := do
  let bytes := sizeT (count * 8)
  if !(← heapCapsMalloc bytes) then return .noMem
  let some buf ← partitionRead slot bytes | return .driver
  let some shaGot ← hashCompute buf | return .fail
  if shaGot.bytes ≠ shaWant then return .invalidCrc
  match check (fun i => (Words.words buf)[i]?) 1 (count - 1) with
  | none => outOfBounds
  | some false => return .invalidState
  | some true =>
      setRam ⟨Words.words buf, count, slot, version⟩
      return .ok

/-- `load_slot` -/
def loadSlot (slot : Int) : Code EspErr := do
  let some count ← (nvsGet (.cnt slot) : Code (Option Nat)) | return .notFound
  let some shaWant ← (nvsGet (.sha slot) : Code (Option Bytes)) | return .notFound
  if shaWant.length ≠ 32 then return .notFound
  let version := storedVersion (← nvsGet (.ver slot))
  let some partSize := blocklistSlotPartition slot | return .notFound
  if count < blocklistMinDomains ∨ sizeT (count * 8) > partSize then return .invalidSize
  loadBuffer slot count shaWant version

/-- The fallback loop of `blocklist_init`. -/
def tryFallback (active : Int) : List Int → Code EspErr
  | [] => return .fail
  | slot :: rest => do
      if slot = active then tryFallback active rest
      else
        let err ← loadSlot slot
        if err = .ok then
          let _ ← nvsSet .active slot.toNat.toUInt8
          let _ ← nvsCommit .fallback
          return .ok
        else tryFallback active rest

/-- `blocklist_init`, once the lock, PSA and NVS are there. -/
def blocklistInit : Code EspErr := do
  let active := (← nvsGet .active).getD 0xFF
  let err ← (if (active.toNat : Int) < blocklistSlots then loadSlot active.toNat
    else pure .fail : Code EspErr)
  if err = .ok then return .ok
  tryFallback active.toNat [0, 1]

/-- The end of `blocklist_commit_slot`: load the slot, and only then mark it active. -/
def activateSlot (slot : Int) : Code EspErr := do
  let err ← loadSlot slot
  if err ≠ .ok then return err
  let _ ← nvsSet .active slot.toNat.toUInt8
  return if ← nvsCommit .active then .ok else .driver

/-- `blocklist_commit_slot` -/
def blocklistCommitSlot (slot : Int) (count : Nat) (sha256 : Digest) (version : Bytes) :
    Code EspErr := do
  let ram ← getRam
  if slot < 0 ∨ slot ≥ blocklistSlots ∨ slot = ram.active then return .invalidArg
  if !(← nvsSet (.cnt slot) (sizeT count)) then return .driver
  if !(← nvsSet (.sha slot) sha256.bytes) then return .driver
  if !(← nvsSet (.ver slot) version) then return .driver
  if !(← nvsCommit .metadata) then return .driver
  activateSlot slot

/-- `blocklist_contains`; `taken` is whether the lock was obtained in time. -/
def blocklistContains (taken : Bool) (ram : Ram) (hash : UInt64) : Option Bool :=
  if !taken then some false else search (fun i => ram.hashes[i]?) hash 0 ram.count

/-- `blocklist_active_version` -/
def blocklistActiveVersion (ram : Ram) : Bytes := strlcpy ram.version blocklistVersionMax

/-- `blocklist_inactive_slot` -/
def blocklistInactiveSlot (ram : Ram) : Int := if ram.active = 0 then 1 else 0

/-- A slot the firmware has. -/
def IsSlot (slot : Int) : Prop := 0 ≤ slot ∧ slot < blocklistSlots

instance (slot : Int) : Decidable (IsSlot slot) :=
  inferInstanceAs (Decidable (0 ≤ slot ∧ slot < blocklistSlots))

theorem blocklistInactiveSlot_spec (ram : Ram) :
    IsSlot (blocklistInactiveSlot ram) ∧ blocklistInactiveSlot ram ≠ ram.active := by
  unfold blocklistInactiveSlot IsSlot blocklistSlots
  by_cases h : ram.active = 0
  · rw [if_pos h]
    omega
  · rw [if_neg h]
    omega

/-- On a list that was loaded, the search answers and decides membership. -/
theorem blocklistContains_eq {ram : Ram} (hlen : ram.hashes.length = ram.count)
    (hasc : Ascending ram.hashes) (hash : UInt64) :
    blocklistContains true ram hash = some (decide (hash ∈ ram.hashes)) := by
  show search (fun i => ram.hashes[i]?) hash 0 ram.count = _
  rw [← hlen]
  exact (search_spec hasc fun i _ => rfl).trans (by congr)

/-- On the empty list it says no. -/
theorem blocklistContains_init (taken : Bool) (hash : UInt64) :
    blocklistContains taken Ram.init hash = some false := by
  unfold blocklistContains
  cases taken
  · rfl
  · rw [search]
    rfl

/-! ### What the programs do, and when -/

section Discipline

variable (sha256 : Bytes → Digest)

/-- `ram` is what a load that found `buf` in its slot would install, all checks passed. -/
structure Loaded (rot : Prop) (s : World) (ram : Ram) (buf : Bytes) : Prop where
  isSlot : IsSlot ram.active
  stored : s.nvs (.cnt ram.active) = some ram.count
  floor : blocklistMinDomains ≤ ram.count
  fits : 8 * ram.count ≤ slotSize
  length : buf.length = 8 * ram.count
  hashes : ram.hashes = Words.words buf
  ascending : Ascending ram.hashes
  digest : s.nvs (.sha ram.active) = some (sha256 buf).bytes
  hashed : buf ∈ s.hashed
  version : ram.version = [] ∨ s.nvs (.ver ram.active) = some ram.version
  content : ¬ rot → buf = s.slotBytes ram.active (8 * ram.count)

/-- The manifest being installed: its blob has been downloaded and hashed. -/
structure Current (s : World) (m : Manifest) : Prop where
  logged : m ∈ s.log
  accepted : m.Accepted
  blob : ∃ b ∈ s.hashed, b.length = m.size ∧ sha256 b = m.sha256

/-- What each call that is not a read is made for, and in which states.  A slot's keys and
its flash are touched only while another slot, or none, is served. -/
def Disciplined (rot : Prop) (s : World) : Op → Prop
  | .setRam ram => ∃ buf, Loaded sha256 rot s ram buf
  | .partitionErase slot _ => IsSlot slot ∧ slot ≠ s.ram.active
  | .partitionWrite slot _ _ => IsSlot slot ∧ slot ≠ s.ram.active
  | .nvsSet (.cnt slot) c => slot ≠ s.ram.active ∧ ∃ m, Current sha256 s m ∧ c = m.count
  | .nvsSet (.sha slot) d => slot ≠ s.ram.active ∧
      ∃ m, Current sha256 s m ∧ s.nvs (.cnt slot) = some m.count ∧ d = m.sha256.bytes
  | .nvsSet (.ver slot) v => slot ≠ s.ram.active ∧
      ∃ m, Current sha256 s m ∧ s.nvs (.cnt slot) = some m.count ∧
        s.nvs (.sha slot) = some m.sha256.bytes ∧ v = m.version
  | .nvsSet .active v => IsSlot s.ram.active ∧ (v.toNat : Int) = s.ram.active
  | .fault => ∃ slot, ∃ c : Nat, s.nvs (.cnt slot) = some c ∧ 2 ^ 32 ≤ c * 8
  | _ => True

/-- The slot holds a list that would be loaded. -/
structure ValidSlot (s : World) (slot : Int) (count : Nat) : Prop where
  isSlot : IsSlot slot
  stored : s.nvs (.cnt slot) = some count
  floor : blocklistMinDomains ≤ count
  fits : 8 * count ≤ slotSize
  digest : s.nvs (.sha slot) = some (sha256 (s.slotBytes slot (8 * count))).bytes
  ascending : Ascending (Words.words (s.slotBytes slot (8 * count)))

end Discipline

/-- A call that changes nothing. -/
def Op.reads : Op → Bool
  | .nvsGet _ | .nvsCommit _ | .heapCapsMalloc _ | .partitionRead _ _ | .hashCompute _ => true
  | .hashSetup | .hashUpdate _ | .httpInit _ | .httpOpen | .httpStatus | .httpRead _ => true
  | .getRam => true
  | _ => false

/-- A call that `blocklist_init` may make. -/
def Op.boots : Op → Bool
  | .partitionErase _ _ | .partitionWrite _ _ _ | .announce _ => false
  | .nvsSet (.cnt _) _ | .nvsSet (.sha _) _ | .nvsSet (.ver _) _ => false
  | _ => true

/-- A call that changes which version goes with which digest. -/
def Op.relabels : Op → Bool
  | .nvsSet (.sha _) _ | .nvsSet (.ver _) _ => true
  | _ => false

theorem Op.boots_relabels {o : Op} (h : o.boots = true) : o.relabels = false := by
  cases o with
  | nvsSet k v =>
      cases k with
      | sha slot => cases h
      | ver slot => cases h
      | _ => rfl
  | _ => rfl

section Triples

variable {sha256 : Bytes → Digest} {F : Faults}

theorem Answers.still {s s' : World} {o : Op} {r : Res o} (h : Answers sha256 F s o r s')
    (ho : o.reads = true) : s.Still F.rot s' := by
  cases o with
  | nvsGet k => exact h.1
  | nvsCommit site => exact h
  | heapCapsMalloc n => exact h.1
  | partitionRead slot n => exact h.1
  | hashCompute data => exact h.1
  | hashSetup => exact h
  | hashUpdate data => exact h
  | httpInit url => exact h
  | httpOpen => exact h
  | httpStatus => exact h
  | httpRead room => exact h.1
  | getRam => exact h.1
  | nvsSet k v => cases ho
  | partitionErase slot n => cases ho
  | partitionWrite slot off data => cases ho
  | setRam ram => cases ho
  | announce m => cases ho
  | fault => cases ho

/-- Only one call changes what is served. -/
theorem Answers.ram_eq {s s' : World} {o : Op} {r : Res o} (h : Answers sha256 F s o r s')
    (ho : ∀ ram, o ≠ .setRam ram) : s'.ram = s.ram := by
  by_cases hreads : o.reads = true
  · exact (h.still hreads).ram
  cases o with
  | nvsSet k v =>
      rcases h with h | ⟨-, h⟩
      · exact h.ram
      · exact h.ram
  | partitionErase slot n => exact h.1.ram
  | partitionWrite slot off data => exact h.1.ram
  | setRam ram => exact absurd rfl (ho ram)
  | announce m => exact h.1.ram
  | fault => exact h.elim
  | _ => exact absurd rfl hreads

theorem World.Still.grows {rot : Prop} {s s' : World} (h : s.Still rot s') :
    s.log ⊆ s'.log ∧ s.hashed ⊆ s'.hashed :=
  ⟨by rw [h.log]; exact List.Subset.refl _, h.hashed⟩

/-- Nothing is forgotten. -/
theorem Answers.grows {s s' : World} {o : Op} {r : Res o} (h : Answers sha256 F s o r s') :
    s.log ⊆ s'.log ∧ s.hashed ⊆ s'.hashed := by
  by_cases hreads : o.reads = true
  · exact (h.still hreads).grows
  cases o with
  | nvsSet k v =>
      rcases h with h | ⟨-, h⟩
      · have hgrows := h.grows
        exact hgrows
      · exact h.grows
  | partitionErase slot n => exact ⟨by rw [h.1.log]; exact List.Subset.refl _, h.1.hashed⟩
  | partitionWrite slot off data => exact ⟨by rw [h.1.log]; exact List.Subset.refl _, h.1.hashed⟩
  | setRam ram =>
      have hstill : World.Still F.rot { s with ram := ram } s' := h
      have hgrows := hstill.grows
      exact hgrows
  | announce m =>
      refine ⟨?_, h.1.hashed⟩
      rw [h.1.log]
      exact List.subset_cons_self m s.log
  | fault => exact h.elim
  | _ => exact absurd rfl hreads

/-- A call changes no key but the one it writes. -/
theorem Answers.nvs_of_ne {s s' : World} {o : Op} {r : Res o} (h : Answers sha256 F s o r s')
    {k : Key} (hk : ∀ v, o ≠ .nvsSet k v) : s'.nvs k = s.nvs k := by
  by_cases hreads : o.reads = true
  · rw [(h.still hreads).nvs]
  cases o with
  | nvsSet k' v =>
      have hne : k ≠ k' := by
        rintro rfl
        exact hk v rfl
      rcases h with h | ⟨-, h⟩
      · rw [h.nvs, World.setNvs_of_ne _ _ hne]
      · rw [h.nvs]
  | partitionErase slot n => rw [h.1.nvs]
  | partitionWrite slot off data => rw [h.1.nvs]
  | setRam ram => rw [h.nvs]
  | announce m => rw [h.1.nvs]
  | fault => exact h.elim
  | _ => exact absurd rfl hreads

theorem blocklistSlotPartition_isSlot {slot : Int} (h : IsSlot slot) :
    blocklistSlotPartition slot = some slotSize := by
  obtain ⟨h0, h2⟩ := h
  unfold blocklistSlotPartition
  rw [if_neg (by omega)]

theorem blocklistSlotPartition_some {slot : Int} {n : Nat}
    (h : blocklistSlotPartition slot = some n) : IsSlot slot ∧ n = slotSize := by
  unfold blocklistSlotPartition at h
  split at h
  · cases h
  · rename_i hslot
    exact ⟨⟨by omega, by omega⟩, (Option.some.inj h).symm⟩

theorem Answers.nvsGet_some {s s' : World} {k : Key} {v : k.Val}
    (h : Answers sha256 F s (.nvsGet k) (some v) s') : s.nvs k = some v := by
  rcases h.2 with heq | hf
  · exact heq.symm
  · cases hf.2

theorem Answers.nvsGet_none {s s' : World} {k : Key} (hr : ¬ F.reads)
    (h : Answers sha256 F s (.nvsGet k) none s') : s.nvs k = none := by
  rcases h.2 with heq | hf
  · exact heq.symm
  · exact absurd hf.1 hr

/-- An order check that passes over a buffer of `count * 8` bytes modulo `2 ^ 32` shows
that nothing was lost to the modulus. -/
theorem check_no_wrap {buf : Bytes} {count : Nat} (hlen : buf.length = sizeT (count * 8))
    (hfloor : blocklistMinDomains ≤ count)
    (h : check (fun i => (Words.words buf)[i]?) 1 (count - 1) = some true) :
    buf.length = 8 * count := by
  unfold blocklistMinDomains at hfloor
  have hread := check_reads _ _ h (count - 1) (by omega) (by omega)
  have hlt : count - 1 < (Words.words buf).length := by
    by_contra hge
    exact hread (List.getElem?_eq_none (by omega))
  have hwords := Words.words_length_le buf
  have hmod : sizeT (count * 8) ≤ count * 8 := Nat.mod_le _ _
  omega

/-- Over a buffer of `count * 8` bytes the check decides strict order. -/
theorem check_words {buf : Bytes} {count : Nat} (hlen : buf.length = 8 * count) :
    check (fun i => (Words.words buf)[i]?) 1 (count - 1) =
      some (decide (Ascending (Words.words buf))) := by
  have hwords := Words.words_length hlen
  rw [← hwords]
  exact check_spec fun i _ => rfl

/-- What a load leaves: on success the new statics, fully checked, and otherwise nothing;
and with reliable reads it fails on no valid slot. -/
def LoadPost (sha256 : Bytes → Digest) (F : Faults) (s : World) (slot : Int) (e : EspErr)
    (s' : World) : Prop :=
  (e ≠ .ok ∧ s.Still F.rot s' ∧
      (¬ F.reads → ¬ F.rot → ∀ count, ¬ ValidSlot sha256 s slot count)) ∨
    (e = .ok ∧ s'.ram.active = slot ∧ World.Still F.rot { s with ram := s'.ram } s' ∧
      ∃ buf, Loaded sha256 F.rot s' s'.ram buf)

/-- The calls of a boot. -/
abbrev BootGuard (sha256 : Bytes → Digest) (F : Faults) (s : World) (o : Op) : Prop :=
  Disciplined sha256 F.rot s o ∧ o.boots = true

/-- The calls of a load; only a count of its own slot can make it fault. -/
abbrev LoadGuard (sha256 : Bytes → Digest) (F : Faults) (slot : Int) (s : World) (o : Op) : Prop :=
  BootGuard sha256 F s o ∧ (o = .fault → ∃ c : Nat, s.nvs (.cnt slot) = some c ∧ 2 ^ 32 ≤ c * 8)

theorem loadPost_fail {s s' : World} {slot : Int} {e : EspErr} (he : e ≠ .ok)
    (hs : s.Still F.rot s')
    (hv : ¬ F.reads → ¬ F.rot → ∀ count, ¬ ValidSlot sha256 s slot count) :
    LoadPost sha256 F s slot e s' := Or.inl ⟨he, hs, hv⟩

/-- What was checked stays checked while its slot is left alone. -/
theorem Loaded.mono {rot : Prop} {s s' : World} {ram : Ram} {buf : Bytes}
    (h : Loaded sha256 rot s ram buf)
    (hcnt : s'.nvs (.cnt ram.active) = s.nvs (.cnt ram.active))
    (hsha : s'.nvs (.sha ram.active) = s.nvs (.sha ram.active))
    (hver : s'.nvs (.ver ram.active) = s.nvs (.ver ram.active))
    (hhashed : s.hashed ⊆ s'.hashed) (hflash : ¬ rot → s'.flash = s.flash) :
    Loaded sha256 rot s' ram buf := by
  refine ⟨h.isSlot, hcnt.trans h.stored, h.floor, h.fits, h.length, h.hashes, h.ascending,
    hsha.trans h.digest, hhashed h.hashed, ?_, ?_⟩
  · rw [hver]
    exact h.version
  · intro hrot
    unfold World.slotBytes
    rw [hflash hrot]
    exact h.content hrot

theorem storedVersion_some (v : Bytes) :
    storedVersion (some v) = [] ∨ storedVersion (some v) = v := by
  by_cases h : v.length < blocklistVersionMax
  · exact Or.inr (if_pos h)
  · exact Or.inl (if_neg h)

/-- The second half, from the state `s` that the metadata was read in. -/
theorem loadBuffer_safe {s s₁ : World} {slot : Int} {count : Nat} {shaWant version : Bytes}
    (hs₁ : s.Still F.rot s₁) (hslot : IsSlot slot) (hcount : s.nvs (.cnt slot) = some count)
    (hsha : s.nvs (.sha slot) = some shaWant) (hfloor : blocklistMinDomains ≤ count)
    (hfits : sizeT (count * 8) ≤ slotSize)
    (hversion : version = [] ∨ s.nvs (.ver slot) = some version) :
    (loadBuffer slot count shaWant version).Safe (Answers sha256 F) (LoadGuard sha256 F slot)
      (LoadPost sha256 F s slot) s₁ := by
  have hvalid : ∀ n, ValidSlot sha256 s slot n → n = count := by
    intro n hv
    have := hv.stored
    rw [hcount] at this
    exact (Option.some.inj this).symm
  unfold loadBuffer
  refine Prog.safe_call_bind.mpr ⟨⟨⟨trivial, rfl⟩, nofun⟩, fun granted s₂ h₂ => ?_⟩
  have hs₂ := hs₁.trans (h₂.still rfl)
  cases granted with
  | false =>
      refine loadPost_fail (by decide) hs₂ fun hr _ _ _ => ?_
      rcases h₂.2 with heq | hf
      · cases heq
      · exact hr hf
  | true =>
      refine Prog.safe_call_bind.mpr ⟨⟨⟨trivial, rfl⟩, nofun⟩, fun buf s₃ h₃ => ?_⟩
      have hs₃ := hs₂.trans (h₃.still rfl)
      rcases h₃.2 with ⟨buf, rfl, hlen, hcontent⟩ | ⟨hreads, rfl⟩
      swap
      · exact loadPost_fail (by decide) hs₃ fun hr _ _ _ => hr hreads
      refine Prog.safe_call_bind.mpr ⟨⟨⟨trivial, rfl⟩, nofun⟩, fun got s₄ h₄ => ?_⟩
      have hs₄ := hs₃.trans (h₄.still rfl)
      rcases h₄.2.2 with rfl | ⟨hreads, rfl⟩
      swap
      · exact loadPost_fail (by decide) hs₄ fun hr _ _ _ => hr hreads
      -- Without rot, a valid slot is what was read.
      have hbuf : ¬ F.rot → ∀ n, ValidSlot sha256 s slot n →
          buf = s.slotBytes slot (8 * count) := by
        intro hrot n hv
        obtain rfl := hvalid n hv
        have := hv.fits
        rw [hcontent hrot, sizeT_of_lt (by unfold slotSize at this; omega), Nat.mul_comm n 8]
        unfold World.slotBytes
        rw [hs₂.flash hrot]
      show Prog.Safe _ _ _ (if _ then _ else _) s₄
      by_cases hdig : (sha256 buf).bytes ≠ shaWant
      · rw [if_pos hdig]
        refine loadPost_fail (by decide) hs₄ fun _ hrot n hv => hdig ?_
        have := hv.digest
        rw [hsha, hvalid n hv, ← hbuf hrot n hv] at this
        exact (Option.some.inj this).symm
      rw [if_neg hdig]
      rcases hcheck : check (fun i => (Words.words buf)[i]?) 1 (count - 1) with _ | ok
      · -- Only a wrapped product sends the check past the buffer.
        have hbig : 2 ^ 32 ≤ count * 8 := by
          by_contra hsmall
          rw [check_words (by rw [hlen, sizeT_of_lt (not_le.mp hsmall)]; omega)] at hcheck
          cases hcheck
        have hcount₄ : s₄.nvs (.cnt slot) = some count := by rw [hs₄.nvs]; exact hcount
        exact ⟨⟨⟨⟨slot, count, hcount₄, hbig⟩, rfl⟩, fun _ => ⟨count, hcount₄, hbig⟩⟩,
          fun r => r.elim⟩
      · cases ok with
        | false =>
            refine loadPost_fail (by decide) hs₄ fun _ hrot n hv => ?_
            have hasc := hv.ascending
            have hfit := hv.fits
            rw [hvalid n hv, ← hbuf hrot n hv] at hasc
            rw [hvalid n hv] at hfit
            rw [check_words (by rw [hlen, sizeT_of_lt (by unfold slotSize at hfit; omega)]; omega),
              decide_eq_true hasc] at hcheck
            cases hcheck
        | true =>
            have hwhole := check_no_wrap hlen hfloor hcheck
            rw [check_words hwhole] at hcheck
            have hloaded : Loaded sha256 F.rot s₄ ⟨Words.words buf, count, slot, version⟩ buf := by
              have hfits' : 8 * count ≤ slotSize := by omega
              refine ⟨hslot, by rw [hs₄.nvs]; exact hcount, hfloor, hfits', hwhole, rfl,
                of_decide_eq_true (Option.some.inj hcheck), ?_, h₄.2.1, ?_, fun hrot => ?_⟩
              · rw [hs₄.nvs, hsha]
                exact congrArg some (not_not.mp hdig).symm
              · rw [hs₄.nvs]
                exact hversion
              · rw [hcontent hrot, ← hlen, hwhole]
                unfold World.slotBytes
                rw [hs₄.flash hrot, hs₂.flash hrot]
            refine ⟨⟨⟨⟨buf, hloaded⟩, rfl⟩, nofun⟩,
              fun _ s₅ h₅ => Or.inr ⟨rfl, by rw [h₅.ram], ?_, buf, ?_⟩⟩
            · refine ⟨h₅.nvs.trans hs₄.nvs, rfl, h₅.log.trans hs₄.log,
                List.Subset.trans hs₄.hashed h₅.hashed, fun hrot => ?_⟩
              exact (h₅.flash hrot).trans (hs₄.flash hrot)
            · rw [h₅.ram]
              exact hloaded.mono (by rw [h₅.nvs]) (by rw [h₅.nvs]) (by rw [h₅.nvs]) h₅.hashed
                h₅.flash

/-- **`load_slot` on every path**, under any fault model. -/
theorem loadSlot_safe (s : World) (slot : Int) :
    (loadSlot slot).Safe (Answers sha256 F) (LoadGuard sha256 F slot) (LoadPost sha256 F s slot)
      s := by
  unfold loadSlot
  refine Prog.safe_call_bind.mpr ⟨⟨⟨trivial, rfl⟩, nofun⟩, fun (count : Option Nat) s₁ h₁ => ?_⟩
  have hs₁ := h₁.still rfl
  rcases count with _ | count
  · refine loadPost_fail (by decide) hs₁ fun hr _ count hv => ?_
    have := hv.stored
    rw [h₁.nvsGet_none hr] at this
    cases this
  have hcount := h₁.nvsGet_some
  refine Prog.safe_call_bind.mpr ⟨⟨⟨trivial, rfl⟩, nofun⟩, fun (sha : Option Bytes) s₂ h₂ => ?_⟩
  have hs₂ := hs₁.trans (h₂.still rfl)
  rcases sha with _ | shaWant
  · refine loadPost_fail (by decide) hs₂ fun hr _ count hv => ?_
    have := hv.digest
    rw [← hs₁.nvs, h₂.nvsGet_none hr] at this
    cases this
  have hsha := h₂.nvsGet_some
  rw [hs₁.nvs] at hsha
  show Prog.Safe _ _ _ (if _ then _ else _) s₂
  by_cases hlen : shaWant.length ≠ 32
  · rw [if_pos hlen]
    refine loadPost_fail (by decide) hs₂ fun _ _ count hv => hlen ?_
    have := hv.digest
    rw [hsha] at this
    rw [Option.some.inj this, Digest.bytes_length]
  rw [if_neg hlen]
  refine Prog.safe_call_bind.mpr ⟨⟨⟨trivial, rfl⟩, nofun⟩, fun (ver : Option Bytes) s₃ h₃ => ?_⟩
  have hs₃ := hs₂.trans (h₃.still rfl)
  have hversion : storedVersion ver = [] ∨ s.nvs (.ver slot) = some (storedVersion ver) := by
    rcases ver with _ | v
    · exact Or.inl rfl
    · have hv := h₃.nvsGet_some
      rw [hs₂.nvs] at hv
      rcases storedVersion_some v with heq | heq
      · exact Or.inl heq
      · exact Or.inr (by rw [heq]; exact hv)
  rcases hpart : blocklistSlotPartition slot with _ | partSize
  · refine loadPost_fail (by decide) hs₃ fun _ _ count hv => ?_
    rw [blocklistSlotPartition_isSlot hv.isSlot] at hpart
    cases hpart
  obtain ⟨hslot, rfl⟩ := blocklistSlotPartition_some hpart
  show Prog.Safe _ _ _ (if _ then _ else _) s₃
  by_cases hrange : count < blocklistMinDomains ∨ sizeT (count * 8) > slotSize
  · rw [if_pos hrange]
    refine loadPost_fail (by decide) hs₃ fun _ _ n hv => ?_
    have hn := hv.stored
    rw [hcount] at hn
    obtain rfl := Option.some.inj hn
    have hfloor := hv.floor
    have hfits := hv.fits
    rcases hrange with hlow | hbig
    · omega
    · rw [sizeT_of_lt (by unfold slotSize at hfits; omega)] at hbig
      omega
  rw [if_neg hrange]
  exact loadBuffer_safe hs₃ hslot hcount hsha (by omega) (by omega) hversion

/-! ### Boot -/

/-- A slot whose keys and bytes are untouched stays valid. -/
theorem ValidSlot.congr {s s' : World} {slot : Int} {count : Nat}
    (h : ValidSlot sha256 s slot count) (hcnt : s'.nvs (.cnt slot) = s.nvs (.cnt slot))
    (hsha : s'.nvs (.sha slot) = s.nvs (.sha slot))
    (hflash : ∀ a, s'.flash slot a = s.flash slot a) : ValidSlot sha256 s' slot count := by
  have hbytes : ∀ n, s'.slotBytes slot n = s.slotBytes slot n := fun n =>
    List.map_congr_left fun a _ => hflash a
  refine ⟨h.isSlot, hcnt.trans h.stored, h.floor, h.fits, ?_, ?_⟩
  · rw [hsha, hbytes]
    exact h.digest
  · rw [hbytes]
    exact h.ascending

theorem ValidSlot.of_still {s s' : World} {slot : Int} {count : Nat} (hs : s.Still F.rot s')
    (hrot : ¬ F.rot) (h : ValidSlot sha256 s slot count) : ValidSlot sha256 s' slot count :=
  h.congr (by rw [hs.nvs]) (by rw [hs.nvs]) fun a => by rw [hs.flash hrot]

theorem slot_toUInt8 {slot : Int} (h : IsSlot slot) : (slot.toNat.toUInt8.toNat : Int) = slot := by
  obtain ⟨h0, h2⟩ := h
  unfold blocklistSlots at h2
  rcases (by omega : slot = 0 ∨ slot = 1) with rfl | rfl <;> rfl

/-- What boot leaves when it tries some slots: a list that was checked, or nothing; and
with reliable reads it passes over no valid slot. -/
def BootPost (sha256 : Bytes → Digest) (F : Faults) (s : World) (tried : Int → Prop)
    (e : EspErr) (s' : World) : Prop :=
  (e ≠ .ok ∧ s.Still F.rot s' ∧
      (¬ F.reads → ¬ F.rot → ∀ slot count, tried slot → ¬ ValidSlot sha256 s slot count)) ∨
    (e = .ok ∧ ∃ buf, Loaded sha256 F.rot s' s'.ram buf)

theorem tryFallback_safe (active : Int) (slots : List Int) :
    ∀ s : World, (tryFallback active slots).Safe (Answers sha256 F) (BootGuard sha256 F)
      (BootPost sha256 F s fun slot => slot ∈ slots ∧ slot ≠ active) s := by
  induction slots with
  | nil =>
      intro s
      exact Or.inl ⟨by decide, .refl s, fun _ _ slot _ hmem => by simp at hmem⟩
  | cons slot rest ih =>
      intro s
      unfold tryFallback
      by_cases hskip : slot = active
      · rw [if_pos hskip]
        refine (ih s).post fun e s' h => h.imp (fun hf => ⟨hf.1, hf.2.1, ?_⟩) id
        intro hr hrot sl c htried
        refine hf.2.2 hr hrot sl c ⟨?_, htried.2⟩
        rcases List.mem_cons.mp htried.1 with rfl | hmem
        · exact absurd hskip htried.2
        · exact hmem
      · rw [if_neg hskip]
        refine Prog.safe_bind.mpr ((loadSlot_safe s slot).mono (fun _ _ h => h.1) fun e s₁ h₁ => ?_)
        rcases h₁ with ⟨hne, hstill, hno⟩ | ⟨rfl, hact, hstill, buf, hloaded⟩
        · rw [if_neg hne]
          refine (ih s₁).post fun e' s' h => h.imp (fun hf => ⟨hf.1, hstill.trans hf.2.1, ?_⟩) id
          intro hr hrot sl c htried hv
          rcases List.mem_cons.mp htried.1 with rfl | hmem
          · exact hno hr hrot c hv
          · exact hf.2.2 hr hrot sl c ⟨hmem, htried.2⟩ (hv.of_still hstill hrot)
        · rw [if_pos rfl]
          have hslot : IsSlot slot := hact ▸ hloaded.isSlot
          refine Prog.safe_call_bind.mpr ⟨⟨⟨hloaded.isSlot, ?_⟩, rfl⟩, fun ok s₂ h₂ => ?_⟩
          · rw [hact]
            exact slot_toUInt8 hslot
          refine Prog.safe_call_bind.mpr ⟨⟨trivial, rfl⟩, fun ok' s₃ h₃ => Or.inr ⟨rfl, buf, ?_⟩⟩
          have hram : s₃.ram = s₁.ram := by
            rcases h₂ with h₂ | ⟨-, h₂⟩
            · exact (h₃.still rfl).ram.trans h₂.ram
            · exact (h₃.still rfl).ram.trans h₂.ram
          rw [hram]
          have h₃' := h₃.still rfl
          rcases h₂ with h₂ | ⟨-, h₂⟩
          · refine hloaded.mono ?_ ?_ ?_ (List.Subset.trans h₂.hashed h₃'.hashed)
              fun hrot => (h₃'.flash hrot).trans (h₂.flash hrot)
            all_goals rw [h₃'.nvs, h₂.nvs, World.setNvs_of_ne _ _ (by simp)]
          · have h₂₃ := h₂.trans h₃'
            exact hloaded.mono (by rw [h₂₃.nvs]) (by rw [h₂₃.nvs]) (by rw [h₂₃.nvs]) h₂₃.hashed
              h₂₃.flash

/-- **`blocklist_init` on every path.** -/
theorem blocklistInit_safe (s : World) :
    blocklistInit.Safe (Answers sha256 F) (BootGuard sha256 F) (BootPost sha256 F s IsSlot) s := by
  unfold blocklistInit
  refine Prog.safe_call_bind.mpr ⟨⟨trivial, rfl⟩, fun (r : Option UInt8) s₁ h₁ => ?_⟩
  have hs₁ := h₁.still rfl
  generalize r.getD 0xFF = active
  refine Prog.safe_bind.mpr ?_
  -- The recorded slot first: loaded, or not valid, or not a slot.
  have hfirst : (if (active.toNat : Int) < blocklistSlots then loadSlot active.toNat
      else pure .fail : Code EspErr).Safe (Answers sha256 F) (BootGuard sha256 F)
      (BootPost sha256 F s₁ fun slot => IsSlot slot ∧ slot = active.toNat) s₁ := by
    by_cases hlt : (active.toNat : Int) < blocklistSlots
    · rw [if_pos hlt]
      refine (loadSlot_safe s₁ active.toNat).mono (fun _ _ h => h.1) fun e s' h => ?_
      rcases h with ⟨hne, hstill, hno⟩ | ⟨rfl, -, -, buf, hloaded⟩
      · exact Or.inl ⟨hne, hstill, fun hr hrot slot c htried => htried.2 ▸ hno hr hrot c⟩
      · exact Or.inr ⟨rfl, buf, hloaded⟩
    · rw [if_neg hlt]
      refine Or.inl ⟨by decide, .refl s₁, fun _ _ slot c htried _ => ?_⟩
      obtain ⟨⟨-, h2⟩, rfl⟩ := htried
      exact hlt h2
  refine hfirst.post fun e s₂ h₂ => ?_
  show Prog.Safe _ _ _ (if _ then _ else _) s₂
  rcases h₂ with ⟨hne, hstill, hno⟩ | ⟨rfl, buf, hloaded⟩
  · rw [if_neg hne]
    have hs₂ := hs₁.trans hstill
    refine (tryFallback_safe active.toNat [0, 1] s₂).post fun e' s' h =>
      h.imp (fun hf => ⟨hf.1, hs₂.trans hf.2.1, ?_⟩) id
    intro hr hrot slot c hslot hv
    by_cases hact : slot = active.toNat
    · exact hno hr hrot slot c ⟨hslot, hact⟩ (hv.of_still hs₁ hrot)
    · refine hf.2.2 hr hrot slot c ⟨?_, hact⟩ (hv.of_still hs₂ hrot)
      obtain ⟨h0, h2⟩ := hslot
      unfold blocklistSlots at h2
      rcases (by omega : slot = 0 ∨ slot = 1) with rfl | rfl <;> simp
  · rw [if_pos rfl]
    exact Or.inr ⟨rfl, buf, hloaded⟩

/-! ### Commit -/

/-- Activating a slot, from any state. -/
theorem activateSlot_safe (s : World) (slot : Int) :
    (activateSlot slot).Safe (Answers sha256 F) (BootGuard sha256 F) (fun _ _ => True) s := by
  unfold activateSlot
  refine Prog.safe_bind.mpr ((loadSlot_safe s slot).mono (fun _ _ h => h.1) fun e s₁ h₁ => ?_)
  show Prog.Safe _ _ _ (if _ then _ else _) s₁
  rcases h₁ with ⟨hne, -, -⟩ | ⟨rfl, hact, -, buf, hloaded⟩
  · rw [if_pos hne]
    trivial
  · rw [if_neg (by simp)]
    refine Prog.safe_call_bind.mpr ⟨⟨⟨hloaded.isSlot, ?_⟩, rfl⟩, fun ok s₂ _ => ?_⟩
    · rw [hact]
      exact slot_toUInt8 (hact ▸ hloaded.isSlot)
    exact Prog.safe_call_bind.mpr ⟨⟨trivial, rfl⟩, fun _ _ _ => trivial⟩

/-- A manifest stays the current one while nothing is forgotten. -/
theorem Current.mono {s s' : World} {m : Manifest} (h : Current sha256 s m)
    (hlog : s.log ⊆ s'.log) (hhashed : s.hashed ⊆ s'.hashed) : Current sha256 s' m := by
  obtain ⟨b, hb, hlen, hdig⟩ := h.blob
  exact ⟨hlog h.logged, h.accepted, b, hhashed hb, hlen, hdig⟩

/-- What a successful write of a key leaves. -/
theorem Answers.nvsSet_true {s s' : World} {k : Key} {v : k.Val}
    (h : Answers sha256 F s (.nvsSet k v) true s') : (s.setNvs k v).Still F.rot s' := by
  rcases h with h | ⟨hf, -⟩
  · exact h
  · cases hf

theorem Current.of_setNvs {s s' : World} {m : Manifest} (h : Current sha256 s m) {k : Key}
    {v : k.Val} (hs : (s.setNvs k v).Still F.rot s') : Current sha256 s' m :=
  h.mono (by rw [hs.log]; exact List.Subset.refl _) hs.hashed

theorem sizeT_count {m : Manifest} (h : m.Accepted) : sizeT m.count = m.count :=
  sizeT_of_lt h.count_lt

/-- **`blocklist_commit_slot` on every path**, for a manifest whose blob was downloaded. -/
theorem blocklistCommitSlot_safe {s : World} {m : Manifest} (hm : Current sha256 s m) (slot : Int) :
    (blocklistCommitSlot slot m.count m.sha256 m.version).Safe (Answers sha256 F)
      (Disciplined sha256 F.rot) (fun _ _ => True) s := by
  unfold blocklistCommitSlot
  refine Prog.safe_call_bind.mpr ⟨trivial, fun ram s₁ h₁ => ?_⟩
  obtain ⟨hs₁, rfl⟩ := h₁
  show Prog.Safe _ _ _ (if _ then _ else _) s₁
  by_cases hbad : slot < 0 ∨ slot ≥ blocklistSlots ∨ slot = s.ram.active
  · rw [if_pos hbad]
    trivial
  rw [if_neg hbad]
  have hact : slot ≠ s₁.ram.active := by
    rw [hs₁.ram]
    exact fun h => hbad (Or.inr (Or.inr h))
  have hm₁ : Current sha256 s₁ m :=
    hm.mono (by rw [hs₁.log]; exact List.Subset.refl _) hs₁.hashed
  refine Prog.safe_call_bind.mpr ⟨⟨hact, m, hm₁, sizeT_count hm.accepted⟩,
    fun (ok : Bool) s₂ h₂ => ?_⟩
  cases ok with
  | false => trivial
  | true =>
      have hs₂ := h₂.nvsSet_true
      have hm₂ := hm₁.of_setNvs hs₂
      have hact₂ : slot ≠ s₂.ram.active := by rw [hs₂.ram]; exact hact
      have hcnt₂ : s₂.nvs (.cnt slot) = some m.count := by
        rw [hs₂.nvs, World.setNvs_same, sizeT_count hm.accepted]
      refine Prog.safe_call_bind.mpr ⟨⟨hact₂, m, hm₂, hcnt₂, rfl⟩, fun (ok : Bool) s₃ h₃ => ?_⟩
      cases ok with
      | false => trivial
      | true =>
          have hs₃ := h₃.nvsSet_true
          have hm₃ := hm₂.of_setNvs hs₃
          have hact₃ : slot ≠ s₃.ram.active := by rw [hs₃.ram]; exact hact₂
          have hcnt₃ : s₃.nvs (.cnt slot) = some m.count := by
            rw [hs₃.nvs, World.setNvs_of_ne _ _ (by simp), hcnt₂]
          have hsha₃ : s₃.nvs (.sha slot) = some m.sha256.bytes := by
            rw [hs₃.nvs, World.setNvs_same]
          refine Prog.safe_call_bind.mpr ⟨⟨hact₃, m, hm₃, hcnt₃, hsha₃, rfl⟩,
            fun (ok : Bool) s₄ _ => ?_⟩
          cases ok with
          | false => trivial
          | true =>
              refine Prog.safe_call_bind.mpr ⟨trivial, fun (ok : Bool) s₅ _ => ?_⟩
              cases ok with
              | false => trivial
              | true => exact (activateSlot_safe s₅ slot).mono (fun _ _ h => h.1) fun _ _ h => h

end Triples

end EspHole.Sinkhole
