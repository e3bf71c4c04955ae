/-
The generator's flash: `main/artifact_store.c`.

What was published last is kept in one of two slots, so that a reboot can serve it at
once.  A save writes the slot that is not on record, reads it back, and only then moves
the record.  The calls are those of the sinkhole's store with the roles turned round, so
the keys and the sector arithmetic are shared with it.

`Faults` says of one run which calls fail, what a failing erase or write leaves in its
range, and what a read makes of what is there.  `loads_eq_ok` says when a load succeeds,
and `loads_congr` what it depends on.
-/
import EspHole.Pipeline.Finish
import EspHole.Sinkhole.Transfer

namespace EspHole.Generator.Store

open Ascending Pipeline
open Sinkhole (Key CommitSite storedVersion eraseRange)

/-! ### Calls -/

/-- The keys of the NVS namespace `artifact`, and the partitions `art_a` and `art_b`. -/
structure State where
  flash : Int → Nat → UInt8
  nvs : (k : Key) → Option k.Val

namespace State

/-- The first `n` bytes of a slot. -/
def slotBytes (s : State) (slot : Int) (n : Nat) : Bytes := (List.range n).map (s.flash slot)

@[simp] theorem slotBytes_length (s : State) (slot : Int) (n : Nat) :
    (s.slotBytes slot n).length = n := by simp [slotBytes]

/-- One NVS key written. -/
def setNvs (s : State) (k : Key) (v : k.Val) : State :=
  { s with nvs := Function.update s.nvs k (some v) }

@[simp] theorem setNvs_same (s : State) (k : Key) (v : k.Val) : (s.setNvs k v).nvs k = some v := by
  simp [setNvs]

theorem setNvs_of_ne (s : State) {k k' : Key} (v : k.Val) (h : k' ≠ k) :
    (s.setNvs k v).nvs k' = s.nvs k' := by
  simp [setNvs, h]

@[simp] theorem setNvs_flash (s : State) (k : Key) (v : k.Val) : (s.setNvs k v).flash = s.flash :=
  rfl

/-- The first `n` bytes of a slot replaced. -/
def overlay (s : State) (slot : Int) (n : Nat) (f : Nat → UInt8) : State :=
  { s with flash := Function.update s.flash slot fun a => if a < n then f a else s.flash slot a }

/-- A slot programmed from its start: NOR flash can only clear bits. -/
def program (s : State) (slot : Int) (data : Bytes) : State :=
  s.overlay slot data.length fun a => s.flash slot a &&& data.getD a 0xFF

end State

/-- The calls of `artifact_store.c`. -/
inductive Op
  | nvsOpen
  | nvsGet (k : Key)
  | nvsSet (k : Key) (v : k.Val)
  | nvsCommit (site : CommitSite)
  | realloc (size : Nat)
  | partitionRead (slot : Int) (bytes : Nat)
  | partitionErase (slot : Int) (bytes : Nat)
  | partitionWrite (slot : Int) (data : Bytes)
  | fault

/-- What each call answers; `fault` is a load outside any buffer and does not come back. -/
@[reducible] def Res : Op → Type
  | .nvsOpen => Bool
  | .nvsGet k => Option k.Val
  | .nvsSet _ _ => Bool
  | .nvsCommit _ => Bool
  | .realloc _ => Bool
  | .partitionRead _ _ => Option Bytes
  | .partitionErase _ _ => Bool
  | .partitionWrite _ _ => Bool
  | .fault => Empty

/-- A program of the store. -/
abbrev Code (α : Type) : Type := Prog Op Res α

abbrev nvsOpen : Code Bool := Prog.call Op.nvsOpen
abbrev nvsGet (k : Key) : Code (Option k.Val) := Prog.call (Op.nvsGet k)
abbrev nvsSet (k : Key) (v : k.Val) : Code Bool := Prog.call (Op.nvsSet k v)
abbrev nvsCommit (site : CommitSite) : Code Bool := Prog.call (Op.nvsCommit site)
abbrev realloc (size : Nat) : Code Bool := Prog.call (Op.realloc size)
abbrev partitionRead (slot : Int) (bytes : Nat) : Code (Option Bytes) :=
  Prog.call (Op.partitionRead slot bytes)
abbrev partitionErase (slot : Int) (bytes : Nat) : Code Bool :=
  Prog.call (Op.partitionErase slot bytes)
abbrev partitionWrite (slot : Int) (data : Bytes) : Code Bool :=
  Prog.call (Op.partitionWrite slot data)

/-- A load outside any buffer. -/
def outOfBounds {α : Type} : Code α := .op .fault fun e => e.elim

/-- What goes wrong in one run. -/
structure Faults where
  fails : Op → Bool
  left : Op → Nat → UInt8
  readBack : Bytes → Bytes
  readBack_length : ∀ b, (readBack b).length = b.length

/-- Nothing goes wrong. -/
def Faults.never : Faults := ⟨fun _ => false, fun _ _ => 0xFF, id, fun _ => rfl⟩

/-- What a call does.  A failing NVS call changes nothing. -/
def handle (p : Faults) (o : Op) (s : State) : Option (Res o × State) :=
  match o with
  | .nvsOpen => some (!p.fails .nvsOpen, s)
  | .nvsGet k => some (if p.fails (.nvsGet k) then none else s.nvs k, s)
  | .nvsSet k v => if p.fails (.nvsSet k v) then some (false, s) else some (true, s.setNvs k v)
  | .nvsCommit site => some (!p.fails (.nvsCommit site), s)
  | .realloc size => some (reallocGrants (!p.fails (.realloc size)) size, s)
  | .partitionRead slot bytes =>
      some (if p.fails (.partitionRead slot bytes) then none
        else some (p.readBack (s.slotBytes slot bytes)), s)
  | .partitionErase slot bytes =>
      if p.fails (.partitionErase slot bytes) then
        some (false, s.overlay slot bytes (p.left (.partitionErase slot bytes)))
      else some (true, s.overlay slot bytes fun _ => 0xFF)
  | .partitionWrite slot data =>
      if p.fails (.partitionWrite slot data) then
        some (false, s.overlay slot data.length (p.left (.partitionWrite slot data)))
      else some (true, s.program slot data)
  | .fault => none

/-! ### The two functions -/

/-- `ARTIFACT_SLOTS` -/
def artifactSlots : Int := 2

/-- The size of `art_a` and `art_b` in `partitions.csv`. -/
def slotSize : Nat := 0x800000

/-- `ARTIFACT_VERSION_MAX` -/
def artifactVersionMax : Nat := 32

/-- `slot_partition`: the size of a slot's partition. -/
def slotPartition (slot : Int) : Option Nat :=
  if slot < 0 ∨ slot ≥ artifactSlots then none else some slotSize

/-- The stored digest, where it has the right length. -/
def storedDigest (sha : Bytes) : Option Digest :=
  if h : sha.length = 32 then some ⟨sha.toArray, by simpa using h⟩ else none

section Functions

variable (sha256 : Bytes → Digest)

/-- The second half of `artifact_store_load`: the buffer and its validation. -/
def loadBlob (slot : Int) (count : Nat) (want : Digest) (version : Bytes) :
    Code (EspErr × Artifact × Bytes) := do
  let some partSize := slotPartition slot | return (.notFound, .zero, version)
  let blobLen := sizeT (count * 8)
  if blobLen = 0 ∨ blobLen > partSize then return (.invalidSize, .zero, version)
  if !(← realloc blobLen) then return (.noMem, .zero, version)
  let some blob ← partitionRead slot blobLen | return (.fail, .zero, version)
  match blocklistVerifyBlob sha256 blob blobLen count want with
  | none => outOfBounds
  | some false => return (.invalidCrc, .zero, version)
  | some true => return (.ok, ⟨blob, blobLen, count, want⟩, version)

/-- `artifact_store_load`: what it returns, and what is then in `out` and `version_out`. -/
def artifactStoreLoad : Code (EspErr × Artifact × Bytes) := do
  if !(← nvsOpen) then return (.notFound, .zero, [])
  let active := (← nvsGet .active).getD 0xFF
  if (active.toNat : Int) ≥ artifactSlots then return (.notFound, .zero, [])
  let slot : Int := active.toNat
  let some count ← (nvsGet (.cnt slot) : Code (Option Nat)) | return (.notFound, .zero, [])
  let some sha ← (nvsGet (.sha slot) : Code (Option Bytes)) | return (.notFound, .zero, [])
  let some want := storedDigest sha | return (.notFound, .zero, [])
  loadBlob sha256 slot count want (storedVersion (← nvsGet (.ver slot)))

/-- The part of `artifact_store_save` that writes the slot. -/
def writeSlot (slot : Int) (art : Artifact) : Code EspErr := do
  if !(← partitionErase slot (eraseRange art.blobLen)) then return .driver
  return if ← partitionWrite slot art.bytes then .ok else .driver

/-- The part that writes its keys. -/
def recordSlot (slot : Int) (art : Artifact) (version : Bytes) : Code EspErr := do
  if !(← nvsSet (.cnt slot) (sizeT art.count)) then return .driver
  if !(← nvsSet (.sha slot) art.sha256.bytes) then return .driver
  if !(← nvsSet (.ver slot) version) then return .driver
  return if ← nvsCommit .metadata then .ok else .driver

/-- The part that reads the slot back and validates it. -/
def checkSlot (slot : Int) (art : Artifact) : Code EspErr := do
  if !(← realloc art.blobLen) then return .noMem
  let some readback ← partitionRead slot art.blobLen | return .invalidState
  match blocklistVerifyBlob sha256 readback art.blobLen art.count art.sha256 with
  | none => outOfBounds
  | some ok => return if ok then .ok else .invalidState

/-- The part that moves the record. -/
def activate (slot : Int) : Code EspErr := do
  if !(← nvsSet .active slot.toNat.toUInt8) then return .driver
  return if ← nvsCommit .active then .ok else .driver

/-- The inactive slot; slot 0 if nothing is active yet. -/
def targetSlot (active : Option UInt8) : Int := if active.getD 0xFF = 0 then 1 else 0

/-- `artifact_store_save`, once the slot is chosen and known to be large enough. -/
def saveTo (slot : Int) (art : Artifact) (version : Bytes) : Code EspErr := do
  let err ← writeSlot slot art
  if err ≠ .ok then return err
  let err ← recordSlot slot art version
  if err ≠ .ok then return err
  let err ← checkSlot sha256 slot art
  if err ≠ .ok then return err
  activate slot

/-- `artifact_store_save` -/
def artifactStoreSave (art : Artifact) (version : Bytes) : Code EspErr := do
  if !(← nvsOpen) then return .driver
  let slot := targetSlot (← nvsGet .active)
  let some partSize := slotPartition slot | return .notFound
  if art.blobLen > partSize then return .invalidSize
  saveTo sha256 slot art version

/-- What a load returns in this state, no call failing. -/
def loads (s : State) : Option (EspErr × Artifact × Bytes) :=
  ((artifactStoreLoad sha256).run (handle .never) s).map Prod.fst

end Functions

/-! ### What a load depends on -/

section Loads

variable {sha256 : Bytes → Digest}

/-- The two states agree on a slot and its keys. -/
structure SameSlot (s s' : State) (slot : Int) : Prop where
  cnt : s'.nvs (.cnt slot) = s.nvs (.cnt slot)
  sha : s'.nvs (.sha slot) = s.nvs (.sha slot)
  ver : s'.nvs (.ver slot) = s.nvs (.ver slot)
  flash : s'.flash slot = s.flash slot

theorem SameSlot.slotBytes {s s' : State} {slot : Int} (h : SameSlot s s' slot) (n : Nat) :
    s'.slotBytes slot n = s.slotBytes slot n := by
  unfold State.slotBytes
  rw [h.flash]

/-- A load of a slot on record, as a function of what the slot and its keys hold. -/
def loadsFrom (sha256 : Bytes → Digest) (count : Option Nat) (sha ver : Option Bytes)
    (bytes : Nat → Bytes) : Option (EspErr × Artifact × Bytes) :=
  match count, sha.bind storedDigest with
  | some count, some want =>
      let blobLen := sizeT (count * 8)
      if blobLen = 0 ∨ blobLen > slotSize then some (.invalidSize, .zero, storedVersion ver)
      else
        (blocklistVerifyBlob sha256 (bytes blobLen) blobLen count want).map fun ok =>
          if ok then (.ok, ⟨bytes blobLen, blobLen, count, want⟩, storedVersion ver)
          else (.invalidCrc, .zero, storedVersion ver)
  | _, _ => some (.notFound, .zero, [])

/-- The slot on record, where there is one. -/
def onRecord (s : State) : Option Int :=
  if (((s.nvs .active).getD 0xFF).toNat : Int) ≥ artifactSlots then none
  else some ((s.nvs .active).getD 0xFF).toNat

theorem loadBlob_run (s : State) {slot : Int} (hslot : 0 ≤ slot ∧ slot < artifactSlots)
    (count : Nat) (want : Digest) (version : Bytes) :
    ((loadBlob sha256 slot count want version).run (handle .never) s).map Prod.fst =
      let blobLen := sizeT (count * 8)
      if blobLen = 0 ∨ blobLen > slotSize then some (.invalidSize, .zero, version)
      else
        (blocklistVerifyBlob sha256 (s.slotBytes slot blobLen) blobLen count want).map fun ok =>
          if ok then (.ok, ⟨s.slotBytes slot blobLen, blobLen, count, want⟩, version)
          else (.invalidCrc, .zero, version) := by
  have hpart : slotPartition slot = some slotSize := if_neg (by omega)
  unfold loadBlob
  simp only [hpart]
  by_cases hsize : sizeT (count * 8) = 0 ∨ sizeT (count * 8) > slotSize
  · rw [if_pos hsize, if_pos hsize]
    rfl
  · rw [if_neg hsize, if_neg hsize]
    have hgrant : reallocGrants true (sizeT (count * 8)) = true := by
      unfold slotSize at hsize
      simp only [reallocGrants, Bool.true_and, decide_eq_true_eq]
      omega
    simp only [Prog.run_bind, Prog.run_call, handle, Faults.never, Bool.not_false, hgrant]
    simp only [Option.bind_some, Bool.not_true, Bool.false_eq_true, if_false, id, Prog.run_bind,
      Prog.run_call, handle]
    cases blocklistVerifyBlob sha256 (s.slotBytes slot (sizeT (count * 8))) (sizeT (count * 8))
      count want with
    | none => rfl
    | some ok => cases ok <;> rfl

theorem onRecord_isSlot {s : State} {slot : Int} (h : onRecord s = some slot) :
    0 ≤ slot ∧ slot < artifactSlots := by
  unfold onRecord at h
  split at h
  · cases h
  · obtain rfl := Option.some.inj h
    omega

theorem handle_nvsGet (k : Key) (s : State) :
    handle .never (.nvsGet k) s = some (s.nvs k, s) := rfl

theorem loads_eq (s : State) :
    loads sha256 s =
      match onRecord s with
      | none => some (.notFound, .zero, [])
      | some slot => loadsFrom sha256 (s.nvs (.cnt slot)) (s.nvs (.sha slot)) (s.nvs (.ver slot))
          (s.slotBytes slot) := by
  have hopen : handle .never .nvsOpen s = some (true, s) := rfl
  unfold loads artifactStoreLoad
  simp only [Prog.run_bind, Prog.run_call, hopen, handle_nvsGet, Option.bind_some, Bool.not_true,
    Bool.false_eq_true, if_false]
  cases hrec : onRecord s with
  | none =>
      unfold onRecord at hrec
      split at hrec
      · rename_i hact
        rw [if_pos hact]
        rfl
      · cases hrec
  | some slot =>
      have hslot := onRecord_isSlot hrec
      unfold onRecord at hrec
      split at hrec
      · cases hrec
      · rename_i hact
        obtain rfl := Option.some.inj hrec
        rw [if_neg hact]
        simp only [Prog.run_bind, Prog.run_call, handle_nvsGet, Option.bind_some]
        cases hcnt : s.nvs (.cnt ((s.nvs .active).getD 0xFF).toNat) with
        | none => rfl
        | some count =>
            simp only [Prog.run_bind, Prog.run_call, handle_nvsGet, Option.bind_some]
            cases hsha : s.nvs (.sha ((s.nvs .active).getD 0xFF).toNat) with
            | none => rfl
            | some sha =>
                cases hwant : storedDigest sha with
                | none =>
                    simp only [loadsFrom, Option.bind_some, hwant]
                    rfl
                | some want =>
                    simp only [Prog.run_bind, Prog.run_call, handle_nvsGet, Option.bind_some,
                      loadsFrom, hwant]
                    exact loadBlob_run s hslot count want _

/-- A load sees the record, and the slot it names. -/
theorem loads_congr {s s' : State} (hactive : s'.nvs .active = s.nvs .active)
    (hslot : ∀ slot, onRecord s = some slot → SameSlot s s' slot) :
    loads sha256 s' = loads sha256 s := by
  have hrec : onRecord s' = onRecord s := by
    unfold onRecord
    rw [hactive]
  rw [loads_eq, loads_eq, hrec]
  cases h : onRecord s with
  | none => rfl
  | some slot =>
      have hs := hslot slot h
      have hbytes : s'.slotBytes slot = s.slotBytes slot := funext hs.slotBytes
      simp only [hs.cnt, hs.sha, hs.ver, hbytes]

/-! ### When a load succeeds -/

theorem storedDigest_eq_some {sha : Bytes} {d : Digest} :
    storedDigest sha = some d ↔ sha = d.bytes := by
  unfold storedDigest
  constructor
  · intro h
    split at h
    · obtain rfl := Option.some.inj h
      simp [Digest.bytes, Vector.toList]
    · cases h
  · rintro rfl
    rw [dif_pos d.bytes_length]
    refine congrArg some (Digest.bytes_inj ?_)
    simp [Digest.bytes, Vector.toList]

/-- What a slot and its keys hold. -/
structure Holds (s : State) (slot : Int) (art : Artifact) (version : Bytes) : Prop where
  cnt : s.nvs (.cnt slot) = some art.count
  sha : s.nvs (.sha slot) = some art.sha256.bytes
  ver : storedVersion (s.nvs (.ver slot)) = version
  blob : s.slotBytes slot art.blobLen = art.blob

theorem Holds.congr {s s' : State} {slot : Int} {art : Artifact} {version : Bytes}
    (h : Holds s slot art version) (hs : SameSlot s s' slot) : Holds s' slot art version :=
  ⟨hs.cnt.trans h.cnt, hs.sha.trans h.sha, by rw [hs.ver, h.ver], by rw [hs.slotBytes, h.blob]⟩

/-- What the validation of a load lets through. -/
structure Restorable (sha256 : Bytes → Digest) (art : Artifact) : Prop where
  len : art.blobLen = sizeT (art.count * 8)
  pos : 0 < art.blobLen
  fits : art.blobLen ≤ slotSize
  verified : blocklistVerifyBlob sha256 art.blob art.blobLen art.count art.sha256 = some true

theorem loadsFrom_ok {count : Option Nat} {sha ver : Option Bytes} {bytes : Nat → Bytes}
    {art : Artifact} {version : Bytes}
    (h : loadsFrom sha256 count sha ver bytes = some (.ok, art, version)) :
    count = some art.count ∧ sha = some art.sha256.bytes ∧ storedVersion ver = version ∧
      bytes art.blobLen = art.blob ∧ Restorable sha256 art := by
  unfold loadsFrom at h
  split at h
  · rename_i n want hwant
    obtain ⟨d, rfl, hd⟩ := Option.bind_eq_some_iff.mp hwant
    obtain rfl := storedDigest_eq_some.mp hd
    simp only at h
    split at h
    · cases h
    · rename_i hsize
      obtain ⟨ok, hverify, hok⟩ := Option.map_eq_some_iff.mp h
      cases ok with
      | false => cases hok
      | true =>
          obtain ⟨-, hrest⟩ := Prod.mk.inj hok
          obtain ⟨rfl, rfl⟩ := Prod.mk.inj hrest
          exact ⟨rfl, rfl, rfl, rfl, rfl, by show 0 < sizeT _; omega,
            by show sizeT _ ≤ _; omega, hverify⟩
  · cases h

theorem loadsFrom_holds {s : State} {slot : Int} {art : Artifact} {version : Bytes}
    (h : Holds s slot art version) (hr : Restorable sha256 art) :
    loadsFrom sha256 (s.nvs (.cnt slot)) (s.nvs (.sha slot)) (s.nvs (.ver slot))
      (s.slotBytes slot) = some (.ok, art, version) := by
  have hlen := hr.len
  have hpos := hr.pos
  have hfits := hr.fits
  rw [h.cnt, h.sha]
  simp only [loadsFrom, Option.bind_some, storedDigest_eq_some.mpr rfl]
  rw [if_neg (by omega), ← hlen, h.blob, hr.verified, h.ver]
  rfl

/-- **When a load succeeds, and with what.** -/
theorem loads_eq_ok {s : State} {art : Artifact} {version : Bytes} :
    loads sha256 s = some (.ok, art, version) ↔
      ∃ slot, onRecord s = some slot ∧ Holds s slot art version ∧ Restorable sha256 art := by
  rw [loads_eq]
  constructor
  · intro h
    cases hrec : onRecord s with
    | none =>
        rw [hrec] at h
        cases h
    | some slot =>
        rw [hrec] at h
        obtain ⟨hcnt, hsha, hver, hblob, hr⟩ := loadsFrom_ok h
        exact ⟨slot, rfl, ⟨hcnt, hsha, hver, hblob⟩, hr⟩
  · rintro ⟨slot, hrec, hh, hr⟩
    rw [hrec]
    exact loadsFrom_holds hh hr

/-! ### Artifacts as they are published -/

/-- The artifact of a list: its words in order, under their own digest. -/
structure Encodes (sha256 : Bytes → Digest) (ws : List UInt64) (art : Artifact) : Prop where
  ascending : Ascending ws
  nonempty : ws ≠ []
  bytes : art.bytes = ws.flatMap Words.encode
  blobLen : art.blobLen = 8 * ws.length
  count : art.count = ws.length
  digest : art.sha256 = sha256 art.bytes

/-- What a load makes of a saved artifact: the block it reads into is just large enough. -/
def restored (art : Artifact) : Artifact := { art with blob := art.bytes }

theorem Encodes.bytes_length {ws : List UInt64} {art : Artifact} (h : Encodes sha256 ws art) :
    art.bytes.length = art.blobLen := by
  rw [h.bytes, Words.flatMap_encode_length, h.blobLen]

theorem Encodes.blobLen_le {ws : List UInt64} {art : Artifact} (h : Encodes sha256 ws art) :
    art.blobLen ≤ art.blob.length := by
  rw [← h.bytes_length]
  exact List.length_take_le' _ _

/-- There is a heap block for it. -/
theorem Encodes.grants {ws : List UInt64} {art : Artifact} (h : Encodes sha256 ws art)
    (hfits : art.blobLen ≤ slotSize) : reallocGrants true art.blobLen = true := by
  have hpos := List.length_pos_of_ne_nil h.nonempty
  have hblobLen := h.blobLen
  unfold slotSize at hfits
  simp only [reallocGrants, Bool.true_and, decide_eq_true_eq]
  omega

/-- Such an artifact passes the validation. -/
theorem Encodes.restorable {ws : List UInt64} {art : Artifact} (h : Encodes sha256 ws art)
    (hfits : art.blobLen ≤ slotSize) : Restorable sha256 (restored art) := by
  have hpos := List.length_pos_of_ne_nil h.nonempty
  have hlen : art.blobLen = sizeT (art.count * 8) := by
    have hblobLen := h.blobLen
    unfold slotSize at hfits
    rw [h.count, sizeT_of_lt (by omega)]
    omega
  refine ⟨hlen, by show 0 < art.blobLen; rw [h.blobLen]; omega, hfits, ?_⟩
  show blocklistVerifyBlob sha256 art.bytes art.blobLen art.count art.sha256 = some true
  unfold blocklistVerifyBlob
  rw [if_neg (not_not_intro hlen),
    if_neg (by rw [← h.bytes_length, List.take_length, h.digest]; simp), h.bytes, h.count]
  have hloop : verifyLoop (ws.flatMap Words.encode ++ []) 0 0 ws.length = _ := verifyLoop_encoded
  rw [List.append_nil] at hloop
  rw [hloop, decide_eq_true h.ascending]

end Loads

end EspHole.Generator.Store
