/-
A save that fails: what `artifact_store_save` leaves behind.

A save makes its calls one after the other and stops at the first that fails, so what it
leaves can be written down from the pattern of failures (`State.attempted`).  The header
promises that a failure leaves the persisted artifact alone.  That is so unless the slot
it wrote is, or has become, the one on record: it is when the read of `active` failed
while slot 0 was active, and it has become so when only the last commit fails.
`save_untouched_iff` says that these are all the ways.
-/
import EspHole.Generator.Store

namespace EspHole.Generator.Store

open Ascii Pipeline
open Sinkhole (Key CommitSite storedVersion eraseRange)

/-! ### How far a save gets -/

namespace Faults

variable (p : Faults) (slot : Int) (art : Artifact) (version : Bytes)

/-- The slot is erased, -/
def erased : Bool := !p.fails (.partitionErase slot (eraseRange art.blobLen))

/-- the blob is written, -/
def written : Bool := p.erased slot art && !p.fails (.partitionWrite slot art.bytes)

/-- and then the count, -/
def counted : Bool := p.written slot art && !p.fails (.nvsSet (.cnt slot) (sizeT art.count))

/-- the digest -/
def signed : Bool := p.counted slot art && !p.fails (.nvsSet (.sha slot) art.sha256.bytes)

/-- and the version; -/
def labelled : Bool := p.signed slot art && !p.fails (.nvsSet (.ver slot) version)

/-- these are committed, -/
def recorded : Bool := p.labelled slot art version && !p.fails (.nvsCommit .metadata)

/-- and the slot is read back. -/
def reread : Bool :=
  p.recorded slot art version && reallocGrants (!p.fails (.realloc art.blobLen)) art.blobLen &&
    !p.fails (.partitionRead slot art.blobLen)

section Chain

variable {p slot art version}

/-! Each step was reached by way of the one before. -/

theorem written_of_counted (h : p.counted slot art = true) : p.written slot art = true :=
  ((Bool.and_eq_true _ _).mp h).1

theorem counted_of_signed (h : p.signed slot art = true) : p.counted slot art = true :=
  ((Bool.and_eq_true _ _).mp h).1

theorem signed_of_labelled (h : p.labelled slot art version = true) : p.signed slot art = true :=
  ((Bool.and_eq_true _ _).mp h).1

theorem labelled_of_recorded (h : p.recorded slot art version = true) :
    p.labelled slot art version = true :=
  ((Bool.and_eq_true _ _).mp h).1

theorem recorded_of_reread (h : p.reread slot art version = true) :
    p.recorded slot art version = true :=
  ((Bool.and_eq_true _ _).mp ((Bool.and_eq_true _ _).mp h).1).1

theorem written_of_recorded (h : p.recorded slot art version = true) :
    p.written slot art = true :=
  written_of_counted (counted_of_signed (signed_of_labelled (labelled_of_recorded h)))

end Chain

/-- What the slot then holds. -/
def bytesLeft (old : Nat → UInt8) (a : Nat) : UInt8 :=
  let blank := if a < eraseRange art.blobLen then 0xFF else old a
  if p.written slot art then if a < art.bytes.length then art.bytes.getD a 0xFF else blank
  else if p.erased slot art then
    if a < art.bytes.length then p.left (.partitionWrite slot art.bytes) a else blank
  else if a < eraseRange art.blobLen then
    p.left (.partitionErase slot (eraseRange art.blobLen)) a
  else old a

end Faults

/-- The slot once a save has written what it could. -/
def State.overwritten (s : State) (p : Faults) (slot : Int) (art : Artifact) : State :=
  { s with flash := Function.update s.flash slot (p.bytesLeft slot art (s.flash slot)) }

/-- And its keys. -/
def State.attempted (s : State) (p : Faults) (slot : Int) (art : Artifact) (version : Bytes) :
    State :=
  let s := s.overwritten p slot art
  let s := if p.counted slot art then s.setNvs (.cnt slot) (sizeT art.count) else s
  let s := if p.signed slot art then s.setNvs (.sha slot) art.sha256.bytes else s
  if p.labelled slot art version then s.setNvs (.ver slot) version else s

section Attempt

variable {s : State} {p : Faults} {slot : Int} {art : Artifact} {version : Bytes}

theorem bytes_length (hart : art.blobLen ≤ art.blob.length) : art.bytes.length = art.blobLen := by
  simp [Artifact.bytes, hart]

theorem overlay_overlay (s : State) (slot : Int) (n m : Nat) (f g : Nat → UInt8) :
    (s.overlay slot n f).overlay slot m g =
      { s with flash := Function.update s.flash slot fun a =>
        if a < m then g a else if a < n then f a else s.flash slot a } := by
  simp [State.overlay]

/-- What a save leaves in the slot. -/
theorem writeSlot_run (hart : art.blobLen ≤ art.blob.length) :
    (writeSlot slot art).run (handle p) s =
      some (if p.written slot art then .ok else .driver, s.overwritten p slot art) := by
  have hrange : art.bytes.length ≤ eraseRange art.blobLen := by
    rw [bytes_length hart]
    exact Sinkhole.le_eraseRange _
  unfold writeSlot
  rw [Prog.run_bind, Prog.run_call]
  cases herase : p.fails (.partitionErase slot (eraseRange art.blobLen)) with
  | true =>
      have hbytes : p.bytesLeft slot art (s.flash slot) = fun a =>
          if a < eraseRange art.blobLen then
            p.left (.partitionErase slot (eraseRange art.blobLen)) a else s.flash slot a := by
        funext a
        simp [Faults.bytesLeft, Faults.written, Faults.erased, herase]
      simp [handle, herase, Faults.written, Faults.erased, State.overwritten, hbytes, State.overlay]
  | false =>
      simp only [handle, herase, Bool.false_eq_true, if_false, Option.bind_some, Bool.not_true,
        Prog.run_bind, Prog.run_call]
      cases hwrite : p.fails (.partitionWrite slot art.bytes) with
      | true =>
          have hbytes : p.bytesLeft slot art (s.flash slot) = fun a =>
              if a < art.bytes.length then p.left (.partitionWrite slot art.bytes) a
              else if a < eraseRange art.blobLen then 0xFF else s.flash slot a := by
            funext a
            simp [Faults.bytesLeft, Faults.written, Faults.erased, herase, hwrite]
          simp [Faults.written, hwrite, overlay_overlay, State.overwritten, hbytes]
      | false =>
          have hbytes : p.bytesLeft slot art (s.flash slot) = fun a =>
              if a < art.bytes.length then (s.overlay slot (eraseRange art.blobLen)
                  fun _ => 0xFF).flash slot a &&& art.bytes.getD a 0xFF
              else if a < eraseRange art.blobLen then 0xFF else s.flash slot a := by
            funext a
            by_cases ha : a < art.bytes.length
            · have hin : a < eraseRange art.blobLen := by omega
              simp [Faults.bytesLeft, Faults.written, Faults.erased, herase, hwrite, ha, hin,
                State.overlay, Sinkhole.ones_and]
            · simp [Faults.bytesLeft, Faults.written, Faults.erased, herase, hwrite, ha]
          simp [Faults.written, Faults.erased, herase, hwrite, State.program, overlay_overlay,
            State.overwritten, hbytes]

/-- A slot that could not be written keeps its keys. -/
theorem attempted_unwritten (h : p.written slot art = false) :
    s.attempted p slot art version = s.overwritten p slot art := by
  simp [State.attempted, Faults.counted, Faults.signed, Faults.labelled, h]

/-- What it leaves in the keys. -/
theorem recordSlot_run (h : p.written slot art = true) :
    (recordSlot slot art version).run (handle p) (s.overwritten p slot art) =
      some (if p.recorded slot art version then .ok else .driver,
        s.attempted p slot art version) := by
  unfold recordSlot State.attempted Faults.recorded Faults.labelled Faults.signed Faults.counted
  rw [h]
  cases hcnt : p.fails (.nvsSet (.cnt slot) (sizeT art.count)) with
  | true => simp [handle, hcnt]
  | false =>
      cases hsha : p.fails (.nvsSet (.sha slot) art.sha256.bytes) with
      | true => simp [handle, hcnt, hsha]
      | false =>
          cases hver : p.fails (.nvsSet (.ver slot) version) with
          | true => simp [handle, hcnt, hsha, hver]
          | false =>
              cases hcommit : p.fails (.nvsCommit .metadata) <;>
                simp [handle, hcnt, hsha, hver, hcommit]

theorem attempted_flash : (s.attempted p slot art version).flash =
    Function.update s.flash slot (p.bytesLeft slot art (s.flash slot)) := by
  unfold State.attempted
  simp only [apply_ite State.flash, State.setNvs_flash, ite_self]
  rfl

theorem attempted_nvs_of_ne {k : Key} (hcnt : k ≠ .cnt slot) (hsha : k ≠ .sha slot)
    (hver : k ≠ .ver slot) : (s.attempted p slot art version).nvs k = s.nvs k := by
  unfold State.attempted
  simp only
  split <;> split <;> split <;>
    simp [State.setNvs_of_ne, State.overwritten, hcnt, hsha, hver]

theorem attempted_cnt : (s.attempted p slot art version).nvs (.cnt slot) =
    if p.counted slot art then some (sizeT art.count) else s.nvs (.cnt slot) := by
  unfold State.attempted
  cases p.counted slot art <;> cases p.signed slot art <;> cases p.labelled slot art version <;>
    simp [State.setNvs_of_ne, State.overwritten]

theorem attempted_sha : (s.attempted p slot art version).nvs (.sha slot) =
    if p.signed slot art then some art.sha256.bytes else s.nvs (.sha slot) := by
  unfold State.attempted
  cases p.counted slot art <;> cases p.signed slot art <;> cases p.labelled slot art version <;>
    simp [State.setNvs_of_ne, State.overwritten]

theorem attempted_ver : (s.attempted p slot art version).nvs (.ver slot) =
    if p.labelled slot art version then some version else s.nvs (.ver slot) := by
  unfold State.attempted
  cases p.counted slot art <;> cases p.signed slot art <;> cases p.labelled slot art version <;>
    simp [State.setNvs_of_ne, State.overwritten]

/-- Another slot is as it was. -/
theorem attempted_other {slot' : Int} (h : slot' ≠ slot) :
    SameSlot s (s.attempted p slot art version) slot' := by
  refine ⟨attempted_nvs_of_ne (by simpa using h) (by simp) (by simp),
    attempted_nvs_of_ne (by simp) (by simpa using h) (by simp),
    attempted_nvs_of_ne (by simp) (by simp) (by simpa using h), ?_⟩
  rw [attempted_flash, Function.update_of_ne h]

theorem attempted_slotBytes (n : Nat) : (s.attempted p slot art version).slotBytes slot n =
    (List.range n).map (p.bytesLeft slot art (s.flash slot)) := by
  unfold State.slotBytes
  rw [attempted_flash, Function.update_self]

/-- A slot that was written holds the blob. -/
theorem written_slotBytes (hart : art.blobLen ≤ art.blob.length)
    (h : p.written slot art = true) :
    (s.attempted p slot art version).slotBytes slot art.blobLen = art.bytes := by
  have hlen := bytes_length hart
  rw [attempted_slotBytes]
  refine List.ext_getElem (by simp [hlen]) fun i hi hi' => ?_
  simp [Faults.bytesLeft, h, hi']

/-! ### The run of a save -/

variable {sha256 : Bytes → Digest}

/-- What the validation says of what is read back from a written slot. -/
def Faults.verdict (sha256 : Bytes → Digest) (p : Faults) (art : Artifact) : Option Bool :=
  blocklistVerifyBlob sha256 (p.readBack art.bytes) art.blobLen art.count art.sha256

/-- The slot a save chooses. -/
def Faults.target (p : Faults) (s : State) : Int :=
  targetSlot (if p.fails (.nvsGet .active) then none else s.nvs .active)

/-- A save gets as far as its first write. -/
structure Faults.Begins (p : Faults) (art : Artifact) : Prop where
  opens : p.fails .nvsOpen = false
  fits : art.blobLen ≤ slotSize

theorem target_isSlot (s : State) : 0 ≤ p.target s ∧ p.target s < artifactSlots := by
  unfold Faults.target targetSlot artifactSlots
  split <;> omega

/-- Nothing is read back, or it can be validated. -/
theorem checkSlot_run (hart : art.blobLen ≤ art.blob.length)
    (h : p.recorded slot art version = true) :
    (checkSlot sha256 slot art).run (handle p) (s.attempted p slot art version) =
      if p.reread slot art version then
        (p.verdict sha256 art).map fun ok =>
          (if ok then .ok else .invalidState, s.attempted p slot art version)
      else some (if reallocGrants (!p.fails (.realloc art.blobLen)) art.blobLen then .invalidState
        else .noMem, s.attempted p slot art version) := by
  have hwritten : p.written slot art = true := Faults.written_of_recorded h
  have hbytes : (s.attempted p slot art version).slotBytes slot art.blobLen = art.bytes :=
    written_slotBytes hart hwritten
  unfold checkSlot Faults.reread Faults.verdict
  rw [Prog.run_bind, Prog.run_call, h]
  cases hgrant : reallocGrants (!p.fails (.realloc art.blobLen)) art.blobLen with
  | false => simp [handle, hgrant]
  | true =>
      cases hread : p.fails (.partitionRead slot art.blobLen) with
      | true => simp [handle, hgrant, hread]
      | false =>
          simp only [handle, hgrant, Option.bind_some, Bool.not_true, Bool.false_eq_true,
            if_false, Prog.run_bind, Prog.run_call, hread, hbytes]
          cases blocklistVerifyBlob sha256 (p.readBack art.bytes) art.blobLen art.count
            art.sha256 with
          | none => rfl
          | some ok => rfl

theorem activate_run (t : State) :
    (activate slot).run (handle p) t =
      if p.fails (.nvsSet .active slot.toNat.toUInt8) then some (.driver, t)
      else some (if p.fails (.nvsCommit .active) then .driver else .ok,
        t.setNvs .active slot.toNat.toUInt8) := by
  unfold activate
  cases hset : p.fails (.nvsSet .active slot.toNat.toUInt8) with
  | true => simp [handle, hset, -Nat.toUInt8_eq]
  | false =>
      cases hcommit : p.fails (.nvsCommit .active) <;>
        simp [handle, hset, hcommit, -Nat.toUInt8_eq]

/-- The state with the record moved. -/
def State.activated (s : State) (slot : Int) : State := s.setNvs .active slot.toNat.toUInt8

/-- The ways a save can end. -/
inductive Ends (sha256 : Bytes → Digest) (p : Faults) (s : State) (art : Artifact)
    (version : Bytes) : Option (EspErr × State) → Prop
  | stopped {e : EspErr} (hbegins : ¬ p.Begins art) (he : e ≠ .ok) :
      Ends sha256 p s art version (some (e, s))
  | unread {e : EspErr} (hbegins : p.Begins art)
      (hread : p.reread (p.target s) art version = false) (he : e ≠ .ok) :
      Ends sha256 p s art version (some (e, s.attempted p (p.target s) art version))
  | overrun (hread : p.reread (p.target s) art version = true)
      (hverdict : p.verdict sha256 art = none) : Ends sha256 p s art version none
  | refused (hbegins : p.Begins art) (hread : p.reread (p.target s) art version = true)
      (hverdict : p.verdict sha256 art = some false) :
      Ends sha256 p s art version
        (some (.invalidState, s.attempted p (p.target s) art version))
  | unmarked (hbegins : p.Begins art) (hread : p.reread (p.target s) art version = true)
      (hverdict : p.verdict sha256 art = some true)
      (hset : p.fails (.nvsSet .active (p.target s).toNat.toUInt8) = true) :
      Ends sha256 p s art version (some (.driver, s.attempted p (p.target s) art version))
  | uncommitted (hbegins : p.Begins art) (hread : p.reread (p.target s) art version = true)
      (hverdict : p.verdict sha256 art = some true)
      (hset : p.fails (.nvsSet .active (p.target s).toNat.toUInt8) = false)
      (hcommit : p.fails (.nvsCommit .active) = true) :
      Ends sha256 p s art version
        (some (.driver, (s.attempted p (p.target s) art version).activated (p.target s)))
  | saved (hread : p.reread (p.target s) art version = true)
      (hverdict : p.verdict sha256 art = some true)
      (hset : p.fails (.nvsSet .active (p.target s).toNat.toUInt8) = false)
      (hcommit : p.fails (.nvsCommit .active) = false) :
      Ends sha256 p s art version
        (some (.ok, (s.attempted p (p.target s) art version).activated (p.target s)))

theorem saveTo_ends (hart : art.blobLen ≤ art.blob.length) (hbegins : p.Begins art) (s : State) :
    Ends sha256 p s art version ((saveTo sha256 (p.target s) art version).run (handle p) s) := by
  unfold saveTo
  rw [Prog.run_bind, writeSlot_run hart]
  cases hwritten : p.written (p.target s) art with
  | false =>
      have hread : p.reread (p.target s) art version = false := by
        refine Bool.eq_false_iff.mpr fun hread => ?_
        have := Faults.written_of_recorded (Faults.recorded_of_reread hread)
        rw [hwritten] at this
        cases this
      have hends : Ends sha256 p s art version
          (some (.driver, s.attempted p (p.target s) art version)) :=
        .unread hbegins hread (by decide)
      rw [attempted_unwritten hwritten] at hends
      exact hends
  | true =>
      simp only [if_true, Option.bind_some, ne_eq, not_true, if_false, Prog.run_bind]
      rw [recordSlot_run hwritten]
      cases hrecorded : p.recorded (p.target s) art version with
      | false =>
          exact .unread hbegins (by simp [Faults.reread, hrecorded])
            (show EspErr.driver ≠ .ok by decide)
      | true =>
          simp only [if_true, Option.bind_some, not_true, if_false, Prog.run_bind]
          rw [checkSlot_run hart hrecorded]
          cases hread : p.reread (p.target s) art version with
          | false =>
              rw [if_neg (by decide)]
              cases reallocGrants (!p.fails (.realloc art.blobLen)) art.blobLen with
              | false => exact .unread hbegins hread (show EspErr.noMem ≠ .ok by decide)
              | true => exact .unread hbegins hread (show EspErr.invalidState ≠ .ok by decide)
          | true =>
              rw [if_pos rfl]
              cases hverdict : p.verdict sha256 art with
              | none => exact .overrun hread hverdict
              | some ok =>
                  cases ok with
                  | false => exact .refused hbegins hread hverdict
                  | true =>
                      simp only [Option.map_some, if_true, Option.bind_some, not_true, if_false]
                      rw [activate_run]
                      cases hset : p.fails (.nvsSet .active (p.target s).toNat.toUInt8) with
                      | true => exact .unmarked hbegins hread hverdict hset
                      | false =>
                          cases hcommit : p.fails (.nvsCommit .active) with
                          | true => exact .uncommitted hbegins hread hverdict hset hcommit
                          | false => exact .saved hread hverdict hset hcommit

/-- **A save ends in one of these ways.** -/
theorem save_ends (hart : art.blobLen ≤ art.blob.length) (s : State) :
    Ends sha256 p s art version ((artifactStoreSave sha256 art version).run (handle p) s) := by
  have hpart : slotPartition (p.target s) = some slotSize :=
    if_neg (by have := target_isSlot (p := p) s; omega)
  have htarget : targetSlot (if p.fails (.nvsGet .active) then none else s.nvs .active) =
      p.target s := rfl
  unfold artifactStoreSave
  simp only [Prog.run_bind, Prog.run_call, handle, Option.bind_some]
  cases hopen : p.fails .nvsOpen with
  | true => exact .stopped (fun hb => by simp [hb.opens] at hopen) (by decide)
  | false =>
      simp only [Bool.not_false, Bool.not_true, Bool.false_eq_true, if_false, Prog.run_bind,
        Prog.run_call, handle, Option.bind_some]
      rw [htarget, hpart]
      simp only
      by_cases hfits : art.blobLen > slotSize
      · rw [if_pos hfits]
        exact .stopped (fun hb => by have := hb.fits; omega) (by decide)
      · rw [if_neg hfits]
        exact saveTo_ends hart ⟨hopen, by omega⟩ s

/-- A save that gets as far as moving the record. -/
theorem Ends.moved {r : Option (EspErr × State)} (h : Ends sha256 p s art version r)
    (hbegins : p.Begins art) (hread : p.reread (p.target s) art version = true)
    (hverdict : p.verdict sha256 art = some true)
    (hset : p.fails (.nvsSet .active (p.target s).toNat.toUInt8) = false) :
    r = some (if p.fails (.nvsCommit .active) then .driver else .ok,
      (s.attempted p (p.target s) art version).activated (p.target s)) := by
  cases h with
  | stopped hstop => exact absurd hbegins hstop
  | unread _ hno => rw [hread] at hno; cases hno
  | overrun _ hno => rw [hverdict] at hno; cases hno
  | refused _ _ hno => rw [hverdict] at hno; cases hno
  | unmarked _ _ _ hno => rw [hset] at hno; cases hno
  | uncommitted _ _ _ _ hcommit => rw [if_pos hcommit]
  | saved _ _ _ hcommit => rw [hcommit]; rfl

theorem onRecord_activated {t : State} (hslot : 0 ≤ slot ∧ slot < artifactSlots) :
    onRecord (t.activated slot) = some slot := by
  have h : (slot.toNat.toUInt8.toNat : Int) = slot := Sinkhole.slot_toUInt8 hslot
  unfold onRecord State.activated
  rw [State.setNvs_same, Option.getD_some, h, if_neg (by omega)]

theorem Holds.activated_iff {t : State} {slot' : Int} :
    Holds (t.activated slot') slot art version ↔ Holds t slot art version := by
  have hs : SameSlot t (t.activated slot') slot :=
    ⟨State.setNvs_of_ne _ _ (by simp), State.setNvs_of_ne _ _ (by simp),
      State.setNvs_of_ne _ _ (by simp), rfl⟩
  have hs' : SameSlot (t.activated slot') t slot :=
    ⟨hs.cnt.symm, hs.sha.symm, hs.ver.symm, hs.flash.symm⟩
  exact ⟨fun h => h.congr hs', fun h => h.congr hs⟩

/-- What was written whole is what a load then returns. -/
theorem loads_moved {ws : List UInt64} (henc : Encodes sha256 ws art)
    (hfits : art.blobLen ≤ slotSize) (hversion : version.length < artifactVersionMax)
    (hlabelled : p.labelled slot art version = true) (hslot : 0 ≤ slot ∧ slot < artifactSlots) :
    loads sha256 ((s.attempted p slot art version).activated slot) =
      some (.ok, restored art, version) := by
  have hsigned : p.signed slot art = true := Faults.signed_of_labelled hlabelled
  have hcounted : p.counted slot art = true := Faults.counted_of_signed hsigned
  have hwritten : p.written slot art = true := Faults.written_of_counted hcounted
  have hcount : sizeT art.count = art.count := by
    have hblobLen := henc.blobLen
    unfold slotSize at hfits
    rw [henc.count, sizeT_of_lt (by omega)]
  refine loads_eq_ok.mpr ⟨slot, onRecord_activated hslot, Holds.activated_iff.mpr ⟨?_, ?_, ?_, ?_⟩,
    henc.restorable hfits⟩
  · rw [attempted_cnt, if_pos hcounted, hcount]
    rfl
  · rw [attempted_sha, if_pos hsigned]
    rfl
  · rw [attempted_ver, if_pos hlabelled]
    exact if_pos hversion
  · exact written_slotBytes henc.blobLen_le hwritten

/-- A save that moves the record is one that a load then returns. -/
theorem save_run_moves {ws : List UInt64} (henc : Encodes sha256 ws art)
    (hversion : version.length < artifactVersionMax) (hbegins : p.Begins art)
    (hread : p.reread (p.target s) art version = true)
    (hverdict : p.verdict sha256 art = some true)
    (hset : p.fails (.nvsSet .active (p.target s).toNat.toUInt8) = false) :
    ∃ s', (artifactStoreSave sha256 art version).run (handle p) s =
        some (if p.fails (.nvsCommit .active) then .driver else .ok, s') ∧
      loads sha256 s' = some (.ok, restored art, version) := by
  have hends : Ends sha256 p s art version
      ((artifactStoreSave sha256 art version).run (handle p) s) := save_ends henc.blobLen_le s
  have hlabelled : p.labelled (p.target s) art version = true :=
    Faults.labelled_of_recorded (Faults.recorded_of_reread hread)
  exact ⟨_, hends.moved hbegins hread hverdict hset,
    loads_moved henc hbegins.fits hversion hlabelled (target_isSlot s)⟩

/-! ### When a failure leaves the artifact alone -/

/-- Whatever the save got to write is what was persisted. -/
structure Faults.Same (p : Faults) (s : State) (slot : Int) (art : Artifact) (version : Bytes)
    (art₀ : Artifact) (version₀ : Bytes) : Prop where
  blob : (List.range art₀.blobLen).map (p.bytesLeft slot art (s.flash slot)) = art₀.blob
  count : p.counted slot art = true → sizeT art.count = art₀.count
  sha256 : p.signed slot art = true → art.sha256 = art₀.sha256
  version : p.labelled slot art version = true → storedVersion (some version) = version₀

/-- The save begins to write, does not succeed, and its slot is on record then: because it
was all along, or because only the last commit fails. -/
structure Faults.Harms (sha256 : Bytes → Digest) (p : Faults) (s : State) (art : Artifact)
    (version : Bytes) (art₀ : Artifact) (version₀ : Bytes) : Prop where
  begins : p.Begins art
  breaks : p.reread (p.target s) art version = false ∨ p.verdict sha256 art = some false ∨
    p.verdict sha256 art = some true ∧
      (p.fails (.nvsSet .active (p.target s).toNat.toUInt8) = true ∨
        p.fails (.nvsCommit .active) = true)
  exposed : onRecord s = some (p.target s) ∨
    p.reread (p.target s) art version = true ∧ p.verdict sha256 art = some true ∧
      p.fails (.nvsSet .active (p.target s).toNat.toUInt8) = false
  differs : ¬ p.Same s (p.target s) art version art₀ version₀

variable {art₀ : Artifact} {version₀ : Bytes}

/-- The written slot reads as the persisted artifact just when all that was written is the
same. -/
theorem attempted_holds_iff
    (hold : p.labelled slot art version = true ∨ Holds s slot art₀ version₀) :
    Holds (s.attempted p slot art version) slot art₀ version₀ ↔
      p.Same s slot art version art₀ version₀ := by
  constructor
  · rintro ⟨hcnt, hsha, hver, hblob⟩
    rw [attempted_cnt] at hcnt
    rw [attempted_sha] at hsha
    rw [attempted_ver] at hver
    rw [attempted_slotBytes] at hblob
    refine ⟨hblob, fun h => ?_, fun h => ?_, fun h => ?_⟩
    · rw [if_pos h] at hcnt
      exact Option.some.inj hcnt
    · rw [if_pos h] at hsha
      exact Digest.bytes_inj (Option.some.inj hsha)
    · rwa [if_pos h] at hver
  · rintro ⟨hblob, hcount, hsha, hver⟩
    refine ⟨?_, ?_, ?_, by rw [attempted_slotBytes, hblob]⟩
    · rw [attempted_cnt]
      by_cases h : p.counted slot art = true
      · rw [if_pos h, hcount h]
      · rw [if_neg h]
        exact (hold.resolve_left fun hl =>
          h (Faults.counted_of_signed (Faults.signed_of_labelled hl))).cnt
    · rw [attempted_sha]
      by_cases h : p.signed slot art = true
      · rw [if_pos h, hsha h]
      · rw [if_neg h]
        exact (hold.resolve_left fun hl => h (Faults.signed_of_labelled hl)).sha
    · rw [attempted_ver]
      by_cases h : p.labelled slot art version = true
      · rw [if_pos h]
        exact hver h
      · rw [if_neg h]
        exact (hold.resolve_left h).ver

theorem onRecord_attempted : onRecord (s.attempted p slot art version) = onRecord s := by
  have h : (s.attempted p slot art version).nvs .active = s.nvs .active :=
    attempted_nvs_of_ne (by simp) (by simp) (by simp)
  unfold onRecord
  rw [h]

/-- A load of the written slot returns the persisted artifact just when all that was written
is the same. -/
theorem loads_attempted_iff (hr : Restorable sha256 art₀) {t : State}
    (hrec : onRecord t = some slot)
    (hkeep : ∀ x v, Holds t slot x v ↔ Holds (s.attempted p slot art version) slot x v)
    (hold : p.labelled slot art version = true ∨ Holds s slot art₀ version₀) :
    loads sha256 t = some (.ok, art₀, version₀) ↔ p.Same s slot art version art₀ version₀ := by
  rw [← attempted_holds_iff hold, ← hkeep, loads_eq_ok, hrec]
  constructor
  · rintro ⟨slot', hslot', hh, -⟩
    obtain rfl := Option.some.inj hslot'
    exact hh
  · intro hh
    exact ⟨slot, rfl, hh, hr⟩

/-- As long as the record is not moved, a load finds the persisted artifact unless the slot
was on record and what was written differs. -/
theorem loads_attempted_unmarked (hload : loads sha256 s = some (.ok, art₀, version₀)) :
    loads sha256 (s.attempted p slot art version) = some (.ok, art₀, version₀) ↔
      (onRecord s = some slot → p.Same s slot art version art₀ version₀) := by
  obtain ⟨slot₀, hrec, hh, hr⟩ := loads_eq_ok.mp hload
  by_cases hslot : slot₀ = slot
  · subst hslot
    rw [loads_attempted_iff hr (by rw [onRecord_attempted, hrec]) (fun _ _ => Iff.rfl)
      (Or.inr hh)]
    exact ⟨fun h _ => h, fun h => h hrec⟩
  · have hkeep : loads sha256 (s.attempted p slot art version) = loads sha256 s := by
      refine loads_congr (attempted_nvs_of_ne (by simp) (by simp) (by simp)) fun slot' h => ?_
      rw [hrec] at h
      obtain rfl := Option.some.inj h
      exact attempted_other hslot
    rw [hkeep, hload, hrec]
    exact ⟨fun _ h => absurd (Option.some.inj h) hslot, fun _ => rfl⟩

/-- A save that broke off before it moved the record. -/
theorem loads_unmoved_iff (hload : loads sha256 s = some (.ok, art₀, version₀))
    (hbegins : p.Begins art)
    (hbreaks : p.reread (p.target s) art version = false ∨ p.verdict sha256 art = some false ∨
      p.verdict sha256 art = some true ∧
        p.fails (.nvsSet .active (p.target s).toNat.toUInt8) = true) :
    loads sha256 (s.attempted p (p.target s) art version) = some (.ok, art₀, version₀) ↔
      ¬ p.Harms sha256 s art version art₀ version₀ := by
  rw [loads_attempted_unmarked hload]
  constructor
  · intro h hharm
    rcases hharm.exposed with hrec | ⟨hread, hverdict, hset⟩
    · exact hharm.differs (h hrec)
    · rw [hread, hverdict, hset] at hbreaks
      rcases hbreaks with h | h | ⟨-, h⟩ <;> cases h
  · intro h hrec
    by_contra hne
    exact h ⟨hbegins, hbreaks.imp_right (Or.imp_right fun hb => ⟨hb.1, Or.inl hb.2⟩), Or.inl hrec,
      hne⟩

/-- **When a failed save leaves the persisted artifact alone**: just when it does not fail
with its slot on record and something else written there. -/
theorem save_untouched_iff {p : Faults} {s : State} {art art₀ : Artifact}
    {version version₀ : Bytes} (hart : art.blobLen ≤ art.blob.length)
    (hload : loads sha256 s = some (.ok, art₀, version₀)) :
    (∀ e s', (artifactStoreSave sha256 art version).run (handle p) s = some (e, s') → e ≠ .ok →
      loads sha256 s' = some (.ok, art₀, version₀)) ↔
    ¬ p.Harms sha256 s art version art₀ version₀ := by
  have hends : Ends sha256 p s art version
      ((artifactStoreSave sha256 art version).run (handle p) s) := save_ends hart s
  generalize (artifactStoreSave sha256 art version).run (handle p) s = r at hends
  have hone : ∀ (e : EspErr) (t : State), e ≠ .ok →
      ((∀ e' s', some (e, t) = some (e', s') → e' ≠ .ok →
        loads sha256 s' = some (.ok, art₀, version₀)) ↔
      loads sha256 t = some (.ok, art₀, version₀)) := by
    intro e t he
    constructor
    · intro h
      exact h e t rfl he
    · rintro h e' s' heq -
      obtain ⟨rfl, rfl⟩ := Prod.mk.inj (Option.some.inj heq)
      exact h
  cases hends with
  | stopped hbegins he =>
      rw [hone _ _ he]
      exact ⟨fun _ hharm => hbegins hharm.begins, fun _ => hload⟩
  | unread hbegins hread he =>
      rw [hone _ _ he]
      exact loads_unmoved_iff hload hbegins (Or.inl hread)
  | overrun hread hverdict =>
      refine ⟨fun _ hharm => ?_, fun _ e s' h => by cases h⟩
      have hbreaks := hharm.breaks
      rw [hread, hverdict] at hbreaks
      rcases hbreaks with h | h | ⟨h, -⟩ <;> cases h
  | refused hbegins hread hverdict =>
      rw [hone _ _ (by decide)]
      exact loads_unmoved_iff hload hbegins (Or.inr (Or.inl hverdict))
  | unmarked hbegins hread hverdict hset =>
      rw [hone _ _ (by decide)]
      exact loads_unmoved_iff hload hbegins (Or.inr (Or.inr ⟨hverdict, hset⟩))
  | uncommitted hbegins hread hverdict hset hcommit =>
      obtain ⟨-, -, -, hr⟩ := loads_eq_ok.mp hload
      have hlabelled : p.labelled (p.target s) art version = true :=
        Faults.labelled_of_recorded (Faults.recorded_of_reread hread)
      rw [hone _ _ (by decide), loads_attempted_iff hr (onRecord_activated (target_isSlot s))
        (fun _ _ => Holds.activated_iff) (Or.inl hlabelled)]
      refine ⟨fun h hharm => hharm.differs h, fun h => ?_⟩
      by_contra hne
      exact h ⟨hbegins, Or.inr (Or.inr ⟨hverdict, Or.inr hcommit⟩),
        Or.inr ⟨hread, hverdict, hset⟩, hne⟩
  | saved hread hverdict hset hcommit =>
      refine ⟨fun _ hharm => ?_, fun _ e s' heq he => ?_⟩
      · have hbreaks := hharm.breaks
        rw [hread, hverdict, hset, hcommit] at hbreaks
        rcases hbreaks with h | h | ⟨-, h | h⟩ <;> cases h
      · obtain ⟨rfl, -⟩ := Prod.mk.inj (Option.some.inj heq)
        exact absurd rfl he

end Attempt

/-! ### A failure that does not -/

/-- The artifact of these words. -/
def artifactOf (ws : List UInt64) : Artifact :=
  ⟨ws.flatMap Words.encode, 8 * ws.length, ws.length, Sha256.sha256 (ws.flatMap Words.encode)⟩

theorem artifactOf_bytes (ws : List UInt64) :
    (artifactOf ws).bytes = ws.flatMap Words.encode :=
  List.take_of_length_le (Nat.le_of_eq (Words.flatMap_encode_length ws))

theorem encodes_entries {n : Nat} (hpos : 0 < n) (h : n ≤ 2 ^ 64) :
    Encodes Sha256.sha256 (Sinkhole.entries n) (artifactOf (Sinkhole.entries n)) := by
  refine ⟨Sinkhole.entries_ascending h, ?_, artifactOf_bytes _, rfl, rfl, ?_⟩
  · exact List.ne_nil_of_length_pos (by rw [Sinkhole.entries_length]; exact hpos)
  · rw [artifactOf_bytes]
    rfl

theorem entries_fits {n : Nat} (h : 8 * n ≤ slotSize) :
    (artifactOf (Sinkhole.entries n)).blobLen ≤ slotSize := by
  show 8 * (Sinkhole.entries n).length ≤ slotSize
  rwa [Sinkhole.entries_length]

/-- A generator on which nothing was ever saved. -/
def blank : State := ⟨fun _ _ => 0xFF, fun _ => none⟩

/-- The same after a first save. -/
def stocked : State :=
  (blank.attempted .never 0 (artifactOf (Sinkhole.entries 10000)) (ascii "v1")).activated 0

theorem stocked_loads : loads Sha256.sha256 stocked =
    some (.ok, restored (artifactOf (Sinkhole.entries 10000)), ascii "v1") :=
  loads_moved (encodes_entries (by decide) (by norm_num)) (entries_fits (by decide)) (by decide)
    rfl (by decide)

/-- The erase fails. -/
def eraseFails : Faults :=
  { Faults.never with fails := fun o => match o with
      | .partitionErase _ _ => true
      | _ => false }

/-- Then the save reports a failure. -/
theorem save_run_eraseFails {sha256 : Bytes → Digest} {art : Artifact} {version : Bytes}
    (hart : art.blobLen ≤ art.blob.length) (s : State) :
    ∃ e s', (artifactStoreSave sha256 art version).run (handle eraseFails) s = some (e, s') ∧
      e ≠ .ok := by
  have hends : Ends sha256 eraseFails s art version
      ((artifactStoreSave sha256 art version).run (handle eraseFails) s) := save_ends hart s
  generalize (artifactStoreSave sha256 art version).run (handle eraseFails) s = r at hends
  cases hends with
  | stopped _ he => exact ⟨_, _, rfl, he⟩
  | unread _ _ he => exact ⟨_, _, rfl, he⟩
  | overrun hread => cases hread
  | refused _ hread => cases hread
  | unmarked _ hread => cases hread
  | uncommitted _ hread => cases hread
  | saved hread => cases hread

/-- The slot that is erased is not the one on record. -/
theorem stocked_untouched : ∃ e s',
    (artifactStoreSave Sha256.sha256 (artifactOf (Sinkhole.entries 10001)) (ascii "v2")).run
      (handle eraseFails) stocked = some (e, s') ∧ e ≠ .ok ∧
    loads Sha256.sha256 s' =
      some (.ok, restored (artifactOf (Sinkhole.entries 10000)), ascii "v1") := by
  have henc := encodes_entries (n := 10001) (by decide) (by norm_num)
  obtain ⟨e, s', hrun, he⟩ := save_run_eraseFails
    (show (artifactOf (Sinkhole.entries 10001)).blobLen ≤ _ from henc.blobLen_le) stocked
  refine ⟨e, s', hrun, he, (save_untouched_iff henc.blobLen_le stocked_loads).mpr
    (fun hharm => ?_) e s' hrun he⟩
  rcases hharm.exposed with hrec | ⟨hread, -⟩
  · have htarget : eraseFails.target stocked = 1 := rfl
    have hzero : onRecord stocked = some 0 := onRecord_activated (by decide)
    rw [hzero, htarget] at hrec
    cases hrec
  · cases hread

/-- Only the last commit fails. -/
def lastCommitFails : Faults :=
  { Faults.never with fails := fun o => match o with
      | .nvsCommit .active => true
      | _ => false }

/-- Then the save reports a failure, and a load returns what was to be saved. -/
theorem save_run_lastCommitFails {sha256 : Bytes → Digest} {ws : List UInt64} {art : Artifact}
    {version : Bytes} (henc : Encodes sha256 ws art) (hfits : art.blobLen ≤ slotSize)
    (hversion : version.length < artifactVersionMax) (s : State) :
    ∃ s', (artifactStoreSave sha256 art version).run (handle lastCommitFails) s =
        some (.driver, s') ∧
      loads sha256 s' = some (.ok, restored art, version) := by
  have hread : lastCommitFails.reread (lastCommitFails.target s) art version = true := by
    show (true && reallocGrants true art.blobLen && true) = true
    rw [henc.grants hfits]
    rfl
  exact save_run_moves henc hversion ⟨rfl, hfits⟩ hread (henc.restorable hfits).verified rfl

/-- **A failed save that replaces the artifact**: every call but the last commit succeeds, the
save reports the failure, and a load returns the new artifact. -/
theorem save_replaces : ∃ s',
    (artifactStoreSave Sha256.sha256 (artifactOf (Sinkhole.entries 10001)) (ascii "v2")).run
      (handle lastCommitFails) stocked = some (.driver, s') ∧
    loads Sha256.sha256 stocked =
      some (.ok, restored (artifactOf (Sinkhole.entries 10000)), ascii "v1") ∧
    loads Sha256.sha256 s' ≠
      some (.ok, restored (artifactOf (Sinkhole.entries 10000)), ascii "v1") := by
  obtain ⟨s', hrun, hloads⟩ := save_run_lastCommitFails
    (encodes_entries (n := 10001) (by decide) (by norm_num)) (entries_fits (by decide))
    (show (ascii "v2").length < artifactVersionMax by decide) stocked
  refine ⟨s', hrun, stocked_loads, ?_⟩
  rw [hloads]
  intro heq
  have hcount := congrArg (fun x => x.2.1.count) (Option.some.inj heq)
  simp only [restored, artifactOf, Sinkhole.entries_length] at hcount
  omega

end EspHole.Generator.Store
