/-
Building the published list: `components/blocklist_pipeline/generate.c`.

The builder keeps hashes only, in a block it doubles; `blocklistBuilderFinish` sorts
them, drops the repeats, writes them little-endian and tests the result before anyone
sees it.  The allocator and SHA-256 are what the component takes from outside, so they
are arguments here: each allocation is answered by whoever calls the function, and the
digest is any function of the bytes.

The main result is `blocklistBuilderFinish_eq`, which says what `finish` returns in
closed form.  It rests on the order of the array only: once the kept hashes are
strictly ascending, the library's search lemmas settle the whole self-test.
-/
import EspHole.Basic
import EspHole.Lib.Ascending
import EspHole.Lib.Words
import EspHole.Pipeline.Hash
import EspHole.Pipeline.Normalize

namespace EspHole.Pipeline

open Ascii Ascending

/-! ### The builder -/

/-- `struct blocklist_builder`; `count` is the number of hashes held. -/
structure Builder where
  hashes : List UInt64
  capacity : Nat
  minDomains : Nat
  deriving DecidableEq, Repr

/-- `b->count` -/
abbrev Builder.count (b : Builder) : Nat := b.hashes.length

/-- `BUILDER_INITIAL_CAPACITY` -/
def builderInitialCapacity : Nat := 4096

/-- `blocklist_builder_create`, once the builder itself is allocated. -/
def blocklistBuilderCreate (minDomains : Nat) : Builder := ⟨[], 0, minDomains⟩

/-- What `platform->realloc` can say to a request: size 0 frees and returns NULL, and no
heap on a 32-bit target holds half the address space. -/
def reallocGrants (granted : Bool) (size : Nat) : Bool :=
  granted && decide (0 < size ∧ size < 2 ^ 31)

/-- The loop of `builder_reserve`.  After 32 doublings a 32-bit word is 0, and stays so. -/
def growTo : Nat → Nat → Nat → Nat
  | 0, newCap, _ => newCap
  | fuel + 1, newCap, minCapacity =>
      if newCap < minCapacity then growTo fuel (sizeT (newCap * 2)) minCapacity else newCap

/-- `builder_reserve` -/
def builderReserve (granted : Bool) (b : Builder) (minCapacity : Nat) : Bool × Builder :=
  if b.capacity ≥ minCapacity then (true, b)
  else
    let newCap := if b.capacity ≠ 0 then sizeT (b.capacity * 2) else builderInitialCapacity
    let newCap := growTo 32 newCap minCapacity
    if reallocGrants granted (sizeT (newCap * 8)) then (true, { b with capacity := newCap })
    else (false, b)

/-- `blocklist_builder_add` -/
def blocklistBuilderAdd (granted : Bool) (b : Builder) (domain : Bytes) : Bool × Builder :=
  match builderReserve granted b (b.count + 1) with
  | (false, b) => (false, b)
  | (true, b) => (true, { b with hashes := b.hashes ++ [domainHash domain] })

/-- A run of `blocklist_builder_add`, each with the allocator's answer.  Returns the
domains whose add returned true. -/
def addAll : Builder → List (Bool × Bytes) → List Bytes × Builder
  | b, [] => ([], b)
  | b, (granted, domain) :: rest =>
      let r := blocklistBuilderAdd granted b domain
      let rs := addAll r.2 rest
      (if r.1 then domain :: rs.1 else rs.1, rs.2)

/-- The array is inside its block, and the block inside the heap. -/
structure Builder.WellFormed (b : Builder) : Prop where
  fits : b.count ≤ b.capacity
  block : b.capacity * 8 < 2 ^ 31

theorem blocklistBuilderCreate_wellFormed (minDomains : Nat) :
    (blocklistBuilderCreate minDomains).WellFormed :=
  ⟨Nat.le_refl _, by simp [blocklistBuilderCreate]⟩

theorem Builder.WellFormed.count_lt {b : Builder} (h : b.WellFormed) : b.count * 8 < 2 ^ 31 := by
  have := h.fits
  have := h.block
  omega

/-- The block asked for when the array is full. -/
def Builder.nextCapacity (b : Builder) : Nat :=
  if b.capacity ≠ 0 then b.capacity * 2 else builderInitialCapacity

/-- A full block is doubled once: that is room enough, and the loop does not run. -/
theorem builderReserve_full {b : Builder} (hb : b.WellFormed) (granted : Bool)
    (hfull : ¬ b.capacity ≥ b.count + 1) :
    b.capacity = b.count ∧ b.count + 1 ≤ b.nextCapacity ∧
      builderReserve granted b (b.count + 1) =
        if reallocGrants granted (b.nextCapacity * 8) then
          (true, { b with capacity := b.nextCapacity })
        else (false, b) := by
  have hfits := hb.fits
  have hblock := hb.block
  have hroom : b.count + 1 ≤ b.nextCapacity ∧ b.nextCapacity < 2 ^ 29 := by
    unfold Builder.nextCapacity builderInitialCapacity
    split <;> omega
  have hnew : (if b.capacity ≠ 0 then sizeT (b.capacity * 2) else builderInitialCapacity) =
      b.nextCapacity := by
    rw [sizeT_of_lt (by omega)]
    rfl
  have hgrow : growTo 32 b.nextCapacity (b.count + 1) = b.nextCapacity := by
    rw [growTo, if_neg (by omega)]
  refine ⟨by omega, hroom.1, ?_⟩
  unfold builderReserve
  rw [if_neg hfull]
  simp only [hnew, hgrow]
  rw [sizeT_of_lt (by omega)]

/-- Room for one more: the hashes and the floor stay, and the block is large enough. -/
theorem builderReserve_spec {b : Builder} (hb : b.WellFormed) (granted : Bool) :
    (builderReserve granted b (b.count + 1)).2.hashes = b.hashes ∧
    (builderReserve granted b (b.count + 1)).2.minDomains = b.minDomains ∧
    (builderReserve granted b (b.count + 1)).2.WellFormed ∧
    ((builderReserve granted b (b.count + 1)).1 = true →
      b.count + 1 ≤ (builderReserve granted b (b.count + 1)).2.capacity) := by
  by_cases hc : b.capacity ≥ b.count + 1
  · unfold builderReserve
    rw [if_pos hc]
    exact ⟨rfl, rfl, hb, fun _ => hc⟩
  · obtain ⟨-, hroom, hres⟩ := builderReserve_full hb granted hc
    rw [hres]
    by_cases hg : reallocGrants granted (b.nextCapacity * 8) = true
    · rw [if_pos hg]
      have hsize : b.nextCapacity * 8 < 2 ^ 31 := by
        unfold reallocGrants at hg
        simp only [Bool.and_eq_true, decide_eq_true_eq] at hg
        exact hg.2.2
      exact ⟨rfl, rfl, ⟨Nat.le_of_succ_le hroom, hsize⟩, fun _ => hroom⟩
    · rw [if_neg hg]
      exact ⟨rfl, rfl, hb, fun h => by cases h⟩

/-- One add: nothing but a hash at the end, and that only when it returns true. -/
theorem blocklistBuilderAdd_spec {b : Builder} (hb : b.WellFormed) (granted : Bool) (d : Bytes) :
    (blocklistBuilderAdd granted b d).2.hashes =
        b.hashes ++ (if (blocklistBuilderAdd granted b d).1 then [domainHash d] else []) ∧
    (blocklistBuilderAdd granted b d).2.minDomains = b.minDomains ∧
    (blocklistBuilderAdd granted b d).2.WellFormed := by
  obtain ⟨hhash, hmin, hok, hcap⟩ := builderReserve_spec hb granted
  unfold blocklistBuilderAdd
  rcases hr : builderReserve granted b (b.count + 1) with ⟨took, b'⟩
  rw [hr] at hhash hmin hok hcap
  cases took with
  | false => exact ⟨by simpa using hhash, hmin, hok⟩
  | true =>
      have hroom : b.count + 1 ≤ b'.capacity := hcap rfl
      refine ⟨by simp [show b'.hashes = b.hashes from hhash], hmin, ⟨?_, hok.block⟩⟩
      show (b'.hashes ++ [domainHash d]).length ≤ b'.capacity
      rw [show b'.hashes = b.hashes from hhash, List.length_append, List.length_singleton]
      exact hroom

/-- A run of adds leaves the hashes of those that returned true, in order. -/
theorem addAll_spec :
    ∀ (xs : List (Bool × Bytes)) {b : Builder}, b.WellFormed →
      (addAll b xs).2.hashes = b.hashes ++ (addAll b xs).1.map domainHash ∧
      (addAll b xs).2.minDomains = b.minDomains ∧ (addAll b xs).2.WellFormed := by
  intro xs
  induction xs with
  | nil => intro b hb; exact ⟨by simp [addAll], rfl, hb⟩
  | cons x rest ih =>
      intro b hb
      obtain ⟨granted, d⟩ := x
      obtain ⟨hhash, hmin, hok⟩ := blocklistBuilderAdd_spec hb granted d
      obtain ⟨ihhash, ihmin, ihok⟩ := ih hok
      unfold addAll
      refine ⟨?_, ihmin.trans hmin, ihok⟩
      rw [ihhash, hhash]
      by_cases ht : (blocklistBuilderAdd granted b d).1 = true
      · simp [ht]
      · simp [ht]

/-- An add is granted as long as the array stays within a quarter of the heap. -/
theorem blocklistBuilderAdd_granted {b : Builder} (hb : b.WellFormed) (hroom : b.count < 2 ^ 27)
    (d : Bytes) : (blocklistBuilderAdd true b d).1 = true := by
  have hres : (builderReserve true b (b.count + 1)).1 = true := by
    by_cases hc : b.capacity ≥ b.count + 1
    · unfold builderReserve
      rw [if_pos hc]
    · obtain ⟨hfull, hnext, hres⟩ := builderReserve_full hb true hc
      have hgrant : reallocGrants true (b.nextCapacity * 8) = true := by
        have hsize : b.nextCapacity * 8 < 2 ^ 31 := by
          unfold Builder.nextCapacity builderInitialCapacity
          split <;> omega
        simp only [reallocGrants, Bool.true_and, decide_eq_true_eq]
        omega
      rw [hres, if_pos hgrant]
  unfold blocklistBuilderAdd
  rcases hr : builderReserve true b (b.count + 1) with ⟨took, b'⟩
  rw [hr] at hres
  obtain rfl : took = true := hres
  rfl

theorem addAll_granted (ds : List Bytes) :
    ∀ {b : Builder}, b.WellFormed → b.count + ds.length ≤ 2 ^ 27 →
      (addAll b (ds.map fun d => (true, d))).1 = ds := by
  induction ds with
  | nil => intro b _ _; rfl
  | cons d ds ih =>
      intro b hb hroom
      simp only [List.length_cons] at hroom
      have hadd := blocklistBuilderAdd_granted hb (by omega) d
      obtain ⟨hhash, -, hok⟩ := blocklistBuilderAdd_spec hb true d
      have hcount : (blocklistBuilderAdd true b d).2.count = b.count + 1 := by
        simp [Builder.count, hhash, hadd]
      have hrest := ih hok (by omega)
      simp only [List.map_cons, addAll, hadd, if_true, hrest]

/-- From the start, with every request granted, up to a limit no list comes near. -/
theorem addAll_created (minDomains : Nat) {ds : List Bytes} (h : ds.length ≤ 2 ^ 27) :
    (addAll (blocklistBuilderCreate minDomains) (ds.map fun d => (true, d))).1 = ds := by
  refine addAll_granted ds (blocklistBuilderCreate_wellFormed minDomains) ?_
  show 0 + ds.length ≤ 2 ^ 27
  omega

/-! ### The published blob -/

/-- `cmp_u64` -/
def cmpU64 (a b : UInt64) : Int := if a < b then -1 else if a > b then 1 else 0

/-- `decode_le_u64(blob + i * 8)`, with `none` for a read past the end of the block. -/
def blobWord (blob : Bytes) (i : Nat) : Option UInt64 :=
  if 8 * i + 8 ≤ blob.length then some (Words.decode ((blob.drop (8 * i)).take 8)) else none

/-- `blob_contains` -/
def blobContains (blob : Bytes) (count : Nat) (target : UInt64) : Option Bool := do
  let lo ← lowerBound (blobWord blob) target 0 count
  if lo < count then
    let v ← blobWord blob lo
    return v == target
  else
    return false

/-- The loop of `blocklist_verify_blob`, at index `i` with that many words to go. -/
def verifyLoop (blob : Bytes) : Nat → UInt64 → Nat → Option Bool
  | _, _, 0 => some true
  | i, prev, n + 1 =>
      match blobWord blob i with
      | none => none
      | some h => if i > 0 ∧ h ≤ prev then some false else verifyLoop blob (i + 1) h n

/-- `blocklist_verify_blob` -/
def blocklistVerifyBlob (sha256 : Bytes → Digest) (blob : Bytes) (blobLen count : Nat)
    (wantSha256 : Digest) : Option Bool :=
  if blobLen ≠ sizeT (count * 8) then some false
  else if sha256 (blob.take blobLen) ≠ wantSha256 then some false
  else verifyLoop blob 0 0 count

/-- `NEGATIVE_CANARIES` -/
def negativeCanaries : List Bytes :=
  ["esp-hole-selftest-canary.example", "definitely-not-blocked.invalid",
    "self-test.test"].map ascii

/-- `blocklist_generate_status_t` -/
inductive GenerateStatus
  | ok
  | errAlloc
  | errBelowMinDomains
  | errSelftest
  deriving DecidableEq, Repr

/-- `blocklist_artifact_t`.  `blob` is the block it points to, of which the first
`blobLen` bytes count. -/
structure Artifact where
  blob : Bytes
  blobLen : Nat
  count : Nat
  sha256 : Digest
  deriving DecidableEq, Repr

/-- What `memset` leaves in the caller's artifact. -/
def Artifact.zero : Artifact := ⟨[], 0, 0, Vector.replicate 32 0⟩

/-- The bytes of an artifact that are published. -/
def Artifact.bytes (art : Artifact) : Bytes := art.blob.take art.blobLen

/-- The allocator during one `finish`: whether it has a block for the blob, and what the
bytes of that block happen to be, and whether it goes along with the shrink. -/
structure FinishAlloc where
  blob : Option (Nat → UInt8)
  shrink : Bool

/-- `realloc(NULL, size)`: a block of that many bytes, whatever they hold.  For a size of 0
there is none. -/
def FinishAlloc.block (a : FinishAlloc) (size : Nat) : Option Bytes :=
  if size = 0 then none else a.blob.map fun bytes => (List.range size).map bytes

theorem FinishAlloc.block_eq {a : FinishAlloc} {bytes : Nat → UInt8} (h : a.blob = some bytes)
    {size : Nat} (hpos : 0 < size) : a.block size = some ((List.range size).map bytes) := by
  unfold FinishAlloc.block
  rw [if_neg (by omega), h, Option.map_some]

theorem FinishAlloc.block_isSome {a : FinishAlloc} {size : Nat} (hpos : 0 < size) :
    (a.block size).isSome = a.blob.isSome := by
  unfold FinishAlloc.block
  rw [if_neg (by omega), Option.isSome_map]

/-- `qsort` with `cmp_u64` -/
def Builder.sorted (b : Builder) : List UInt64 :=
  b.hashes.mergeSort fun x y => cmpU64 x y ≤ 0

/-- The builder after it: the array is sorted in place. -/
def Builder.sort (b : Builder) : Builder := { b with hashes := b.sorted }

/-- The self-test of `blocklist_builder_finish`: the blob verifies, holds every hash that
was added, and misses the canaries. -/
def selfTest (sha256 : Bytes → Digest) (hashes : List UInt64) (blob : Bytes)
    (blobLen count : Nat) (digest : Digest) : Option Bool := do
  if !(← blocklistVerifyBlob sha256 blob blobLen count digest) then return false
  if !(← hashes.allM fun h => blobContains blob count h) then return false
  return !(← negativeCanaries.anyM fun name => blobContains blob count (domainHash name))

/-- `blocklist_builder_finish`: its status, what is in `*out`, and the builder it leaves to
the caller. -/
def blocklistBuilderFinish (sha256 : Bytes → Digest) (a : FinishAlloc) (b : Builder) :
    Option (GenerateStatus × Artifact × Builder) :=
  if b.count < b.minDomains then some (.errBelowMinDomains, .zero, b)
  else
    match a.block (sizeT (b.count * 8)) with
    | none => some (.errAlloc, .zero, b.sort)
    | some block =>
        let kept := dropRepeats none b.sorted
        let encoded := kept.flatMap Words.encode
        let blob := encoded ++ block.drop encoded.length
        let count := kept.length
        if count < b.minDomains then some (.errBelowMinDomains, .zero, b.sort)
        else do
          let blobLen := sizeT (count * 8)
          let blob := if a.shrink then blob.take blobLen else blob
          let digest := sha256 (blob.take blobLen)
          if ← selfTest sha256 b.sorted blob blobLen count digest then
            return (.ok, ⟨blob, blobLen, count, digest⟩, b.sort)
          else
            return (.errSelftest, .zero, b.sort)

/-- `blocklist_builder_destroy` after a `finish`: the status and the artifact are what is left. -/
def blocklistBuilderDestroy (r : GenerateStatus × Artifact × Builder) : GenerateStatus × Artifact :=
  (r.1, r.2.1)

/-! ### Sorting and reading back -/

theorem cmpU64_le_zero (a b : UInt64) : cmpU64 a b ≤ 0 ↔ a ≤ b := by
  unfold cmpU64
  by_cases hlt : a < b
  · rw [if_pos hlt]
    exact iff_of_true (by omega) (le_of_lt hlt)
  · rw [if_neg hlt]
    by_cases hgt : a > b
    · rw [if_pos hgt]
      exact iff_of_false (by omega) (not_le.mpr hgt)
    · rw [if_neg hgt]
      exact iff_of_true (by omega) (not_lt.mp hgt)

theorem Builder.sorted_pairwise (b : Builder) : b.sorted.Pairwise (· ≤ ·) := by
  have hle : ∀ x y, decide (cmpU64 x y ≤ 0) = decide (x ≤ y) := fun x y =>
    decide_eq_decide.mpr (cmpU64_le_zero x y)
  have htrans : ∀ x y z : UInt64, decide (x ≤ y) = true → decide (y ≤ z) = true →
      decide (x ≤ z) = true := fun x y z hxy hyz =>
    decide_eq_true (le_trans (of_decide_eq_true hxy) (of_decide_eq_true hyz))
  have htotal : ∀ x y : UInt64, (decide (x ≤ y) || decide (y ≤ x)) = true := fun x y => by
    simpa using le_total x y
  have hsort := List.pairwise_mergeSort htrans htotal b.hashes
  unfold Builder.sorted
  simp only [hle]
  exact hsort.imp fun h => of_decide_eq_true h

@[simp] theorem Builder.mem_sorted {b : Builder} {h : UInt64} : h ∈ b.sorted ↔ h ∈ b.hashes :=
  List.mem_mergeSort

/-- The hashes that reach the blob, in their order there. -/
def Builder.kept (b : Builder) : List UInt64 := dropRepeats none b.sorted

theorem Builder.kept_ascending (b : Builder) : Ascending b.kept :=
  dropRepeats_ascending b.sorted_pairwise

@[simp] theorem Builder.mem_kept {b : Builder} {h : UInt64} : h ∈ b.kept ↔ h ∈ b.hashes := by
  unfold Builder.kept
  rw [mem_dropRepeats, mem_sorted]

theorem Builder.kept_length_le (b : Builder) : b.kept.length ≤ b.count := by
  have hlen : b.sorted.length = b.count := List.length_mergeSort _
  have : b.kept.length ≤ b.sorted.length := dropRepeats_length_le
  omega

/-- Hashes that are pairwise different are all kept. -/
theorem Builder.kept_length {b : Builder} (h : b.hashes.Nodup) : b.kept.length = b.count := by
  have hkept : b.kept.Nodup := b.kept_ascending.imp fun hlt => ne_of_lt hlt
  exact ((List.perm_ext_iff_of_nodup hkept h).mpr fun _ => Builder.mem_kept).length_eq

/-! ### The self-test on a blob that starts with encoded words -/

section Encoded

variable {ws : List UInt64} {rest : Bytes}

/-- Word `i` of the blob is word `i` of the list. -/
theorem blobWord_encoded {i : Nat} (hi : i < ws.length) :
    blobWord (ws.flatMap Words.encode ++ rest) i = ws[i]? := by
  have hlen := Words.flatMap_encode_length ws
  unfold blobWord
  rw [if_pos (by rw [List.length_append, hlen]; omega), List.getElem?_eq_getElem hi,
    List.drop_append_of_le_length (by omega),
    List.take_append_of_le_length (by rw [List.length_drop]; omega), Words.decode_take_drop ws hi]

/-- The lower-bound search over the bytes decides membership of the list. -/
theorem blobContains_encoded (hws : Ascending ws) (target : UInt64) :
    blobContains (ws.flatMap Words.encode ++ rest) ws.length target =
      some (decide (target ∈ ws)) := by
  have hget : ∀ i < ws.length, blobWord (ws.flatMap Words.encode ++ rest) i = ws[i]? :=
    fun i hi => blobWord_encoded hi
  obtain ⟨k, hk, hw⟩ := lowerBound_spec (x := target) hws hget
  unfold blobContains
  rw [hk]
  have hmem := hw.mem_iff hws
  by_cases hlt : k < ws.length
  · rw [List.getElem?_eq_getElem hlt] at hmem
    simp only [Option.bind_eq_bind, Option.bind_some, if_pos hlt, hget k hlt,
      List.getElem?_eq_getElem hlt, hmem, Option.some.injEq]
    rfl
  · have hno : target ∉ ws := by
      rw [hmem, List.getElem?_eq_none (by omega)]
      simp
    simp [hlt, hno]

/-- From the second word on, the loop that carries `prev` compares neighbours. -/
theorem verifyLoop_eq_check (blob : Bytes) :
    ∀ (n i : Nat) (prev : UInt64), 1 ≤ i → blobWord blob (i - 1) = some prev →
      verifyLoop blob i prev n = check (blobWord blob) i n := by
  intro n
  induction n with
  | zero => intro i prev _ _; rfl
  | succ n ih =>
      intro i prev hi hprev
      unfold verifyLoop check
      rw [hprev]
      cases hw : blobWord blob i with
      | none => rfl
      | some h =>
          simp only
          by_cases hc : h ≤ prev
          · rw [if_pos ⟨hi, hc⟩, if_pos hc]
          · rw [if_neg (fun hh => hc hh.2), if_neg hc]
            exact ih (i + 1) h (by omega) hw

/-- The loop of `blocklist_verify_blob` decides strict order. -/
theorem verifyLoop_encoded :
    verifyLoop (ws.flatMap Words.encode ++ rest) 0 0 ws.length =
      some (decide (Ascending ws)) := by
  have hget : ∀ i < ws.length, blobWord (ws.flatMap Words.encode ++ rest) i = ws[i]? :=
    fun i hi => blobWord_encoded hi
  rw [← check_spec hget]
  cases ws with
  | nil => rfl
  | cons w ws =>
      have h0 : blobWord ((w :: ws).flatMap Words.encode ++ rest) 0 = some w :=
        hget 0 (by simp)
      rw [List.length_cons, verifyLoop, h0]
      simp only
      rw [if_neg (by omega)]
      exact verifyLoop_eq_check _ _ _ _ (Nat.le_refl 1) h0

end Encoded

/-! ### What `finish` returns -/

/-- The artifact of a list of hashes. -/
def Builder.artifact (sha256 : Bytes → Digest) (shrink : Bool) (block : Bytes) (b : Builder) :
    Artifact :=
  let encoded := b.kept.flatMap Words.encode
  ⟨if shrink then encoded else encoded ++ block.drop encoded.length, 8 * b.kept.length,
    b.kept.length, sha256 encoded⟩

/-- No canary was added. -/
def Builder.NoCanary (b : Builder) : Prop :=
  ∀ name ∈ negativeCanaries, domainHash name ∉ b.hashes

instance (b : Builder) : Decidable b.NoCanary := by
  unfold Builder.NoCanary
  infer_instance

/-- The self-test can only fail on a canary. -/
theorem selfTest_kept (sha256 : Bytes → Digest) {b : Builder} (hb : b.count * 8 < 2 ^ 32)
    (rest : Bytes) :
    selfTest sha256 b.sorted (b.kept.flatMap Words.encode ++ rest) (8 * b.kept.length)
        b.kept.length (sha256 (b.kept.flatMap Words.encode)) =
      some (decide b.NoCanary) := by
  have hle := b.kept_length_le
  have hverify : blocklistVerifyBlob sha256 (b.kept.flatMap Words.encode ++ rest)
      (8 * b.kept.length) b.kept.length (sha256 (b.kept.flatMap Words.encode)) = some true := by
    unfold blocklistVerifyBlob
    rw [sizeT_of_lt (by omega), if_neg (by omega),
      List.take_left' (Words.flatMap_encode_length b.kept), if_neg (by simp), verifyLoop_encoded,
      decide_eq_true b.kept_ascending]
  have hall : (b.sorted.allM fun h =>
      blobContains (b.kept.flatMap Words.encode ++ rest) b.kept.length h) = some true := by
    rw [allM_some (p := fun h => decide (h ∈ b.kept))
      fun h _ => blobContains_encoded b.kept_ascending h]
    simp
  have hany : (negativeCanaries.anyM fun name =>
      blobContains (b.kept.flatMap Words.encode ++ rest) b.kept.length (domainHash name)) =
      some (!decide b.NoCanary) := by
    rw [anyM_some (p := fun name => decide (domainHash name ∈ b.kept))
      fun name _ => blobContains_encoded b.kept_ascending _]
    rw [Option.some.injEq, ← decide_not, Bool.eq_iff_iff, List.any_eq_true]
    simp [Builder.NoCanary]
  unfold selfTest
  simp [hverify, hall, hany]

/-- **What `finish` returns**, for a well-formed builder and an allocator that answers
the request: the floor and the allocation decide it, and after them only the canaries. -/
theorem blocklistBuilderFinish_eq (sha256 : Bytes → Digest) {a : FinishAlloc} {b : Builder}
    (hb : b.WellFormed) :
    blocklistBuilderFinish sha256 a b = some (
      if b.count < b.minDomains then (.errBelowMinDomains, .zero, b)
      else match a.block (b.count * 8) with
        | none => (.errAlloc, .zero, b.sort)
        | some block =>
            if b.kept.length < b.minDomains then (.errBelowMinDomains, .zero, b.sort)
            else if b.NoCanary then (.ok, b.artifact sha256 a.shrink block, b.sort)
            else (.errSelftest, .zero, b.sort)) := by
  have hcount := hb.count_lt
  have hle := b.kept_length_le
  unfold blocklistBuilderFinish
  by_cases hlow : b.count < b.minDomains
  · rw [if_pos hlow, if_pos hlow]
  · rw [if_neg hlow, if_neg hlow, sizeT_of_lt (show b.count * 8 < 2 ^ 32 by omega)]
    cases a.block (b.count * 8) with
    | none => rfl
    | some block =>
        simp only
        rw [show dropRepeats none b.sorted = b.kept from rfl]
        by_cases hkept : b.kept.length < b.minDomains
        · rw [if_pos hkept, if_pos hkept]
        · have hblock : ∀ tail : Bytes,
              (b.kept.flatMap Words.encode ++ tail).take (8 * b.kept.length) =
                b.kept.flatMap Words.encode :=
            fun tail => List.take_left' (Words.flatMap_encode_length b.kept)
          rw [if_neg hkept, if_neg hkept, sizeT_of_lt (by omega), Nat.mul_comm b.kept.length 8]
          have htest : ∀ rest, selfTest sha256 b.sorted (b.kept.flatMap Words.encode ++ rest)
              (8 * b.kept.length) b.kept.length (sha256 (b.kept.flatMap Words.encode)) =
                some (decide b.NoCanary) := selfTest_kept sha256 (by omega)
          have hnil := htest []
          rw [List.append_nil] at hnil
          by_cases hcan : b.NoCanary
          · cases a.shrink <;>
              simp [hblock, hnil, htest, hcan, Builder.artifact,
                List.take_of_length_le (Nat.le_of_eq (Words.flatMap_encode_length b.kept))]
          · cases a.shrink <;>
              simp [hblock, hnil, htest, hcan,
                List.take_of_length_le (Nat.le_of_eq (Words.flatMap_encode_length b.kept))]

/-- What a published artifact is: the kept hashes, encoded, under their own digest. -/
structure Artifact.Of (sha256 : Bytes → Digest) (b : Builder) (art : Artifact) : Prop where
  bytes : art.bytes = b.kept.flatMap Words.encode
  blobLen : art.blobLen = 8 * b.kept.length
  count : art.count = b.kept.length
  digest : art.sha256 = sha256 art.bytes
  floor : b.minDomains ≤ b.kept.length
  noCanary : b.NoCanary

theorem blocklistBuilderFinish_ok {sha256 : Bytes → Digest} {a : FinishAlloc} {b left : Builder}
    (hb : b.WellFormed) {art : Artifact}
    (h : blocklistBuilderFinish sha256 a b = some (.ok, art, left)) : art.Of sha256 b := by
  rw [blocklistBuilderFinish_eq sha256 hb] at h
  replace h := Option.some.inj h
  split at h
  · cases h
  · split at h
    · cases h
    · split at h
      · cases h
      · split at h
        · rename_i hfloor hcan
          obtain rfl := (Prod.mk.inj (Prod.mk.inj h).2).1
          have hlen := Words.flatMap_encode_length b.kept
          have hbytes : (b.artifact sha256 a.shrink ‹_›).bytes = b.kept.flatMap Words.encode := by
            cases hs : a.shrink
            · exact List.take_left' hlen
            · exact List.take_of_length_le (Nat.le_of_eq hlen)
          exact ⟨hbytes, rfl, rfl, by rw [hbytes]; rfl, by omega, hcan⟩
        · cases h

/-- A list above the floor is published, the blob's block being there and no canary in it. -/
theorem blocklistBuilderFinish_publishes (sha256 : Bytes → Digest) {a : FinishAlloc} {b : Builder}
    (hb : b.WellFormed) {bytes : Nat → UInt8} (hblock : a.blob = some bytes)
    (hpos : 0 < b.kept.length) (hfloor : b.minDomains ≤ b.kept.length) (hcan : b.NoCanary) :
    blocklistBuilderFinish sha256 a b = some (.ok,
      b.artifact sha256 a.shrink ((List.range (b.count * 8)).map bytes), b.sort) := by
  have hle := b.kept_length_le
  rw [blocklistBuilderFinish_eq sha256 hb, if_neg (by omega), a.block_eq hblock (by omega)]
  simp only
  rw [if_neg (by omega), if_pos hcan]

/-- Names with different hashes are published, when there are enough of them and every
request is granted. -/
theorem publishes_distinct (sha256 : Bytes → Digest) {a : FinishAlloc} {minDomains : Nat}
    {ds : List Bytes} {bytes : Nat → UInt8} (hblock : a.blob = some bytes)
    (hdistinct : (ds.map domainHash).Nodup) (hpos : 0 < ds.length)
    (hfloor : minDomains ≤ ds.length) (hroom : ds.length ≤ 2 ^ 27)
    (hcan : ∀ name ∈ negativeCanaries, domainHash name ∉ ds.map domainHash) :
    ∃ art left, blocklistBuilderFinish sha256 a
        (addAll (blocklistBuilderCreate minDomains) (ds.map fun d => (true, d))).2 =
          some (.ok, art, left) ∧
      art.count = ds.length ∧ art.blobLen = 8 * ds.length := by
  have hwell := blocklistBuilderCreate_wellFormed minDomains
  obtain ⟨hhashes, hmin, hok⟩ := addAll_spec (ds.map fun d => (true, d)) hwell
  rw [addAll_created minDomains hroom] at hhashes
  generalize (addAll (blocklistBuilderCreate minDomains) (ds.map fun d => (true, d))).2 = b
    at hhashes hmin hok
  have hb : b.hashes = ds.map domainHash := hhashes
  have hkept : b.kept.length = ds.length := by
    rw [Builder.kept_length (by rw [hb]; exact hdistinct), Builder.count, hb, List.length_map]
  refine ⟨_, _, blocklistBuilderFinish_publishes sha256 hok hblock (by omega)
    (by rw [hmin, hkept]; exact hfloor) ?_, hkept, congrArg (8 * ·) hkept⟩
  unfold Builder.NoCanary
  rw [hb]
  exact hcan

end EspHole.Pipeline
