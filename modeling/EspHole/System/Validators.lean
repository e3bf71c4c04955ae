/-
The two validators of a stored list.

The sinkhole checks a slot when it loads it, comparing neighbours of an array of words; the
generator checks a blob by decoding it byte by byte and carrying the word before.  Both come
down to the same condition, the digest of the bytes and the strict order of their words, so
neither side accepts a list the other would refuse.

The same holds of a lookup.  The generator's self-test narrows to a lower bound over the bytes
and compares once, where the sinkhole leaves its loop on a hit: one function, in two forms.
-/
import EspHole.Pipeline.Generate
import EspHole.Sinkhole.Sizes

namespace EspHole.System

open Ascending Ascii Pipeline Sinkhole

variable {sha256 : Bytes → Digest} {fails : Op → Bool}

/-- What makes a blob a list: its digest, and the order of its words. -/
def IsList (sha256 : Bytes → Digest) (blob : Bytes) (digest : Digest) : Prop :=
  sha256 blob = digest ∧ Ascending (Words.words blob)

instance (blob : Bytes) (digest : Digest) : Decidable (IsList sha256 blob digest) :=
  inferInstanceAs (Decidable (_ ∧ _))

/-- What a load of this many entries calls, and none of it fails. -/
structure CallsSucceed (fails : Op → Bool) (slot : Int) (count : Nat) : Prop where
  getCnt : fails (.nvsGet (.cnt slot)) = false
  getSha : fails (.nvsGet (.sha slot)) = false
  malloc : fails (.heapCapsMalloc (8 * count)) = false
  read : fails (.partitionRead slot (8 * count)) = false
  hash : ∀ data, fails (.hashCompute data) = false

/-! ### The generator's validator -/

/-- The loop over a blob of whole words decides their order. -/
theorem verifyLoop_words {blob : Bytes} {count : Nat} (hlen : blob.length = 8 * count) :
    verifyLoop blob 0 0 count = some (decide (Ascending (Words.words blob))) := by
  have hloop : verifyLoop ((Words.words blob).flatMap Words.encode ++ []) 0 0
      (Words.words blob).length = _ := verifyLoop_encoded
  rwa [List.append_nil, Words.encode_words hlen, Words.words_length hlen] at hloop

/-- **`blocklist_verify_blob` decides whether a blob is a list.** -/
theorem blocklistVerifyBlob_eq {blob : Bytes} {count : Nat} (hlen : blob.length = 8 * count)
    (hsize : 8 * count < 2 ^ 32) (want : Digest) :
    blocklistVerifyBlob sha256 blob (8 * count) count want =
      some (decide (IsList sha256 blob want)) := by
  have hbytes : sizeT (count * 8) = 8 * count := by
    rw [Nat.mul_comm]
    exact sizeT_of_lt hsize
  have hall : blob.take (8 * count) = blob := List.take_of_length_le (by omega)
  unfold blocklistVerifyBlob IsList
  rw [if_neg (not_not.mpr hbytes.symm), hall]
  by_cases hdigest : sha256 blob = want
  · rw [if_neg (not_not.mpr hdigest), verifyLoop_words hlen]
    simp [hdigest]
  · rw [if_pos hdigest]
    simp [hdigest]

/-! ### The sinkhole's validator -/

section Load

variable {s : World} {slot : Int} {count : Nat} {digest : Digest}

/-- **`load_slot` succeeds exactly on a list**, when none of its calls fails. -/
theorem loadSlot_ok_iff (hslot : IsSlot slot) (hfloor : blocklistMinDomains ≤ count)
    (hfits : 8 * count ≤ slotSize) (hcnt : s.nvs (.cnt slot) = some count)
    (hsha : s.nvs (.sha slot) = some digest.bytes) (hcalls : CallsSucceed fails slot count) :
    (∃ s', (loadSlot slot).run (handle sha256 fails) s = some (.ok, s')) ↔
      IsList sha256 (s.slotBytes slot (8 * count)) digest := by
  constructor
  · rintro ⟨s', hrun⟩
    obtain ⟨n, hl⟩ := loadable_of_run hrun
    have hn : some n = some count := hl.valid.stored.symm.trans hcnt
    obtain rfl := Option.some.inj hn
    have hdigest := Option.some.inj (hl.valid.digest.symm.trans hsha)
    exact ⟨Digest.bytes_inj hdigest, hl.valid.ascending⟩
  · rintro ⟨hdigest, hasc⟩
    have hv : ValidSlot sha256 s slot count :=
      ⟨hslot, hcnt, hfloor, hfits, by rw [hsha, hdigest], hasc⟩
    exact ⟨_, loadSlot_run_loadable ⟨hv, hcalls.getCnt, hcalls.getSha, hcalls.malloc, hcalls.read,
      hcalls.hash _⟩⟩

end Load

/-- **The two validators agree**: a load returns, and it succeeds on the bytes that the
generator's check accepts, which are the lists. -/
theorem validators_agree (s : World) (slot : Int) (count : Nat) (digest : Digest)
    (hslot : IsSlot slot) (hfloor : blocklistMinDomains ≤ count) (hfits : 8 * count ≤ slotSize)
    (hcnt : s.nvs (.cnt slot) = some count) (hsha : s.nvs (.sha slot) = some digest.bytes)
    (hcalls : CallsSucceed fails slot count) :
    (∃ e s', (loadSlot slot).run (handle sha256 fails) s = some (e, s') ∧
      (e = .ok ↔ blocklistVerifyBlob sha256 (s.slotBytes slot (8 * count)) (8 * count) count
        digest = some true)) ∧
    blocklistVerifyBlob sha256 (s.slotBytes slot (8 * count)) (8 * count) count digest =
      some (decide (sha256 (s.slotBytes slot (8 * count)) = digest ∧
        Ascending (Words.words (s.slotBytes slot (8 * count))))) := by
  have hsize : 8 * count < 2 ^ 32 := by
    unfold slotSize at hfits
    omega
  have hverify : blocklistVerifyBlob sha256 (s.slotBytes slot (8 * count)) (8 * count) count
      digest = some (decide (IsList sha256 (s.slotBytes slot (8 * count)) digest)) :=
    blocklistVerifyBlob_eq (World.slotBytes_length s slot _) hsize digest
  have hload : (∃ s', (loadSlot slot).run (handle sha256 fails) s = some (.ok, s')) ↔
      IsList sha256 (s.slotBytes slot (8 * count)) digest :=
    loadSlot_ok_iff hslot hfloor hfits hcnt hsha hcalls
  refine ⟨?_, hverify⟩
  have hreturns : (loadSlot slot).run (handle sha256 fails) s ≠ none :=
    loadSlot_run_ne_none hcnt (by omega)
  obtain ⟨⟨e, s'⟩, hrun⟩ := Option.ne_none_iff_exists'.mp hreturns
  refine ⟨e, s', hrun, ?_⟩
  rw [hverify, Option.some_inj, decide_eq_true_eq, ← hload, hrun]
  constructor
  · rintro rfl
    exact ⟨s', rfl⟩
  · rintro ⟨s'', hs''⟩
    exact (Prod.mk.inj (Option.some.inj hs'')).1

/-- A slot with the shortest list there is, and the digest of another. -/
theorem validators_agree_entries :
    ∃ e s', (loadSlot 1).run (handle Sha256.sha256 noFailure)
        ((World.blank.store 1 (entriesBlob 10000)).record 1 10000 (Sha256.sha256 [])
          (ascii "v1")) = some (e, s') ∧
      (e = .ok ↔ blocklistVerifyBlob Sha256.sha256
        (((World.blank.store 1 (entriesBlob 10000)).record 1 10000 (Sha256.sha256 [])
          (ascii "v1")).slotBytes 1 (8 * 10000)) (8 * 10000) 10000 (Sha256.sha256 []) =
            some true) :=
  (validators_agree _ 1 10000 (Sha256.sha256 []) (by decide) (by decide) (by decide)
    (record_cnt _ 1 10000 _ _) (record_sha _ 1 10000 _ _) ⟨rfl, rfl, rfl, rfl, fun _ => rfl⟩).1

/-! ### The two searches -/

/-- **The two searches agree**: on an ascending list both return, and say whether the target is
in it.  What stands behind the list is never read: it can be anything, and nothing at all. -/
theorem searches_agree (ws : List UInt64) (hws : Ascending ws) (rest : Bytes)
    (more : List UInt64) (slot : Int) (version : Bytes) (target : UInt64) :
    blobContains (ws.flatMap Words.encode ++ rest) ws.length target =
      some (decide (target ∈ ws)) ∧
    blocklistContains true ⟨ws ++ more, ws.length, slot, version⟩ target =
      some (decide (target ∈ ws)) := by
  have hget : ∀ i < ws.length, (ws ++ more)[i]? = ws[i]? := fun i hi =>
    List.getElem?_append_left hi
  refine ⟨blobContains_encoded hws target, ?_⟩
  show search (fun i => (ws ++ more)[i]?) target 0 ws.length = _
  exact (search_spec hws hget).trans (by congr)

/-- The last of three entries, with nothing behind them. -/
theorem searches_agree_last :
    blobContains ([0, 5, 0xffffffffffffffff].flatMap Words.encode ++ []) 3
      0xffffffffffffffff = some true ∧
    blocklistContains true ⟨[0, 5, 0xffffffffffffffff] ++ [], 3, 0, []⟩
      0xffffffffffffffff = some true :=
  searches_agree [0, 5, 0xffffffffffffffff] (by decide) [] [] 0 [] 0xffffffffffffffff

end EspHole.System
