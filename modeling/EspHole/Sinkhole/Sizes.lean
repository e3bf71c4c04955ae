/-
Sizes, products and 32 bits: what a manifest's `count` may be.

`count * 8` is formed three times, in `parse_manifest`, in `load_slot`'s bound and in its
allocation, and the loops then run on `count` itself.  On a 32-bit target the products
can wrap, and the check on the manifest wraps with them.  `manifest_sizes_iff` says
where the line is: everything is exact for counts below `2 ^ 29`, and for no others.
-/
import EspHole.Sinkhole.Transfer

namespace EspHole.Sinkhole

open Ascending Ascii Json Generator Pipeline

variable {sha256 : Bytes → Digest} {fails : Op → Bool}

/-! ### Which counts a load can take -/

theorem handle_ne_none {s : World} {o : Op} (h : o ≠ .fault) : handle sha256 fails o s ≠ none := by
  cases o with
  | nvsSet k v => cases hf : fails (.nvsSet k v) <;> simp [handle, hf]
  | partitionErase slot n => cases hf : fails (.partitionErase slot n) <;> simp [handle, hf]
  | partitionWrite slot off data =>
      cases hf : fails (.partitionWrite slot off data) <;> simp [handle, hf]
  | httpRead room => cases hf : fails (.httpRead room) <;> simp [handle, hf]
  | fault => exact absurd rfl h
  | _ => exact Option.some_ne_none _

/-- A call of a boot leaves the counts. -/
theorem Answers.boot_cnt {F : Faults} {s s' : World} {o : Op} {r : Res o} (hb : o.boots = true)
    (h : Answers sha256 F s o r s') (slot : Int) : s'.nvs (.cnt slot) = s.nvs (.cnt slot) := by
  by_cases hreads : o.reads = true
  · rw [(h.still hreads).nvs]
  cases o with
  | nvsSet k v =>
      cases k with
      | active =>
          rcases h with h | ⟨-, h⟩
          · rw [h.nvs, World.setNvs_of_ne _ _ (by simp)]
          · rw [h.nvs]
      | _ => cases hb
  | setRam ram => rw [h.nvs]
  | fault => exact h.elim
  | partitionErase slot n => cases hb
  | partitionWrite slot off data => cases hb
  | announce m => cases hb
  | _ => exact absurd rfl hreads

/-- While the product fits in 32 bits, a load never reads past its buffer. -/
theorem loadSlot_run_ne_none {s : World} {slot : Int} {count : Nat}
    (hcount : s.nvs (.cnt slot) = some count) (hsmall : count * 8 < 2 ^ 32) :
    (loadSlot slot).run (handle sha256 fails) s ≠ none := by
  have hload : (loadSlot slot).Safe (Answers sha256 anyFailure) _ _ s := loadSlot_safe s slot
  have hsafe := hload.keep
    (A := fun s => s.nvs (.cnt slot) = some count)
    (fun s o r s' ha hg hs => (Answers.boot_cnt hg.1.2 hs slot).trans ha) hcount
  refine hsafe.run_ne_none (h := handle sha256 fails) (fun _ _ _ _ h => handle_anyFailure h) ?_
  rintro s o ⟨⟨-, hfault⟩, ha⟩
  refine handle_ne_none fun ho => ?_
  obtain ⟨c, hc, hbig⟩ := hfault ho
  rw [ha] at hc
  obtain rfl := Option.some.inj hc
  omega

/-- No product of a manifest wraps: its size is exact, and neither a load of its count nor
a lookup in the list that load installs reads past what was read from flash. -/
def SizesExact (sha256 : Bytes → Digest) (m : Manifest) : Prop :=
  8 * m.count = m.size ∧ ∀ (fails : Op → Bool) (s : World) (slot : Int),
    s.nvs (.cnt slot) = some m.count →
      (loadSlot slot).run (handle sha256 fails) s ≠ none ∧
      ∀ s', (loadSlot slot).run (handle sha256 fails) s = some (.ok, s') →
        ∀ h, blocklistContains true s'.ram h ≠ none

/-- A lookup in a list that was just loaded answers. -/
theorem contains_of_load {s s' : World} {slot : Int}
    (hrun : (loadSlot slot).run (handle sha256 fails) s = some (.ok, s')) (h : UInt64) :
    blocklistContains true s'.ram h = some (decide (h ∈ s'.ram.hashes)) := by
  have hpost : LoadPost sha256 anyFailure s slot .ok s' :=
    (loadSlot_safe s slot).run (h := handle sha256 fails)
      (fun _ _ _ _ h => handle_anyFailure h) hrun
  rcases hpost with ⟨hne, -, -⟩ | ⟨-, -, -, buf, hl⟩
  · exact absurd rfl hne
  · refine blocklistContains_eq ?_ hl.ascending h
    rw [hl.hashes]
    exact Words.words_length hl.length

theorem sizesExact_iff {m : Manifest} (hm : m.Accepted) :
    SizesExact sha256 m ↔ m.count < 2 ^ 29 := by
  constructor
  · rintro ⟨hsize, -⟩
    have hlt : sizeT (m.count * 8) < 2 ^ 32 := Nat.mod_lt _ (by norm_num)
    have := hm.size
    omega
  · intro hlt
    refine ⟨by rw [hm.size, sizeT_of_lt (by omega)]; omega, fun fails s slot hcount => ?_⟩
    refine ⟨loadSlot_run_ne_none hcount (by omega), fun s' hrun h => ?_⟩
    rw [contains_of_load hrun h]
    exact Option.some_ne_none _

/-- A count that wraps sends the order check of an ascending slot past its buffer. -/
theorem loadSlot_run_wrapped {s : World} {slot : Int} {count : Nat} (hslot : IsSlot slot)
    (hcount : s.nvs (.cnt slot) = some count)
    (hsha : s.nvs (.sha slot) = some (sha256 (s.slotBytes slot (sizeT (count * 8)))).bytes)
    (hfloor : blocklistMinDomains ≤ count) (hfits : sizeT (count * 8) ≤ slotSize)
    (hasc : Ascending (Words.words (s.slotBytes slot (sizeT (count * 8)))))
    (hbig : 2 ^ 32 ≤ count * 8) :
    (loadSlot slot).run (handle sha256 noFailure) s = none := by
  have hfew : (Words.words (s.slotBytes slot (sizeT (count * 8)))).length < 1 + (count - 1) := by
    have hwords := Words.words_length_le (s.slotBytes slot (sizeT (count * 8)))
    rw [World.slotBytes_length] at hwords
    unfold slotSize at hfits
    omega
  have hcheck := check_overrun hasc (count - 1) 1 (Nat.le_refl 1) (by omega) hfew
  have hrange : ¬ (count < blocklistMinDomains ∨ sizeT (count * 8) > slotSize) := by omega
  unfold loadSlot loadBuffer
  simp [handle, noFailure, hcount, hsha, hrange, hcheck, blocklistSlotPartition_isSlot hslot,
    outOfBounds]

/-- The integers a manifest spells are the ones that were accepted. -/
theorem readManifest_sizes {root : Json} {m : Manifest} {size count : Nat}
    (hsize : number? (root.getObjectItem (ascii "size")) = some (size : ℚ))
    (hcount : number? (root.getObjectItem (ascii "count")) = some (count : ℚ))
    (hsize32 : size < 2 ^ 32) (hcount32 : count < 2 ^ 32) (h : readManifest root = some m) :
    m.size = size ∧ m.count = count := by
  obtain ⟨_, _, _, hs, hc, -, -, -, -, hms, hmc, -, -⟩ := readManifest_some h
  obtain rfl := Option.some.inj (hsize.symm.trans hs)
  obtain rfl := Option.some.inj (hcount.symm.trans hc)
  exact ⟨hms.trans (toUInt32_natCast hsize32), hmc.trans (toUInt32_natCast hcount32)⟩

/-- **Where the arithmetic is exact**: of the manifests that are accepted, in those whose
count is below `2 ^ 29`, and in no others. -/
theorem manifest_sizes_iff {cjsonParse : Bytes → Option Json} {json : Bytes} {root : Json}
    {m : Manifest} {size count : Nat} (hroot : cjsonParse json = some root)
    (hsize : number? (root.getObjectItem (ascii "size")) = some (size : ℚ))
    (hcount : number? (root.getObjectItem (ascii "count")) = some (count : ℚ))
    (hsize32 : size < 2 ^ 32) (hcount32 : count < 2 ^ 32)
    (h : parseManifest cjsonParse json = some m) :
    (8 * count = size ∧ SizesExact sha256 m) ↔ count < 2 ^ 29 := by
  have hm := parseManifest_accepted h
  rw [parseManifest_eq hroot] at h
  obtain ⟨hms, hmc⟩ := readManifest_sizes hsize hcount hsize32 hcount32 h
  rw [sizesExact_iff hm, hmc]
  constructor
  · exact fun h => h.2
  · intro hlt
    have := hm.size
    rw [hms, hmc, sizeT_of_lt (by omega)] at this
    exact ⟨by omega, hlt⟩

/-! ### Two manifests -/

/-- The smallest list there is has exact sizes. -/
theorem smallest_sizes :
    (8 * 10000 = 8 * 10000 ∧
      SizesExact Sha256.sha256 (sampleManifest Sha256.sha256 10000 10000 (ascii "v1"))) ↔
    10000 < 2 ^ 29 :=
  manifest_sizes_iff (reads_print (sampleTree Sha256.sha256 10000 10000 (ascii "v1"))) rfl rfl
    (by norm_num) (by norm_num) ((parseManifest_eq (reads_print _)).trans
      (readManifest_sample (by decide) (by decide) (by norm_num) (by decide) (by decide)))

/-- The same entries under a count that wraps to theirs. -/
def wrappedTree : Json := sampleTree Sha256.sha256 10000 (2 ^ 29 + 10000) (ascii "v1")

/-- **A manifest whose product wraps** is accepted, and committing the list it describes
reads past the buffer. -/
theorem wrapped_sizes :
    parseManifest (reads wrappedTree) (print wrappedTree) =
        some (sampleManifest Sha256.sha256 10000 (2 ^ 29 + 10000) (ascii "v1")) ∧
      8 * (2 ^ 29 + 10000) ≠ 8 * 10000 ∧
      (blocklistCommitSlot 0 (2 ^ 29 + 10000) (Sha256.sha256 (entriesBlob 10000)) (ascii "v1")).run
        (handle Sha256.sha256 noFailure) (World.blank.store 0 (entriesBlob 10000)) = none := by
  have hcount : sizeT (2 ^ 29 + 10000) = 2 ^ 29 + 10000 := by norm_num [sizeT]
  have hsize : sizeT ((2 ^ 29 + 10000) * 8) = 8 * 10000 := by norm_num [sizeT]
  have hbytes : ((World.blank.store 0 (entriesBlob 10000)).record 0 (2 ^ 29 + 10000)
      (Sha256.sha256 (entriesBlob 10000)) (ascii "v1")).slotBytes 0 (8 * 10000) =
        entriesBlob 10000 := by
    have h := slotBytes_store World.blank 0 (entriesBlob 10000)
    rw [entriesBlob_length] at h
    simp only [World.record, World.slotBytes_setNvs, h]
  refine ⟨(parseManifest_eq (reads_print _)).trans (readManifest_sample hsize.symm (by decide)
    (by norm_num) (by decide) (by decide)), by norm_num, ?_⟩
  rw [commit_run_record (by decide) rfl rfl rfl rfl, activateSlot, Prog.run_bind,
    loadSlot_run_wrapped (by decide) (record_cnt ..) ?_ (by decide) ?_ ?_ (by norm_num [sizeT])]
  · rfl
  · rw [record_sha, hcount, hsize, hbytes]
  · rw [hcount, hsize]
    decide
  · rw [hcount, hsize, hbytes, entriesBlob, Words.words_encode]
    exact entries_ascending (by norm_num)

end EspHole.Sinkhole
