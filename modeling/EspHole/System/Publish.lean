/-
From a published artifact to a served list, across the two firmwares.

The generator sorts, drops repeats, encodes, hashes and prints; the sinkhole reads the
manifest, streams the blob into flash, hashes it twice, checks the order and searches.
`published_served` runs the one into the other: what `blocklist_builder_finish` handed out
is what `blocklist_contains` answers from, whatever the chunks it travelled in.

It takes ten thousand names to see this happen, since nothing below the floor is published.
`names` is a list of that size whose hashes are known to differ without computing them.
-/
import EspHole.Generator.Fetch
import EspHole.Generator.Serve
import EspHole.Sinkhole.Transfer
import Mathlib.Data.List.ProdSigma

namespace EspHole.System

open Ascii Ascending Generator Json Pipeline Sinkhole

/-! ### What is served is what was published -/

/-- The statics after a load of this artifact. -/
structure Carries (ram : Ram) (art : Artifact) : Prop where
  hashes : ram.hashes = Words.words art.bytes
  count : ram.count = art.count

section Published

variable {sha256 : Bytes → Digest} {b : Builder} {art : Artifact}

theorem carries_kept (hart : art.Of sha256 b) {ram : Ram} (h : Carries ram art) :
    ram.hashes = b.kept := by
  rw [h.hashes, hart.bytes, Words.words_encode]

/-- A sinkhole that carries the artifact knows the builder's hashes, and no others. -/
theorem blocklistContains_carries (hart : art.Of sha256 b) {ram : Ram} (h : Carries ram art)
    (hash : UInt64) :
    blocklistContains true ram hash = some (decide (hash ∈ b.hashes)) := by
  have hkept := carries_kept hart h
  have hlen : ram.hashes.length = ram.count := by rw [hkept, h.count, hart.count]
  rw [blocklistContains_eq hlen (by rw [hkept]; exact b.kept_ascending)]
  simp only [hkept, Builder.mem_kept]

/-- The manifest of an artifact that fits a slot is read back as it was. -/
theorem readManifest_published (hart : art.Of sha256 b) (hfloor : blocklistMinDomains ≤ art.count)
    (hfits : art.blobLen ≤ slotSize) {version url : Bytes}
    (hversion : version.length < blocklistVersionMax) (hversion0 : 0 ∉ version)
    (hurl : url.length < 256) (hurl0 : 0 ∉ url) :
    readManifest (manifestTree art version url) =
      some ⟨version, url, art.blobLen, art.count, art.sha256⟩ := by
  have hlen := hart.blobLen
  have hcount := hart.count
  unfold slotSize at hfits
  refine readManifest_manifestTree ?_ hfloor (by omega) hversion hversion0 hurl hurl0
  rw [sizeT_of_lt (by omega)]
  omega

/-- Once its blob is in the slot, committing an artifact serves it. -/
theorem commit_published (hart : art.Of sha256 b) (hfloor : blocklistMinDomains ≤ art.count)
    (hfits : art.blobLen ≤ slotSize) {version : Bytes}
    (hversion : version.length < blocklistVersionMax) {s : World} {slot : Int}
    (hslot : IsSlot slot) (hact : slot ≠ s.ram.active)
    (hbytes : s.slotBytes slot art.bytes.length = art.bytes) :
    ∃ s', (blocklistCommitSlot slot art.count art.sha256 version).run (handle sha256 noFailure) s =
        some (.ok, s') ∧
      Carries s'.ram art ∧ s'.ram.version = version ∧ BootsTo sha256 s' s'.ram := by
  have hlen : art.bytes.length = 8 * b.kept.length := by
    rw [hart.bytes, Words.flatMap_encode_length]
  have hcount := hart.count
  have hsize := hart.blobLen
  have hn : sizeT b.kept.length = b.kept.length :=
    sizeT_of_lt (by unfold slotSize at hfits; omega)
  have hl : CommitLoads sha256 noFailure s slot art.count art.sha256 version := by
    rw [hcount]
    refine commitLoads_encoded hslot hact b.kept_ascending ?_ ?_ (by omega) (by omega)
      fun _ _ => rfl
    · rw [← hlen, hbytes, hart.bytes]
    · rw [hart.digest, hart.bytes]
  have hrec : (s.commitDone noFailure slot art.count art.sha256 version).nvs .active =
      some (activeRecord slot) := commitDone_active
  have hread : readBackVersion noFailure (s.record slot art.count art.sha256 version) slot =
      version := (readBackVersion_record s art.count art.sha256).mpr (Or.inr ⟨hversion, rfl⟩)
  refine ⟨_, commit_run_loads hl, ⟨?_, ?_⟩, ?_,
    commitDone_boots hl hrec (Or.inr ⟨hversion, rfl⟩)⟩
  · rw [commitDone_ram, hcount, hn, ← hlen, hbytes]
  · rw [commitDone_ram, hcount, hn]
  · rw [commitDone_ram, hread]

end Published

/-- **What the generator publishes is what the sinkhole serves.**  The manifest is read back
as it was built, the blob is taken in however it is cut up, the commit succeeds, and the
list then served, and served again after any reboot, answers with the added domains. -/
theorem published_served {sha256 : Bytes → Digest} {a : FinishAlloc} {minDomains : Nat}
    {adds : List (Bool × Bytes)} {art : Artifact} {left : Builder}
    {cjsonPrint : Json → Option Bytes} {cjsonParse : Bytes → Option Json}
    {version url text : Bytes} {s : World} {chunks rest : List Bytes}
    (hfinish : blocklistBuilderFinish sha256 a
      (addAll (blocklistBuilderCreate minDomains) adds).2 = some (.ok, art, left))
    (hfloor : blocklistMinDomains ≤ art.count) (hfits : art.blobLen ≤ slotSize)
    (hversion : version.length < blocklistVersionMax) (hversion0 : 0 ∉ version)
    (hurl : url.length < 256) (hurl0 : 0 ∉ url)
    (hprint : buildManifestJson cjsonPrint art version url = some text)
    (hreread : Rereads cjsonPrint cjsonParse (manifestTree art version url))
    (hchunks : Arriving chunkSize chunks s.inbox rest) (hblob : chunks.flatten = art.bytes) :
    ∃ m s₁ s₂, parseManifest cjsonParse text = some m ∧
      m = ⟨version, url, art.blobLen, art.count, art.sha256⟩ ∧
      (downloadToSlot m (blocklistInactiveSlot s.ram)).run (handle sha256 noFailure) s =
        some (.ok, s₁) ∧
      (blocklistCommitSlot (blocklistInactiveSlot s.ram) m.count m.sha256 m.version).run
        (handle sha256 noFailure) s₁ = some (.ok, s₂) ∧
      (∀ h, blocklistContains true s₂.ram h = some (decide
        (h ∈ (addAll (blocklistBuilderCreate minDomains) adds).1.map Pipeline.domainHash))) ∧
      BootsTo sha256 s₂ s₂.ram := by
  obtain ⟨hhashes, -, hwell⟩ := addAll_spec adds (blocklistBuilderCreate_wellFormed minDomains)
  have hart := blocklistBuilderFinish_ok hwell hfinish
  have hlen : art.bytes.length = art.blobLen := by
    rw [hart.bytes, Words.flatMap_encode_length, hart.blobLen]
  obtain ⟨hslot, hact⟩ := blocklistInactiveSlot_spec s.ram
  have hdown : (downloadToSlot ⟨version, url, art.blobLen, art.count, art.sha256⟩
      (blocklistInactiveSlot s.ram)).run (handle sha256 noFailure) s = _ :=
    downloadToSlot_run (fun _ _ => rfl) hslot hfits hchunks (by rw [hblob, hlen])
      (by rw [hblob]; exact hart.digest.symm)
  obtain ⟨s₂, hcommit, hcarries, -, hboots⟩ := commit_published hart hfloor hfits hversion
    (s := s.downloaded (blocklistInactiveSlot s.ram) art.bytes rest) hslot hact
    (slotBytes_program_erase s _ (le_eraseRange _))
  refine ⟨_, _, s₂, ?_, rfl, hdown, by rw [hblob]; exact hcommit, fun h => ?_, hboots⟩
  · rw [parseManifest_eq (hreread text hprint)]
    exact readManifest_published hart hfloor hfits hversion hversion0 hurl hurl0
  · rw [blocklistContains_carries hart hcarries, hhashes]
    rfl

/-! ### A list above the floor -/

/-- Some letters. -/
def letters : Bytes := ascii "abcdefghijklmnopqrstuv"

/-- The names of the form `a.xyz` in these letters. -/
def names : List Bytes :=
  (letters ×ˢ letters ×ˢ letters).map fun w => ascii "a." ++ [w.1, w.2.1, w.2.2]

theorem names_length : names.length = 10648 := by
  simp only [names, List.length_map, List.length_product]
  decide +kernel

theorem mem_names {d : Bytes} : d ∈ names ↔
    ∃ x ∈ letters, ∃ y ∈ letters, ∃ z ∈ letters, d = ascii "a." ++ [x, y, z] := by
  unfold names
  rw [List.mem_map]
  constructor
  · rintro ⟨⟨x, y, z⟩, hw, rfl⟩
    obtain ⟨hx, hyz⟩ := List.mem_product.mp hw
    obtain ⟨hy, hz⟩ := List.mem_product.mp hyz
    exact ⟨x, hx, y, hy, z, hz, rfl⟩
  · rintro ⟨x, hx, y, hy, z, hz, rfl⟩
    exact ⟨(x, y, z), List.mem_product.mpr ⟨hx, List.mem_product.mpr ⟨hy, hz⟩⟩, rfl⟩

theorem names_nodup : (names.map Pipeline.domainHash).Nodup := by
  have hletters : letters.Nodup := by decide +kernel
  have hinj : Function.Injective fun w : UInt8 × UInt8 × UInt8 =>
      Pipeline.domainHash (ascii "a." ++ [w.1, w.2.1, w.2.2]) := by
    intro w w' h
    obtain ⟨hx, hy, hz⟩ := domainHash_last_three h
    exact Prod.ext hx (Prod.ext hy hz)
  have hmap := (hletters.product (hletters.product hletters)).map hinj
  simpa only [names, List.map_map, Function.comp_def] using hmap

/-- The canaries, and what else is looked up below, are not among the names. -/
def strangers : List Bytes := negativeCanaries ++ ["www.a.aaa", "aaa"].map ascii

theorem strangers_stem : ∀ o ∈ strangers, o ≠ [] ∧ ∀ x ∈ letters, ∀ y ∈ letters,
    Pipeline.domainHash o.dropLast >>> 8 ≠ Pipeline.domainHash (ascii "a." ++ [x, y]) >>> 8 := by
  decide +kernel

theorem stranger_not_mem {o : Bytes} (ho : o ∈ strangers) :
    Pipeline.domainHash o ∉ names.map Pipeline.domainHash := by
  intro hmem
  obtain ⟨hne, hstem⟩ := strangers_stem o ho
  obtain ⟨d, hd, heq⟩ := List.mem_map.mp hmem
  obtain ⟨x, hx, y, hy, z, -, rfl⟩ := mem_names.mp hd
  refine hstem x hx y hy (domainHash_concat_top (c := o.getLast hne) (d := z) ?_)
  rw [List.dropLast_append_getLast hne, ← heq]
  simp

/-- The published list of the names. -/
theorem names_published (sha256 : Bytes → Digest) : ∃ art left,
    blocklistBuilderFinish sha256 ⟨some fun _ => 0, true⟩
      (addAll (blocklistBuilderCreate blocklistMinDomains) (names.map fun d => (true, d))).2 =
        some (.ok, art, left) ∧
    art.count = names.length ∧ art.blobLen = 8 * names.length := by
  have hlen := names_length
  refine publishes_distinct sha256 rfl names_nodup (by omega) ?_ (by omega) fun name hname =>
    stranger_not_mem (List.mem_append_left _ hname)
  unfold blocklistMinDomains
  omega

theorem published_names : ∃ s : World,
    (∀ d ∈ names, blocklistContains true s.ram (Pipeline.domainHash d) = some true) ∧
      blocklistContains true s.ram (Pipeline.domainHash (ascii "www.a.aaa")) = some false ∧
      BootsTo Sha256.sha256 s s.ram := by
  obtain ⟨art, left, hfinish, hcount, hsize⟩ := names_published Sha256.sha256
  have hlen := names_length
  have hart := blocklistBuilderFinish_ok
    (addAll_spec _ (blocklistBuilderCreate_wellFormed blocklistMinDomains)).2.2 hfinish
  generalize hbuilder : (addAll (blocklistBuilderCreate blocklistMinDomains)
    (names.map fun d => (true, d))).2 = b at hart
  have hprint : buildManifestJson (fun root => some (print root)) art (ascii "v1")
      (ascii "http://generator/blocklist.bin") = some _ := rfl
  obtain ⟨m, s₁, s₂, -, -, -, -, hcontains, hboots⟩ :=
    published_served (s := { World.blank with inbox := wordChunks b.kept ++ [[]] }) hfinish
      (by rw [hcount, hlen]; decide) (by rw [hsize, hlen]; decide) (by decide) (by decide)
      (by decide) (by decide) hprint (rereads_print _) (arriving_words b.kept [])
      (by rw [flatten_wordChunks, hart.bytes])
  rw [addAll_created blocklistMinDomains (by omega)] at hcontains
  refine ⟨s₂, fun d hd => ?_, ?_, hboots⟩
  · rw [hcontains, decide_eq_true (List.mem_map_of_mem hd)]
  · rw [hcontains, decide_eq_false (stranger_not_mem (by decide +kernel))]

end EspHole.System
