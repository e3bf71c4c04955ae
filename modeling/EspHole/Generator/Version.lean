/-
What the version of a published list depends on: `build_version` of
`generator-node/main/generator_main.c`.

The version is the head of the blob's own digest, so that a list that has not changed is
not downloaded again.  This only works if two runs over the same domains publish the same
bytes, however the sources were ordered and however often a domain was met:
`fetchAndGenerate_set`.
-/
import EspHole.Generator.Fetch
import EspHole.Generator.Serve
import EspHole.Pipeline.Finish

namespace EspHole.Generator

open Ascii Ascending Pipeline

/-- `build_version` -/
def buildVersion (sha256 : Digest) : Bytes := (sha256.bytes.take 8).flatMap hexByte

/-- Sixteen digits, which is what `out` has room for. -/
theorem buildVersion_length (sha256 : Digest) : (buildVersion sha256).length = 16 := by
  rw [buildVersion, length_flatMap_hexByte, List.length_take, Digest.bytes_length]
  rfl

/-- What two runs agree on. -/
structure SameList (art art' : Artifact) : Prop where
  bytes : art.bytes = art'.bytes
  blobLen : art.blobLen = art'.blobLen
  count : art.count = art'.count
  sha256 : art.sha256 = art'.sha256
  version : buildVersion art.sha256 = buildVersion art'.sha256

theorem SameList.refl (art : Artifact) : SameList art art := ⟨rfl, rfl, rfl, rfl, rfl⟩

/-- Builders with the same set of hashes keep the same list. -/
theorem kept_congr {b b' : Builder} (h : ∀ x, x ∈ b.hashes ↔ x ∈ b'.hashes) : b.kept = b'.kept :=
  b.kept_ascending.ext b'.kept_ascending fun x => by rw [Builder.mem_kept, Builder.mem_kept, h]

/-- With the blob's block granted, the first look at the floor says nothing that the second
does not. -/
theorem finish_granted (sha256 : Bytes → Digest) {a : FinishAlloc} {b : Builder}
    (hb : b.WellFormed) (hmin : 1 ≤ b.minDomains) {bytes : Nat → UInt8}
    (hblock : a.blob = some bytes) :
    (blocklistBuilderFinish sha256 a b).map blocklistBuilderDestroy = some (
      if b.kept.length < b.minDomains then (.errBelowMinDomains, .zero)
      else if b.NoCanary then
        (.ok, b.artifact sha256 a.shrink ((List.range (b.count * 8)).map bytes))
      else (.errSelftest, .zero)) := by
  have hle := b.kept_length_le
  rw [blocklistBuilderFinish_eq sha256 hb, Option.map_some]
  by_cases hlow : b.count < b.minDomains
  · rw [if_pos hlow, if_pos (by omega)]
    rfl
  · rw [if_neg hlow, a.block_eq hblock (by omega)]
    simp only [apply_ite blocklistBuilderDestroy]
    rfl

/-- **`finish` sees the set only**: order and repeats change neither the outcome nor what is
published. -/
theorem finish_congr (sha256 : Bytes → Digest) {a a' : FinishAlloc} {b b' : Builder}
    (hb : b.WellFormed) (hb' : b'.WellFormed) (hset : ∀ x, x ∈ b.hashes ↔ x ∈ b'.hashes)
    (hfloor : b.minDomains = b'.minDomains) (hmin : 1 ≤ b.minDomains)
    (halloc : a.blob ≠ none) (halloc' : a'.blob ≠ none) :
    ∃ status art art',
      (blocklistBuilderFinish sha256 a b).map blocklistBuilderDestroy =
        some (status, art) ∧
      (blocklistBuilderFinish sha256 a' b').map blocklistBuilderDestroy =
        some (status, art') ∧ SameList art art' := by
  obtain ⟨block, hblock⟩ := Option.ne_none_iff_exists'.mp halloc
  obtain ⟨block', hblock'⟩ := Option.ne_none_iff_exists'.mp halloc'
  have hkept : b.kept = b'.kept := kept_congr hset
  have hcan : b.NoCanary ↔ b'.NoCanary := by
    unfold Builder.NoCanary
    exact forall₂_congr fun name _ => not_congr (hset _)
  rw [finish_granted sha256 hb hmin hblock, finish_granted sha256 hb' (hfloor ▸ hmin) hblock']
  have hsame : b'.kept.length < b'.minDomains ↔ b.kept.length < b.minDomains := by
    rw [hkept, hfloor]
  by_cases hlow : b.kept.length < b.minDomains
  · rw [if_pos hlow, if_pos (hsame.mpr hlow)]
    exact ⟨_, _, _, rfl, rfl, .refl _⟩
  rw [if_neg hlow, if_neg (fun h => hlow (hsame.mp h))]
  by_cases hno : b.NoCanary
  · rw [if_pos hno, if_pos (hcan.mp hno)]
    have hbytes := (artifact_spec sha256 a.shrink ((List.range (b.count * 8)).map block) b).1
    have hbytes' := (artifact_spec sha256 a'.shrink ((List.range (b'.count * 8)).map block') b').1
    have hdigest : sha256 (b.kept.flatMap Words.encode) =
        sha256 (b'.kept.flatMap Words.encode) := by
      rw [hkept]
    refine ⟨_, _, _, rfl, rfl, ?_, ?_, ?_, hdigest, congrArg buildVersion hdigest⟩
    · rw [hbytes, hbytes', hkept]
    · exact congrArg (8 * ·.length) hkept
    · exact congrArg List.length hkept
  · rw [if_neg hno, if_neg fun h => hno (hcan.mpr h)]
    exact ⟨_, _, _, rfl, rfl, .refl _⟩

/-- The hashes a configuration and its sources offer to the builder. -/
def offeredHashes (allow : List UInt64) (sources : List (Bytes × Response)) : List UInt64 :=
  (offeredDomains allow (sourceLines sources)).map domainHash

/-- No allocation of this run fails: every add that is made returns true, and the blob gets
its block. -/
structure AllGranted (granted : Nat → Bool) (a : FinishAlloc) (allow : List UInt64)
    (minDomains : Nat) (sources : List (Bytes × Response)) : Prop where
  adds : addedDomains granted allow minDomains (sourceLines sources) =
    offeredDomains allow (sourceLines sources)
  blob : a.blob ≠ none

/-- A run in which nothing fails, in terms of what it offers. -/
theorem fetchAndGenerate_granted (sha256 : Bytes → Digest) {granted : Nat → Bool}
    {a : FinishAlloc} {allow : List UInt64} {minDomains : Nat} {sources : List (Bytes × Response)}
    (h : AllGranted granted a allow minDomains sources) :
    ∃ b : Builder, b.WellFormed ∧ b.hashes = offeredHashes allow sources ∧
      b.minDomains = minDomains ∧
      fetchAndGenerate sha256 true granted a allow sources minDomains =
        (blocklistBuilderFinish sha256 a b).map blocklistBuilderDestroy := by
  obtain ⟨hhashes, hfloor, hwell⟩ := sinkLines_spec granted allow minDomains (sourceLines sources)
  refine ⟨_, hwell, ?_, hfloor, ?_⟩
  · rw [hhashes, h.adds]
    rfl
  · have heq : fetchSources (sinkLine granted allow) sources
        (⟨blocklistBuilderCreate minDomains, 0⟩ : SinkCtx) =
        sinkLines granted allow minDomains (sourceLines sources) :=
      fetchSources_eq sources (⟨blocklistBuilderCreate minDomains, 0⟩ : SinkCtx) []
    unfold fetchAndGenerate
    simp only [heq]
    rfl

/-- **The published list depends on the set of domains only.**  Two runs whose sources offer
the same hashes, in any order, any number of times and in any chunks, end the same way, and
publish the same bytes under the same version. -/
theorem fetchAndGenerate_set (sha256 : Bytes → Digest) {granted granted' : Nat → Bool}
    {a a' : FinishAlloc} {allow allow' : List UInt64} {minDomains : Nat}
    {sources sources' : List (Bytes × Response)} (hmin : 1 ≤ minDomains)
    (hall : AllGranted granted a allow minDomains sources)
    (hall' : AllGranted granted' a' allow' minDomains sources')
    (hset : ∀ h, h ∈ offeredHashes allow sources ↔ h ∈ offeredHashes allow' sources') :
    ∃ status art art',
      fetchAndGenerate sha256 true granted a allow sources minDomains = some (status, art) ∧
      fetchAndGenerate sha256 true granted' a' allow' sources' minDomains = some (status, art') ∧
      SameList art art' := by
  obtain ⟨b, hb, hhashes, hfloor, hrun⟩ := fetchAndGenerate_granted sha256 hall
  obtain ⟨b', hb', hhashes', hfloor', hrun'⟩ := fetchAndGenerate_granted sha256 hall'
  rw [hrun, hrun']
  exact finish_congr sha256 hb hb' (by rw [hhashes, hhashes']; exact hset)
    (hfloor.trans hfloor'.symm) (by rw [hfloor]; exact hmin) hall.blob hall'.blob

/-- Two lines in one chunk. -/
def tidySources : List (Bytes × Response) :=
  [(ascii "http://a/", .answer 200 [.data (ascii "0.0.0.0 ads.example\nb.example\n"), .data []])]

/-- The same domains from two sources, in pieces, with a repeat. -/
def messySources : List (Bytes × Response) :=
  [(ascii "http://b/", .answer 200 [.data (ascii "b.exam"), .data (ascii "ple\nADS.example"),
      .data []]),
    (ascii "http://c/", .answer 200 [.data (ascii "b.example\n"), .data []])]

/-- The two allocators, whose blocks hold different rubbish; the second refuses the shrink. -/
def tidyAlloc : FinishAlloc := ⟨some fun _ => 0xA5, true⟩

def messyAlloc : FinishAlloc := ⟨some fun _ => 0x5A, false⟩

/-- Both runs publish the two domains. -/
theorem tidy_messy_same :
    ∃ art art',
      fetchAndGenerate (fun _ => Vector.replicate 32 0) true (fun _ => true) tidyAlloc []
        tidySources 2 = some (.ok, art) ∧
      fetchAndGenerate (fun _ => Vector.replicate 32 0) true (fun _ => true) messyAlloc []
        messySources 2 = some (.ok, art') ∧
      SameList art art' ∧ art.count = 2 ∧ ∀ x, blobContains art.blob art.count x = some (decide
        (x ∈ [ascii "ads.example", ascii "b.example"].map domainHash)) := by
  have h : addedDomains (fun _ => true) [] 2 (sourceLines tidySources) =
        offeredDomains [] (sourceLines tidySources) ∧
      addedDomains (fun _ => true) [] 2 (sourceLines messySources) =
        offeredDomains [] (sourceLines messySources) ∧
      offeredHashes [] tidySources ⊆ offeredHashes [] messySources ∧
      offeredHashes [] messySources ⊆ offeredHashes [] tidySources := by decide +kernel
  have htidy : AllGranted (fun _ => true) tidyAlloc [] 2 tidySources :=
    ⟨h.1, Option.some_ne_none _⟩
  have hmessy : AllGranted (fun _ => true) messyAlloc [] 2 messySources :=
    ⟨h.2.1, Option.some_ne_none _⟩
  obtain ⟨status, art, art', hrun, hrun', hsame⟩ := fetchAndGenerate_set
    (fun _ => Vector.replicate 32 0) (by decide) htidy hmessy
    fun x => ⟨fun hx => h.2.2.1 hx, fun hx => h.2.2.2 hx⟩
  -- What the tidy run makes of its two hashes.
  obtain ⟨b, hb, hhashes, hfloor, heq⟩ :=
    fetchAndGenerate_granted (fun _ => Vector.replicate 32 0) htidy
  have hoffered : offeredHashes [] tidySources =
      [ascii "ads.example", ascii "b.example"].map domainHash := by decide +kernel
  obtain ⟨status', out, left, hfinish, hspec, -⟩ :=
    finish_kept (fun _ => Vector.replicate 32 0) tidyAlloc hb (by rw [hfloor]; decide)
  rw [heq, hfinish] at hrun
  obtain ⟨rfl, rfl⟩ := Prod.mk.inj (Option.some.inj hrun)
  rw [hhashes, hoffered, hfloor] at hspec
  obtain rfl : status' = .ok := hspec.ok_iff.mpr ⟨by decide +kernel, rfl, by decide +kernel⟩
  have hcount : out.count = 2 := by rw [hspec.count rfl]; decide +kernel
  refine ⟨out, art', by rw [heq, hfinish]; rfl, hrun', hsame, hcount, fun x => ?_⟩
  rw [hspec.contains rfl]
  simp

end EspHole.Generator
