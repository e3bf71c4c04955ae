/-
The block decision across the two firmwares.

The generator turns lines into names, names into hashes and hashes into a list; the
sinkhole turns a packet into a name, the name into hashes and each hash into a search of
that list.  `isBlocked_served` puts the sinkhole's half against any list of domains the
generator may have hashed; what is left is to say which domains those are.

`blocked_iff_listed` is the whole path: a query is blocked exactly when one of the
domains the lines emit, no exception standing for it, is the queried name or one of its
parents.  `allowed_unblocked_iff` is what becomes of the exceptions on this path: they
take single names off the list and do nothing about a parent that stays on it.
-/
import EspHole.Sinkhole.Lookup
import EspHole.Sinkhole.Question
import EspHole.System.Publish

namespace EspHole.System

open Ascii Ascending Dotted Generator Pipeline Sinkhole

/-! ### The sinkhole's half -/

/-- The list being served: in strict order, and holding the hashes of these domains. -/
structure Serves (ram : Ram) (domains : List Bytes) : Prop where
  count : ram.hashes.length = ram.count
  ascending : Ascending ram.hashes
  mem : ∀ h, h ∈ ram.hashes ↔ h ∈ domains.map Pipeline.domainHash

/-- The names a lookup of `name` asks about: itself and its parents. -/
def parents (name : Bytes) : Set Bytes := {d | AtBoundary dot d name}

/-- **The decision of the sinkhole**, for a list of valid domains, when no two of the
domains and names concerned collide. -/
theorem isBlocked_served {ram : Ram} {domains : List Bytes} (hserves : Serves ram domains)
    (hvalid : ∀ d ∈ domains, ValidDomain d) (name : Bytes)
    (hcoll : Set.InjOn Pipeline.domainHash ({d | d ∈ domains} ∪ parents (cstr name))) :
    ∃ r, isBlocked (blocklistContains true ram) name = some r ∧
      (r = true ↔ ∃ d ∈ domains, AtBoundary dot d (cstr name)) := by
  have hcontains : ∀ h, blocklistContains true ram h = some (decide (h ∈ ram.hashes)) :=
    blocklistContains_eq hserves.count hserves.ascending
  obtain ⟨r, hr, hiff⟩ := isBlocked_iff hcontains name
  refine ⟨r, hr, hiff.trans ⟨?_, ?_⟩⟩
  · rintro ⟨-, d, hb, -, hlisted⟩
    obtain ⟨e, he, heq⟩ := List.mem_map.mp ((hserves.mem _).mp hlisted)
    have : e = d := hcoll (Or.inl he) (Or.inr hb) heq
    exact ⟨d, this ▸ he, hb⟩
  · rintro ⟨d, hd, hb⟩
    have hdot := (hvalid d hd).dot_mem
    refine ⟨?_, d, hb, Or.inr hdot, (hserves.mem _).mpr (List.mem_map_of_mem hd)⟩
    intro hnil
    have hlen := hb.length_le
    have hpos := List.length_pos_of_mem hdot
    rw [hnil, List.length_nil] at hlen
    omega

/-! ### From the lines to the decision -/

/-- The parents of a parsed name are its labels with some dropped from the left. -/
theorem mem_parents {ls : List Bytes} (hplain : ∀ l ∈ ls, dot ∉ l) {d : Bytes}
    (hd : ls = [] → d ≠ []) :
    d ∈ parents (dotted ls) ↔ ∃ k < ls.length, d = dotted (ls.drop k) := by
  by_cases hls : ls = []
  · subst hls
    have hno : ¬ AtBoundary dot d [] := fun hb => by
      have := hb.length_le
      exact hd rfl (List.length_eq_zero_iff.mp (by simpa using this))
    simpa [parents, dotted] using hno
  · have hlower : ∀ l ∈ ls.map (·.map lower), dot ∉ l := by
      intro l' hl' hdot
      obtain ⟨l, hl, rfl⟩ := List.mem_map.mp hl'
      obtain ⟨c, hc, hcdot⟩ := List.mem_map.mp hdot
      exact hplain l hl ((lower_eq_dot c).mp hcdot ▸ hc)
    have := atBoundary_intercalate (d := d) (ls.map (·.map lower)) (by simpa using hls) hlower
    simpa [parents, dotted] using this

/-- **The block decision, end to end.**  When every add succeeds the builder holds the
offered domains, and a sinkhole that serves them blocks a query exactly when one of them is
the queried name, lower-cased, or what is left of it after dropping labels from the left. -/
theorem blocked_iff_listed {granted : Nat → Bool} {allow : List UInt64} {minDomains : Nat}
    {lines : List Bytes} {ram : Ram} {pkt name : Bytes} {qEnd : Nat}
    (hadds : addedDomains granted allow minDomains lines = offeredDomains allow lines)
    (hserves : Serves ram (offeredDomains allow lines))
    (hpkt : parseQuestion pkt dnsMaxName = some (name, qEnd))
    (hplain : ∀ l ∈ questionLabels pkt, dot ∉ l ∧ 0 ∉ l)
    (hcoll : Set.InjOn Pipeline.domainHash
      ({d | d ∈ offeredDomains allow lines} ∪ parents (dotted (questionLabels pkt)))) :
    (sinkLines granted allow minDomains lines).builder.hashes =
        (offeredDomains allow lines).map Pipeline.domainHash ∧
      ∃ r, isBlocked (blocklistContains true ram) name = some r ∧
        (r = true ↔ ∃ d ∈ offeredDomains allow lines, ∃ k < (questionLabels pkt).length,
          d = dotted ((questionLabels pkt).drop k)) := by
  obtain ⟨-, rfl, -⟩ := parseQuestion_labels (by decide) hpkt
  have hcstr := cstr_dotted fun l hl => (hplain l hl).2
  have hvalid : ∀ d ∈ offeredDomains allow lines, ValidDomain d := fun d hd =>
    (offeredDomains_spec hd).1
  refine ⟨by rw [(sinkLines_spec granted allow minDomains lines).1, hadds], ?_⟩
  obtain ⟨r, hr, hiff⟩ := isBlocked_served hserves hvalid (dotted (questionLabels pkt))
    (by rw [hcstr]; exact hcoll)
  refine ⟨r, hr, hiff.trans (exists_congr fun d => and_congr_right fun hd => ?_)⟩
  rw [hcstr]
  exact mem_parents (fun l hl => (hplain l hl).1) fun _ =>
    List.ne_nil_of_mem (hvalid d hd).dot_mem

section Hosts

/-- A line of a hosts file, -/
def hostsLine : Bytes := ascii "0.0.0.0 ads.example.com www.example.com # shop"

/-- the exception for its second name, -/
def shopAllowed : List UInt64 := [Pipeline.domainHash (ascii "www.example.com")]

/-- and the list that is left. -/
def hostsRam : Ram := ⟨[Pipeline.domainHash (ascii "ads.example.com")], 1, 0, []⟩

/-- A query, its labels in mixed case. -/
def pixelQuery : Bytes :=
  [0x12, 0x34, 1, 0, 0, 1, 0, 0, 0, 0, 0, 0] ++
    encodeLabels [ascii "pixel", ascii "ADS", ascii "Example", ascii "com"] ++ [0, 0, 1, 0, 1]

theorem offered_hostsLine : offeredDomains shopAllowed [hostsLine] = [ascii "ads.example.com"] := by
  decide +kernel

theorem labels_pixelQuery : questionLabels pixelQuery =
    [ascii "pixel", ascii "ADS", ascii "Example", ascii "com"] := by decide +kernel

/-- A list of names without a collision. -/
theorem injOn_of_nodup {names : List Bytes} (h : (names.map Pipeline.domainHash).Nodup) :
    Set.InjOn Pipeline.domainHash {d | d ∈ names} := fun _ hd _ he heq =>
  List.inj_on_of_nodup_map h hd he heq

theorem hostsLine_pixelQuery :
    isBlocked (blocklistContains true hostsRam) (ascii "pixel.ads.example.com") = some true := by
  have hparse : parseQuestion pixelQuery dnsMaxName =
      some (ascii "pixel.ads.example.com", 39) := by decide +kernel
  have hadds : addedDomains (fun _ => true) shopAllowed 1 [hostsLine] =
      offeredDomains shopAllowed [hostsLine] := by decide +kernel
  have hserves : Serves hostsRam (offeredDomains shopAllowed [hostsLine]) := by
    rw [offered_hostsLine]
    exact ⟨rfl, by decide +kernel, fun h => by simp [hostsRam]⟩
  have hnames : Set.InjOn Pipeline.domainHash {d | d ∈ [ascii "pixel.ads.example.com",
      ascii "ads.example.com", ascii "example.com", ascii "com"]} :=
    injOn_of_nodup (by decide +kernel)
  have hcoll : Set.InjOn Pipeline.domainHash ({d | d ∈ offeredDomains shopAllowed [hostsLine]} ∪
      parents (dotted (questionLabels pixelQuery))) := by
    refine hnames.mono ?_
    rw [offered_hostsLine, labels_pixelQuery]
    rintro d (hd | hd)
    · rw [List.mem_singleton.mp hd]
      exact List.mem_cons_of_mem _ List.mem_cons_self
    · obtain ⟨k, hk, rfl⟩ := (mem_parents (by decide +kernel) (fun h => by cases h)).mp hd
      rw [Set.mem_ofPred_eq]
      clear hd
      revert k
      decide +kernel
  obtain ⟨-, r, hr, hiff⟩ := blocked_iff_listed hadds hserves hparse
    (by rw [labels_pixelQuery]; decide +kernel) hcoll
  rw [hr]
  refine congrArg some (hiff.mpr ⟨ascii "ads.example.com", ?_, 1, ?_, ?_⟩)
  · rw [offered_hostsLine]
    exact List.mem_cons_self
  · rw [labels_pixelQuery]
    decide
  · rw [labels_pixelQuery]
    decide +kernel

end Hosts

/-! ### Exceptions -/

/-- A sinkhole that carries what a fetch published serves the domains that were added. -/
theorem serves_of_published {sha256 : Bytes → Digest} {created : Bool} {granted : Nat → Bool}
    {alloc : FinishAlloc} {allow : List UInt64} {sources : List (Bytes × Response)}
    {minDomains : Nat} {art : Artifact}
    (hpub : fetchAndGenerate sha256 created granted alloc allow sources minDomains =
      some (.ok, art)) {ram : Ram} (hram : Carries ram art) :
    Serves ram (addedDomains granted allow minDomains (sourceLines sources)) := by
  have hart := fetchAndGenerate_ok hpub
  have hkept := carries_kept hart hram
  refine ⟨by rw [hkept, hram.count, hart.count], ?_, fun h => ?_⟩
  · rw [hkept]
    exact Builder.kept_ascending _
  · rw [hkept, Builder.mem_kept, (sinkLines_spec granted allow minDomains _).1]

/-- **Exactly when an exception works**: the allowed name itself is never on the list, so it
is answered unless some other domain on the list is one of its parents. -/
theorem allowed_unblocked_iff {sha256 : Bytes → Digest} {created : Bool} {granted : Nat → Bool}
    {alloc : FinishAlloc} {config : Bytes} {sources : List (Bytes × Response)} {minDomains : Nat}
    {art : Artifact} {ram : Ram} {a pkt name : Bytes} {qEnd : Nat}
    (hroom : (allowlistEntries config).length ≤ allowlistMax) (ha : a ∈ allowlistEntries config)
    (hpub : fetchAndGenerate sha256 created granted alloc (allowlistInit config) sources
      minDomains = some (.ok, art))
    (hram : Carries ram art) (hpkt : parseQuestion pkt dnsMaxName = some (name, qEnd))
    (hname : dotted (questionLabels pkt) = a)
    (hcoll : Set.InjOn Pipeline.domainHash
      ({d | d ∈ addedDomains granted (allowlistInit config) minDomains (sourceLines sources)} ∪
        parents a)) :
    isBlocked (blocklistContains true ram) name = some false ↔
      ∀ d ∈ addedDomains granted (allowlistInit config) minDomains (sourceLines sources),
        AtBoundary dot d a → d = a := by
  obtain ⟨-, rfl, -⟩ := parseQuestion_labels (by decide) hpkt
  rw [hname]
  have hcstr : cstr a = a := cstr_eq_self (allowlistEntries_valid ha).zero_not_mem
  have hnot : a ∉ addedDomains granted (allowlistInit config) minDomains (sourceLines sources) :=
    fun h => (offeredDomains_spec (addedDomains_subset h)).2
      (allowlistContains_iff.mp (allowlistContains_entry hroom ha))
  have hvalid : ∀ d ∈ addedDomains granted (allowlistInit config) minDomains
      (sourceLines sources), ValidDomain d := fun d hd =>
    (offeredDomains_spec (addedDomains_subset hd)).1
  obtain ⟨r, hr, hiff⟩ := isBlocked_served (serves_of_published hpub hram) hvalid a
    (by rw [hcstr]; exact hcoll)
  rw [hcstr] at hiff
  rw [hr, Option.some.injEq, ← Bool.not_eq_true, hiff]
  constructor
  · intro hno d hd hb
    exact absurd ⟨d, hd, hb⟩ hno
  · rintro hself ⟨d, hd, hb⟩
    exact hnot (hself d hd hb ▸ hd)

section Shop

/-- The exception `www.a.aaa`, -/
def shopConfig : Bytes := ascii "www.a.aaa"

/-- a source with the names, one a line, -/
def namesSource : List (Bytes × Response) :=
  [(ascii "http://list", .answer 200 (names.map fun d => .data (d ++ ['\n'.toUInt8])))]

/-- and a query for the exception. -/
def shopQuery : Bytes :=
  [0x12, 0x34, 1, 0, 0, 1, 0, 0, 0, 0, 0, 0] ++
    encodeLabels [ascii "www", ascii "a", ascii "aaa"] ++ [0, 0, 1, 0, 1]

theorem letter_spec : ∀ c ∈ letters, labelStart c = true ∧ labelChar c = true ∧ c ≠ dot ∧
    lower c = c := by
  decide +kernel

theorem validLabel_letters {l : Bytes} (h : ∀ c ∈ l, c ∈ letters) (hne : l ≠ [])
    (hlen : l.length ≤ 63) : ValidLabel l := by
  obtain ⟨c, rest, rfl⟩ := List.exists_cons_of_ne_nil hne
  exact ⟨⟨c, rest, rfl, (letter_spec c (h c List.mem_cons_self)).1⟩,
    fun c' hc' => (letter_spec c' (h c' hc')).2.1, hlen⟩

theorem names_valid {d : Bytes} (hd : d ∈ names) : ValidDomain d := by
  obtain ⟨x, hx, y, hy, z, hz, rfl⟩ := mem_names.mp hd
  have ha : 'a'.toUInt8 ∈ letters := List.mem_cons_self
  have hxyz : ∀ c ∈ [x, y, z], c ∈ letters := by
    intro c hc
    simp only [List.mem_cons, List.not_mem_nil, or_false] at hc
    rcases hc with rfl | rfl | rfl
    · exact hx
    · exact hy
    · exact hz
  have hno : ∀ l : Bytes, (∀ c ∈ l, c ∈ letters) → dot ∉ l := fun l hl hmem =>
    (letter_spec dot (hl dot hmem)).2.2.1 rfl
  have hsplit : ('a'.toUInt8 :: dot :: [x, y, z]).splitOn dot = [['a'.toUInt8], [x, y, z]] := by
    show (['a'.toUInt8] ++ dot :: [x, y, z]).splitOn dot = _
    rw [List.splitOn_append_cons_self_of_not_mem (hno _ (by simpa using ha)),
      List.splitOn_eq_singleton (hno _ hxyz)]
  show ValidDomain ('a'.toUInt8 :: dot :: [x, y, z])
  refine ⟨?_, by rw [hsplit]; exact Nat.le_refl 2, by simp, ?_⟩
  · rw [hsplit]
    intro l hl
    simp only [List.mem_cons, List.not_mem_nil, or_false] at hl
    rcases hl with rfl | rfl
    · exact validLabel_letters (by simpa using ha) (by simp) (by simp)
    · exact validLabel_letters hxyz (by simp) (by simp)
  · have hdot : lower dot = dot := (lower_eq_dot dot).mpr rfl
    simp only [List.map_cons, List.map_nil, hdot, (letter_spec _ ha).2.2.2,
      (letter_spec _ hx).2.2.2, (letter_spec _ hy).2.2.2, (letter_spec _ hz).2.2.2]

theorem parseLine_name {d : Bytes} (hd : d ∈ names) : parseLine d = [d] := by
  obtain ⟨x, -, y, -, z, -, hd'⟩ := mem_names.mp hd
  have hhead : d.head? = some 'a'.toUInt8 := by rw [hd']; rfl
  have hhost : isIgnoredHost d = false := by
    by_contra h
    rw [Bool.not_eq_false, isIgnoredHost, List.any_eq_true] at h
    obtain ⟨host, hhost, heq⟩ := h
    have hno : ∀ host ∈ ignoredHosts, host.head? ≠ some 'a'.toUInt8 := by decide
    exact hno host hhost (by rw [eq_of_beq heq]; exact hhead)
  have hip : domainIsIpv4Shape d = false := by
    rw [hd']
    rfl
  exact parseLine_bare (names_valid hd) hhost hip

theorem flatMap_parseLine_names : names.flatMap parseLine = names := by
  have hall : ∀ ds : List Bytes, (∀ d ∈ ds, d ∈ names) → ds.flatMap parseLine = ds := by
    intro ds
    induction ds with
    | nil => intro _; rfl
    | cons d ds ih =>
        intro h
        rw [List.flatMap_cons, parseLine_name (h d List.mem_cons_self),
          ih fun d' hd' => h d' (List.mem_cons_of_mem _ hd')]
        rfl
  exact hall names fun _ hd => hd

theorem shopConfig_entries : allowlistEntries shopConfig = [ascii "www.a.aaa"] := by decide +kernel

theorem www_mem_strangers : ascii "www.a.aaa" ∈ strangers :=
  List.mem_append_right _ List.mem_cons_self

/-- The exception stops none of the names. -/
theorem offered_names : offeredDomains (allowlistInit shopConfig) names = names := by
  unfold offeredDomains
  rw [flatMap_parseLine_names, List.filter_eq_self]
  intro d hd
  rw [Bool.not_eq_true', ← Bool.not_eq_true, allowlistContains_iff, allowlistInit_eq,
    shopConfig_entries]
  intro hmem
  have heq : Pipeline.domainHash d = Pipeline.domainHash (ascii "www.a.aaa") :=
    List.mem_singleton.mp hmem
  exact stranger_not_mem www_mem_strangers (heq ▸ List.mem_map_of_mem hd)

theorem added_names :
    addedDomains (fun _ => true) (allowlistInit shopConfig) blocklistMinDomains names = names := by
  unfold addedDomains
  have hlen := names_length
  rw [offered_names, withAnswers_granted, addAll_created _ (by omega)]

theorem sourceLines_names : sourceLines namesSource = names := by
  have hlines : ∀ l ∈ names, '\n'.toUInt8 ∉ l ∧ l.length ≤ lineMax := by
    intro l hl
    refine ⟨fun h => ?_, ?_⟩
    · exact absurd ((names_valid hl).plain _ h).1 (by decide)
    · have := (names_valid hl).length
      unfold lineMax
      omega
  have hrec : ∀ ls pre : List Bytes, ls.foldl (fun lines line => lines ++ [line]) pre =
      pre ++ ls := by
    intro ls
    induction ls with
    | nil => intro pre; simp
    | cons l ls ih => intro pre; rw [List.foldl_cons, ih]; simp
  unfold sourceLines namesSource
  rw [fetchSources, if_neg (by decide), fetchSources, fetchOneSource, if_neg (by decide),
    scanReads_lines names [] hlines, hrec]
  rfl

theorem fetch_names (sha256 : Bytes → Digest) : ∃ art,
    fetchAndGenerate sha256 true (fun _ => true) ⟨some fun _ => 0, true⟩ (allowlistInit shopConfig)
      namesSource blocklistMinDomains = some (.ok, art) := by
  obtain ⟨art, left, hart, -⟩ := names_published sha256
  refine ⟨art, ?_⟩
  have hsink : fetchSources (sinkLine (fun _ => true) (allowlistInit shopConfig)) namesSource
      (⟨blocklistBuilderCreate blocklistMinDomains, 0⟩ : SinkCtx) =
      sinkLines (fun _ => true) (allowlistInit shopConfig) blocklistMinDomains
        (sourceLines namesSource) :=
    fetchSources_eq namesSource (⟨blocklistBuilderCreate blocklistMinDomains, 0⟩ : SinkCtx) []
  unfold fetchAndGenerate
  rw [if_neg (by decide)]
  simp only [hsink, sinkLines_builder, sourceLines_names, offered_names, withAnswers_granted]
  exact congrArg (Option.map blocklistBuilderDestroy) hart

theorem dotted_shop :
    dotted [ascii "www", ascii "a", ascii "aaa"] = ascii "www.a.aaa" := by decide

theorem labels_shopQuery : questionLabels shopQuery = [ascii "www", ascii "a", ascii "aaa"] ∧
    parseQuestion shopQuery dnsMaxName = some (ascii "www.a.aaa", 27) := by
  decide +kernel

theorem parent_mem_names : ascii "a.aaa" ∈ names :=
  mem_names.mpr ⟨'a'.toUInt8, by decide, 'a'.toUInt8, by decide, 'a'.toUInt8, by decide, rfl⟩

/-- What a lookup of the exception asks about. -/
theorem parents_shop {d : Bytes} (hd : d ∈ parents (ascii "www.a.aaa")) :
    d ∈ names ∨ d ∈ [ascii "www.a.aaa", ascii "aaa"] := by
  rw [← dotted_shop] at hd
  obtain ⟨k, hk, rfl⟩ := (mem_parents (by decide) (fun h => by cases h)).mp hd
  match k, hk with
  | 0, _ =>
      rw [List.drop_zero, dotted_shop]
      exact Or.inr List.mem_cons_self
  | 1, _ => exact Or.inl parent_mem_names
  | 2, _ => exact Or.inr (List.mem_cons_of_mem _ List.mem_cons_self)

theorem injOn_shop : Set.InjOn Pipeline.domainHash
    ({d | d ∈ names} ∪ parents (ascii "www.a.aaa")) := by
  have hall : ((names ++ [ascii "www.a.aaa", ascii "aaa"]).map Pipeline.domainHash).Nodup := by
    rw [List.map_append]
    refine List.nodup_append.mpr ⟨names_nodup, by decide +kernel, ?_⟩
    rintro h hh h' hh' rfl
    obtain ⟨o, ho, rfl⟩ := List.mem_map.mp hh'
    exact stranger_not_mem (List.mem_append_right _ ho) hh
  refine (injOn_of_nodup hall).mono ?_
  rintro d (hd | hd)
  · exact List.mem_append_left _ hd
  · exact List.mem_append.mpr (parents_shop hd)

/-- **An exception that does not help**: its parent is on the list. -/
theorem allowed_blocked : ∃ art ram,
    fetchAndGenerate Sha256.sha256 true (fun _ => true) ⟨some fun _ => 0, true⟩
      (allowlistInit shopConfig) namesSource blocklistMinDomains = some (.ok, art) ∧
    Carries ram art ∧ (allowlistEntries shopConfig).length ≤ allowlistMax ∧
    ascii "www.a.aaa" ∈ allowlistEntries shopConfig ∧
    parseQuestion shopQuery dnsMaxName = some (ascii "www.a.aaa", 27) ∧
    Set.InjOn Pipeline.domainHash ({d | d ∈ addedDomains (fun _ => true)
      (allowlistInit shopConfig) blocklistMinDomains (sourceLines namesSource)} ∪
        parents (ascii "www.a.aaa")) ∧
    isBlocked (blocklistContains true ram) (ascii "www.a.aaa") = some true := by
  obtain ⟨art, hart⟩ := fetch_names Sha256.sha256
  let ram : Ram := ⟨Words.words art.bytes, art.count, 0, []⟩
  have hram : Carries ram art := ⟨rfl, rfl⟩
  have hserves := serves_of_published hart hram
  rw [sourceLines_names, added_names] at hserves
  obtain ⟨r, hr, hiff⟩ := isBlocked_served hserves (fun d hd => names_valid hd)
    (ascii "www.a.aaa") injOn_shop
  refine ⟨art, ram, hart, hram, by rw [shopConfig_entries]; decide,
    by rw [shopConfig_entries]; exact List.mem_cons_self, labels_shopQuery.2, ?_, ?_⟩
  · rw [sourceLines_names, added_names]
    exact injOn_shop
  · rw [hr]
    exact congrArg some (hiff.mpr ⟨ascii "a.aaa", parent_mem_names, Or.inr ⟨ascii "www", rfl⟩⟩)

theorem shop_unblocked_iff : ∃ art ram,
    fetchAndGenerate Sha256.sha256 true (fun _ => true) ⟨some fun _ => 0, true⟩
      (allowlistInit shopConfig) namesSource blocklistMinDomains = some (.ok, art) ∧
    Carries ram art ∧
    (isBlocked (blocklistContains true ram) (ascii "www.a.aaa") = some false ↔
      ∀ d ∈ names, AtBoundary dot d (ascii "www.a.aaa") → d = ascii "www.a.aaa") := by
  obtain ⟨art, hart⟩ := fetch_names Sha256.sha256
  let ram : Ram := ⟨Words.words art.bytes, art.count, 0, []⟩
  have hram : Carries ram art := ⟨rfl, rfl⟩
  have hiff := allowed_unblocked_iff (by rw [shopConfig_entries]; decide)
    (by rw [shopConfig_entries]; exact List.mem_cons_self) hart hram labels_shopQuery.2
    (by rw [labels_shopQuery.1]; exact dotted_shop)
    (by rw [sourceLines_names, added_names]; exact injOn_shop)
  rw [sourceLines_names, added_names] at hiff
  exact ⟨art, ram, hart, hram, hiff⟩

end Shop

end EspHole.System
