/-
One update is enough.

However a deployment has run until now, torn writes and all, a sinkhole that is idle needs
one update in which no call fails and both answers arrive: it then serves what the generator
publishes, and goes on serving it after a reboot (`deployed_recovers`).  Nothing is asked of
what the sinkhole has on record, of its flash, or of how the answers are cut up on their way.
But it must not go by the version that is published, for then it does not ask for the blob;
and a sinkhole whose label was torn from its list may go by it wrongly.

`deployed_decides` is what a client sees of a deployment: each decision is by the list of one
cycle of the generator.
-/
import EspHole.Sinkhole.Swap
import EspHole.System.Deployment
import EspHole.System.Poll

namespace EspHole.System

open Ascii Ascending Dotted Generator Json Machine Pipeline Sinkhole
open Generator.Main (Kconfig Meeting added wildGenerator)
open Generator.Store (Encodes)

section Recovery

variable {sha256 : Bytes → Digest} {route : Bytes → Option Route} {k : Kconfig}
  {cjsonPrint : Json → Option Bytes} {cjsonParse : Bytes → Option Json} {manifestUrl : Bytes}

/-- What is still to arrive of an answer that is whole. -/
theorem arriving_eq {room : Nat} {chunks inbox rest : List Bytes}
    (h : Arriving room chunks inbox rest) : arriving inbox = chunks.flatten := by
  have hne : ∀ c ∈ chunks, c ≠ [] := fun c hc => (h.fit c hc).1
  rcases h.queued with rfl | ⟨rfl, -⟩
  · exact arriving_append hne rest
  · unfold arriving
    rw [List.takeWhile_eq_self_iff.mpr (by simpa using hne)]

/-- What a device does that keeps its flash, one that may not does too. -/
theorem sinkholeStep_of_nodeStep {server : HttpServer} {n n' : Node} {o : Op} {r : Res o}
    (h : NodeStep sha256 route server n o r n') : SinkholeStep sha256 route server n o r n' := by
  have hstill : ∀ {w w' : World}, w.Still False w' → w.Still True w' := fun h =>
    ⟨h.nvs, h.ram, h.log, h.hashed, fun hno => absurd trivial hno⟩
  have htouches : ∀ {slot : Int} {lo hi : Nat} {w w' : World}, w.Touches False slot lo hi w' →
      w.Touches True slot lo hi w' := fun h =>
    ⟨h.nvs, h.ram, h.log, h.hashed, fun hno => absurd trivial hno⟩
  refine ⟨?_, h.wire, h.after⟩
  have hanswers := h.answers
  cases o with
  | nvsGet key => exact ⟨hstill hanswers.1, hanswers.2⟩
  | nvsSet key v => exact hanswers.imp hstill fun h => ⟨h.1, hstill h.2⟩
  | heapCapsMalloc bytes => exact ⟨hstill hanswers.1, hanswers.2⟩
  | partitionRead slot bytes =>
      refine ⟨hstill hanswers.1, hanswers.2.imp_left ?_⟩
      rintro ⟨buf, hr, hlen, -⟩
      exact ⟨buf, hr, hlen, fun hno => absurd trivial hno⟩
  | partitionErase slot bytes =>
      exact ⟨htouches hanswers.1, fun _ hno => absurd trivial hno⟩
  | partitionWrite slot off data =>
      exact ⟨htouches hanswers.1, fun _ hno => absurd trivial hno⟩
  | hashCompute data => exact ⟨hstill hanswers.1, hanswers.2⟩
  | httpRead room => exact ⟨hstill hanswers.1, hanswers.2⟩
  | getRam => exact ⟨hstill hanswers.1, hanswers.2⟩
  | announce m => exact ⟨hstill hanswers.1, hanswers.2⟩
  | fault => exact hanswers.elim
  | _ => exact hstill hanswers

/-- A run of the device is one of the sinkhole, while the generator stays where it is. -/
theorem member_run {g : Shared} {p : Published} {x : Route} {url : Bytes} {inbox : List Bytes}
    {writes : Node → Prop} {swaps : Node → Ram → Prop} (hx : route url = some x)
    (hp : g.state.http.current = some p) (hbody : arriving inbox <+: x.body p) (ph : Phase)
    {α : Type} {prog : Code α} {Q : α → Node → Prop} {n : Node} {a : α} {w : World}
    (hsafe : prog.Safe (Meets sha256 route (· = g.state.http))
      (Requesting route (· = g.state.http) url inbox writes swaps) Q n)
    (hrun : prog.run (handle sha256 noFailure) n.world = some (a, w)) :
    ∃ n', n'.world = w ∧ Q a n' ∧ ∀ f : α → Code Unit,
      Reach ((deployment sha256 route k cjsonPrint cjsonParse manifestUrl).machine (· = g))
        ⟨ph, n, prog >>= f⟩ ⟨ph, n', f a⟩ := by
  obtain ⟨n', hrun', hw⟩ := run_nodeHandle route g.state.http prog hrun
  have hlegal : ∀ n o r n', Requesting route (· = g.state.http) url inbox writes swaps n o →
      nodeHandle sha256 route g.state.http o n = some (r, n') →
        NodeStep sha256 route g.state.http n o r n' := fun n o r n' hg h =>
    nodeHandle_step hx hp hbody hg h
  have hgraph : prog.Safe (fun n o r n' => nodeHandle sha256 route g.state.http o n = some (r, n'))
      (Requesting route (· = g.state.http) url inbox writes swaps) Q n :=
    hsafe.guarded fun n o r n' hg h => ⟨_, rfl, hlegal n o r n' hg h⟩
  refine ⟨n', hw, hgraph.run (fun _ _ _ _ h => h) hrun', fun f => ?_⟩
  exact reach_of_run (m := (deployment sha256 route k cjsonPrint cjsonParse
    manifestUrl).machine (· = g)) (fun _ _ _ _ h => h)
    (fun n o r n' hg h => ⟨g, rfl, sinkholeStep_of_nodeStep (hlegal n o r n' hg h)⟩) hgraph hrun'

/-- What an accepted manifest sets off makes one request, for its blob. -/
theorem applyManifest_requests {K : HttpServer → Prop} (m : Manifest) (n : Node) :
    (applyManifest m).Safe (Meets sha256 route K)
      (Requesting route K m.url n.world.inbox (fun _ => True) fun _ _ => True)
      (fun _ _ => True) n := by
  unfold applyManifest
  refine Prog.safe_call_bind.mpr ⟨trivial, fun (ram : Ram) n₁ h₁ => ?_⟩
  have hq₁ := h₁.quiet rfl
  show Prog.Safe _ _ _ (if _ then _ else _) n₁
  by_cases hsame : blocklistActiveVersion ram = m.version
  · rw [if_pos hsame]
    trivial
  rw [if_neg hsame]
  refine Prog.safe_call_bind.mpr ⟨trivial, fun _ n₂ h₂ => ?_⟩
  have hq₂ := hq₁.trans (h₂.quiet rfl)
  have hdown : (downloadToSlot m (blocklistInactiveSlot ram)).Safe (Meets sha256 route K)
      (Requesting route K m.url n₂.world.inbox (fun _ => True) fun _ _ => True) _ n₂ :=
    downloadToSlot_fetches m _ n₂
  rw [hq₂.inbox] at hdown
  refine Prog.safe_bind.mpr (hdown.post fun e n₃ _ => ?_)
  show Prog.Safe _ _ _ (if _ then _ else _) n₃
  by_cases he : e = .ok
  · rw [if_pos he]
    exact Prog.safe_bind.mpr ((blocklistCommitSlot_installs _ m.count m.sha256 m.version n₃).mono
      (Requesting.mono (fun _ _ => trivial) fun _ _ _ => trivial) fun _ _ _ => trivial)
  · rw [if_neg he]
    trivial

/-- Committing a list whose blob is in the slot serves it, and so does any boot after. -/
theorem commit_encoded {ws : List UInt64} {art : Artifact} (henc : Encodes sha256 ws art)
    (hfloor : blocklistMinDomains ≤ art.count) (hfits : art.blobLen ≤ slotSize) {version : Bytes}
    (hversion : version.length < blocklistVersionMax) {s : World} {slot : Int}
    (hslot : IsSlot slot) (hact : slot ≠ s.ram.active)
    (hbytes : s.slotBytes slot art.bytes.length = art.bytes) {s' : World}
    (hs' : s' = s.commitDone noFailure slot art.count art.sha256 version) :
    (blocklistCommitSlot slot art.count art.sha256 version).run (handle sha256 noFailure) s =
        some (.ok, s') ∧
      Carries s'.ram art ∧ s'.ram.version = version ∧ BootsTo sha256 s' s'.ram := by
  subst hs'
  have hcount := henc.count
  have hlen : art.bytes.length = 8 * ws.length := by rw [henc.bytes_length, henc.blobLen]
  have hfits' : 8 * ws.length ≤ slotSize := henc.blobLen ▸ hfits
  have hn : sizeT art.count = art.count := sizeT_of_lt (by unfold slotSize at hfits'; omega)
  have hl : CommitLoads sha256 noFailure s slot art.count art.sha256 version := by
    rw [hcount]
    refine commitLoads_encoded hslot hact henc.ascending ?_ ?_ (by omega) hfits' fun _ _ => rfl
    · rw [← hlen, hbytes, henc.bytes]
    · rw [henc.digest, henc.bytes]
  have hactive : (s.commitDone noFailure slot art.count art.sha256 version).nvs .active =
      some (activeRecord slot) := commitDone_active
  have hread : readBackVersion noFailure (s.record slot art.count art.sha256 version) slot =
      version := (readBackVersion_record s art.count art.sha256).mpr (Or.inr ⟨hversion, rfl⟩)
  refine ⟨commit_run_loads hl, ⟨?_, ?_⟩, ?_, commitDone_boots hl hactive (Or.inr ⟨hversion, rfl⟩)⟩
  · rw [commitDone_ram, hn, hcount, ← hlen, hbytes]
  · rw [commitDone_ram, hn]
  · rw [commitDone_ram, hread]

/-- A published artifact that a sinkhole can take in: its manifest can be read, and its blob
has room in a slot. -/
structure Takeable (cjsonParse : Bytes → Option Json) (p : Published) : Prop where
  reads : parseManifest cjsonParse p.manifestJson = some p.manifest
  nonempty : p.manifestJson ≠ []
  room : p.manifestJson.length < manifestRoom
  fits : p.art.blobLen ≤ slotSize

/-- The two answers on their way, cut up in any manner. -/
structure OnTheirWay (p : Published) (inbox rest : List Bytes) : Prop where
  answers : ∃ n text between chunks, Arriving n text inbox between ∧
    text.flatten = p.manifestJson ∧ Arriving chunkSize chunks between rest ∧
    chunks.flatten = p.art.bytes

/-- The device after it has taken in a published list. -/
def updated (s : World) (p : Published) (rest : List Bytes) : World :=
  (s.fetched p.manifest p.art.bytes rest).commitDone noFailure (blocklistInactiveSlot s.ram)
    p.art.count p.art.sha256 p.manifest.version

/-- A call of a sinkhole that does not fail, and that is brought what is on its way. -/
structure Smooth (sha256 : Bytes → Digest) (route : Bytes → Option Route) (server : HttpServer)
    (n : Node) (o : Op) (r : Res o) (n' : Node) : Prop where
  step : SinkholeStep sha256 route server n o r n'
  answered : handle sha256 noFailure o n.world = some (r, n'.world)

/-- A sinkhole that serves this artifact under its own version, and would after a reboot. -/
structure UpToDate (sha256 : Bytes → Digest) (p : Published) (w : World) : Prop where
  carries : Carries w.ram p.art
  version : w.ram.version = p.manifest.version
  boots : BootsTo sha256 w w.ram

section Update

variable {g : Shared} {p : Published} {ws : List UInt64} {n : Node} {rest : List Bytes}
  (hmade : p.Made sha256) (henc : Encodes sha256 ws p.art) (htake : Takeable cjsonParse p)
  (hnew : blocklistActiveVersion n.world.ram ≠ p.manifest.version)
  (hway : OnTheirWay p n.world.inbox rest)

include hmade henc htake hnew hway

/-- **One update** in which nothing fails, whatever state the sinkhole is in. -/
theorem update_run (manifestUrl : Bytes) :
    (checkOnce cjsonParse manifestUrl).run (handle sha256 noFailure) n.world =
      some ((), updated n.world p rest) := by
  obtain ⟨room, text, between, chunks, htext, hmtext, hchunks, hblob⟩ := hway.answers
  have haccepted := parseManifest_accepted htake.reads
  have hplain : cstr text.flatten = p.manifestJson := by
    rw [hmtext, cstr_eq_self hmade.plain]
  have hdigest : sha256 chunks.flatten = p.manifest.sha256 := by
    rw [hblob, ← hmade.genuine.digest]
    rfl
  have hsize : chunks.flatten.length = p.manifest.size := by
    rw [hblob, henc.bytes_length]
    rfl
  obtain ⟨hslot, hact⟩ := blocklistInactiveSlot_spec n.world.ram
  obtain ⟨hcommit, -⟩ := commit_encoded henc haccepted.floor htake.fits haccepted.version
    (s := n.world.fetched p.manifest p.art.bytes rest) hslot hact
    (slotBytes_fetched n.world p.manifest p.art.bytes rest) rfl
  rw [checkOnce_run noFailure_delivers manifestUrl htext (hmtext ▸ htake.room)
    (by rw [hplain]; exact htake.reads) (hmtext ▸ htake.nonempty) hnew htake.fits hchunks hsize
    hdigest, hblob]
  show Option.bind ((blocklistCommitSlot _ p.art.count p.art.sha256 _).run _ _) _ = _
  rw [hcommit]
  rfl

/-- Every execution of it ends so. -/
theorem update_smooth (manifestUrl : Bytes) :
    (checkOnce cjsonParse manifestUrl).Safe (Smooth sha256 route g.state.http)
      (fun _ o => o ≠ .fault) (fun _ n' => n'.world = updated n.world p rest) n := by
  have hrun := update_run hmade henc htake hnew hway manifestUrl
  have hsmooth := (Prog.Safe.of_run_ne_none (by rw [hrun]; exact Option.some_ne_none _)).of_run hrun
  refine (hsmooth.comap (f := Node.world) fun _ _ _ _ h => h.answered).mono ?_
    fun _ _ h => h.2.1
  rintro n' o hcall rfl
  exact hcall rfl

/-- It is a run of the sinkhole, while the generator stays where it is. -/
theorem update_reach (hp : g.state.http.current = some p)
    (hmanifest : route manifestUrl = some .manifest)
    (hblocklist : route p.manifest.url = some .blocklist) :
    ∃ n', n'.world = updated n.world p rest ∧
      Reach ((deployment sha256 route k cjsonPrint cjsonParse manifestUrl).machine (· = g))
        ⟨.job, n, checkOnce cjsonParse manifestUrl⟩ ⟨.job, n', .pure ()⟩ := by
  have hupdate := update_run hmade henc htake hnew hway manifestUrl
  obtain ⟨room, text, between, chunks, htext, hmtext, hchunks, hblob⟩ := hway.answers
  have hplain : cstr text.flatten = p.manifestJson := by
    rw [hmtext, cstr_eq_self hmade.plain]
  have hroom : text.flatten.length < manifestRoom := hmtext ▸ htake.room
  have hfetch : (fetchManifest manifestUrl).run (handle sha256 noFailure) n.world =
      some (some text.flatten, n.world.await between) :=
    fetchManifest_run noFailure_delivers manifestUrl htext hroom
  have honly : Short.onManifest cjsonParse (some text.flatten) = applyManifest p.manifest :=
    Short.onManifest_some (hmtext ▸ htake.nonempty) (by rw [hplain]; exact htake.reads)
  -- What is left of the update once the manifest is there.
  have happly : (applyManifest p.manifest).run (handle sha256 noFailure)
      (n.world.await between) = some ((), updated n.world p rest) := by
    rwa [show checkOnce cjsonParse manifestUrl =
      fetchManifest manifestUrl >>= Short.onManifest cjsonParse from rfl, Prog.run_bind, hfetch,
      Option.bind_some, honly] at hupdate
  have hsafe : (fetchManifest manifestUrl).Safe (Meets sha256 route (· = g.state.http))
      (Requesting route (· = g.state.http) manifestUrl n.world.inbox (fun _ => True)
        fun _ _ => True) _ n := fetchManifest_reads manifestUrl n
  obtain ⟨n₁, hworld₁, -, hreach₁⟩ := member_run hmanifest hp
    (by rw [arriving_eq htext, hmtext]; exact List.prefix_refl _) _ hsafe hfetch
  rw [← hworld₁] at happly
  have harriving : arriving n₁.world.inbox <+: p.art.bytes := by
    rw [hworld₁]
    show arriving between <+: _
    rw [arriving_eq hchunks, hblob]
  obtain ⟨n₂, hworld₂, -, hreach₂⟩ := member_run hblocklist hp harriving _
    (applyManifest_requests p.manifest n₁) happly
  refine ⟨n₂, hworld₂, ?_⟩
  have hfirst := hreach₁ (Short.onManifest cjsonParse)
  have hsecond := hreach₂ Pure.pure
  rw [Prog.bind_pure] at hsecond
  rw [honly] at hfirst
  exact hfirst.trans hsecond

end Update

/-- It serves what was published. -/
theorem updated_upToDate {p : Published} {ws : List UInt64} (henc : Encodes sha256 ws p.art)
    (htake : Takeable cjsonParse p) (s : World) (rest : List Bytes) :
    UpToDate sha256 p (updated s p rest) := by
  have haccepted := parseManifest_accepted htake.reads
  obtain ⟨hslot, hact⟩ := blocklistInactiveSlot_spec s.ram
  obtain ⟨-, hcarries, hversion, hboots⟩ := commit_encoded henc haccepted.floor htake.fits
    haccepted.version (s := s.fetched p.manifest p.art.bytes rest) hslot hact
    (slotBytes_fetched s p.manifest p.art.bytes rest) rfl
  exact ⟨hcarries, hversion, hboots⟩

variable {ι : Type} [DecidableEq ι] {c₀ c : Cluster.Config Op Res Node Shared ι}

/-- **One sinkhole recovers**, whatever has become of it until now. -/
theorem deployed_recovers
    (h₀ : Deployed (deployment sha256 route k cjsonPrint cjsonParse manifestUrl)
      (wildGenerator sha256 k cjsonPrint) c₀)
    (hr : Cluster.Runs (deployment sha256 route k cjsonPrint cjsonParse manifestUrl) c₀ c)
    {p : Published} (hp : c.shared.state.http.current = some p) (htake : Takeable cjsonParse p)
    (hmanifest : route manifestUrl = some .manifest)
    (hblocklist : route p.manifest.url = some .blocklist) {i : ι}
    (hidle : (c.member i).prog = .pure ())
    (hnew : blocklistActiveVersion (c.member i).state.world.ram ≠ p.manifest.version)
    {rest : List Bytes} (hway : OnTheirWay p (c.member i).state.world.inbox rest) :
    (checkOnce cjsonParse manifestUrl).Safe (Smooth sha256 route c.shared.state.http)
      (fun _ o => o ≠ .fault) (fun _ n => UpToDate sha256 p n.world) (c.member i).state ∧
    ∃ x, x.state.world = updated (c.member i).state.world p rest ∧ x.prog = .pure () ∧
      UpToDate sha256 p x.state.world ∧
      Cluster.Runs (deployment sha256 route k cjsonPrint cjsonParse manifestUrl) c (c.set i x) := by
  obtain ⟨hmade, htraced⟩ := (Main.reach_sound h₀.generator h₀.unpublished
    (Cluster.reach_shared hr)).served p (c.shared.state.http.current_mem p hp)
  obtain ⟨ws, henc⟩ := htraced.encodes
  have hdone := updated_upToDate henc htake (c.member i).state.world rest
  obtain ⟨n, hworld, hreach⟩ := update_reach (g := c.shared) (k := k) (n := (c.member i).state)
    hmade henc htake hnew hway hp hmanifest hblocklist
  refine ⟨(update_smooth hmade henc htake hnew hway manifestUrl).post fun _ n' hn => ?_,
    ⟨.job, n, .pure ()⟩, hworld, rfl, ?_, ?_⟩
  · rw [hn]
    exact hdone
  · rw [hworld]
    exact hdone
  · have hmember : c.member i = ⟨(c.member i).phase, (c.member i).state, .pure ()⟩ := by
      rw [← hidle]
    have hwhole : Reach ((deployment sha256 route k cjsonPrint cjsonParse manifestUrl).machine
        (· = c.shared)) (c.member i) ⟨.job, n, .pure ()⟩ := by
      rw [hmember]
      exact .head .next hreach
    have hruns := Cluster.reach_alone (i := i) hwhole
    rwa [Cluster.Config.set_self] at hruns

end Recovery

/-! ### A deployment to look at -/

/-- The names, again, from one source. -/
def namesConfig : Kconfig :=
  ⟨[ascii "http://list"], blocklistMinDomains, 80, ascii "http://g", shopConfig⟩

/-- It answers with all of them. -/
def namesMeeting : Meeting :=
  ⟨true, fun _ => true, ⟨some fun _ => 0, true⟩,
    fun _ => .answer 200 (names.map fun d => .data (d ++ ['\n'.toUInt8]))⟩

def namesUrl : Bytes := ascii "http://g/blocklist.bin"

/-- Where the two URLs lead. -/
def namesRoute (url : Bytes) : Option Route :=
  if url = namesUrl then some .blocklist
  else if url = ascii "http://g/manifest.json" then some .manifest
  else none

section Names

variable {sha256 : Bytes → Digest} {art : Artifact}

theorem generate_names (sha256 : Bytes → Digest) : ∃ art,
    Main.generate sha256 namesConfig namesMeeting = some (.ok, art) ∧
      art.count = names.length ∧ art.blobLen = 8 * names.length := by
  obtain ⟨art, left, hfinish, hcount, hsize⟩ := names_published sha256
  refine ⟨art, ?_, hcount, hsize⟩
  have hsources : namesMeeting.sources namesConfig = namesSource := rfl
  unfold Main.generate
  rw [fetchAndGenerate_eq, if_neg (show ¬ (!namesMeeting.created) = true from Bool.false_ne_true),
    hsources, sinkLines_builder, sourceLines_names]
  show (blocklistBuilderFinish _ _ (addAll _ (withAnswers (fun _ => true) 0 (offeredDomains
    (allowlistInit shopConfig) names))).2).map _ = _
  rw [offered_names, withAnswers_granted]
  exact congrArg (Option.map blocklistBuilderDestroy) hfinish

theorem added_names_cycle : Main.added namesConfig namesMeeting = names := by
  have hsources : namesMeeting.sources namesConfig = namesSource := rfl
  unfold Main.added
  rw [hsources, sourceLines_names]
  exact added_names

/-- What the generator publishes of them. -/
abbrev namesPublished (art : Artifact) : Published :=
  Main.wholly art (buildVersion art.sha256) namesUrl

theorem names_prints : Prints 10648 ∧ Prints (8 * 10648) :=
  ⟨⟨by decide +kernel, by decide +kernel⟩, ⟨by decide +kernel, by decide +kernel⟩⟩

theorem namesUrl_plain : 0 ∉ namesUrl ∧ namesUrl.length = 22 := by decide +kernel

/-- A sinkhole can take it in. -/
theorem names_takeable (hcount : art.count = names.length)
    (hsize : art.blobLen = 8 * names.length) :
    Takeable (reads (namesPublished art).root) (namesPublished art) := by
  rw [names_length] at hcount hsize
  have hlen := buildVersion_length art.sha256
  have hversion0 : 0 ∉ buildVersion art.sha256 := zero_not_mem_hex _
  have hversion : strlcpy (buildVersion art.sha256) blocklistVersionMax =
      buildVersion art.sha256 := strlcpy_eq hversion0 (by rw [hlen]; decide)
  have hurl : strlcpy namesUrl 256 = namesUrl :=
    strlcpy_eq namesUrl_plain.1 (by rw [namesUrl_plain.2]; decide)
  have htext : (namesPublished art).manifestJson =
      manifestText art (buildVersion art.sha256) namesUrl := by
    show cstr (print (manifestTree art (buildVersion art.sha256) namesUrl)) = _
    rw [print_manifestTree, cstr_manifestText _ _ hversion0 namesUrl_plain.1]
    · rw [hsize]
      exact names_prints.2.1
    · rw [hcount]
      exact names_prints.1.1
  have hbound : (manifestText art (buildVersion art.sha256) namesUrl).length ≤ 185 := by
    have h1 := names_prints.1.2
    have h2 := names_prints.2.2
    rw [manifestText_length, hcount, hsize, hlen, namesUrl_plain.2]
    omega
  refine ⟨?_, ?_, ?_, by rw [show (namesPublished art).art = art from rfl, hsize]; decide⟩
  · have hreads : reads (namesPublished art).root (namesPublished art).manifestJson =
        some (manifestTree art (buildVersion art.sha256) namesUrl) := by
      rw [htext, ← print_manifestTree]
      exact reads_print _
    have hwraps : sizeT (art.count * 8) = 8 * 10648 := by rw [hcount]; rfl
    rw [parseManifest_eq hreads, readManifest_manifestTree (by rw [hsize, hwraps])
      (by rw [hcount]; decide) (by rw [hcount]; decide) (by rw [hlen]; decide) hversion0
      (by rw [namesUrl_plain.2]; decide) namesUrl_plain.1]
    show _ = some (⟨strlcpy (buildVersion art.sha256) blocklistVersionMax, strlcpy namesUrl 256,
      art.blobLen, art.count, art.sha256⟩ : Manifest)
    rw [hversion, hurl]
  · rw [htext]
    refine List.ne_nil_of_length_pos ?_
    rw [manifestText_length]
    omega
  · rw [htext]
    unfold manifestRoom
    omega

variable (sha256 art)

/-- The generator, -/
abbrev namesGenerator : Machine Main.Op Main.Res Main.State :=
  wildGenerator sha256 namesConfig fun root => some (print root)

/-- and the sinkholes. -/
abbrev namesCluster : Cluster Op Res Node Shared :=
  deployment sha256 namesRoute namesConfig (fun root => some (print root))
    (reads (namesPublished art).root) (ascii "http://g/manifest.json")

/-- A new sinkhole, with the answers to its first update on their way. -/
def namesNode : Node :=
  ⟨World.blank.await ((namesPublished art).manifestJson :: [] ::
    (wordChunks (Words.words art.bytes) ++ [[]])), [], fun _ => none, []⟩

/-- Both of them new. -/
def namesStart : Cluster.Config Op Res Node Shared Unit :=
  ⟨⟨.boot, ⟨Store.blank, HttpServer.init, []⟩, Main.appMain sha256 namesConfig⟩,
    fun _ => ⟨.boot, namesNode art, (namesCluster sha256 art).boot⟩⟩

variable {sha256 art}

theorem names_deployed :
    Deployed (namesCluster sha256 art) (namesGenerator sha256) (namesStart sha256 art) :=
  ⟨⟨rfl, rfl, rfl⟩, fun _ => rfl, fun _ => rfl, fun _ => rfl, fun _ => rfl, fun _ _ => rfl⟩

theorem names_onTheirWay {ws : List UInt64} (henc : Encodes sha256 ws art)
    (htake : Takeable (reads (namesPublished art).root) (namesPublished art)) :
    OnTheirWay (namesPublished art) (namesNode art).world.inbox [] := by
  have hwords : Words.words art.bytes = ws := by rw [henc.bytes, Words.words_encode]
  refine ⟨_, [(namesPublished art).manifestJson], _, wordChunks (Words.words art.bytes),
    arriving_one htake.nonempty _, List.flatten_singleton, arriving_words _ [], ?_⟩
  rw [flatten_wordChunks, hwords]
  exact henc.bytes.symm

/-- A boot asks nothing of the network. -/
theorem blocklistInit_offNet : blocklistInit.Only fun o => o.onNet = false := by
  have hload : ∀ slot, (loadSlot slot).Only fun o => o.onNet = false :=
    loadSlot_only fun _ => Op.offNet_of_loads
  have hfallback : ∀ active slots, (tryFallback active slots).Only fun o => o.onNet = false := by
    intro active slots
    induction slots with
    | nil => trivial
    | cons slot rest ih =>
        refine Prog.only_ite.mpr ⟨fun _ => ih, fun _ => (hload slot).bind fun e => ?_⟩
        exact Prog.only_ite.mpr ⟨fun _ => ⟨rfl, fun _ => ⟨rfl, fun _ => trivial⟩⟩, fun _ => ih⟩
  unfold blocklistInit
  refine Prog.only_call_bind.mpr ⟨rfl, fun r => ?_⟩
  refine Prog.Only.bind
    (Prog.only_ite.mpr ⟨fun _ => hload _, fun _ => (Prog.only_pure _).mpr trivial⟩) fun e => ?_
  exact Prog.only_ite.mpr ⟨fun _ => trivial, fun _ => hfallback _ _⟩

/-- The generator boots and goes round once, and the sinkhole boots. -/
theorem names_ready (hgen : Main.generate sha256 namesConfig namesMeeting = some (.ok, art))
    (hfits : art.blobLen ≤ Store.slotSize) : ∃ c, Cluster.Runs (namesCluster sha256 art)
      (namesStart sha256 art) c ∧
    c.shared.state.http = HttpServer.init.swap (namesPublished art) ∧
    c.shared.state.cycles = [namesMeeting] ∧ (c.member ()).prog = .pure () ∧
    (c.member ()).state.world = (namesNode art).world := by
  obtain ⟨s, url, hreach, hcycles, hhttp, hbase⟩ := Main.first_cycle hgen hfits
  obtain rfl : url = namesUrl := by
    rw [hbase (by decide)]
    decide +kernel
  have hp : s.http.current = some (namesPublished art) := by
    rw [hhttp]
    rfl
  have hboot : blocklistInit.run (handle sha256 noFailure) (namesNode art).world =
      some (.fail, (namesNode art).world) := boot_run_empty rfl rfl rfl
  have hquiet : blocklistInit.Safe (Meets sha256 namesRoute (· = s.http))
      (Requesting namesRoute (· = s.http) namesUrl [] (fun _ => True) fun _ _ => True)
      (fun _ _ => True) (namesNode art) := by
    refine blocklistInit_offNet.safe.mono (fun n o h => ?_) fun _ _ _ => trivial
    cases o with
    | httpOpen => cases h
    | httpStatus => cases h
    | _ => trivial
  obtain ⟨n, hworld, -, hrun⟩ := member_run (g := ⟨.job, s, .pure ()⟩)
    (show namesRoute namesUrl = some .blocklist from if_pos rfl) hp
    (show arriving [] <+: _ from List.nil_prefix) .boot hquiet hboot
  let c₁ : Cluster.Config Op Res Node Shared Unit :=
    { namesStart sha256 art with shared := ⟨.job, s, .pure ()⟩ }
  have hfirst : Cluster.Runs (namesCluster sha256 art) (namesStart sha256 art) c₁ :=
    Cluster.reach_env hreach
  have hsecond : Cluster.Runs (namesCluster sha256 art) c₁ (c₁.set () ⟨.boot, n, .pure ()⟩) := by
    have hruns := Cluster.reach_alone (m := namesCluster sha256 art) (c := c₁) (i := ())
      (hrun fun _ => .pure ())
    have hself : c₁.set () ⟨.boot, namesNode art, blocklistInit >>= fun _ => .pure ()⟩ = c₁ :=
      Cluster.Config.set_self c₁ ()
    rwa [hself] at hruns
  refine ⟨_, hfirst.trans hsecond, hhttp, hcycles, ?_, ?_⟩
  · rw [Cluster.Config.set_same]
  · rw [Cluster.Config.set_same]
    exact hworld

theorem generated_encodes (hgen : Main.generate sha256 namesConfig namesMeeting = some (.ok, art)) :
    ∃ ws, Encodes sha256 ws art := by
  obtain ⟨r, hr, hmade⟩ := Main.generate_made sha256 namesConfig namesMeeting
  obtain rfl := Option.some.inj (hgen.symm.trans hr)
  obtain ⟨⟨ws, henc, -⟩, -⟩ := hmade rfl
  exact ⟨ws, henc⟩

theorem names_blocklist (art : Artifact) :
    namesRoute (namesPublished art).manifest.url = some .blocklist := by
  show namesRoute (strlcpy namesUrl 256) = _
  decide +kernel

/-- A new sinkhole goes by no version. -/
theorem names_new (art : Artifact) :
    blocklistActiveVersion (namesNode art).world.ram ≠ (namesPublished art).manifest.version := by
  intro h
  have hlen := congrArg List.length h
  have hversion0 : 0 ∉ buildVersion art.sha256 := zero_not_mem_hex _
  have hversion : (namesPublished art).manifest.version =
      strlcpy (buildVersion art.sha256) blocklistVersionMax := rfl
  rw [hversion, strlcpy_eq hversion0 (by rw [buildVersion_length]; decide), buildVersion_length]
    at hlen
  have hnone : (blocklistActiveVersion (namesNode art).world.ram).length = 0 := rfl
  omega

/-- An update hashes the blob twice, and nothing else. -/
theorem updated_hashed {ws : List UInt64} {p : Published} (henc : Encodes sha256 ws p.art)
    (hfits : p.art.blobLen ≤ slotSize) (s : World) (rest : List Bytes) :
    (updated s p rest).hashed = p.art.bytes :: p.art.bytes :: s.hashed := by
  have hlen : p.art.bytes.length = 8 * p.art.count := by
    rw [henc.bytes_length, henc.blobLen, henc.count]
  have hn : sizeT p.art.count = p.art.count := by
    refine sizeT_of_lt ?_
    rw [henc.bytes_length] at hlen
    unfold slotSize at hfits
    omega
  show (s.fetched p.manifest p.art.bytes rest).slotBytes _ (8 * sizeT p.art.count) :: _ = _
  rw [hn, ← hlen, slotBytes_fetched]
  rfl

end Names

section Recovery

variable {sha256 : Bytes → Digest} {route : Bytes → Option Route} {k : Kconfig}
  {cjsonPrint : Json → Option Bytes} {cjsonParse : Bytes → Option Json} {manifestUrl : Bytes}
  {ι : Type} [DecidableEq ι] {c₀ c : Cluster.Config Op Res Node Shared ι}

/-- **One update is enough.**  From any state that a deployment can reach, any number of idle
sinkholes that do not go by the published version get up to date with what the generator
publishes, if its manifest can be read, its blob has room, and both answers are on their way:
each by one update, whichever way that goes as long as no call of it fails. -/
theorem deployed_converges
    (h₀ : Deployed (deployment sha256 route k cjsonPrint cjsonParse manifestUrl)
      (wildGenerator sha256 k cjsonPrint) c₀)
    (hr : Cluster.Runs (deployment sha256 route k cjsonPrint cjsonParse manifestUrl) c₀ c)
    {p : Published} (hp : c.shared.state.http.current = some p) (htake : Takeable cjsonParse p)
    (hmanifest : route manifestUrl = some .manifest)
    (hblocklist : route p.manifest.url = some .blocklist) {sinkholes : List ι}
    (hdistinct : sinkholes.Nodup) (hready : ∀ i ∈ sinkholes, (c.member i).prog = .pure () ∧
      blocklistActiveVersion (c.member i).state.world.ram ≠ p.manifest.version ∧
      ∃ rest, OnTheirWay p (c.member i).state.world.inbox rest) :
    (∀ i ∈ sinkholes, (checkOnce cjsonParse manifestUrl).Safe
      (Smooth sha256 route c.shared.state.http) (fun _ o => o ≠ .fault)
      (fun _ n => UpToDate sha256 p n.world) (c.member i).state) ∧
    ∃ c', Cluster.Runs (deployment sha256 route k cjsonPrint cjsonParse manifestUrl) c c' ∧
      c'.shared = c.shared ∧ (∀ i ∉ sinkholes, c'.member i = c.member i) ∧
      ∀ i ∈ sinkholes, (c'.member i).prog = .pure () ∧
        UpToDate sha256 p (c'.member i).state.world := by
  refine ⟨fun i hi => ?_, ?_⟩
  · obtain ⟨hidle, hnew, rest, hway⟩ := hready i hi
    exact (deployed_recovers h₀ hr hp htake hmanifest hblocklist hidle hnew hway).1
  induction sinkholes with
  | nil => exact ⟨c, .refl, rfl, fun _ _ => rfl, nofun⟩
  | cons i rest ih =>
      obtain ⟨hi, hrest⟩ := List.nodup_cons.mp hdistinct
      obtain ⟨c₁, hrun₁, hshared₁, hothers₁, hdone₁⟩ :=
        ih hrest fun j hj => hready j (List.mem_cons_of_mem _ hj)
      -- The updates of the others have left this one as it was.
      obtain ⟨hidle, hnew, left, hway⟩ := hready i List.mem_cons_self
      rw [← hothers₁ i hi] at hidle hnew hway
      obtain ⟨-, x, -, hprog, hx, hrun⟩ := deployed_recovers h₀ (hr.trans hrun₁) (hshared₁ ▸ hp)
        htake hmanifest hblocklist hidle hnew hway
      refine ⟨c₁.set i x, hrun₁.trans hrun, hshared₁, fun j hj => ?_, fun j hj => ?_⟩
      · obtain ⟨hji, hj⟩ := not_or.mp (fun h => hj (List.mem_cons.mpr h))
        rw [Cluster.Config.set_of_ne _ _ hji]
        exact hothers₁ j hj
      · by_cases hji : j = i
        · subst hji
          rw [Cluster.Config.set_same]
          exact ⟨hprog, hx⟩
        · rw [Cluster.Config.set_of_ne _ _ hji]
          exact hdone₁ j ((List.mem_cons.mp hj).resolve_left hji)

/-- One sinkhole comes to serve the names. -/
theorem names_converge : ∃ (art : Artifact) (c c' : Cluster.Config Op Res Node Shared Unit),
    Cluster.Runs (namesCluster Sha256.sha256 art) (namesStart Sha256.sha256 art) c ∧
    Cluster.Runs (namesCluster Sha256.sha256 art) c c' ∧
    (c.member ()).state.world.ram = Ram.init ∧ (c'.member ()).prog = .pure () ∧
    UpToDate Sha256.sha256 (namesPublished art) (c'.member ()).state.world := by
  obtain ⟨art, hgen, hcount, hsize⟩ := generate_names Sha256.sha256
  obtain ⟨ws, henc⟩ := generated_encodes hgen
  have htake := names_takeable hcount hsize
  have hfits : art.blobLen ≤ Store.slotSize := by
    rw [hsize, names_length]
    decide
  obtain ⟨c, hr, hhttp, -, hidle, hworld⟩ := names_ready hgen hfits
  obtain ⟨-, c', hr', -, -, hdone⟩ := deployed_converges names_deployed hr
    (p := namesPublished art) (by rw [hhttp]; rfl) htake (by decide +kernel) (names_blocklist art)
    (List.nodup_singleton ()) (fun i _ => ⟨hidle, by rw [hworld]; exact names_new art, [],
      by rw [hworld]; exact names_onTheirWay henc htake⟩)
  exact ⟨art, c, c', hr, hr', by rw [hworld]; rfl, hdone () List.mem_cons_self⟩

/-! ### What the clients see -/

/-- **Every decision is by the list of one cycle**, whichever sinkhole takes it and however
the deployment has run until then: there is a cycle such that whatever name is looked up, it is
blocked exactly when it or one of its parents is a domain that the cycle added, unless two of
these have one hash.  A sinkhole that has no list blocks nothing. -/
theorem deployed_decides
    (h₀ : Deployed (deployment sha256 route k cjsonPrint cjsonParse manifestUrl)
      (wildGenerator sha256 k cjsonPrint) c₀)
    (hr : Cluster.Runs (deployment sha256 route k cjsonPrint cjsonParse manifestUrl) c₀ c)
    (hmanifest : route manifestUrl = some .manifest)
    (hreads : ∀ p ∈ c.shared.state.http.history, ∀ part root, part <+: p.manifestJson →
      cjsonParse part = some root → root = p.root)
    (hinj : Set.InjOn sha256 (Compared sha256 k c)) (i : ι) :
    ((c.member i).state.world.ram = Ram.init ∧ ∀ name,
        isBlocked (blocklistContains true (c.member i).state.world.ram) name = some false) ∨
      ∃ x ∈ c.shared.state.cycles, ∀ name,
        Set.InjOn Pipeline.domainHash ({d | d ∈ added k x} ∪ parents (cstr name)) → ∃ r,
          isBlocked (blocklistContains true (c.member i).state.world.ram) name = some r ∧
            (r = true ↔ ∃ d ∈ added k x, AtBoundary dot d (cstr name)) := by
  rcases deployed_serves h₀ hr hmanifest hreads hinj i with hinit | ⟨x, hx, hserves⟩
  · refine Or.inl ⟨hinit, fun name => ?_⟩
    rw [hinit, (Servable.init : Servable sha256 Ram.init).isBlocked_eq name]
    simp [Ram.init]
  · refine Or.inr ⟨x, hx, fun name => isBlocked_served hserves (fun d hd => ?_) name⟩
    exact (offeredDomains_spec (addedDomains_subset hd)).1

/-- A client of it asks for a name below one of the names. -/
theorem names_decided : ∃ (art : Artifact) (c : Cluster.Config Op Res Node Shared Unit),
    Cluster.Runs (namesCluster Sha256.sha256 art) (namesStart Sha256.sha256 art) c ∧
    isBlocked (blocklistContains true (c.member ()).state.world.ram) (ascii "www.a.aaa") =
      some true := by
  obtain ⟨art, hgen, hcount, hsize⟩ := generate_names Sha256.sha256
  obtain ⟨ws, henc⟩ := generated_encodes hgen
  have htake := names_takeable hcount hsize
  have hfits : art.blobLen ≤ Store.slotSize := by
    rw [hsize, names_length]
    decide
  obtain ⟨c, hr, hhttp, hcycles, hidle, hworld⟩ := names_ready hgen hfits
  obtain ⟨-, x, hx, -, hdone, hrun⟩ := deployed_recovers names_deployed hr (i := ())
    (p := namesPublished art) (by rw [hhttp]; rfl) htake (by decide +kernel) (names_blocklist art)
    hidle (by rw [hworld]; exact names_new art) (by rw [hworld]; exact names_onTheirWay henc htake)
  have hhashed : x.state.world.hashed = [art.bytes, art.bytes] := by
    rw [hx, hworld]
    exact updated_hashed henc htake.fits _ _
  -- One list is all that was ever hashed.
  have honly : ∀ b ∈ Compared Sha256.sha256 namesConfig (c.set () x), b = art.bytes := by
    rintro b (⟨i, hb⟩ | ⟨p, hp, rfl⟩ | ⟨g, ⟨y, hy, hg⟩, rfl⟩)
    · rw [Cluster.Config.set_same, hhashed] at hb
      simpa using hb
    · rw [Cluster.Config.set_shared, hhttp] at hp
      rw [List.mem_singleton.mp hp]
      rfl
    · rw [Cluster.Config.set_shared, hcycles] at hy
      rw [List.mem_singleton.mp hy, hgen] at hg
      rw [(Prod.mk.inj (Option.some.inj hg)).2]
  have hcstr : cstr (ascii "www.a.aaa") = ascii "www.a.aaa" := by decide +kernel
  have hreads : ∀ p ∈ (c.set () x).shared.state.http.history, ∀ part root,
      part <+: p.manifestJson → reads (namesPublished art).root part = some root →
        root = p.root := by
    intro p hp part root _ hroot
    rw [Cluster.Config.set_shared, hhttp] at hp
    obtain rfl := List.mem_singleton.mp hp
    unfold reads at hroot
    split at hroot
    · exact (Option.some.inj hroot).symm
    · cases hroot
  refine ⟨art, _, hr.trans hrun, ?_⟩
  rcases deployed_decides names_deployed (hr.trans hrun) (by decide +kernel) hreads
    (fun b hb b' hb' _ => by rw [honly b hb, honly b' hb']) () with ⟨hinit, -⟩ | ⟨y, hy, hright⟩
  · rw [Cluster.Config.set_same] at hinit
    have hsome : x.state.world.ram.count = art.count := hdone.carries.count
    rw [hinit, hcount, names_length] at hsome
    cases hsome
  · rw [Cluster.Config.set_shared, hcycles] at hy
    obtain ⟨r, hr, hiff⟩ := hright (ascii "www.a.aaa") (by
      rw [List.mem_singleton.mp hy, added_names_cycle, hcstr]
      exact injOn_shop)
    rw [List.mem_singleton.mp hy, added_names_cycle, hcstr] at hiff
    rw [hr, hiff.mpr ⟨_, parent_mem_names, Or.inr ⟨ascii "www", rfl⟩⟩]

end Recovery

end EspHole.System
