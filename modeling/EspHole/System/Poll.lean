/-
A generator that publishes, and sinkholes that poll it.

Publishing swaps a pointer, or does nothing.  A sinkhole makes two requests, one for the
manifest and one for the blob, and either may be answered from any artifact published by
then, cut short anywhere.  `publish_poll_safe` is about any interleaving of any number of
these: a list is swapped in only if the manifest that was accepted and the bytes that the
download brought are one artifact's, whole.

That is less than to say that the manifest of one artifact is never taken with the blob of
another.  A blob may begin with another blob, and a transfer may break off just there;
`short_blob_served` is such a run.
-/
import EspHole.Lib.Fleet
import EspHole.Sinkhole.Label
import EspHole.Sinkhole.Poll

namespace EspHole.System

open Ascii Fleet Generator Json Sinkhole

section Network

variable (sha256 : Bytes → Digest) (route : Bytes → Option Route)
  (cjsonPrint : Json → Option Bytes) (cjsonParse : Bytes → Option Json) (manifestUrl : Bytes)

/-- The generator and its sinkholes: it publishes genuine artifacts under any version and
URL, with any of its allocations failing, and each of them updates again and again. -/
def network : Fleet Op Res Node HttpServer where
  job := checkOnce cjsonParse manifestUrl
  step := NodeStep sha256 route
  env s s' := ∃ a art version url, Genuine sha256 art ∧
    s' = httpServePublish cjsonPrint a art version url s

/-- Where a run starts: nothing published, every sinkhole idle. -/
structure Started {ι : Type} (c : Config Op Res Node HttpServer ι) : Prop where
  shared : c.shared = HttpServer.init
  idle : ∀ i, (c.member i).prog = .pure ()

end Network

section Runs

variable {sha256 : Bytes → Digest} {route : Bytes → Option Route}
  {cjsonPrint : Json → Option Bytes} {cjsonParse : Bytes → Option Json} {manifestUrl : Bytes}
  {ι : Type} [DecidableEq ι] {c₀ c c' : Config Op Res Node HttpServer ι}

/-- What one publish may do to the record. -/
theorem network_env {s s' : HttpServer}
    (h : (network sha256 route cjsonPrint cjsonParse manifestUrl).env s s') :
    s' = s ∨ ∃ p, s' = s.swap p ∧ p.Made sha256 := by
  obtain ⟨a, art, version, url, hart, rfl⟩ := h
  rcases httpServePublish_cases cjsonPrint a hart version url s with hsame | ⟨p, hp, hmade, -⟩
  · exact Or.inl hsame
  · exact Or.inr ⟨p, hp, hmade⟩

/-- Nothing that was published is forgotten. -/
theorem history_env {s s' : HttpServer}
    (h : (network sha256 route cjsonPrint cjsonParse manifestUrl).env s s') :
    s.history ⊆ s'.history := by
  rcases network_env h with rfl | ⟨p, rfl, -⟩
  · exact List.Subset.refl _
  · exact List.subset_cons_self p s.history

/-- All that was published was made of a genuine artifact. -/
theorem history_made (h₀ : Started c₀)
    (hr : Reach (network sha256 route cjsonPrint cjsonParse manifestUrl) c₀ c) :
    ∀ p ∈ c.shared.history, p.Made sha256 := by
  refine reach_shared (A := fun s => ∀ p ∈ s.history, p.Made sha256) (fun s s' hs henv => ?_) ?_ hr
  · rcases network_env henv with rfl | ⟨p, rfl, hp⟩
    · exact hs
    · intro q hq
      rcases List.mem_cons.mp hq with rfl | hq
      · exact hp
      · exact hs q hq
  · rw [h₀.shared]
    exact nofun

/-- A step that is not a swap leaves what is served. -/
theorem ram_of_not_swap (hs : Step (network sha256 route cjsonPrint cjsonParse manifestUrl) c c')
    {i : ι} (hi : ∀ ram, ¬ c.Calls i (.setRam ram)) :
    (c'.member i).state.world.ram = (c.member i).state.world.ram := by
  rcases step_member hs i with hsame | ⟨o, r, hcall, h⟩
  · rw [hsame]
  · refine h.answers.ram_eq fun ram ho => ?_
    subst ho
    exact hi ram hcall

/-- A step that is not a write leaves what is on record. -/
theorem nvs_of_not_write (hs : Step (network sha256 route cjsonPrint cjsonParse manifestUrl) c c')
    {i : ι} (hi : ∀ k v, ¬ c.Calls i (.nvsSet k v)) :
    (c'.member i).state.world.nvs = (c.member i).state.world.nvs := by
  rcases step_member hs i with hsame | ⟨o, r, hcall, h⟩
  · rw [hsame]
  · funext k
    refine h.answers.nvs_of_ne fun v ho => ?_
    subst ho
    exact hi k v hcall

/-- **Publishing and polling**, in any interleaving: whatever a sinkhole is about to swap in
is the blob of one published artifact under its own count, digest and version, the
artifact's manifest having been accepted and its whole blob downloaded.  While the manifest
that was read last is one artifact's and what the network delivered is anything but that
artifact's blob, the served list stays, and so does all that is on record of one.  That a version
on record can be read is part of how a node is answered (`NodeStep.version`): a read that fails
would leave a list without its version. -/
theorem publish_poll_safe (h₀ : Started c₀)
    (hr : Reach (network sha256 route cjsonPrint cjsonParse manifestUrl) c₀ c)
    (hmanifest : route manifestUrl = some .manifest)
    (hurl : ∀ p ∈ c.shared.history, route p.manifest.url ≠ some .manifest)
    (hreads : ∀ p ∈ c.shared.history, ∀ part root, part <+: p.manifestJson →
      cjsonParse part = some root → root = p.root)
    (hinj : Set.InjOn sha256 {b | ∃ p ∈ c.shared.history, b <+: p.art.bytes}) :
    (∀ i ram, c.Calls i (.setRam ram) →
      ∃ p ∈ c.shared.history, Matches p (c.member i).state ram) ∧
    ∀ c', Step (network sha256 route cjsonPrint cjsonParse manifestUrl) c c' → ∀ i p,
      (c.member i).state.asked .manifest = some p → (c.member i).state.got ≠ p.art.bytes →
        (c'.member i).state.world.ram = (c.member i).state.world.ram ∧
          (c'.member i).state.world.nvs = (c.member i).state.world.nvs := by
  -- All that a sinkhole can have met on the way is on record at the end.
  have hoffered : ∀ p, Offered (fun s => s.history ⊆ c.shared.history) p →
      p ∈ c.shared.history := by
    rintro p ⟨server, hsub, hp⟩
    exact hsub (server.current_mem p hp)
  have hgood : c.Good (Meets sha256 route fun s => s.history ⊆ c.shared.history)
      (Commits (fun s => s.history ⊆ c.shared.history) Matches) (fun _ => True) := by
    refine reach_good (A := fun s => s.history ⊆ c.shared.history)
      (fun s s' henv hs' => List.Subset.trans (history_env henv) hs')
      (fun s hs n o r n' h => ⟨s, hs, h⟩)
      (fun n _ => checkOnce_matches hmanifest (fun p hp => history_made h₀ hr p (hoffered p hp))
        (fun p hp => hreads p (hoffered p hp)) (fun p hp => hurl p (hoffered p hp)) ?_ n)
      (fun i => ?_) hr (List.Subset.refl _)
    · refine hinj.mono ?_
      rintro b ⟨p, hp, hb⟩
      exact ⟨p, hoffered p hp, hb⟩
    · rw [h₀.idle i]
      trivial
  have hswap : ∀ i ram, c.Calls i (.setRam ram) →
      ∃ p ∈ c.shared.history, Matches p (c.member i).state ram := by
    intro i ram hcall
    obtain ⟨p, hp, hm⟩ := (hgood.calls hcall).2 ram rfl
    exact ⟨p, hoffered p hp, hm⟩
  refine ⟨hswap, fun c' hs i p hasked hgot => ?_⟩
  have hunpaired : ∀ q, ¬ Paired q (c.member i).state := by
    intro q hq
    obtain rfl := Option.some.inj (hasked.symm.trans hq.manifest)
    exact hgot hq.got
  refine ⟨ram_of_not_swap hs fun ram hcall => ?_, nvs_of_not_write hs fun k v hcall => ?_⟩
  · obtain ⟨q, -, hm⟩ := hswap i ram hcall
    exact hunpaired q hm.paired
  · obtain ⟨q, -, hq⟩ := (hgood.calls hcall).1 k v rfl
    exact hunpaired q hq

end Runs

/-! ### A run to look at -/

section Computed

variable {sha256 : Bytes → Digest} {route : Bytes → Option Route} {server : HttpServer}

/-- A node none of whose calls fails. -/
def nodeHandle (sha256 : Bytes → Digest) (route : Bytes → Option Route) (server : HttpServer)
    (o : Op) (n : Node) : Option (Res o × Node) :=
  (handle sha256 noFailure o n.world).map fun x => (x.1, n.after route server o x.1 x.2)

theorem after_world (route : Bytes → Option Route) (server : HttpServer) (n : Node) (o : Op)
    (r : Res o) (w : World) : (n.after route server o r w).world = w := by
  cases o with
  | httpOpen => cases r <;> rfl
  | httpRead room => cases r <;> rfl
  | _ => rfl

/-- It does to the device what the device's own handler does. -/
theorem run_nodeHandle (route : Bytes → Option Route) (server : HttpServer) {α : Type}
    (p : Code α) : ∀ {n : Node} {a : α} {w : World},
    p.run (handle sha256 noFailure) n.world = some (a, w) →
      ∃ n', p.run (nodeHandle sha256 route server) n = some (a, n') ∧ n'.world = w := by
  induction p with
  | pure b =>
      intro n a w hrun
      obtain ⟨rfl, rfl⟩ := Prod.mk.inj (Option.some.inj hrun)
      exact ⟨n, rfl, rfl⟩
  | op o k ih =>
      intro n a w hrun
      obtain ⟨⟨r, w₁⟩, hcall, hrun⟩ := Option.bind_eq_some_iff.mp hrun
      have hworld := after_world route server n o r w₁
      obtain ⟨n', hrun', hw⟩ := ih r (n := n.after route server o r w₁) (by rw [hworld]; exact hrun)
      refine ⟨n', ?_, hw⟩
      have hnode : nodeHandle sha256 route server o n = some (r, n.after route server o r w₁) := by
        unfold nodeHandle
        rw [hcall]
        rfl
      rw [Prog.run_op, hnode]
      exact hrun'

/-- What it answers the network allows, where the answer on its way is the generator's. -/
theorem nodeHandle_step {p : Published} {x : Route} {url : Bytes} {inbox : List Bytes}
    {writes : Node → Prop} {swaps : Node → Ram → Prop} (hx : route url = some x)
    (hp : server.current = some p) (hbody : arriving inbox <+: x.body p) {n n' : Node} {o : Op}
    {r : Res o} (hg : Requesting route (· = server) url inbox writes swaps n o)
    (h : nodeHandle sha256 route server o n = some (r, n')) :
    NodeStep sha256 route server n o r n' := by
  obtain ⟨⟨r', w⟩, hcall, heq⟩ := Option.map_eq_some_iff.mp h
  obtain ⟨rfl, rfl⟩ := Prod.mk.inj heq
  have hworld := after_world route server n o r' w
  refine ⟨?_, ?_, ?_, by rw [hworld]⟩
  · rw [hworld]
    exact handle_answers (fun _ _ => trivial) (fun _ _ => trivial) hcall
  · cases o with
    | nvsGet k =>
        obtain ⟨rfl, -⟩ := Prod.mk.inj (Option.some.inj hcall)
        cases k with
        | ver slot => rfl
        | _ => trivial
    | _ => trivial
  · rw [hworld]
    cases o with
    | httpOpen =>
        obtain ⟨rfl, rfl⟩ := Prod.mk.inj (Option.some.inj hcall)
        intro _ y body hy hhandler
        rw [hg.1, hx] at hy
        obtain rfl := Option.some.inj hy
        rw [x.handler_eq, hp] at hhandler
        rw [← Option.some.inj hhandler, hg.2]
        exact hbody
    | httpStatus =>
        obtain ⟨rfl, rfl⟩ := Prod.mk.inj (Option.some.inj hcall)
        refine ⟨rfl, fun _ => ⟨x, p, by rw [hg.1]; exact hx, ?_⟩⟩
        obtain ⟨_, rfl, hasked⟩ := hg.2 x hx
        rw [hasked, hp]
    | httpRead room =>
        obtain ⟨rfl, rfl⟩ := Prod.mk.inj (Option.some.inj hcall)
        intro chunk hchunk
        obtain rfl := Option.some.inj hchunk
        rfl
    | fault => cases hcall
    | _ =>
        obtain ⟨-, rfl⟩ := Prod.mk.inj (Option.some.inj hcall)
        rfl

variable {ι : Type} [DecidableEq ι]

/-- A run of the device is a run of its node, while the generator publishes nothing. -/
theorem run_reach {f : Fleet Op Res Node HttpServer} (hf : f.step = NodeStep sha256 route)
    {c : Config Op Res Node HttpServer ι} (hshared : c.shared = server) (i : ι) {p : Published}
    {x : Route} {url : Bytes} {inbox : List Bytes} {writes : Node → Prop}
    {swaps : Node → Ram → Prop} (hx : route url = some x) (hp : server.current = some p)
    (hbody : arriving inbox <+: x.body p)
    {α : Type} {prog : Code α} {Q : α → Node → Prop} {n : Node} {a : α} {w : World}
    (hsafe : prog.Safe (Meets sha256 route (· = server))
      (Requesting route (· = server) url inbox writes swaps) Q n)
    (hrun : prog.run (handle sha256 noFailure) n.world = some (a, w)) :
    ∃ n', n'.world = w ∧ Q a n' ∧
      ∀ k : α → Code Unit, Reach f (c.set i ⟨n, prog >>= k⟩) (c.set i ⟨n', k a⟩) := by
  obtain ⟨n', hrun', hw⟩ := run_nodeHandle route server prog hrun
  have hreach := fun k => reach_of_run (f := f) (c := c) (i := i) (k := k)
    (h := nodeHandle sha256 route server) (fun n o r n' hg hh => by
      have hstep := nodeHandle_step hx hp hbody hg hh
      rw [hf, hshared]
      exact ⟨hstep, server, rfl, hstep⟩) hsafe hrun'
  exact ⟨n', hw, (hreach fun _ => .pure ()).1, fun k => (hreach k).2⟩

end Computed

/-! ### A blob that breaks off at the length of another -/

theorem entriesBlob_begins {m n : Nat} (h : m ≤ n) : entriesBlob m <+: entriesBlob n := by
  have htake : entries m = (entries n).take m := by
    rw [entries, entries, ← List.map_take, List.take_range, Nat.min_eq_left h]
  rw [entriesBlob, entriesBlob, htake]
  exact (List.take_prefix m (entries n)).flatMap _

theorem arriving_append {chunks : List Bytes} (h : ∀ c ∈ chunks, c ≠ []) (rest : List Bytes) :
    arriving (chunks ++ [] :: rest) = chunks.flatten := by
  unfold arriving
  rw [List.takeWhile_append_of_pos (by simpa using h)]
  simp

namespace Short

section Run

variable (sha256 : Bytes → Digest)

/-- Entries under their own count, published. -/
def published (n : Nat) (version : Bytes) : Published :=
  ⟨sampleArtifact sha256 n n, version, ascii "http://list", sampleTree sha256 n n version,
    cstr (print (sampleTree sha256 n n version))⟩

/-- The first artifact, -/
abbrev first : Published := published sha256 10000 (ascii "v1")

/-- and the one that follows it, of one entry more. -/
abbrev second : Published := published sha256 10001 (ascii "v2")

/-- Where the two URLs lead. -/
def route (url : Bytes) : Option Route :=
  if url = ascii "http://list" then some .blocklist
  else if url = ascii "http://manifest" then some .manifest
  else none

abbrev server₁ : HttpServer := HttpServer.init.swap (first sha256)

abbrev server₂ : HttpServer := (server₁ sha256).swap (second sha256)

/-- A generator and one sinkhole. -/
abbrev net : Fleet Op Res Node HttpServer :=
  network sha256 route (fun root => some (print root))
    (reads (sampleTree sha256 10000 10000 (ascii "v1"))) (ascii "http://manifest")

/-- The sinkhole, with the first manifest on its way and the first ten thousand entries of
whatever list it asks for. -/
def node : Node :=
  ⟨World.blank.await (sampleInbox sha256 10000 (ascii "v1") []), [], fun _ => none, []⟩

/-- The sinkhole once it has fetched the first ten thousand entries, -/
def fetched : World :=
  (World.blank.await (entryChunks 10000 ++ [[]])).fetched
    (sampleManifest sha256 10000 10000 (ascii "v1")) (entriesBlob 10000) []

/-- and committed them. -/
def served : World :=
  (fetched sha256).commitDone noFailure 0 10000 (sha256 (entriesBlob 10000)) (ascii "v1")

/-- Where the two of them stand. -/
def both (server : HttpServer) (n : Node) (prog : Code Unit) : Config Op Res Node HttpServer Unit :=
  ⟨server, fun _ => ⟨n, prog⟩⟩

theorem both_set (server : HttpServer) (n n' : Node) (prog prog' : Code Unit) :
    (both server n prog).set () ⟨n', prog'⟩ = both server n' prog' := by
  unfold both Config.set
  congr 1

abbrev start : Config Op Res Node HttpServer Unit := both HttpServer.init (node sha256) (.pure ())

theorem started : Started (start sha256) := ⟨rfl, fun _ => rfl⟩

theorem published_bytes (n : Nat) (version : Bytes) :
    (published sha256 n version).art.bytes = entriesBlob n :=
  List.take_of_length_le (entriesBlob_length n).le

theorem genuine {n : Nat} (h : n < 2 ^ 29) : Genuine sha256 (sampleArtifact sha256 n n) := by
  refine ⟨?_, show 8 * n < 2 ^ 32 by omega, show n < 2 ^ 32 by omega⟩
  exact congrArg sha256 (published_bytes sha256 n []).symm

/-- A publish with enough memory. -/
theorem publishes {n : Nat} (h : n < 2 ^ 29) (version : Bytes) (s : HttpServer) :
    (net sha256).env s (s.swap (published sha256 n version)) :=
  ⟨⟨true, true, fun _ => true, true⟩, sampleArtifact sha256 n n, version, ascii "http://list",
    genuine sha256 h, rfl⟩

variable {sha256}

theorem offered {s : HttpServer} {p q : Published} (hs : s.current = some p)
    (hq : Offered (· = s) q) : q = p := by
  obtain ⟨_, rfl, hq⟩ := hq
  exact Option.some.inj (hq.symm.trans hs)

theorem text_fits : Fits (print (sampleTree sha256 10000 10000 (ascii "v1"))) :=
  sampleTree_fits (by decide) (by decide) First.prints.1 First.prints.2

/-- The calls of a request to `url`, whatever is then committed. -/
abbrev Calls (server : HttpServer) (url : Bytes) (inbox : List Bytes) : Node → Op → Prop :=
  Requesting route (· = server) url inbox (fun _ => True) fun _ _ => True

/-- A run of the sinkhole's program while this is served. -/
theorem both_reach {server : HttpServer} {p : Published} {x : Route} {url : Bytes}
    {inbox : List Bytes} {writes : Node → Prop} {swaps : Node → Ram → Prop}
    (hx : route url = some x) (hp : server.current = some p)
    (hbody : arriving inbox <+: x.body p) {α : Type} {prog : Code α}
    {Q : α → Node → Prop} {n : Node} {a : α} {w : World}
    (hsafe : prog.Safe (Meets sha256 route (· = server))
      (Requesting route (· = server) url inbox writes swaps) Q n)
    (hrun : prog.run (handle sha256 noFailure) n.world = some (a, w)) :
    ∃ n', n'.world = w ∧ Q a n' ∧ ∀ k : α → Code Unit,
      Reach (net sha256) (both server n (prog >>= k)) (both server n' (k a)) := by
  obtain ⟨n', hw, hpost, hreach⟩ := run_reach (f := net sha256) rfl
    (c := both server n (.pure ())) rfl () hx hp hbody hsafe hrun
  simp only [both_set] at hreach
  exact ⟨n', hw, hpost, hreach⟩

/-- `check_once` once the manifest is there, or is not. -/
def onManifest (cjsonParse : Bytes → Option Json) : Option Bytes → Code Unit
  | none => return ()
  | some [] => return ()
  | some (c :: cs) =>
      match parseManifest cjsonParse (cstr (c :: cs)) with
      | none => return ()
      | some m => applyManifest m

theorem onManifest_some {cjsonParse : Bytes → Option Json} {text : Bytes} (hne : text ≠ [])
    {m : Manifest} (hm : parseManifest cjsonParse (cstr text) = some m) :
    onManifest cjsonParse (some text) = applyManifest m := by
  obtain ⟨b, bs, rfl⟩ := List.exists_cons_of_ne_nil hne
  simp only [onManifest, hm]

variable (sha256)

/-- The first request: the manifest is that of the first artifact. -/
theorem reach_manifest : ∃ n : Node,
    n.world = World.blank.await (entryChunks 10000 ++ [[]]) ∧
      n.asked = Function.update (fun _ => none) .manifest (some (first sha256)) ∧
      Reach (net sha256) (start sha256) (both (server₁ sha256) n
        (applyManifest (sampleManifest sha256 10000 10000 (ascii "v1")))) := by
  have htext : Fits (print (sampleTree sha256 10000 10000 (ascii "v1"))) := text_fits
  have hparse : parseManifest (reads (sampleTree sha256 10000 10000 (ascii "v1")))
      (print (sampleTree sha256 10000 10000 (ascii "v1"))) = _ :=
    parse_sample (reads_print _) (by decide) (by decide) (by decide) (by decide)
  have hbody : arriving (node sha256).world.inbox <+: Route.manifest.body (first sha256) := by
    have hchunks : ∀ c ∈ [print (sampleTree sha256 10000 10000 (ascii "v1"))], c ≠ [] := by
      simpa using htext.nonempty
    have harriving : arriving (node sha256).world.inbox = _ :=
      arriving_append hchunks (entryChunks 10000 ++ [[]])
    rw [harriving, List.flatten_singleton]
    show _ <+: cstr (print (sampleTree sha256 10000 10000 (ascii "v1")))
    rw [htext.plain]
  have hsafe : (fetchManifest (ascii "http://manifest")).Safe
      (Meets sha256 route (· = server₁ sha256))
      (Calls (server₁ sha256) (ascii "http://manifest") (node sha256).world.inbox) _
      (node sha256) := fetchManifest_reads _ _
  have hrun : (fetchManifest (ascii "http://manifest")).run (handle sha256 noFailure)
      (node sha256).world = _ :=
    fetchManifest_run noFailure_delivers (ascii "http://manifest") (arriving_one htext.nonempty _)
      (by rw [List.flatten_singleton]; exact htext.room)
  obtain ⟨n, hworld, hpost, hreach⟩ := both_reach
    (show route (ascii "http://manifest") = some .manifest by decide)
    (show (server₁ sha256).current = some (first sha256) from rfl) hbody hsafe hrun
  rw [List.flatten_singleton] at hpost hreach
  obtain ⟨x, p, hx, hp, -, hasked⟩ := hpost _ rfl
  obtain rfl := offered rfl hp
  obtain rfl : Route.manifest = x := Option.some.inj hx
  refine ⟨n, hworld, hasked, ?_⟩
  have hpublish : Reach (net sha256) (start sha256)
      (both (server₁ sha256) (node sha256) (.pure ())) :=
    .single (.env (publishes sha256 (by norm_num) (ascii "v1") HttpServer.init))
  have hjob : Step (net sha256) (both (server₁ sha256) (node sha256) (.pure ()))
      (both (server₁ sha256) (node sha256) (net sha256).job) := by
    rw [← both_set (server₁ sha256) (node sha256) (node sha256) (.pure ())]
    exact .next (c := both (server₁ sha256) (node sha256) (.pure ())) (i := ()) rfl
  have hfetch := hreach (onManifest (reads (sampleTree sha256 10000 10000 (ascii "v1"))))
  rw [onManifest_some htext.nonempty (by rw [htext.plain, hparse])] at hfetch
  exact (hpublish.tail hjob).trans hfetch

/-- What arrives is the beginning of the second artifact's blob. -/
theorem arriving_second :
    arriving (entryChunks 10000 ++ [[]]) <+: Route.blocklist.body (second sha256) := by
  have hchunks : ∀ c ∈ entryChunks 10000, c ≠ [] := fun c hc =>
    ((arriving_entries 10000 []).fit c hc).1
  have hbody : Route.blocklist.body (second sha256) = entriesBlob 10001 :=
    published_bytes sha256 10001 (ascii "v2")
  rw [arriving_append hchunks, flatten_entryChunks, hbody]
  exact entriesBlob_begins (by omega)

/-- The second request: the blob is that of the second artifact, and breaks off. -/
theorem reach_download {n : Node}
    (hworld : n.world = World.blank.await (entryChunks 10000 ++ [[]])) :
    ∃ n' : Node, n'.world = fetched sha256 ∧
      n'.asked = Function.update n.asked .blocklist (some (second sha256)) ∧
      Reach (net sha256)
        (both (server₂ sha256) n (applyManifest (sampleManifest sha256 10000 10000 (ascii "v1"))))
        (both (server₂ sha256) n' (blocklistCommitSlot 0 10000 (sha256 (entriesBlob 10000))
          (ascii "v1") >>= fun _ => .pure ())) := by
  have hx : route (ascii "http://list") = some .blocklist := by decide
  have hp : (server₂ sha256).current = some (second sha256) := rfl
  have hram : n.world.ram = Ram.init := by
    rw [hworld]
    rfl
  have hsafe₁ : getRam.Safe (Meets sha256 route (· = server₂ sha256))
      (Calls (server₂ sha256) (ascii "http://list") (entryChunks 10000 ++ [[]]))
      (fun _ n' => n.Quiet n') n :=
    Prog.safe_call.mpr ⟨trivial, fun _ _ h => h.quiet rfl⟩
  obtain ⟨n₁, hworld₁, hq₁, hreach₁⟩ :=
    both_reach hx hp (arriving_second sha256) hsafe₁ (Prog.run_call _ _ _)
  have hsafe₂ : (announce (sampleManifest sha256 10000 10000 (ascii "v1"))).Safe
      (Meets sha256 route (· = server₂ sha256))
      (Calls (server₂ sha256) (ascii "http://list") (entryChunks 10000 ++ [[]]))
      (fun _ n' => n₁.Quiet n') n₁ := Prog.safe_call.mpr ⟨trivial, fun _ _ h => h.quiet rfl⟩
  obtain ⟨n₂, hworld₂, hq₂, hreach₂⟩ :=
    both_reach hx hp (arriving_second sha256) hsafe₂ (Prog.run_call _ _ _)
  have hinbox₂ : n₂.world.inbox = entryChunks 10000 ++ [[]] := by
    rw [hq₂.inbox, hworld₁, hworld]
    rfl
  have hsafe₃ : (downloadToSlot (sampleManifest sha256 10000 10000 (ascii "v1")) 0).Safe
      (Meets sha256 route (· = server₂ sha256))
      (Calls (server₂ sha256) (ascii "http://list") n₂.world.inbox) _ n₂ :=
    downloadToSlot_fetches (sampleManifest sha256 10000 10000 (ascii "v1")) 0 n₂
  rw [hinbox₂] at hsafe₃
  have hrun₃ : (downloadToSlot (sampleManifest sha256 10000 10000 (ascii "v1")) 0).run
      (handle sha256 noFailure) n₂.world = _ :=
    downloadToSlot_run noFailure_delivers (by decide) (show 8 * 10000 ≤ slotSize by decide)
      (hinbox₂ ▸ arriving_entries 10000 []) (by rw [flatten_entryChunks, entriesBlob_length]; rfl)
      (by rw [flatten_entryChunks]; rfl)
  obtain ⟨n₃, hworld₃, hpost₃, hreach₃⟩ := both_reach hx hp (arriving_second sha256) hsafe₃ hrun₃
  refine ⟨n₃, ?_, ?_, ?_⟩
  · rw [hworld₃, hworld₂, hworld₁, hworld, flatten_entryChunks]
    rfl
  · obtain ⟨-, -, -, x, q, hx', hq, -, hasked⟩ := hpost₃ rfl
    obtain rfl := offered hp hq
    obtain rfl : Route.blocklist = x := Option.some.inj (hx.symm.trans hx')
    rw [hasked, hq₂.asked, hq₁.asked]
  · have hnew : ¬ blocklistActiveVersion Ram.init =
        (sampleManifest sha256 10000 10000 (ascii "v1")).version :=
      show ¬ blocklistActiveVersion Ram.init = ascii "v1" by decide
    have h₁ : Reach (net sha256) (both (server₂ sha256) n
        (applyManifest (sampleManifest sha256 10000 10000 (ascii "v1")))) _ := hreach₁ _
    rw [hram, if_neg hnew] at h₁
    have h₃ := (h₁.trans (hreach₂ _)).trans (hreach₃ _)
    rw [if_pos rfl] at h₃
    exact h₃

theorem fetched_bytes : (fetched sha256).slotBytes 0 (8 * 10000) = entriesBlob 10000 := by
  have h := slotBytes_fetched (World.blank.await (entryChunks 10000 ++ [[]]))
    (sampleManifest sha256 10000 10000 (ascii "v1")) (entriesBlob 10000) []
  rw [entriesBlob_length] at h
  exact h

/-- The whole of it. -/
theorem reach_served : ∃ n : Node, n.world = served sha256 ∧
    n.asked .manifest = some (first sha256) ∧ n.asked .blocklist = some (second sha256) ∧
      Reach (net sha256) (start sha256) (both (server₂ sha256) n (.pure ())) := by
  obtain ⟨n, hworld, hasked, hreach⟩ := reach_manifest sha256
  have hpublish : Step (net sha256) (both (server₁ sha256) n
      (applyManifest (sampleManifest sha256 10000 10000 (ascii "v1")))) (both (server₂ sha256) n
      (applyManifest (sampleManifest sha256 10000 10000 (ascii "v1")))) :=
    .env (publishes sha256 (by norm_num) (ascii "v2") (server₁ sha256))
  obtain ⟨n₁, hworld₁, hasked₁, hreach₁⟩ := reach_download sha256 hworld
  have hloads : CommitLoads sha256 noFailure n₁.world 0 10000 (sha256 (entriesBlob 10000))
      (ascii "v1") := by
    rw [hworld₁]
    exact commitLoads_entries (by decide) (show (0 : Int) ≠ -1 by decide) (fetched_bytes sha256) rfl
      (by decide) (by decide) fun _ _ => rfl
  have hsafe : (blocklistCommitSlot 0 10000 (sha256 (entriesBlob 10000)) (ascii "v1")).Safe
      (Meets sha256 route (· = server₂ sha256)) (Requesting route (· = server₂ sha256)
        (ascii "http://list") (entryChunks 10000 ++ [[]]) _ _) _ n₁ :=
    blocklistCommitSlot_installs 0 10000 _ _ n₁
  obtain ⟨n₂, hworld₂, hq₂, hreach₂⟩ := both_reach (by decide)
    (show (server₂ sha256).current = some (second sha256) from rfl) (arriving_second sha256) hsafe
    (commit_run_loads hloads)
  refine ⟨n₂, ?_, ?_, ?_, ((hreach.tail hpublish).trans hreach₁).trans (hreach₂ _)⟩
  · rw [hworld₂, hworld₁]
    rfl
  · rw [hq₂.asked, hasked₁, Function.update_of_ne (by decide), hasked, Function.update_self]
  · rw [hq₂.asked, hasked₁, Function.update_self]

/-- What is served then is the first artifact's list. -/
theorem served_hashes : (served sha256).ram.hashes = entries 10000 := by
  unfold served
  rw [commitDone_ram, sizeT_of_lt (by norm_num), fetched_bytes, entriesBlob, Words.words_encode]

theorem history {p : Published} (hp : p ∈ (server₂ sha256).history) :
    p = first sha256 ∨ p = second sha256 := by
  rcases List.mem_cons.mp hp with rfl | hp
  · exact Or.inr rfl
  · exact Or.inl (List.mem_singleton.mp hp)

/-- The text of the second manifest does not begin with the first. -/
theorem text_not_begun : ¬ print (sampleTree sha256 10000 10000 (ascii "v1")) <+:
    print (sampleTree sha256 10001 10001 (ascii "v2")) := by
  intro h
  unfold sampleTree at h
  exact absurd (version_of_begins h (by decide)) (by decide)

/-- Of these texts the sinkhole's parser reads the first only. -/
theorem reads_published {p : Published} (hp : p ∈ (server₂ sha256).history) {part : Bytes}
    {root : Json} (hpart : part <+: p.manifestJson)
    (h : reads (sampleTree sha256 10000 10000 (ascii "v1")) part = some root) : root = p.root := by
  unfold reads at h
  by_cases htext : part = print (sampleTree sha256 10000 10000 (ascii "v1"))
  · rw [if_pos htext] at h
    rcases history sha256 hp with rfl | rfl
    · exact (Option.some.inj h).symm
    · rw [htext] at hpart
      exact absurd (hpart.trans (List.takeWhile_prefix _)) (text_not_begun sha256)
  · rw [if_neg htext] at h
    cases h

theorem url_published {p : Published} (hp : p ∈ (server₂ sha256).history) :
    route p.manifest.url ≠ some .manifest := by
  have hurl : p.manifest.url = strlcpy (ascii "http://list") 256 := by
    rcases history sha256 hp with rfl | rfl
    · rfl
    · rfl
  rw [hurl]
  decide

end Run

/-- Up to sixteen megabytes, the digest by length tells lengths apart. -/
theorem lengthDigest_inj {b b' : Bytes} (hb : b.length < 2 ^ 24) (hb' : b'.length < 2 ^ 24)
    (h : lengthDigest b = lengthDigest b') : b.length = b'.length := by
  have hbyte : ∀ i : Fin 32, b.length / 256 ^ i.val % 256 = b'.length / 256 ^ i.val % 256 := by
    intro i
    have hi := congrArg (fun d : Digest => d[i].toNat) h
    simpa [lengthDigest] using hi
  have h0 := hbyte 0
  have h1 := hbyte 1
  have h2 := hbyte 2
  norm_num at h0 h1 h2
  omega

theorem lengthDigest_injOn : Set.InjOn lengthDigest
    {b | ∃ p ∈ (server₂ lengthDigest).history, b <+: p.art.bytes} := by
  have hwithin : ∀ b, (∃ p ∈ (server₂ lengthDigest).history, b <+: p.art.bytes) →
      b <+: entriesBlob 10001 := by
    rintro b ⟨p, hp, hb⟩
    rcases history lengthDigest hp with rfl | rfl
    · rw [published_bytes] at hb
      exact hb.trans (entriesBlob_begins (by omega))
    · rwa [published_bytes] at hb
  intro b hb b' hb' heq
  have hpre := hwithin b hb
  have hpre' := hwithin b' hb'
  have hlen := hpre.length_le
  have hlen' := hpre'.length_le
  rw [entriesBlob_length] at hlen hlen'
  have hsame := lengthDigest_inj (by omega) (by omega) heq
  rw [List.prefix_iff_eq_take.mp hpre, List.prefix_iff_eq_take.mp hpre', hsame]

end Short

open Short in
/-- **A blob that broke off is taken for another**: the manifest was the first artifact's, the
download was answered from the second, and the list is swapped in.  It is the first
artifact's all the same. -/
theorem short_blob_served : ∃ c : Config Op Res Node HttpServer Unit,
    Reach (net lengthDigest) (start lengthDigest) c ∧
      Set.InjOn lengthDigest {b | ∃ p ∈ c.shared.history, b <+: p.art.bytes} ∧
      (c.member ()).state.asked .manifest = some (first lengthDigest) ∧
      (c.member ()).state.asked .blocklist = some (second lengthDigest) ∧
      (first lengthDigest).art ≠ (second lengthDigest).art ∧
      ((start lengthDigest).member ()).state.world.ram = Ram.init ∧
      (c.member ()).state.world.ram.hashes = entries 10000 := by
  obtain ⟨n, hworld, hmanifest, hblocklist, hreach⟩ := reach_served lengthDigest
  refine ⟨_, hreach, lengthDigest_injOn, hmanifest, hblocklist, fun heq => ?_, rfl, ?_⟩
  · have hcount : 10000 = 10001 := congrArg Pipeline.Artifact.count heq
    omega
  · show n.world.ram.hashes = _
    rw [hworld, served_hashes]

open Short in
/-- In the same run, the swap itself is of the first artifact alone. -/
theorem short_blob_matches : ∃ (c : Config Op Res Node HttpServer Unit) (ram : Ram),
    Reach (net lengthDigest) (start lengthDigest) c ∧ c.Calls () (.setRam ram) ∧
      ∃ p ∈ c.shared.history, Matches p (c.member ()).state ram := by
  obtain ⟨n, hworld, -, -, hreach⟩ := reach_served lengthDigest
  rcases Relation.ReflTransGen.origin
    (fun c : Config Op Res Node HttpServer Unit => (c.member ()).state.world.ram.hashes) hreach
    with hsame | ⟨c₁, c₂, h₁, hs, h₂, -, hne⟩
  · have hempty : n.world.ram.hashes = [] := hsame
    rw [hworld, served_hashes] at hempty
    have hlen := congrArg List.length hempty
    simp at hlen
  · have hswap : ∃ ram, c₁.Calls () (.setRam ram) := by
      by_contra hno
      exact hne (congrArg Ram.hashes (ram_of_not_swap hs fun ram h => hno ⟨ram, h⟩)).symm
    obtain ⟨ram, hcall⟩ := hswap
    have hhistory : c₁.shared.history ⊆ (server₂ lengthDigest).history :=
      reach_shared (A := fun s => c₁.shared.history ⊆ s.history)
        (fun s s' h henv => List.Subset.trans h (history_env henv)) (List.Subset.refl _)
        (h₂.head hs)
    refine ⟨c₁, ram, h₁, hcall, (publish_poll_safe (started lengthDigest) h₁ (by decide)
      (fun p hp => url_published lengthDigest (hhistory hp))
      (fun p hp part root => reads_published lengthDigest (hhistory hp)) ?_).1 () ram hcall⟩
    refine lengthDigest_injOn.mono ?_
    rintro b ⟨p, hp, hb⟩
    exact ⟨p, hhistory hp, hb⟩

end EspHole.System
