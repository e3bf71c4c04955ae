/-
A generator and its sinkholes, all of which fail and restart.

The generator goes round its cycle, any number of sinkholes update from it, and every one of
them may lose power at any call.  Any call may fail, flash may hold anything at any time, and a
boot may find that NVS has to be erased.
All that holds a deployment together is the digest: a sinkhole records none that was not in a
manifest of the generator, the generator records none but a cycle's, and neither serves a
list that does not have the digest on record.

So each sinkhole serves the list of one cycle of the generator, or none (`deployed_serves`).
-/
import EspHole.Generator.Main
import EspHole.Lib.Cluster
import EspHole.Sinkhole.Poll
import EspHole.Sinkhole.Run
import EspHole.System.Decision

namespace EspHole.System

open Ascii Ascending Dotted Generator Json Machine Pipeline Sinkhole
open Generator.Main (CycleMade Kconfig ListOf Meeting added wildGenerator)

/-! ### The deployment -/

section Programs

variable (sha256 : Bytes → Digest) (route : Bytes → Option Route)

/-- How a sinkhole's call may answer: it may fail, flash may change, and of what the generator
sends a beginning arrives. -/
structure SinkholeStep (server : HttpServer) (n : Node) (o : Op) (r : Res o) (n' : Node) :
    Prop where
  answers : Answers sha256 anyFaults n.world o r n'.world
  wire : Wire route server n o r n'.world
  after : n' = n.after route server o r n'.world

/-- How it may answer while the generator is in one of these states. -/
def SinkholeMeets (K : HttpServer → Prop) (n : Node) (o : Op) (r : Res o) (n' : Node) : Prop :=
  ∃ server, K server ∧ SinkholeStep sha256 route server n o r n'

/-- A restart, at which `app_main` may have to erase NVS before it calls `blocklist_init`. -/
def Restart (w w' : World) : Prop :=
  ∃ nvs : (key : Key) → Option key.Val, (∀ key, nvs key = w.nvs key ∨ nvs key = none) ∧
    PowerCut True { w with nvs := nvs } w'

/-- The generator's whole configuration is what the sinkholes share. -/
abbrev Shared : Type := Machine.Config Main.Op Main.Res Main.State

/-- The sinkholes boot and update, the generator moves on its own, and at most NVS survives a
restart. -/
def deployment (k : Kconfig) (cjsonPrint : Json → Option Bytes)
    (cjsonParse : Bytes → Option Json) (manifestUrl : Bytes) : Cluster Op Res Node Shared where
  boot := blocklistInit >>= fun _ => Pure.pure ()
  job := checkOnce cjsonParse manifestUrl
  step := fun g => SinkholeStep sha256 route g.state.http
  restart := fun n _ n' => Restart n.world n'.world
  env := Step (wildGenerator sha256 k cjsonPrint)

end Programs

/-- Where a run starts: everything about to boot, and no digest on record anywhere. -/
structure Deployed {ι : Type} (m : Cluster Op Res Node Shared) (g : Machine Main.Op Main.Res
    Main.State) (c : Cluster.Config Op Res Node Shared ι) : Prop where
  generator : Main.Start g c.shared
  unpublished : ∀ slot, c.shared.state.store.nvs (.sha slot) = none
  phase : ∀ i, (c.member i).phase = .boot
  prog : ∀ i, (c.member i).prog = m.boot
  ram : ∀ i, (c.member i).state.world.ram = Ram.init
  unrecorded : ∀ i slot, (c.member i).state.world.nvs (.sha slot) = none

/-! ### The digests that an update records -/

/-- The only digest that the program records is this one. -/
def Records (digest : Digest) (o : Op) : Prop :=
  ∀ slot v, o = .nvsSet (.sha slot) v → v = digest.bytes

section Records

variable {digest : Digest}

theorem Op.Commits.records {o : Op} (h : o.Commits digest) : Records digest o := by
  rintro slot v rfl
  exact h

theorem Op.records_of_downloads {o : Op} (h : o.downloads = true) : Records digest o := by
  rintro slot v rfl
  cases h

/-- **An accepted manifest** has its own digest recorded, or none. -/
theorem applyManifest_records (m : Manifest) : (applyManifest m).Only (Records m.sha256) := by
  unfold applyManifest
  refine Prog.only_call_bind.mpr
    ⟨nofun, fun (ram : Ram) => Prog.only_ite.mpr ⟨fun _ => trivial, fun _ => ?_⟩⟩
  refine Prog.only_call_bind.mpr ⟨nofun, fun _ => ?_⟩
  refine (downloadToSlot_only (fun _ => Op.records_of_downloads) m _).bind fun e =>
    Prog.only_ite.mpr ⟨fun _ => ?_, fun _ => trivial⟩
  exact (blocklistCommitSlot_only (fun _ => Op.Commits.records) _ _ _).bind fun _ => trivial

end Records

section Signs

variable {sha256 : Bytes → Digest} {route : Bytes → Option Route} {K : HttpServer → Prop}
  {cjsonParse : Bytes → Option Json} {manifestUrl : Bytes}

/-- Every digest that is recorded is that of an artifact the generator may be serving. -/
def Signs (K : HttpServer → Prop) (o : Op) : Prop :=
  ∀ slot v, o = .nvsSet (.sha slot) v → ∃ p, Offered K p ∧ p.art.sha256.bytes = v

theorem Op.signs_onNet {o : Op} (h : o.onNet = true) : Signs K o := by
  rintro slot v rfl
  cases h

theorem fetchLoop_onNet (room : Nat) : ∀ body : Bytes,
    (fetchLoop room body).Only fun o => o.onNet = true := by
  induction room using Nat.strong_induction_on with
  | _ room ih =>
      intro body
      rw [fetchLoop]
      by_cases h0 : room = 0
      · rw [dif_pos h0]
        trivial
      rw [dif_neg h0]
      refine Prog.only_call_bind.mpr ⟨rfl, fun (r : Option Bytes) => ?_⟩
      rcases r with _ | _ | ⟨c, cs⟩
      · trivial
      · trivial
      · exact ih _ (by simp; omega) _

theorem fetchManifest_onNet (url : Bytes) : (fetchManifest url).Only fun o => o.onNet = true := by
  unfold fetchManifest
  refine Prog.only_call_bind.mpr
    ⟨rfl, fun ok => Prog.only_ite.mpr ⟨fun _ => trivial, fun _ => ?_⟩⟩
  refine Prog.only_call_bind.mpr
    ⟨rfl, fun ok => Prog.only_ite.mpr ⟨fun _ => trivial, fun _ => ?_⟩⟩
  exact Prog.only_call_bind.mpr
    ⟨rfl, fun status => Prog.only_ite.mpr ⟨fun _ => trivial, fun _ => fetchLoop_onNet _ _⟩⟩

/-- A sinkhole but for its flash, of which a request knows nothing. -/
def unwritten (n : Node) : Node :=
  { n with world := { n.world with flash := fun _ _ => 0xFF } }

/-- So a request meets what it does where flash never changes. -/
theorem SinkholeMeets.unwritten {n n' : Node} {o : Op} {r : Res o} (ho : o.onNet = true)
    (h : SinkholeMeets sha256 route K n o r n') :
    Meets sha256 route K (unwritten n) o r (unwritten n') := by
  obtain ⟨server, hK, hanswers, hwire, hafter⟩ := h
  have hstill : ∀ {w w' : World}, w.Still True w' →
      World.Still False { w with flash := fun _ _ => 0xFF } { w' with flash := fun _ _ => 0xFF } :=
    fun h => ⟨h.nvs, h.ram, h.log, h.hashed, fun _ => rfl⟩
  refine ⟨server, hK, ?_, ?_, ?_, ?_⟩
  · cases o with
    | httpInit url => exact hstill hanswers
    | httpOpen => exact hstill hanswers
    | httpStatus => exact hstill hanswers
    | httpRead room => exact ⟨hstill hanswers.1, hanswers.2⟩
    | _ => cases ho
  · cases o with
    | nvsGet key => cases ho
    | _ => trivial
  · cases o with
    | httpInit url => exact hwire
    | httpOpen => exact hwire
    | httpStatus => exact hwire
    | httpRead room => exact hwire
    | _ => cases ho
  · cases o with
    | httpOpen =>
        rw [hafter]
        cases r <;> rfl
    | httpRead room =>
        rw [hafter]
        cases r <;> rfl
    | httpInit url =>
        rw [hafter]
        rfl
    | httpStatus =>
        rw [hafter]
        rfl
    | _ => cases ho

/-- The manifest that arrives is the beginning of one that was published. -/
theorem fetchManifest_brings (url : Bytes) (n : Node) :
    (fetchManifest url).Safe (SinkholeMeets sha256 route K) (fun _ o => Signs K o)
      (fun r _ => ∀ text, r = some text → ∃ x p, route url = some x ∧ Offered K p ∧
        text <+: x.body p) n := by
  have hreads : (fetchManifest url).Safe (Meets sha256 route K) (Requesting route K url
      (unwritten n).world.inbox (fun _ => True) fun _ _ => True) _ (unwritten n) :=
    fetchManifest_reads url (unwritten n)
  have hmeets : (fetchManifest url).Safe (SinkholeMeets sha256 route K) _ _ n :=
    (fetchManifest_onNet url).of_step
      (hreads.comap (f := unwritten) fun _ _ _ _ h => h.2.unwritten h.1)
  refine ((fetchManifest_onNet url).safe.and hmeets).mono (fun _ _ h => Op.signs_onNet h.1)
    fun r n' h text htext => ?_
  obtain ⟨x, p, hx, hp, hprefix, -⟩ := h.2 text htext
  exact ⟨x, p, hx, hp, hprefix⟩

/-- **The digests that an update records** are those of published artifacts. -/
theorem checkOnce_signs (hmanifest : route manifestUrl = some .manifest)
    (hmade : ∀ p, Offered K p → p.Made sha256)
    (hreads : ∀ p, Offered K p → ∀ part root, part <+: p.manifestJson →
      cjsonParse part = some root → root = p.root) (n : Node) :
    (checkOnce cjsonParse manifestUrl).Safe (SinkholeMeets sha256 route K) (fun _ o => Signs K o)
      (fun _ _ => True) n := by
  unfold checkOnce
  refine Prog.safe_bind.mpr ((fetchManifest_brings manifestUrl n).post fun r n₁ h₁ => ?_)
  rcases r with _ | _ | ⟨c, cs⟩
  · trivial
  · trivial
  dsimp only
  rcases hm : parseManifest cjsonParse (cstr (c :: cs)) with _ | m
  · trivial
  obtain ⟨x, p, hx, hp, htext⟩ := h₁ _ rfl
  obtain rfl := Option.some.inj (hmanifest.symm.trans hx)
  obtain rfl := parseManifest_published (hmade p hp) (hreads p hp) htext hm
  refine (applyManifest_records p.manifest).safe.mono (fun _ o ho => ?_) fun _ _ h => h
  exact fun slot v hv => ⟨p, hp, (ho slot v hv).symm⟩

end Signs

/-! ### What is on record, and what is served -/

/-- What is on record, and what is served, has the digest of a published artifact. -/
structure Tracks (sha256 : Bytes → Digest) (published : Published → Prop) (s : World) : Prop where
  recorded : ∀ slot d, s.nvs (.sha slot) = some d → ∃ p, published p ∧ p.art.sha256.bytes = d
  served : s.ram = Ram.init ∨ ∃ buf ∈ s.hashed, s.ram.hashes = Words.words buf ∧
    buf.length = 8 * s.ram.count ∧ ∃ p, published p ∧ p.art.sha256 = sha256 buf

section Tracking

variable {sha256 : Bytes → Digest} {published : Published → Prop} {s s' : World}

/-- One call keeps this. -/
theorem Tracks.step {o : Op} {r : Res o} (h : Tracks sha256 published s)
    (hg : Disciplined sha256 True s o)
    (hsigns : ∀ slot v, o = .nvsSet (.sha slot) v → ∃ p, published p ∧ p.art.sha256.bytes = v)
    (hs : Answers sha256 anyFaults s o r s') : Tracks sha256 published s' := by
  refine ⟨fun slot d hd => ?_, ?_⟩
  · by_cases hset : ∃ v, o = .nvsSet (.sha slot) v
    · obtain ⟨v, rfl⟩ := hset
      rcases hs with hnew | ⟨-, hold⟩
      · rw [hnew.nvs, World.setNvs_same] at hd
        exact Option.some.inj hd ▸ hsigns slot v rfl
      · rw [hold.nvs] at hd
        exact h.recorded slot d hd
    · rw [hs.nvs_of_ne fun v ho => hset ⟨v, ho⟩] at hd
      exact h.recorded slot d hd
  · by_cases hset : ∃ ram, o = .setRam ram
    · obtain ⟨ram, rfl⟩ := hset
      obtain ⟨buf, hl⟩ := hg
      obtain ⟨p, hp, hdigest⟩ := h.recorded _ _ hl.digest
      have hstill : World.Still True { s with ram := ram } s' := hs
      right
      rw [hstill.ram]
      exact ⟨buf, hstill.hashed hl.hashed, hl.hashes, hl.length, p, hp, Digest.bytes_inj hdigest⟩
    · rw [hs.ram_eq fun ram ho => hset ⟨ram, ho⟩]
      rcases h.served with hinit | ⟨buf, hbuf, hrest⟩
      · exact Or.inl hinit
      · exact Or.inr ⟨buf, hs.grows.2 hbuf, hrest⟩

/-- A restart serves nothing, until it has loaded. -/
theorem Tracks.restart (h : Tracks sha256 published s) (hs : Restart s s') :
    Tracks sha256 published s' := by
  obtain ⟨nvs, hkept, hcut⟩ := hs
  refine ⟨fun slot d hd => ?_, Or.inl hcut.ram⟩
  rw [hcut.nvs] at hd
  rcases hkept (.sha slot) with hsame | hgone
  · exact h.recorded slot d (hsame.symm.trans hd)
  · cases hgone.symm.trans hd

end Tracking

section Runs

variable {sha256 : Bytes → Digest} {route : Bytes → Option Route} {k : Kconfig}
  {cjsonPrint : Json → Option Bytes} {cjsonParse : Bytes → Option Json} {manifestUrl : Bytes}

/-- **One sinkhole**, among generators of which all that they publish was made. -/
theorem member_tracks {A : Shared → Prop} (published : Published → Prop)
    (hmanifest : route manifestUrl = some .manifest)
    (hoffered : ∀ g p, A g → g.state.http.current = some p → published p)
    (hmade : ∀ p, published p → p.Made sha256)
    (hreads : ∀ p, published p → ∀ part root, part <+: p.manifestJson →
      cjsonParse part = some root → root = p.root)
    {x x' : Machine.Config Op Res Node} (hphase : x.phase = .boot)
    (hprog : x.prog = (deployment sha256 route k cjsonPrint cjsonParse manifestUrl).boot)
    (htracks : Tracks sha256 published x.state.world)
    (hr : Reach ((deployment sha256 route k cjsonPrint cjsonParse manifestUrl).machine A) x x') :
    Tracks sha256 published x'.state.world := by
  let K : HttpServer → Prop := fun server => ∃ g : Shared, A g ∧ server = g.state.http
  have hK : ∀ p, Offered K p → published p := by
    rintro p ⟨_, ⟨g, hg, rfl⟩, hp⟩
    exact hoffered g p hg hp
  have hmeets : ∀ n o r n', (∃ g : Shared, A g ∧
      SinkholeStep sha256 route g.state.http n o r n') → SinkholeMeets sha256 route K n o r n' :=
    fun n o r n' ⟨g, hg, h⟩ => ⟨_, ⟨g, hg, rfl⟩, h⟩
  have hanswers : ∀ n o r n', (∃ g : Shared, A g ∧
      SinkholeStep sha256 route g.state.http n o r n') →
        Answers sha256 anyFaults n.world o r n'.world := fun n o r n' ⟨g, hg, h⟩ => h.answers
  have hboot : ∀ n : Node, (blocklistInit >>= fun _ => Pure.pure () : Code Unit).Safe
      (fun n o r n' => ∃ g : Shared, A g ∧ SinkholeStep sha256 route g.state.http n o r n')
      (fun n o => Disciplined sha256 True n.world o ∧ Signs K o) (fun _ _ => True) n := by
    intro n
    have hinit : blocklistInit.Safe (Answers sha256 anyFaults) _ _ n.world :=
      blocklistInit_safe n.world
    refine Prog.safe_bind.mpr ((hinit.comap hanswers).mono (fun n o h => ⟨h.1, ?_⟩)
      fun _ _ _ => trivial)
    rintro slot v rfl
    cases h.2
  have hjob : ∀ n : Node, (checkOnce cjsonParse manifestUrl).Safe
      (fun n o r n' => ∃ g : Shared, A g ∧ SinkholeStep sha256 route g.state.http n o r n')
      (fun n o => Disciplined sha256 True n.world o ∧ Signs K o) (fun _ _ => True) n := by
    intro n
    have hdisc : (checkOnce cjsonParse manifestUrl).Safe (Answers sha256 anyFaults) _ _ n.world :=
      checkOnce_safe cjsonParse manifestUrl n.world
    have hsigns := (checkOnce_signs hmanifest (fun p hp => hmade p (hK p hp))
      (fun p hp => hreads p (hK p hp)) n).anti hmeets
    exact ((hdisc.comap hanswers).and hsigns).post fun _ _ _ => trivial
  refine reach_invariant (m := (deployment sha256 route k cjsonPrint cjsonParse
    manifestUrl).machine A) (A := fun n => Tracks sha256 published n.world)
    (G := fun n o => Disciplined sha256 True n.world o ∧ Signs K o) (J := fun _ => True)
    (fun _ _ n' _ _ => hboot n') (fun n _ => hjob n) ?_ (fun _ _ _ h hs => h.restart hs) ?_
    htracks hr
  · intro ph n o r n' h hg hs
    refine h.step hg.1 (fun slot v ho => ?_) (hanswers _ _ _ _ hs)
    obtain ⟨p, hp, hv⟩ := hg.2 slot v ho
    exact ⟨p, hK p hp, hv⟩
  · unfold Machine.Config.Good
    rw [hphase, hprog]
    exact hboot x.state

/-- What the generator published, and the cycles it went through, are not forgotten. -/
theorem generator_grows {g g' : Shared}
    (hr : Relation.ReflTransGen (Step (wildGenerator sha256 k cjsonPrint)) g g') :
    g.state.http.history ⊆ g'.state.http.history := by
  induction hr with
  | refl => exact List.Subset.refl _
  | tail _ hs ih =>
      refine List.Subset.trans ih ?_
      cases hs with
      | @call ph s s' o _ r h =>
          cases o with
          | nvsFlashInit =>
              obtain ⟨-, rfl⟩ := h
              exact List.Subset.refl _
          | nvsFlashErase =>
              obtain ⟨t, -, rfl⟩ := h
              exact List.Subset.refl _
          | abort => exact h.elim
          | store o =>
              obtain ⟨t, -, rfl⟩ := h
              exact List.Subset.refl _
          | netNodeIp =>
              obtain rfl : s' = s := h
              exact List.Subset.refl _
          | fetch =>
              obtain rfl : s' = { s with cycles := r :: s.cycles } := h
              exact List.Subset.refl _
          | publish art version url =>
              obtain ⟨a, -, rfl⟩ := h
              exact httpServePublish_history cjsonPrint a art version url s.http
      | next => exact List.Subset.refl _
      | power h =>
          obtain ⟨-, hhttp, -⟩ := h
          rw [hhttp]
          exact List.Subset.refl _

/-- The bytes whose digests are compared in a deployment: those that some sinkhole hashed,
those that were published, and those of the lists that the generator made. -/
def Compared {ι : Type} (sha256 : Bytes → Digest) (k : Kconfig)
    (c : Cluster.Config Op Res Node Shared ι) : Set Bytes :=
  {b | (∃ i, b ∈ (c.member i).state.world.hashed) ∨
    (∃ p ∈ c.shared.state.http.history, b = p.art.bytes) ∨
    ∃ g, CycleMade sha256 k c.shared.state g ∧ b = g.bytes}

variable {ι : Type} [DecidableEq ι] {c₀ c : Cluster.Config Op Res Node Shared ι}

/-- **Every sinkhole serves nothing yet, or the list of one cycle.** -/
theorem deployed_serves
    (h₀ : Deployed (deployment sha256 route k cjsonPrint cjsonParse manifestUrl)
      (wildGenerator sha256 k cjsonPrint) c₀)
    (hr : Cluster.Runs (deployment sha256 route k cjsonPrint cjsonParse manifestUrl) c₀ c)
    (hmanifest : route manifestUrl = some .manifest)
    (hreads : ∀ p ∈ c.shared.state.http.history, ∀ part root, part <+: p.manifestJson →
      cjsonParse part = some root → root = p.root)
    (hinj : Set.InjOn sha256 (Compared sha256 k c)) (i : ι) :
    (c.member i).state.world.ram = Ram.init ∨
      ∃ x ∈ c.shared.state.cycles, Serves (c.member i).state.world.ram (added k x) := by
  have hgenerator := Cluster.reach_shared hr
  have hsound := Main.reach_sound h₀.generator h₀.unpublished hgenerator
  have hmember := Cluster.reach_member
    (A := fun g => Relation.ReflTransGen (Step (wildGenerator sha256 k cjsonPrint)) g c.shared)
    (fun _ _ hstep hreach => hreach.head hstep) hr .refl i
  have htracks := member_tracks (fun p => p ∈ c.shared.state.http.history) hmanifest
    (fun g p hg hp => generator_grows hg (g.state.http.current_mem p hp))
    (fun p hp => (hsound.served p hp).1) hreads (h₀.phase i) (h₀.prog i)
    ⟨fun slot d hd => absurd (hd.symm.trans (h₀.unrecorded i slot)) nofun, Or.inl (h₀.ram i)⟩
    hmember
  rcases htracks.served with hinit | ⟨buf, hbuf, hhashes, hlen, p, hp, hdigest⟩
  · exact Or.inl hinit
  right
  -- The digest tells what was hashed on the way from any other list.
  have hbytes : buf = p.art.bytes := by
    refine hinj (Or.inl ⟨i, hbuf⟩) (Or.inr (Or.inl ⟨p, hp, rfl⟩)) ?_
    rw [← hdigest, (hsound.served p hp).1.genuine.digest]
  obtain ⟨x, hx, hlist⟩ := (hsound.served p hp).2.listOf (hinj.mono (by
    rintro b (rfl | hb)
    · exact Or.inr (Or.inl ⟨p, hp, rfl⟩)
    · exact Or.inr (Or.inr hb)))
  rw [hbytes] at hhashes
  refine ⟨x, hx, ?_, ?_, ?_⟩
  · rw [hhashes, ← hlist.count]
    have hartlen : p.art.bytes.length = 8 * p.art.count := by
      have hwords := (hsound.served p hp).2.encodes
      obtain ⟨ws, henc⟩ := hwords
      rw [henc.bytes_length, henc.blobLen, henc.count]
    have := hbytes ▸ hlen
    omega
  · rw [hhashes]
    exact hlist.ascending
  · rw [hhashes]
    exact hlist.hashes

end Runs

end EspHole.System
