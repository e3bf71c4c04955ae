/-
A sinkhole on the network: which artifact its requests are answered from.

A `Node` is the device with its requests.  Opening a request is the moment the generator
answers it, from whatever it publishes then; what arrives afterwards is the beginning of
that answer, in any pieces, and the transfer may fail or end at any of them.

`checkOnce_matches` follows one update through all of it.  The manifest that was accepted is
the whole manifest of one published artifact, what the download let through are bytes of
that digest which begin a published blob, and as long as the digest tells these apart, the
list that is swapped in is that artifact's and goes by its version.
-/
import EspHole.Sinkhole.Calls
import EspHole.Sinkhole.Transfer

namespace EspHole.Sinkhole

open Ascii Generator

/-- The two routes of `http_serve_register`. -/
inductive Route
  | manifest
  | blocklist
  deriving DecidableEq, Repr

/-- The handler of a route. -/
def Route.handler : Route → HttpServer → Option Bytes
  | .manifest => manifestHandler
  | .blocklist => blocklistHandler

/-- What a route serves of an artifact. -/
def Route.body : Route → Published → Bytes
  | .manifest => fun p => p.manifestJson
  | .blocklist => fun p => p.art.bytes

theorem Route.handler_eq (x : Route) (server : HttpServer) :
    x.handler server = server.current.map x.body := by
  cases x <;> rfl

/-- A sinkhole and its requests: the device, the URL a request is made to, the artifact that
each route was last answered from, and what the answer being read has delivered. -/
structure Node where
  world : World
  url : Bytes
  asked : Route → Option Published
  got : Bytes

/-- What is still to arrive of the answer being read. -/
def arriving (inbox : List Bytes) : Bytes := (inbox.takeWhile fun chunk => chunk ≠ []).flatten

/-- A read delivers a beginning of what is still to arrive, if it delivers anything. -/
theorem readInbox_arriving {room : Nat} {inbox inbox' : List Bytes} {c : UInt8} {cs : Bytes}
    (h : readInbox room inbox = (c :: cs, inbox')) :
    arriving inbox = c :: cs ++ arriving inbox' := by
  cases inbox with
  | nil => cases h
  | cons chunk rest =>
      simp only [readInbox] at h
      by_cases hfits : chunk.length ≤ room
      · rw [if_pos hfits] at h
        obtain ⟨rfl, rfl⟩ := Prod.mk.inj h
        simp [arriving]
      · rw [if_neg hfits] at h
        obtain ⟨htake, rfl⟩ := Prod.mk.inj h
        have hne : chunk ≠ [] := by
          rintro rfl
          exact hfits (Nat.zero_le room)
        have hrest : chunk.drop room ≠ [] := by
          intro hdrop
          have := List.drop_eq_nil_iff.mp hdrop
          omega
        simp only [arriving, List.takeWhile_cons, hne, hrest, ne_eq, not_false_eq_true, decide_true,
          ↓reduceIte, List.flatten_cons]
        rw [← htake, ← List.append_assoc, List.take_append_drop]

section Calls

variable (sha256 : Bytes → Digest) (route : Bytes → Option Route)

/-- Each route as it was last answered, once this request is. -/
def Node.answered (n : Node) (server : HttpServer) : Route → Option Published :=
  match route n.url with
  | some x => Function.update n.asked x server.current
  | none => n.asked

/-- What the network makes of a call, the generator being where it is. -/
def Wire (server : HttpServer) (n : Node) : (o : Op) → Res o → World → Prop
  | .httpOpen, ok, w => ok = true → ∀ x body, route n.url = some x →
      x.handler server = some body → arriving w.inbox <+: body
  | .httpStatus, status, w => w.inbox = n.world.inbox ∧
      (status = 200 → ∃ x p, route n.url = some x ∧ n.asked x = some p)
  | .httpRead room, r, w => ∀ chunk, r = some chunk →
      readInbox room n.world.inbox = (chunk, w.inbox)
  | _, _, w => w.inbox = n.world.inbox

/-- The node after a call. -/
def Node.after (server : HttpServer) (n : Node) : (o : Op) → Res o → World → Node
  | .httpInit url, _, w => { n with world := w, url := url }
  | .httpOpen, true, w => { n with world := w, asked := n.answered route server, got := [] }
  | .httpRead _, some chunk, w => { n with world := w, got := n.got ++ chunk }
  | _, _, w => { n with world := w }

/-- A version on record can be read. -/
def ReadsVersion (s : World) : (o : Op) → Res o → Prop
  | .nvsGet (.ver slot), v => v = s.nvs (.ver slot)
  | _, _ => True

/-- Any call may fail, but flash keeps what was written. -/
def anyRead : Faults := ⟨True, False, fun _ => True⟩

/-- How a node's call may answer. -/
structure NodeStep (server : HttpServer) (n : Node) (o : Op) (r : Res o) (n' : Node) : Prop where
  answers : Answers sha256 anyRead n.world o r n'.world
  version : ReadsVersion n.world o r
  wire : Wire route server n o r n'.world
  after : n' = n.after route server o r n'.world

/-- How it may answer while the generator is in one of these states. -/
def Meets (K : HttpServer → Prop) (n : Node) (o : Op) (r : Res o) (n' : Node) : Prop :=
  ∃ server, K server ∧ NodeStep sha256 route server n o r n'

end Calls

/-! ### What one call leaves -/

/-- A call on the network. -/
def Op.onNet : Op → Bool
  | .httpInit _ | .httpOpen | .httpStatus | .httpRead _ => true
  | _ => false

/-- Nothing happened on the network. -/
structure Node.Quiet (n n' : Node) : Prop where
  url : n'.url = n.url
  asked : n'.asked = n.asked
  got : n'.got = n.got
  inbox : n'.world.inbox = n.world.inbox

theorem Node.Quiet.trans {n n' n'' : Node} (h : n.Quiet n') (h' : n'.Quiet n'') : n.Quiet n'' :=
  ⟨h'.url.trans h.url, h'.asked.trans h.asked, h'.got.trans h.got, h'.inbox.trans h.inbox⟩

section Steps

variable {sha256 : Bytes → Digest} {route : Bytes → Option Route} {K : HttpServer → Prop}
  {n n' : Node}

theorem Meets.answers {o : Op} {r : Res o} (h : Meets sha256 route K n o r n') :
    Answers sha256 anyRead n.world o r n'.world := by
  obtain ⟨_, -, hstep⟩ := h
  exact hstep.answers

theorem Meets.quiet {o : Op} {r : Res o} (h : Meets sha256 route K n o r n')
    (ho : o.onNet = false) : n.Quiet n' := by
  obtain ⟨server, -, hstep⟩ := h
  have hwire := hstep.wire
  have hafter : n' = { n with world := n'.world } := by
    cases o with
    | httpOpen => cases ho
    | httpRead room => cases ho
    | httpInit url => cases ho
    | _ => exact hstep.after
  refine ⟨by rw [hafter], by rw [hafter], by rw [hafter], ?_⟩
  cases o with
  | httpOpen => cases ho
  | httpStatus => cases ho
  | httpRead room => cases ho
  | _ => exact hwire

theorem Meets.init {url : Bytes} {ok : Bool}
    (h : Meets sha256 route K n (.httpInit url) ok n') :
    ({ n with url := url } : Node).Quiet n' := by
  obtain ⟨server, -, hstep⟩ := h
  have hafter : n' = { n with world := n'.world, url := url } := hstep.after
  exact ⟨by rw [hafter], by rw [hafter], by rw [hafter], hstep.wire⟩

/-- The request is answered by one of the artifacts the generator may serve. -/
theorem Meets.opened (h : Meets sha256 route K n .httpOpen true n') :
    ∃ server, K server ∧ n'.url = n.url ∧ n'.asked = n.answered route server ∧ n'.got = [] ∧
      ∀ x p, route n.url = some x → server.current = some p →
        arriving n'.world.inbox <+: x.body p := by
  obtain ⟨server, hK, hstep⟩ := h
  have hafter : n' = { n with world := n'.world, asked := n.answered route server, got := [] } :=
    hstep.after
  refine ⟨server, hK, by rw [hafter], by rw [hafter], by rw [hafter], fun x p hx hp =>
    hstep.wire rfl x _ hx ?_⟩
  rw [x.handler_eq, hp]
  rfl

theorem Meets.status {status : Nat} (h : Meets sha256 route K n .httpStatus status n') :
    n.Quiet n' ∧ (status = 200 → ∃ x p, route n.url = some x ∧ n.asked x = some p) := by
  obtain ⟨server, -, hstep⟩ := h
  have hafter : n' = { n with world := n'.world } := hstep.after
  exact ⟨⟨by rw [hafter], by rw [hafter], by rw [hafter], hstep.wire.1⟩, hstep.wire.2⟩

/-- The generator may be serving this artifact. -/
def Offered (K : HttpServer → Prop) (p : Published) : Prop :=
  ∃ server, K server ∧ server.current = some p

/-- An answer of this route, made from this artifact, is being read. -/
structure Reading (K : HttpServer → Prop) (n : Node) (x : Route) (p : Published) : Prop where
  offered : Offered K p
  asked : n.asked x = some p
  rest : n.got ++ arriving n.world.inbox <+: x.body p

theorem Reading.quiet {x : Route} {p : Published} (h : Reading K n x p) (hq : n.Quiet n') :
    Reading K n' x p :=
  ⟨h.offered, by rw [hq.asked]; exact h.asked, by rw [hq.got, hq.inbox]; exact h.rest⟩

theorem Reading.got {x : Route} {p : Published} (h : Reading K n x p) : n.got <+: x.body p :=
  (List.prefix_append _ _).trans h.rest

/-- A request that was granted is answered from one artifact. -/
theorem Reading.begin {n₁ : Node} {status : Nat} (hopen : Meets sha256 route K n .httpOpen true n₁)
    (hstatus : Meets sha256 route K n₁ .httpStatus status n') (hok : status = 200) :
    ∃ x p, route n.url = some x ∧ Reading K n' x p ∧ n'.got = [] ∧
      n'.asked = Function.update n.asked x (some p) := by
  obtain ⟨server, hK, hurl, hasked, hgot, hbody⟩ := hopen.opened
  obtain ⟨hq, hgrant⟩ := hstatus.status
  obtain ⟨x, p, hx, hp⟩ := hgrant hok
  rw [hurl] at hx
  have hupdate : n₁.asked = Function.update n.asked x server.current := by
    rw [hasked]
    simp only [Node.answered, hx]
  have hcurrent : server.current = some p := by
    rw [hupdate, Function.update_self] at hp
    exact hp
  refine ⟨x, p, hx, ⟨⟨server, hK, hcurrent⟩, by rw [hq.asked]; exact hp, ?_⟩,
    hq.got.trans hgot, by rw [hq.asked, hupdate, hcurrent]⟩
  rw [hq.got, hgot, hq.inbox, List.nil_append]
  exact hbody x p hx hcurrent

/-- So is every piece of it. -/
theorem Reading.read {x : Route} {p : Published} {room : Nat} {c : UInt8} {cs : Bytes}
    (h : Reading K n x p) (hread : Meets sha256 route K n (.httpRead room) (some (c :: cs)) n') :
    Reading K n' x p ∧ n'.got = n.got ++ c :: cs ∧ n'.asked = n.asked := by
  obtain ⟨server, -, hstep⟩ := hread
  have hafter : n' = { n with world := n'.world, got := n.got ++ c :: cs } := hstep.after
  have hasked : n'.asked = n.asked := by rw [hafter]
  have hgot : n'.got = n.got ++ c :: cs := by rw [hafter]
  refine ⟨⟨h.offered, by rw [hasked]; exact h.asked, ?_⟩, hgot, hasked⟩
  rw [hgot, List.append_assoc, ← readInbox_arriving (hstep.wire _ rfl)]
  exact h.rest

/-- The end of an answer leaves what was read. -/
theorem Meets.stop {room : Nat} (h : Meets sha256 route K n (.httpRead room) (some []) n') :
    n'.got = n.got ∧ n'.asked = n.asked := by
  obtain ⟨server, -, hstep⟩ := h
  have hafter : n' = { n with world := n'.world, got := n.got ++ [] } := hstep.after
  exact ⟨by rw [hafter, List.append_nil], by rw [hafter]⟩

end Steps

/-! ### The two requests -/

section Requests

variable (route : Bytes → Option Route) (K : HttpServer → Prop)

/-- Where the calls of a request to `url` are made: it is opened on the inbox it found, and
its status is asked for once the generator has answered.  What may be said of the writes and
the swaps of a commit is for each user to say. -/
def Requesting (url : Bytes) (inbox : List Bytes) (writes : Node → Prop)
    (swaps : Node → Ram → Prop) (n : Node) : Op → Prop
  | .httpOpen => n.url = url ∧ n.world.inbox = inbox
  | .httpStatus => n.url = url ∧
      ∀ x, route url = some x → ∃ server, K server ∧ n.asked x = server.current
  | .nvsSet _ _ => writes n
  | .setRam ram => swaps n ram
  | _ => True

variable {route K} {sha256 : Bytes → Digest} {url : Bytes} {inbox : List Bytes}
  {writes : Node → Prop} {swaps : Node → Ram → Prop}

/-- A weaker account of the commit. -/
theorem Requesting.mono {writes' : Node → Prop} {swaps' : Node → Ram → Prop}
    (hw : ∀ n, writes n → writes' n) (hs : ∀ n ram, swaps n ram → swaps' n ram) (n : Node) (o : Op)
    (h : Requesting route K url inbox writes swaps n o) :
    Requesting route K url inbox writes' swaps' n o := by
  cases o with
  | nvsSet k v => exact hw n h
  | setRam ram => exact hs n ram h
  | _ => exact h

theorem requesting_status {n n' : Node} (hurl : n.url = url)
    (h : Meets sha256 route K n .httpOpen true n') :
    Requesting route K url inbox writes swaps n' .httpStatus := by
  obtain ⟨server, hK, hurl', hasked, -⟩ := h.opened
  refine ⟨hurl'.trans hurl, fun x hx => ⟨server, hK, ?_⟩⟩
  rw [hasked]
  simp only [Node.answered, hurl, hx, Function.update_self]

theorem fetchLoop_reads {x : Route} {p : Published} (room : Nat) : ∀ (body : Bytes) (n : Node),
    n.got = body → Reading K n x p →
      (fetchLoop room body).Safe (Meets sha256 route K) (Requesting route K url inbox writes swaps)
        (fun r n' => n'.asked = n.asked ∧ ∀ text, r = some text → text <+: x.body p) n := by
  induction room using Nat.strong_induction_on with
  | _ room ih =>
      intro body n hbody hn
      have hwhole : body <+: x.body p := hbody ▸ hn.got
      rw [fetchLoop]
      by_cases h0 : room = 0
      · rw [dif_pos h0]
        exact ⟨rfl, fun text h => Option.some.inj h ▸ hwhole⟩
      · rw [dif_neg h0]
        refine Prog.safe_call_bind.mpr ⟨trivial, fun (r : Option Bytes) n₁ h₁ => ?_⟩
        rcases r with _ | _ | ⟨c, cs⟩
        · obtain ⟨server, -, hstep⟩ := h₁
          have hafter : n₁ = { n with world := n₁.world } := hstep.after
          exact ⟨by rw [hafter], fun _ h => by cases h⟩
        · exact ⟨h₁.stop.2, fun text h => Option.some.inj h ▸ hwhole⟩
        · obtain ⟨hn₁, hgot, hasked⟩ := hn.read h₁
          refine (ih _ (by simp; omega) _ n₁ (by rw [hgot, hbody]) hn₁).post fun _ _ h => ?_
          exact ⟨h.1.trans hasked, h.2⟩

/-- **What a manifest request brings back** is the beginning of one artifact's answer. -/
theorem fetchManifest_reads (url : Bytes) (n : Node) :
    (fetchManifest url).Safe (Meets sha256 route K)
      (Requesting route K url n.world.inbox writes swaps)
      (fun r n' => ∀ text, r = some text → ∃ x p, route url = some x ∧ Offered K p ∧
        text <+: x.body p ∧ n'.asked = Function.update n.asked x (some p)) n := by
  unfold fetchManifest
  refine Prog.safe_call_bind.mpr ⟨trivial, fun (ok : Bool) n₁ h₁ => ?_⟩
  have hq₁ := h₁.init
  have hurl : n₁.url = url := hq₁.url
  cases ok with
  | false => exact nofun
  | true =>
      refine Prog.safe_call_bind.mpr ⟨⟨hq₁.url, hq₁.inbox⟩, fun (ok : Bool) n₂ h₂ => ?_⟩
      cases ok with
      | false => exact nofun
      | true =>
          refine Prog.safe_call_bind.mpr ⟨requesting_status hurl h₂, fun (status : Nat) n₃ h₃ => ?_⟩
          show Prog.Safe _ _ _ (if _ then _ else _) n₃
          by_cases hst : status ≠ 200
          · rw [if_pos hst]
            exact nofun
          · rw [if_neg hst]
            obtain ⟨x, p, hx, hreading, hgot, hasked⟩ := Reading.begin h₂ h₃ (not_not.mp hst)
            refine (fetchLoop_reads manifestRoom [] n₃ hgot hreading).post fun r n' h text ht => ?_
            refine ⟨x, p, by rw [← hurl]; exact hx, hreading.offered, h.2 text ht, ?_⟩
            rw [h.1, hasked, hq₁.asked]

/-- The slot holds these bytes, and up to `size` nothing else. -/
def Filled (s : World) (slot : Int) (fed : Bytes) (size : Nat) : Prop :=
  ∀ a < size, s.flash slot a = fed.getD a 0xFF

theorem Filled.congr {s s' : World} {slot : Int} {fed : Bytes} {size : Nat}
    (h : Filled s slot fed size) (hflash : s'.flash = s.flash) : Filled s' slot fed size := by
  intro a ha
  rw [hflash]
  exact h a ha

theorem Filled.program {s : World} {slot : Int} {fed : Bytes} {size : Nat}
    (h : Filled s slot fed size) (data : Bytes) :
    Filled (s.program slot fed.length data) slot (fed ++ data) size := by
  intro a ha
  simp only [World.program, Function.update_self, h a ha]
  by_cases hlo : fed.length ≤ a
  · rw [if_pos hlo]
    simp [List.getElem?_eq_none hlo, List.getElem?_append_right hlo, ones_and]
  · rw [if_neg hlo]
    simp [List.getElem?_append_left (by omega : a < fed.length)]

theorem Filled.slotBytes {s : World} {slot : Int} {fed : Bytes} {size : Nat}
    (h : Filled s slot fed size) (hsize : fed.length = size) : s.slotBytes slot size = fed := by
  subst hsize
  refine List.ext_getElem (by simp) fun i hi hi' => ?_
  simp [World.slotBytes, h i hi', List.getElem?_eq_getElem hi']

/-- A call that leaves flash alone. -/
theorem Meets.flash {n n' : Node} {o : Op} {r : Res o} (h : Meets sha256 route K n o r n')
    (ho : o.reads = true) : n'.world.flash = n.world.flash :=
  (h.answers.still ho).flash not_false

/-- The download loop fills the slot with what it reads. -/
theorem downloadLoop_fills {m : Manifest} {slot : Int} {x : Route} {p : Published} (left : Nat) :
    ∀ (fed : Bytes) (n : Node), m.size - fed.length = left → n.got = fed → Reading K n x p →
      Filled n.world slot fed m.size →
      (downloadLoop m slot fed).Safe (Meets sha256 route K)
        (Requesting route K url inbox writes swaps)
        (fun r n' => n'.asked = n.asked ∧ (∀ e, r = .error e → e ≠ .ok) ∧
          ∀ fed', r = .ok fed' →
            n'.got = fed' ∧ fed' <+: x.body p ∧ Filled n'.world slot fed' m.size) n := by
  induction left using Nat.strong_induction_on with
  | _ left ih =>
      intro fed n hleft hfed hn hfill
      rw [downloadLoop]
      refine Prog.safe_call_bind.mpr ⟨trivial, fun (r : Option Bytes) n₁ h₁ => ?_⟩
      have hfill₁ := hfill.congr (h₁.flash rfl)
      rcases r with _ | _ | ⟨c, cs⟩
      · obtain ⟨server, -, hstep⟩ := h₁
        have hafter : n₁ = { n with world := n₁.world } := hstep.after
        exact ⟨by rw [hafter], by rintro e ⟨⟩; decide, fun _ h => by cases h⟩
      · refine ⟨h₁.stop.2, (fun _ h => by cases h), fun fed' h => ?_⟩
        obtain rfl := Except.ok.inj h
        exact ⟨h₁.stop.1.trans hfed, hfed ▸ hn.got, hfill₁⟩
      · obtain ⟨hn₁, hgot, hasked⟩ := hn.read h₁
        show Prog.Safe _ _ _ (if _ : _ then _ else _) n₁
        by_cases hbig : fed.length + (c :: cs).length > m.size
        · rw [dif_pos hbig]
          exact ⟨hasked, by rintro e ⟨⟩; decide, fun _ h => by cases h⟩
        rw [dif_neg hbig]
        refine Prog.safe_call_bind.mpr ⟨trivial, fun (ok : Bool) n₂ h₂ => ?_⟩
        have hq₂ := h₂.quiet rfl
        have hfill₂ := hfill₁.congr (h₂.flash rfl)
        cases ok with
        | false => exact ⟨hq₂.asked.trans hasked, by rintro e ⟨⟩; decide, fun _ h => by cases h⟩
        | true =>
            refine Prog.safe_call_bind.mpr ⟨trivial, fun (ok : Bool) n₃ h₃ => ?_⟩
            have hq₃ := hq₂.trans (h₃.quiet rfl)
            cases ok with
            | false => exact ⟨hq₃.asked.trans hasked, by rintro e ⟨⟩; decide, fun _ h => by cases h⟩
            | true =>
                have hfill₃ : Filled n₃.world slot (fed ++ c :: cs) m.size :=
                  (hfill₂.program (c :: cs)).congr (h₃.answers.2 rfl not_false)
                refine (ih _ (by simp at hbig ⊢; omega) _ n₃ rfl
                  (by rw [hq₃.got, hgot, hfed]) (hn₁.quiet hq₃) hfill₃).post fun _ _ h => ?_
                exact ⟨h.1.trans (hq₃.asked.trans hasked), h.2⟩

/-- What a download that succeeded leaves: in the slot and on the wire, bytes of the
announced size and digest that begin one artifact's answer. -/
structure Fetched (sha256 : Bytes → Digest) (route : Bytes → Option Route) (K : HttpServer → Prop)
    (m : Manifest) (slot : Int) (n n' : Node) : Prop where
  size : n'.got.length = m.size
  digest : sha256 n'.got = m.sha256
  slot : n'.world.slotBytes slot m.size = n'.got
  answer : ∃ x p, route m.url = some x ∧ Offered K p ∧ n'.got <+: x.body p ∧
    n'.asked = Function.update n.asked x (some p)

/-- **What a download brings back.** -/
theorem downloadToSlot_fetches (m : Manifest) (slot : Int) (n : Node) :
    (downloadToSlot m slot).Safe (Meets sha256 route K)
      (Requesting route K m.url n.world.inbox writes swaps)
      (fun e n' => e = .ok → Fetched sha256 route K m slot n n') n := by
  unfold downloadToSlot
  rcases hpart : blocklistSlotPartition slot with _ | partSize
  · exact nofun
  obtain ⟨hslot, rfl⟩ := blocklistSlotPartition_some hpart
  show Prog.Safe _ _ _ (if _ then _ else _) n
  by_cases hbig : m.size > slotSize
  · rw [if_pos hbig]
    exact nofun
  rw [if_neg hbig]
  refine Prog.safe_call_bind.mpr ⟨trivial, fun (ok : Bool) n₁ h₁ => ?_⟩
  have hq₁ := h₁.quiet rfl
  cases ok with
  | false => exact nofun
  | true =>
  have hfill₁ : Filled n₁.world slot [] m.size := fun a ha =>
    h₁.answers.2 rfl not_false a (lt_of_lt_of_le ha (le_eraseRange m.size))
  refine Prog.safe_call_bind.mpr ⟨trivial, fun (ok : Bool) n₂ h₂ => ?_⟩
  have hq₂ := h₂.init
  cases ok with
  | false => exact nofun
  | true =>
  refine Prog.safe_call_bind.mpr ⟨trivial, fun (ok : Bool) n₃ h₃ => ?_⟩
  have hq₃ := hq₂.trans (h₃.quiet rfl)
  have hurl : n₃.url = m.url := hq₃.url
  cases ok with
  | false => exact nofun
  | true =>
  refine Prog.safe_call_bind.mpr ⟨⟨hurl, hq₃.inbox.trans hq₁.inbox⟩, fun (ok : Bool) n₄ h₄ => ?_⟩
  cases ok with
  | false => exact nofun
  | true =>
  refine Prog.safe_call_bind.mpr ⟨requesting_status hurl h₄, fun (status : Nat) n₅ h₅ => ?_⟩
  show Prog.Safe _ _ _ (if _ then _ else _) n₅
  by_cases hst : status ≠ 200
  · rw [if_pos hst]
    exact nofun
  rw [if_neg hst]
  obtain ⟨x, p, hx, hreading, hgot, hasked⟩ := Reading.begin h₄ h₅ (not_not.mp hst)
  have hfill₅ : Filled n₅.world slot [] m.size :=
    (((hfill₁.congr (h₂.flash rfl)).congr (h₃.flash rfl)).congr (h₄.flash rfl)).congr (h₅.flash rfl)
  refine Prog.safe_bind.mpr ((downloadLoop_fills _ [] n₅ rfl hgot hreading hfill₅).post
    fun r n₆ h₆ => ?_)
  rcases r with e | fed
  · exact fun h => absurd h (h₆.2.1 e rfl)
  obtain ⟨hgot₆, hfed, hfill₆⟩ := h₆.2.2 fed rfl
  show Prog.Safe _ _ _ (if _ then _ else _) n₆
  by_cases hshort : fed.length ≠ m.size
  · rw [if_pos hshort]
    exact nofun
  rw [if_neg hshort]
  refine Prog.safe_call_bind.mpr ⟨trivial, fun (got : Option Digest) n₇ h₇ => ?_⟩
  have hq₇ := h₇.quiet rfl
  rcases got with _ | got
  · exact nofun
  show Prog.Safe _ _ _ (if _ then _ else _) n₇
  by_cases hdig : got ≠ m.sha256
  · rw [if_pos hdig]
    exact nofun
  rw [if_neg hdig]
  have hgot₇ : n₇.got = fed := hq₇.got.trans hgot₆
  have hsize : fed.length = m.size := not_not.mp hshort
  refine fun _ => ⟨by rw [hgot₇, hsize], ?_, ?_, x, p, by rw [← hurl]; exact hx,
    hreading.offered, by rw [hgot₇]; exact hfed, ?_⟩
  · rw [hgot₇, ← not_not.mp hdig]
    rcases h₇.answers.2.2 with heq | hf
    · exact (Option.some.inj heq).symm
    · cases hf.2
  · rw [hgot₇]
    exact (hfill₆.congr (h₇.flash rfl)).slotBytes hsize
  · rw [hq₇.asked, h₆.1, hasked, hq₃.asked]
    exact congrArg (Function.update · x (some p)) hq₁.asked

end Requests

/-! ### The commit -/

/-- Nothing happened on the network, and neither NVS nor flash changed. -/
structure Node.Same (n n' : Node) : Prop where
  quiet : n.Quiet n'
  nvs : n'.world.nvs = n.world.nvs
  flash : n'.world.flash = n.world.flash

theorem Node.Same.refl (n : Node) : n.Same n := ⟨⟨rfl, rfl, rfl, rfl⟩, rfl, rfl⟩

theorem Node.Same.trans {n n' n'' : Node} (h : n.Same n') (h' : n'.Same n'') : n.Same n'' :=
  ⟨h.quiet.trans h'.quiet, h'.nvs.trans h.nvs, h'.flash.trans h.flash⟩

section Commit

variable {sha256 : Bytes → Digest} {route : Bytes → Option Route} {K : HttpServer → Prop}
  {url : Bytes} {inbox : List Bytes} {writes : Node → Prop}

theorem Meets.same {n n' : Node} {o : Op} {r : Res o} (h : Meets sha256 route K n o r n')
    (hr : o.reads = true) (ho : o.onNet = false) : n.Same n' :=
  ⟨h.quiet ho, (h.answers.still hr).nvs, h.flash hr⟩

/-- A write of a key that succeeds. -/
theorem Meets.nvsSet {n n' : Node} {k : Key} {v : k.Val}
    (h : Meets sha256 route K n (.nvsSet k v) true n') :
    n'.world.nvs = (n.world.setNvs k v).nvs ∧ n'.world.flash = n.world.flash := by
  have hs := h.answers.nvsSet_true
  exact ⟨hs.nvs, hs.flash not_false⟩

/-- A load asks nothing of the network. -/
theorem Op.offNet_of_loads {o : Op} (h : o.loads = true) : o.onNet = false := by
  cases o with
  | httpInit url => cases h
  | httpOpen => cases h
  | httpStatus => cases h
  | httpRead room => cases h
  | _ => rfl

/-- A load installs its own slot, under the version on record. -/
theorem loadSlot_installs (slot : Int) (n : Node) :
    (loadSlot slot).Safe (Meets sha256 route K)
      (Requesting route K url inbox writes fun n' ram => n.Same n' ∧ ram.active = slot ∧
        ram.version = storedVersion (n.world.nvs (.ver slot))) (fun _ n' => n.Quiet n') n := by
  have hswaps := loadSlot_swaps (Meets sha256 route K) slot (n.world.nvs (.ver slot))
    (J := fun n' => n.Same n')
    (fun _ _ _ _ hs hl hr h => hs.trans (h.same hr (Op.offNet_of_loads hl))) ?_ (Node.Same.refl n)
  · refine hswaps.mono (fun n' o h => ?_) fun e n' h => ?_
    · cases o with
      | setRam ram => exact ⟨h.1, h.2.2 ram rfl⟩
      | httpOpen => cases h.2.1
      | httpStatus => cases h.2.1
      | nvsSet k v => cases h.2.1
      | _ => trivial
    · rcases h with ⟨-, hs⟩ | ⟨-, n₁, ram, hs, -, -, h₁⟩
      · exact hs.quiet
      · exact hs.quiet.trans (h₁.quiet rfl)
  · rintro n₁ r n₂ hs ⟨server, -, hstep⟩
    rw [← hs.nvs]
    exact hstep.version

/-- What a commit swaps in: its own slot, untouched since it was filled, with the count, the
digest and the version that it was given. -/
structure Installs (n : Node) (slot : Int) (count : Nat) (digest : Digest) (version : Bytes)
    (n' : Node) (ram : Ram) : Prop where
  quiet : n.Quiet n'
  flash : n'.world.flash = n.world.flash
  active : ram.active = slot
  cnt : n'.world.nvs (.cnt slot) = some (sizeT count)
  sha : n'.world.nvs (.sha slot) = some digest.bytes
  version : ram.version = storedVersion (some version)

/-- **What a commit writes and swaps in**; it asks nothing of the network. -/
theorem blocklistCommitSlot_installs (slot : Int) (count : Nat) (digest : Digest) (version : Bytes)
    (n : Node) :
    (blocklistCommitSlot slot count digest version).Safe (Meets sha256 route K)
      (Requesting route K url inbox n.Quiet (Installs n slot count digest version))
      (fun _ n' => n.Quiet n') n := by
  unfold blocklistCommitSlot
  refine Prog.safe_call_bind.mpr ⟨trivial, fun (ram : Ram) n₁ h₁ => ?_⟩
  have hs₁ := h₁.same rfl rfl
  show Prog.Safe _ _ _ (if _ then _ else _) n₁
  by_cases hbad : slot < 0 ∨ slot ≥ blocklistSlots ∨ slot = ram.active
  · rw [if_pos hbad]
    exact hs₁.quiet
  rw [if_neg hbad]
  refine Prog.safe_call_bind.mpr ⟨hs₁.quiet, fun (ok : Bool) n₂ h₂ => ?_⟩
  have hq₂ := hs₁.quiet.trans (h₂.quiet rfl)
  cases ok with
  | false => exact hq₂
  | true =>
  obtain ⟨hnvs₂, hflash₂⟩ := h₂.nvsSet
  refine Prog.safe_call_bind.mpr ⟨hq₂, fun (ok : Bool) n₃ h₃ => ?_⟩
  have hq₃ := hq₂.trans (h₃.quiet rfl)
  cases ok with
  | false => exact hq₃
  | true =>
  obtain ⟨hnvs₃, hflash₃⟩ := h₃.nvsSet
  refine Prog.safe_call_bind.mpr ⟨hq₃, fun (ok : Bool) n₄ h₄ => ?_⟩
  have hq₄ := hq₃.trans (h₄.quiet rfl)
  cases ok with
  | false => exact hq₄
  | true =>
  obtain ⟨hnvs₄, hflash₄⟩ := h₄.nvsSet
  refine Prog.safe_call_bind.mpr ⟨trivial, fun (ok : Bool) n₅ h₅ => ?_⟩
  have hs₅ := h₅.same rfl rfl
  have hq₅ := hq₄.trans hs₅.quiet
  cases ok with
  | false => exact hq₅
  | true =>
  have hver : n₅.world.nvs (.ver slot) = some version := by
    rw [hs₅.nvs, hnvs₄, World.setNvs_same]
  have hsha : n₅.world.nvs (.sha slot) = some digest.bytes := by
    rw [hs₅.nvs, hnvs₄, World.setNvs_of_ne _ _ (by simp), hnvs₃, World.setNvs_same]
  have hcnt : n₅.world.nvs (.cnt slot) = some (sizeT count) := by
    rw [hs₅.nvs, hnvs₄, World.setNvs_of_ne _ _ (by simp), hnvs₃, World.setNvs_of_ne _ _ (by simp),
      hnvs₂, World.setNvs_same]
  have hflash₅ : n₅.world.flash = n.world.flash := by
    rw [hs₅.flash, hflash₄, hflash₃, hflash₂, hs₁.flash]
  unfold activateSlot
  refine Prog.safe_bind.mpr ((loadSlot_installs slot n₅).mono
    (Requesting.mono (fun _ h => h) fun n' ram h => ?_) fun e n₆ hq₆ => ?_)
  · obtain ⟨hs, hact, hversion⟩ := h
    exact ⟨hq₅.trans hs.quiet, hs.flash.trans hflash₅, hact, by rw [hs.nvs, hcnt],
      by rw [hs.nvs, hsha], by rw [hversion, hver]⟩
  · show Prog.Safe _ _ _ (if _ then _ else _) n₆
    by_cases he : e ≠ .ok
    · rw [if_pos he]
      exact hq₅.trans hq₆
    · rw [if_neg he]
      refine Prog.safe_call_bind.mpr ⟨hq₅.trans hq₆, fun _ n₇ h₇ => ?_⟩
      refine Prog.safe_call_bind.mpr ⟨trivial, fun _ n₈ h₈ => ?_⟩
      exact hq₅.trans (hq₆.trans ((h₇.quiet rfl).trans (h₈.quiet rfl)))

end Commit

/-! ### One update -/

/-- The manifest that was read last is this artifact's, and what the network delivered since
is its blob. -/
structure Paired (p : Published) (n : Node) : Prop where
  manifest : n.asked .manifest = some p
  got : n.got = p.art.bytes

theorem Paired.quiet {p : Published} {n n' : Node} (h : Paired p n) (hq : n.Quiet n') :
    Paired p n' :=
  ⟨by rw [hq.asked]; exact h.manifest, by rw [hq.got]; exact h.got⟩

/-- What is about to be swapped in lies in its slot under its keys, and all of it is this
artifact's. -/
structure Takes (p : Published) (n : Node) (ram : Ram) : Prop where
  paired : Paired p n
  slot : n.world.slotBytes ram.active p.art.blobLen = p.art.bytes
  cnt : n.world.nvs (.cnt ram.active) = some (sizeT p.art.count)
  sha : n.world.nvs (.sha ram.active) = some p.art.sha256.bytes
  version : ram.version = strlcpy p.version blocklistVersionMax
  size : p.art.blobLen = sizeT (p.art.count * 8)

/-- The list about to be swapped in is the blob of this artifact, by its count, its digest
and its version. -/
structure Matches (p : Published) (n : Node) (ram : Ram) : Prop where
  paired : Paired p n
  blob : ram.hashes.flatMap Words.encode = p.art.bytes
  count : ram.count = p.art.count
  sha256 : n.world.nvs (.sha ram.active) = some p.art.sha256.bytes
  version : ram.version = strlcpy p.version blocklistVersionMax

section Update

variable {sha256 : Bytes → Digest} {route : Bytes → Option Route} {K : HttpServer → Prop}
  {cjsonParse : Bytes → Option Json} {manifestUrl : Bytes}

theorem Takes.matches {p : Published} {n : Node} {ram : Ram} {buf : Bytes} (h : Takes p n ram)
    (hp : p.Made sha256) (hl : Loaded sha256 False n.world ram buf) : Matches p n ram := by
  have hcount : ram.count = p.art.count := by
    rw [Option.some.inj (hl.stored.symm.trans h.cnt), sizeT_of_lt hp.genuine.count_lt]
  have hfits := hl.fits
  unfold slotSize at hfits
  have hlen : p.art.blobLen = 8 * ram.count := by
    rw [h.size, ← hcount, sizeT_of_lt (by omega), Nat.mul_comm]
  have hbuf : buf = p.art.bytes := by
    rw [hl.content not_false, ← hlen, h.slot]
  refine ⟨h.paired, ?_, hcount, h.sha, h.version⟩
  rw [hl.hashes, Words.encode_words hl.length, hbuf]

/-- The manifest is read as its artifact's, or not read. -/
theorem parseManifest_published {p : Published} (hp : p.Made sha256)
    (hreads : ∀ part root, part <+: p.manifestJson → cjsonParse part = some root → root = p.root)
    {text : Bytes} (htext : text <+: p.manifestJson) {m : Manifest}
    (hm : parseManifest cjsonParse (cstr text) = some m) : m = p.manifest := by
  have hplain : cstr text = text := cstr_eq_self fun h => hp.plain (htext.subset h)
  obtain ⟨root, hroot, hm⟩ := Option.bind_eq_some_iff.mp hm
  rw [hplain] at hroot
  rw [hreads text root htext hroot] at hm
  exact hp.reads hm

/-- What an accepted manifest of `p` sets off: unless the download brings exactly the blob of
`p`, nothing is written to NVS and nothing is swapped in. -/
theorem applyManifest_takes {p : Published} {n : Node} (hp : p.Made sha256) (hoffered : Offered K p)
    (hsize : p.manifest.Accepted) (hasked : n.asked .manifest = some p)
    (hurl : route p.manifest.url ≠ some .manifest)
    (hinj : Set.InjOn sha256 {b | ∃ q, Offered K q ∧ b <+: q.art.bytes}) :
    (applyManifest p.manifest).Safe (Meets sha256 route K)
      (Requesting route K p.manifest.url n.world.inbox (Paired p) (Takes p))
      (fun _ _ => True) n := by
  unfold applyManifest
  refine Prog.safe_call_bind.mpr ⟨trivial, fun (ram : Ram) n₁ h₁ => ?_⟩
  have hq₁ := h₁.quiet rfl
  show Prog.Safe _ _ _ (if _ then _ else _) n₁
  by_cases hsame : blocklistActiveVersion ram = p.manifest.version
  · rw [if_pos hsame]
    trivial
  rw [if_neg hsame]
  refine Prog.safe_call_bind.mpr ⟨trivial, fun _ n₂ h₂ => ?_⟩
  have hq₂ := hq₁.trans (h₂.quiet rfl)
  have hdown : (downloadToSlot p.manifest (blocklistInactiveSlot ram)).Safe (Meets sha256 route K)
      (Requesting route K p.manifest.url n₂.world.inbox (Paired p) (Takes p)) _ n₂ :=
    downloadToSlot_fetches _ _ n₂
  rw [hq₂.inbox] at hdown
  refine Prog.safe_bind.mpr (hdown.post fun e n₃ h₃ => ?_)
  show Prog.Safe _ _ _ (if _ then _ else _) n₃
  by_cases he : e = .ok
  swap
  · rw [if_neg he]
    trivial
  rw [if_pos he]
  obtain ⟨hlen, hdig, hslot, x, q, hx, hq, hgot, hasked₃⟩ := h₃ he
  have hblocklist : x = .blocklist := by
    cases x with
    | manifest => exact absurd hx hurl
    | blocklist => rfl
  subst hblocklist
  -- The digest tells what the download brought from every other beginning of a blob.
  have hblob : n₃.got = p.art.bytes := by
    refine hinj ⟨q, hq, hgot⟩ ⟨p, hoffered, List.prefix_refl _⟩ ?_
    rw [hdig, ← hp.genuine.digest]
    rfl
  have hmanifest : n₃.asked .manifest = some p := by
    rw [hasked₃, Function.update_of_ne (by decide), hq₂.asked]
    exact hasked
  have hpaired : Paired p n₃ := ⟨hmanifest, hblob⟩
  refine Prog.safe_bind.mpr ((blocklistCommitSlot_installs (blocklistInactiveSlot ram)
    p.manifest.count p.manifest.sha256 p.manifest.version n₃).mono
      (Requesting.mono (fun _ hq => hpaired.quiet hq) fun n' ram' h => ?_) fun _ _ _ => trivial)
  refine ⟨hpaired.quiet h.quiet, ?_,
    by rw [h.active]; exact h.cnt, by rw [h.active]; exact h.sha, ?_, hsize.size⟩
  · rw [h.active, ← hblob, ← hslot]
    unfold World.slotBytes
    rw [h.flash]
    rfl
  · rw [h.version]
    exact if_pos hsize.version

/-- What an update commits, to NVS and to RAM, is of one artifact. -/
def Commits (K : HttpServer → Prop) (T : Published → Node → Ram → Prop) (n : Node) (o : Op) :
    Prop :=
  (∀ k v, o = .nvsSet k v → ∃ p, Offered K p ∧ Paired p n) ∧
    ∀ ram, o = .setRam ram → ∃ p, Offered K p ∧ T p n ram

theorem Requesting.commits {T : Published → Node → Ram → Prop} {url : Bytes} {inbox : List Bytes}
    {writes : Node → Prop} {swaps : Node → Ram → Prop}
    (hwrites : ∀ n, writes n → ∃ p, Offered K p ∧ Paired p n)
    (hswaps : ∀ n ram, swaps n ram → ∃ p, Offered K p ∧ T p n ram) (n : Node) (o : Op)
    (h : Requesting route K url inbox writes swaps n o) : Commits K T n o := by
  refine ⟨?_, ?_⟩
  · rintro k v rfl
    exact hwrites n h
  · rintro ram rfl
    exact hswaps n ram h

/-- **What an update commits** is all of one artifact: of all that the generator may have
served meanwhile, the one whose manifest was accepted. -/
theorem checkOnce_takes (hmanifest : route manifestUrl = some .manifest)
    (hmade : ∀ p, Offered K p → p.Made sha256)
    (hreads : ∀ p, Offered K p → ∀ part root, part <+: p.manifestJson →
      cjsonParse part = some root → root = p.root)
    (hurl : ∀ p, Offered K p → route p.manifest.url ≠ some .manifest)
    (hinj : Set.InjOn sha256 {b | ∃ q, Offered K q ∧ b <+: q.art.bytes}) (n : Node) :
    (checkOnce cjsonParse manifestUrl).Safe (Meets sha256 route K) (Commits K Takes)
      (fun _ _ => True) n := by
  unfold checkOnce
  have hfetch : (fetchManifest manifestUrl).Safe (Meets sha256 route K)
      (Requesting route K manifestUrl n.world.inbox (fun _ => False) fun _ _ => False) _ n :=
    fetchManifest_reads _ n
  refine Prog.safe_bind.mpr (hfetch.mono
    (Requesting.commits (fun _ h => h.elim) fun _ _ h => h.elim) fun r n₁ h₁ => ?_)
  rcases r with _ | _ | ⟨c, cs⟩
  · trivial
  · trivial
  · dsimp only
    rcases hm : parseManifest cjsonParse (cstr (c :: cs)) with _ | m
    · trivial
    obtain ⟨x, p, hx, hp, htext, hasked⟩ := h₁ _ rfl
    obtain rfl := Option.some.inj (hmanifest.symm.trans hx)
    obtain rfl := parseManifest_published (hmade p hp) (hreads p hp) htext hm
    exact (applyManifest_takes (hmade p hp) hp (parseManifest_accepted hm)
      (by rw [hasked, Function.update_self]) (hurl p hp) hinj).mono
      (Requesting.commits (fun _ h => ⟨p, hp, h⟩) fun _ _ h => ⟨p, hp, h⟩) fun _ _ h => h

/-- **What an update swaps in** is the list of one artifact, under its own version. -/
theorem checkOnce_matches (hmanifest : route manifestUrl = some .manifest)
    (hmade : ∀ p, Offered K p → p.Made sha256)
    (hreads : ∀ p, Offered K p → ∀ part root, part <+: p.manifestJson →
      cjsonParse part = some root → root = p.root)
    (hurl : ∀ p, Offered K p → route p.manifest.url ≠ some .manifest)
    (hinj : Set.InjOn sha256 {b | ∃ q, Offered K q ∧ b <+: q.art.bytes}) (n : Node) :
    (checkOnce cjsonParse manifestUrl).Safe (Meets sha256 route K) (Commits K Matches)
      (fun _ _ => True) n := by
  have hdisc : (checkOnce cjsonParse manifestUrl).Safe (Answers sha256 anyRead)
      (Disciplined sha256 False) (fun _ _ => True) n.world := checkOnce_safe _ _ _
  have hloads : (checkOnce cjsonParse manifestUrl).Safe (Meets sha256 route K)
      (fun n o => Disciplined sha256 False n.world o) (fun _ _ => True) n :=
    hdisc.comap fun _ _ _ _ h => h.answers
  refine (hloads.and (checkOnce_takes hmanifest hmade hreads hurl hinj n)).mono
    (fun n' o h => ⟨h.2.1, ?_⟩) fun _ _ _ => trivial
  rintro ram rfl
  obtain ⟨⟨buf, hl⟩, -, htakes⟩ := h
  obtain ⟨p, hp, hpt⟩ := htakes ram rfl
  exact ⟨p, hp, hpt.matches (hmade p hp) hl⟩

end Update

end EspHole.Sinkhole
