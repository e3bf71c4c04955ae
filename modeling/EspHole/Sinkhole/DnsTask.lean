/-
The serve loop: `make_nxdomain`, `forward_upstream` and `dns_task` of
`main/dns_sinkhole.c`.

One turn of the loop takes what `recvfrom` returned, and answers it with NXDOMAIN, from
the cache, from upstream, or not at all.  Everything the turn cannot decide is in a
`Turn`: what arrives on the two sockets, the clock, and the answers of
`blocklist_contains`, one for each call, since the list may be swapped between two of
them.  `Outcome` says once what a turn can do, and the results on runs go through it.

`forwarded`, `relayed` and `time` are for statements only and no turn reads them: the
queries sent upstream, the answers `forward_upstream` returned, and the last reading of
the clock.
-/
import Mathlib.Logic.Relation
import EspHole.Sinkhole.Cache
import EspHole.Sinkhole.Lookup
import EspHole.Sinkhole.Question

namespace EspHole.Sinkhole

open Ascii Relation

/-! ### Packets -/

/-- `make_nxdomain`, and the part of the buffer that is sent. -/
def makeNxdomain (pkt : Bytes) (qEnd : Nat) : Bytes :=
  let flags := 0x80 ||| (pkt.getD 2 0 &&& 0x79)
  (pkt.take 2 ++ [flags, 0x83, 0, 1, 0, 0, 0, 0, 0, 0] ++ pkt.drop 12).take qEnd

/-- The receive loop of `forward_upstream`; `recv i` is what its `i`-th call returns. -/
def recvLoop (query : Bytes) (recv : Nat → Option Bytes) : Nat → Nat → Option Bytes
  | 0, _ => none
  | tries + 1, i =>
      match recv i with
      | none => none
      | some ans =>
          if ans.length ≥ 12 ∧ ans[0]? = query[0]? ∧ ans[1]? = query[1]? ∧
              (ans.getD 2 0) &&& 0x80 ≠ 0 then some ans
          else recvLoop query recv tries (i + 1)

/-- `forward_upstream`; `none` is the -1 of a timeout or an error. -/
def forwardUpstream (query : Bytes) (sent : Bool) (recv : Nat → Option Bytes) : Option Bytes :=
  if sent then recvLoop query recv 4 0 else none

/-- The query's type, the two bytes before its class. -/
def qtype (pkt : Bytes) (qEnd : Nat) : Option UInt16 := do
  some ((← pkt[qEnd - 4]?).toUInt16 <<< 8 ||| (← pkt[qEnd - 3]?).toUInt16)

/-- `cache_key` -/
def cacheKey (name : Bytes) (type : UInt16) : UInt64 :=
  domainHash (cstr name) ^^^ type.toUInt64 <<< 32

/-- A stored answer under this query's transaction ID. -/
def patchId (pkt data : Bytes) : Bytes := (data.set 0 (pkt.getD 0 0)).set 1 (pkt.getD 1 0)

theorem patchId_split {pkt data : Bytes} (hpkt : 2 ≤ pkt.length) (hdata : 2 ≤ data.length) :
    (patchId pkt data).take 2 = pkt.take 2 ∧ (patchId pkt data).drop 2 = data.drop 2 := by
  match pkt, data, hpkt, hdata with
  | _ :: _ :: _, _ :: _ :: _, _, _ => exact ⟨rfl, rfl⟩

/-! ### One turn -/

/-- What one turn of the loop is given. -/
structure Turn where
  packet : Option (Nat × Bytes)
  contains : Nat → UInt64 → Option Bool
  now : Int
  sent : Bool
  recv : Nat → Option Bytes
  done : Int

/-- What one turn does to the outside. -/
inductive Effect
  | countBlocked
  | countForwarded (latUs : UInt32)
  | countTimeout
  | toUpstream (data : Bytes)
  | toClient (client : Nat) (data : Bytes)
  deriving DecidableEq, Repr

/-- An answer of `forward_upstream`, with its query and the time it is stored under. -/
structure Relay where
  query : Bytes
  now : Int
  answer : Bytes
  deriving DecidableEq, Repr

/-- What the loop keeps from turn to turn. -/
structure Server where
  cache : Cache
  forwarded : List Bytes
  relayed : List Relay
  time : Int

def Server.init (time : Int) : Server := ⟨.init, [], [], time⟩

/-- The `i`-th call of `blocklist_contains` is given the `i`-th answer. -/
def askEach (contains : Nat → UInt64 → Option Bool) (h : UInt64) : StateT Nat Option Bool :=
  fun i => (contains i h).map fun b => (b, i + 1)

/-- `is_blocked`, as this turn evaluates it. -/
def Turn.isBlocked (t : Turn) (name : Bytes) : Option Bool :=
  ((Sinkhole.isBlocked (askEach t.contains) name).run 0).map Prod.fst

/-- The cache-or-forward branch of `dns_task`. -/
def answerQuery (w : Server) (t : Turn) (client : Nat) (pkt : Bytes) (key : UInt64) :
    Option (Server × List Effect) :=
  match dnsCacheFind w.cache key t.now with
  | (some hit, cache) => do
      let e ← cache.entries[hit]?
      some ({ w with cache := cache, time := t.now },
        [.countForwarded 0, .toClient client (patchId pkt e.data)])
  | (none, cache) =>
      let forwarded := if t.sent then pkt :: w.forwarded else w.forwarded
      match forwardUpstream pkt t.sent t.recv with
      | some ans =>
          some ({ cache := dnsCacheInsert cache key ans t.now, forwarded := forwarded,
                  relayed := ⟨pkt, t.now, ans⟩ :: w.relayed, time := t.done },
            [.toUpstream pkt, .countForwarded (UInt32.ofInt (t.done - t.now)),
              .toClient client ans])
      | none =>
          some ({ w with cache := cache, forwarded := forwarded, time := t.now },
            [.toUpstream pkt, .countTimeout])

/-- One turn of the loop of `dns_task`. -/
def dnsTurn (w : Server) (t : Turn) : Option (Server × List Effect) :=
  match t.packet with
  | none => some (w, [])
  | some (client, pkt) =>
      match parseQuestion pkt dnsMaxName with
      | none => some (w, [])
      | some (name, qEnd) => do
          if ← t.isBlocked name then
            some (w, [.countBlocked, .toClient client (makeNxdomain pkt qEnd)])
          else answerQuery w t client pkt (cacheKey name (← qtype pkt qEnd))

/-! ### What a turn can do -/

/-- A packet the loop accepts, with its name and the end of its question. -/
structure Turn.Asked (t : Turn) (client : Nat) (pkt name : Bytes) (qEnd : Nat) : Prop where
  packet : t.packet = some (client, pkt)
  question : parseQuestion pkt dnsMaxName = some (name, qEnd)

/-- A packet the loop looks up in the cache, with the parts of its key. -/
structure Turn.Looks (t : Turn) (client : Nat) (pkt name : Bytes) (type : UInt16) : Prop where
  asked : ∃ qEnd, t.Asked client pkt name qEnd ∧ qtype pkt qEnd = some type
  unblocked : t.isBlocked name = some false

/-- The outcomes of a turn, each with what has led to it. -/
inductive Outcome (w : Server) (t : Turn) : Server → List Effect → Prop
  | idle (h : ∀ client pkt name qEnd, ¬ t.Asked client pkt name qEnd) : Outcome w t w []
  | blocked {client : Nat} {pkt name : Bytes} {qEnd : Nat} (h : t.Asked client pkt name qEnd)
      (hblocked : t.isBlocked name = some true) :
      Outcome w t w [.countBlocked, .toClient client (makeNxdomain pkt qEnd)]
  | hit {client : Nat} {pkt name : Bytes} {type : UInt16} {hit : Nat} {cache : Cache}
      {e : CacheEntry} (h : t.Looks client pkt name type)
      (hfind : dnsCacheFind w.cache (cacheKey name type) t.now = (some hit, cache))
      (he : cache.entries[hit]? = some e) :
      Outcome w t { w with cache := cache, time := t.now }
        [.countForwarded 0, .toClient client (patchId pkt e.data)]
  | relay {client : Nat} {pkt name : Bytes} {type : UInt16} {cache : Cache} {ans : Bytes}
      (h : t.Looks client pkt name type)
      (hfind : dnsCacheFind w.cache (cacheKey name type) t.now = (none, cache))
      (hsent : t.sent = true) (hans : recvLoop pkt t.recv 4 0 = some ans) :
      Outcome w t
        { cache := dnsCacheInsert cache (cacheKey name type) ans t.now,
          forwarded := pkt :: w.forwarded, relayed := ⟨pkt, t.now, ans⟩ :: w.relayed,
          time := t.done }
        [.toUpstream pkt, .countForwarded (UInt32.ofInt (t.done - t.now)), .toClient client ans]
  | timeout {client : Nat} {pkt name : Bytes} {type : UInt16} {cache : Cache}
      (h : t.Looks client pkt name type)
      (hfind : dnsCacheFind w.cache (cacheKey name type) t.now = (none, cache))
      (hnone : forwardUpstream pkt t.sent t.recv = none) :
      Outcome w t
        { w with cache := cache, time := t.now,
                 forwarded := if t.sent then pkt :: w.forwarded else w.forwarded }
        [.toUpstream pkt, .countTimeout]

theorem answerQuery_outcome {w w' : Server} {t : Turn} {client : Nat} {pkt name : Bytes}
    {type : UInt16} {fx : List Effect} (h : t.Looks client pkt name type)
    (hrun : answerQuery w t client pkt (cacheKey name type) = some (w', fx)) :
    Outcome w t w' fx := by
  unfold answerQuery at hrun
  rcases hfind : dnsCacheFind w.cache (cacheKey name type) t.now with ⟨_ | hit, cache⟩
  · rw [hfind] at hrun
    simp only at hrun
    rcases hans : forwardUpstream pkt t.sent t.recv with _ | ans
    · rw [hans] at hrun
      obtain ⟨rfl, rfl⟩ := Prod.mk.inj (Option.some.inj hrun)
      exact .timeout h hfind hans
    · rw [hans] at hrun
      obtain ⟨rfl, rfl⟩ := Prod.mk.inj (Option.some.inj hrun)
      unfold forwardUpstream at hans
      by_cases hsent : t.sent = true
      · rw [if_pos hsent] at hans
        simp only [hsent, if_true]
        exact .relay h hfind hsent hans
      · rw [if_neg hsent] at hans
        cases hans
  · rw [hfind] at hrun
    obtain ⟨e, he, hrun⟩ := Option.bind_eq_some_iff.mp hrun
    obtain ⟨rfl, rfl⟩ := Prod.mk.inj (Option.some.inj hrun)
    exact .hit h hfind he

/-- **What one turn does**, all of it. -/
theorem dnsTurn_outcome {w w' : Server} {t : Turn} {fx : List Effect}
    (hrun : dnsTurn w t = some (w', fx)) : Outcome w t w' fx := by
  unfold dnsTurn at hrun
  rcases hpacket : t.packet with _ | ⟨client, pkt⟩
  · rw [hpacket] at hrun
    obtain ⟨rfl, rfl⟩ := Prod.mk.inj (Option.some.inj hrun)
    refine .idle fun client pkt name qEnd h => ?_
    rw [h.packet] at hpacket
    cases hpacket
  · rw [hpacket] at hrun
    simp only at hrun
    rcases hparse : parseQuestion pkt dnsMaxName with _ | ⟨name, qEnd⟩
    · rw [hparse] at hrun
      obtain ⟨rfl, rfl⟩ := Prod.mk.inj (Option.some.inj hrun)
      refine .idle fun client' pkt' name qEnd h => ?_
      obtain ⟨rfl, rfl⟩ := Prod.mk.inj (Option.some.inj (hpacket.symm.trans h.packet))
      have := hparse.symm.trans h.question
      cases this
    · rw [hparse] at hrun
      have hasked : t.Asked client pkt name qEnd := ⟨hpacket, hparse⟩
      obtain ⟨b, hb, hrun⟩ := Option.bind_eq_some_iff.mp hrun
      cases b with
      | true =>
          obtain ⟨rfl, rfl⟩ := Prod.mk.inj (Option.some.inj hrun)
          exact .blocked hasked hb
      | false =>
          obtain ⟨type, htype, hrun⟩ := Option.bind_eq_some_iff.mp hrun
          exact answerQuery_outcome ⟨⟨qEnd, hasked, htype⟩, hb⟩ hrun

theorem answerQuery_relay {w : Server} {t : Turn} {client : Nat} {pkt ans : Bytes}
    {key : UInt64} {cache : Cache} (hfind : dnsCacheFind w.cache key t.now = (none, cache))
    (hsent : t.sent = true) (hans : recvLoop pkt t.recv 4 0 = some ans) :
    answerQuery w t client pkt key =
      some (⟨dnsCacheInsert cache key ans t.now, pkt :: w.forwarded,
          ⟨pkt, t.now, ans⟩ :: w.relayed, t.done⟩,
        [.toUpstream pkt, .countForwarded (UInt32.ofInt (t.done - t.now)),
          .toClient client ans]) := by
  simp only [answerQuery, hfind, forwardUpstream, hsent, if_true, hans]

/-- The turn of a packet that is looked up. -/
theorem dnsTurn_looks {t : Turn} {client : Nat} {pkt name : Bytes} {type : UInt16}
    (h : t.Looks client pkt name type) (w : Server) :
    dnsTurn w t = answerQuery w t client pkt (cacheKey name type) := by
  obtain ⟨qEnd, hasked, htype⟩ := h.asked
  unfold dnsTurn
  rw [hasked.packet]
  simp only
  rw [hasked.question]
  simp only
  rw [h.unblocked, htype]
  rfl

/-- The states the serve loop can reach, its clock not going back. -/
abbrev Server.Reach (w : Server) : Prop :=
  ∃ time, ReflTransGen (fun w w' => ∃ t fx, w.time ≤ t.now ∧ t.now ≤ t.done ∧
    dnsTurn w t = some (w', fx)) (.init time) w

end EspHole.Sinkhole
