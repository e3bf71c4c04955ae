/-
What a turn of the serve loop does, and so the loop.

`Done` is what a turn ends with: it was a `dnsTurn` of what it met, and it kept what the next
turn starts from.  Each part of a turn has one triple that says so and that every call on the
way is `Polite`.  `State.turn` makes a `Turn` of the answers that were given, so that the triple
ends where the results about `dnsTurn` begin, and whatever holds of the reachable states of
`Server` holds of the loop.
-/
import EspHole.Sinkhole.Loop

namespace EspHole.Sinkhole.Loop

open Ascii Machine

/-! ### The turn that was met -/

theorem Asked.anyM {ds : List Bytes} {answers : List Bool} {b : Bool}
    {contains : Nat → UInt64 → Option Bool} (h : Asked ds answers b) :
    ∀ i, (∀ k a, (asks ds answers)[k]? = some a → contains (i + k) a.1 = some a.2) →
      ((ds.anyM fun d => askEach contains (domainHash d)).run i).map Prod.fst = some b := by
  induction h with
  | none => intro i _; rfl
  | @listed d ds =>
      intro i hc
      rw [List.anyM, StateT.run_bind]
      show (((contains i (domainHash d)).map fun b => (b, i + 1)).bind _).map _ = _
      rw [show contains i (domainHash d) = some true from hc 0 (domainHash d, true) rfl]
      rfl
  | @missed d ds answers b _ ih =>
      intro i hc
      rw [List.anyM, StateT.run_bind]
      show (((contains i (domainHash d)).map fun b => (b, i + 1)).bind _).map _ = _
      rw [show contains i (domainHash d) = some false from hc 0 (domainHash d, false) rfl]
      refine ih (i + 1) fun k a ha => ?_
      rw [Nat.add_right_comm, Nat.add_assoc]
      exact hc (k + 1) a ha

theorem Received.recvLoop {query : Bytes} {tries : Nat} {rs : List (Option Bytes)}
    {r : Option Bytes} {arrives : Nat → Option Bytes} (h : Received query tries rs r) :
    ∀ i, (∀ k, arrives (i + k) = rs[k]?.join) →
      Sinkhole.recvLoop query arrives tries i = r := by
  induction h with
  | tired => intro i _; rfl
  | silent =>
      intro i hrs
      rw [Sinkhole.recvLoop, show arrives i = none from hrs 0]
  | @answer n d hmatch =>
      intro i hrs
      rw [Sinkhole.recvLoop, show arrives i = some d from hrs 0]
      exact if_pos hmatch
  | @stale n d rs r hmatch _ ih =>
      intro i hrs
      rw [Sinkhole.recvLoop, show arrives i = some d from hrs 0]
      refine (if_neg hmatch).trans (ih (i + 1) fun k => ?_)
      rw [Nat.add_right_comm, Nat.add_assoc]
      exact hrs (k + 1)

theorem Received.length_le {query : Bytes} {tries : Nat} {rs : List (Option Bytes)}
    {r : Option Bytes} (h : Received query tries rs r) : rs.length ≤ tries := by
  induction h with
  | tired => exact Nat.le_refl 0
  | silent => exact Nat.succ_le_succ (Nat.zero_le _)
  | answer => exact Nat.succ_le_succ (Nat.zero_le _)
  | stale _ _ ih => exact Nat.succ_le_succ ih

theorem Received.mem {query : Bytes} {tries : Nat} {rs : List (Option Bytes)} {d : Bytes}
    (h : Received query tries rs (some d)) : some d ∈ rs := by
  generalize hr : some d = r at h
  induction h with
  | tired => cases hr
  | silent => cases hr
  | answer => exact List.mem_singleton_self _
  | stale _ _ ih => exact List.mem_cons_of_mem _ (ih hr)

theorem Received.matches {query : Bytes} {tries : Nat} {rs : List (Option Bytes)} {d : Bytes}
    (h : Received query tries rs (some d)) : Matches query d := by
  generalize hr : some d = r at h
  induction h with
  | tired => cases hr
  | silent => cases hr
  | answer hmatch =>
      obtain rfl := Option.some.inj hr
      exact hmatch
  | stale _ _ ih => exact ih hr

section Met

variable {m : Met} {client : Nat} {pkt name : Bytes} {answers : List Bool} {time : Int}
  {packet : Option (Nat × Bytes)}

theorem turn_isBlocked {b : Bool} (hm : m.asked = asks (asked name) answers)
    (h : Asked (asked name) answers b) : (m.turn packet time).isBlocked name = some b := by
  unfold Turn.isBlocked
  rw [isBlocked_eq_anyM]
  refine h.anyM 0 fun k a ha => ?_
  show (m.asked[0 + k]?.bind fun a' => if a'.1 = a.1 then some a'.2 else none) = some a.2
  rw [Nat.zero_add, hm, ha]
  exact if_pos rfl

/-- What is asked, by a packet whose names have all passed. -/
structure Unblocked (calls : List Call) (client : Nat) (pkt name : Bytes) (type : UInt16)
    (answers : List Bool) : Prop where
  packet : packetOf calls = some (client, pkt)
  question : ∃ qEnd, parseQuestion pkt dnsMaxName = some (name, qEnd) ∧ qtype pkt qEnd = some type
  asked : Asked (asked name) answers false
  passed : Passed calls pkt

theorem Unblocked.looks {calls : List Call} {type : UInt16}
    (h : Unblocked calls client pkt name type answers)
    (hm : m.asked = asks (Sinkhole.asked name) answers) :
    (m.turn (some (client, pkt)) time).Looks client pkt name type := by
  obtain ⟨qEnd, hparse, htype⟩ := h.question
  exact ⟨⟨qEnd, ⟨rfl, hparse⟩, htype⟩, turn_isBlocked hm h.asked⟩

theorem Unblocked.cachedAs {calls : List Call} {type : UInt16}
    (h : Unblocked calls client pkt name type answers) :
    cachedAs pkt = some (cstr name, type) := by
  obtain ⟨qEnd, hparse, htype⟩ := h.question
  simp [Sinkhole.cachedAs, hparse, htype]

end Met

/-- The turn that ends there is a `dnsTurn` from here. -/
def Turned (s s' : State) : Prop :=
  ∀ w : Server, w.cache = s.cache → w.time ≤ s.time →
    w.time ≤ s'.turn.now ∧ s'.turn.now ≤ s'.turn.done ∧
      ∃ w', dnsTurn w s'.turn = some (w', effects s'.calls) ∧ w'.cache = s'.cache ∧
        w'.time ≤ s'.time

/-- The calls of a turn so far took no longer than they may. -/
def Patient (calls : List Call) : Prop := waited calls ≤ patienceMs (packetOf calls)

/-- What the cache holds has come from upstream, and could be sent as it is, but for its ID. -/
def Filled (past : List Call) (cache : Cache) : Prop :=
  ∀ e ∈ cache.entries, e.valid = true → (⟨.recv, some e.data⟩ : Call) ∈ past ∧
    e.data.getD 2 0 &&& 0x80 ≠ 0 ∧ 12 ≤ e.data.length ∧ e.data.length ≤ dnsMaxPkt

theorem Filled.append {past : List Call} {cache : Cache} (h : Filled past cache)
    (calls : List Call) : Filled (past ++ calls) cache := by
  intro e he hvalid
  obtain ⟨hcame, hsendable⟩ := h e he hvalid
  exact ⟨List.mem_append_left _ hcame, hsendable⟩

/-- What a turn from here ends with. -/
structure Done (s s' : State) : Prop where
  turned : Turned s s'
  filled : Filled (s'.past ++ s'.calls) s'.cache
  patient : Patient s'.calls

/-- Where a turn stands: its packet, what it has met, what it has done to the outside, and how
long it may still wait. -/
structure Serving (calls : List Call) (client : Nat) (pkt : Bytes) (m : Met) (fx : List Effect)
    (left : Nat) : Prop where
  packet : packetOf calls = some (client, pkt)
  met : met calls = m
  patience : waited calls + left ≤ patienceMs (some (client, pkt))
  effects : effects calls = fx

section Serving

variable {s : State} {calls : List Call} {client : Nat} {pkt : Bytes} {m : Met}
  {fx : List Effect} {left : Nat} {o : Op} {r : o.Res}

theorem Serving.turn (h : Serving s.calls client pkt m fx left) :
    s.turn = m.turn (some (client, pkt)) s.time := by
  unfold State.turn
  rw [h.packet, h.met]

theorem Serving.patient (h : Serving calls client pkt m fx left) (ho : o.timeoutMs = 0) :
    waited calls + o.timeoutMs ≤ patienceMs (packetOf calls) := by
  rw [h.packet, ho]
  exact Nat.le_trans (Nat.add_le_add_left (Nat.zero_le left) _) h.patience

theorem Serving.done (h : Serving calls client pkt m fx left) : Patient calls := by
  unfold Patient
  rw [h.packet]
  exact Nat.le_trans (Nat.le_add_right _ _) h.patience

/-- After a call that takes no time and that nobody sees, -/
theorem Serving.quiet (h : Serving s.calls client pkt m fx left) (ho : o.timeoutMs = 0)
    (hno : effectOf ⟨o, r⟩ = none) :
    Serving (s.called o r).calls client pkt (m.call ⟨o, r⟩) fx left where
  packet := packetOf_append h.packet _
  met := by
    show Loop.met (s.calls ++ [_]) = _
    rw [met_append, h.met]
    rfl
  patience := by
    show waited (s.calls ++ [_]) + _ ≤ _
    rw [waited_append, waited_singleton, ho]
    exact h.patience
  effects := by
    show Loop.effects (s.calls ++ [_]) = _
    rw [effects_append, h.effects, Loop.effects, List.filterMap_cons_none hno]
    exact List.append_nil fx

/-- and after one that somebody sees. -/
theorem Serving.seen (h : Serving s.calls client pkt m fx left) (ho : o.timeoutMs = 0)
    {e : Effect} (he : effectOf ⟨o, r⟩ = some e) :
    Serving (s.called o r).calls client pkt (m.call ⟨o, r⟩) (fx ++ [e]) left where
  packet := packetOf_append h.packet _
  met := by
    show Loop.met (s.calls ++ [_]) = _
    rw [met_append, h.met]
    rfl
  patience := by
    show waited (s.calls ++ [_]) + _ ≤ _
    rw [waited_append, waited_singleton, ho]
    exact h.patience
  effects := by
    show Loop.effects (s.calls ++ [_]) = _
    rw [effects_append, h.effects, Loop.effects, List.filterMap_cons_some he]
    rfl

theorem Passed.append (h : Passed calls pkt) (calls' : List Call) :
    Passed (calls ++ calls') pkt := by
  obtain ⟨name, qEnd, hparse, hall⟩ := h
  exact ⟨name, qEnd, hparse, fun d hd => List.mem_append_left _ (hall d hd)⟩

theorem Relayed.append {ans : Bytes} (h : Relayed calls pkt ans) (calls' : List Call) :
    Relayed (calls ++ calls') pkt ans := by
  obtain ⟨hsent, hcame, hmatch⟩ := h
  exact ⟨List.mem_append_left _ hsent, List.mem_append_left _ hcame, hmatch⟩

end Serving

/-! ### The parts of a turn -/

section Parts

variable {s : State} {client : Nat} {pkt name : Bytes} {type : UInt16} {answers : List Bool}

theorem patchId_reply {data : Bytes} (hpkt : 2 ≤ pkt.length) (hqr : data.getD 2 0 &&& 0x80 ≠ 0)
    (hlen : 12 ≤ data.length ∧ data.length ≤ dnsMaxPkt) : Reply pkt (patchId pkt data) where
  id := (patchId_split hpkt (by omega)).1
  qr := by
    have hsame := congrArg (fun l : Bytes => l.getD 0 0)
      (patchId_split hpkt (show 2 ≤ data.length by omega)).2
    simp only [List.getD_eq_getElem?_getD, List.getElem?_drop] at hsame hqr ⊢
    rwa [hsame]
  length := by simpa [patchId] using hlen

/-- A call that takes no time and that is always proper. -/
theorem plain_safe {o : Op} {α : Type} {f : o.Res → Code α} {Q : α → State → Prop} {m : Met}
    {fx : List Effect} {left : Nat} (hserve : Serving s.calls client pkt m fx left)
    (ho : o.timeoutMs = 0) (hproper : Proper s o)
    (hpost : ∀ r s', Answers s o r s' → (f r).Safe Answers Polite Q s') :
    (Prog.call o >>= f).Safe Answers Polite Q s :=
  Prog.safe_call_bind.mpr ⟨⟨hserve.patient ho, hproper⟩, hpost⟩

/-- The reply is the last call of its turn. -/
theorem sendto_safe {Q : Unit → State → Prop} {m : Met} {fx : List Effect} {left : Nat}
    {data : Bytes} (hserve : Serving s.calls client pkt m fx left) (hreply : Reply pkt data)
    (hsource : Refused s.calls pkt data ∨
      Passed s.calls pkt ∧ (Stored s pkt data ∨ Relayed s.calls pkt data))
    (hfx : ∀ client' data', .toClient client' data' ∉ fx)
    (hpost : Serving (s.called (.sendto client data) ()).calls client pkt m
        (fx ++ [.toClient client data]) left → Q () (s.called (.sendto client data) ())) :
    (sendto client data).Safe Answers Polite Q s := by
  refine Prog.safe_call.mpr ⟨⟨hserve.patient rfl, pkt, hserve.packet, hreply, hsource, ?_⟩, ?_⟩
  · rw [hserve.effects]
    exact hfx
  · intro r s' hs
    cases hs with
    | sendto => exact hpost (hserve.seen rfl rfl)

/-- A hit is a turn. -/
theorem replay_safe {s₀ : State} {hit : Nat} {now : Int} {cache : Cache}
    (hasked : Unblocked s.calls client pkt name type answers)
    (hserve : Serving s.calls client pkt ⟨asks (asked name) answers, [now], false, []⟩ []
      (upstreamTimeoutMs * 4))
    (hpkt : 2 ≤ pkt.length)
    (hfind : Sinkhole.dnsCacheFind s₀.cache (cacheKey name type) now = (some hit, cache))
    (hcache : s.cache = cache) (hfilled : Filled s.past cache) (hnow : s₀.time ≤ now)
    (htime : s.time = now) :
    (replay client pkt hit).Safe Answers Polite (fun _ s' => Done s₀ s') s := by
  obtain ⟨e, he, hvalid, hkey, -, -⟩ := dnsCacheFind_hit (congrArg Prod.fst hfind)
  have hget := dnsCacheFind_get (congrArg Prod.fst hfind) he
  rw [hfind] at hget
  have hmem := List.mem_of_getElem? hget
  obtain ⟨hcame, hqr, hlen⟩ := hfilled _ hmem hvalid
  refine plain_safe hserve rfl trivial fun r s₁ hs => ?_
  cases hs with
  | getCache =>
      rw [hcache]
      simp only [hget]
      refine plain_safe hserve rfl trivial fun r s₁ hs => ?_
      cases hs with
      | statsCountForwarded =>
          have hstored : Stored s pkt (patchId pkt e.data) := by
            rw [show (some hit, cache).2 = s.cache from hcache.symm] at hmem
            refine ⟨cstr name, type, hasked.cachedAs, _, hmem, hvalid, ?_, rfl, hcame⟩
            rw [cacheKey, cstr_cstr]
            exact hkey
          refine sendto_safe (hserve.seen rfl rfl) (patchId_reply hpkt hqr hlen)
            (Or.inr ⟨hasked.passed.append _, Or.inl hstored⟩) (by simp) fun hlast =>
              ⟨fun w hw hwt => ?_, ?_, hlast.done⟩
          · rw [hlast.turn]
            refine ⟨Int.le_trans hwt hnow, Int.le_of_eq htime.symm,
              { w with cache := cache, time := now }, ?_, hcache.symm, Int.le_of_eq htime.symm⟩
            rw [dnsTurn_looks (hasked.looks rfl), answerQuery, hw, hlast.effects]
            simp only [Met.turn, Met.call, List.getD_cons_zero, hfind, hget]
            rfl
          · show Filled (s.past ++ _) s.cache
            rw [hcache]
            exact hfilled.append _

/-- What comes back from upstream, if the packet gets there. -/
structure Forwarded (s : State) (client : Nat) (pkt : Bytes) (m : Met) (sent : Bool)
    (rs : List (Option Bytes)) (r : Option Bytes) (s' : State) : Prop where
  forwards : Sinkhole.forwardUpstream pkt sent (fun i => rs[i]?.join) = r
  answer : ∀ ans ∈ r, sent = true ∧ Relayed s'.calls pkt ans ∧ ans.length ≤ dnsMaxPkt
  serving : Serving s'.calls client pkt { m with sent := sent, recvs := rs } [.toUpstream pkt] 0
  passed : Passed s'.calls pkt
  cache : s'.cache = s.cache
  time : s'.time = s.time
  past : s'.past = s.past

theorem waited_recvs (rs : List (Option Bytes)) :
    waited (rs.map fun r => (⟨.recv, r⟩ : Call)) = upstreamTimeoutMs * rs.length := by
  induction rs with
  | nil => rfl
  | cons r rs ih =>
      rw [List.map_cons, List.length_cons, Nat.mul_succ, Nat.add_comm, ← ih]
      rfl

theorem forwardUpstream_safe {Q : Option Bytes → State → Prop} {m : Met} (hm : m.recvs = [])
    (hserve : Serving s.calls client pkt m [] (upstreamTimeoutMs * 4))
    (hpassed : Passed s.calls pkt)
    (hpost : ∀ sent rs r s', Forwarded s client pkt m sent rs r s' → Q r s') :
    (forwardUpstream pkt).Safe Answers Polite Q s := by
  refine plain_safe hserve rfl ⟨⟨client, hserve.packet⟩, hpassed, hserve.effects⟩ fun r s₁ hs => ?_
  cases hs with
  | send =>
      have hserve₁ : Serving (s.called (.send pkt) r).calls client pkt { m with sent := r }
          [.toUpstream pkt] (upstreamTimeoutMs * 4) := hserve.seen rfl rfl
      show Prog.Safe _ _ _ (if _ then _ else _) _
      cases r with
      | false =>
          refine hpost false [] none _ ⟨rfl, nofun, ?_, hpassed.append _, rfl, rfl, rfl⟩
          rw [← hm]
          exact { hserve₁ with patience := by have := hserve₁.patience; omega }
      | true =>
          refine recvTries_safe pkt 4 hserve₁.packet hserve₁.patience fun rs r hr hroom => ?_
          refine hpost true rs r _ ⟨?_, fun ans hans => ?_,
            ⟨packetOf_append hserve₁.packet _, ?_, ?_, ?_⟩, (hpassed.append _).append _,
            rfl, rfl, rfl⟩
          · exact (if_pos rfl).trans (hr.recvLoop 0 fun k => by rw [Nat.zero_add])
          · obtain rfl := Option.mem_def.mp hans
            refine ⟨rfl, ⟨List.mem_append_left _ ?_, List.mem_append_right _ ?_, hr.matches⟩,
              hroom _ hans⟩
            · exact List.mem_append_right _ (List.mem_singleton_self _)
            · exact List.mem_map_of_mem hr.mem
          · rw [met_append, hserve₁.met, met_recvs]
            simp only [hm, List.nil_append]
          · have hlen := Nat.mul_le_mul_left upstreamTimeoutMs hr.length_le
            have hpatience := hserve₁.patience
            rw [waited_append, waited_recvs]
            omega
          · rw [effects_append, effects_recvs, List.append_nil]
            exact hserve₁.effects

/-- A wait in vain is a turn, -/
theorem turned_timeout {s₀ s' : State} {now : Int} {cache : Cache} {sent : Bool}
    {rs : List (Option Bytes)} {left : Nat}
    (hasked : Unblocked s.calls client pkt name type answers)
    (hfind : Sinkhole.dnsCacheFind s₀.cache (cacheKey name type) now = (none, cache))
    (hnow : s₀.time ≤ now)
    (hnone : Sinkhole.forwardUpstream pkt sent (fun i => rs[i]?.join) = none)
    (hlast : Serving s'.calls client pkt ⟨asks (asked name) answers, [now], sent, rs⟩
      [.toUpstream pkt, .countTimeout] left)
    (hcache : s'.cache = cache) (htime : s'.time = now) : Turned s₀ s' := by
  intro w hw hwt
  rw [hlast.turn]
  refine ⟨Int.le_trans hwt hnow, Int.le_of_eq htime.symm, { w with
      cache := cache, time := now,
      forwarded := if sent then pkt :: w.forwarded else w.forwarded },
    ?_, hcache.symm, Int.le_of_eq htime.symm⟩
  rw [dnsTurn_looks (hasked.looks rfl), answerQuery, hw, hlast.effects]
  simp only [Met.turn, List.getD_cons_zero, hfind, hnone]

/-- and so is an answer. -/
theorem turned_relay {s₀ s' : State} {now done : Int} {cache : Cache} {ans : Bytes}
    {rs : List (Option Bytes)} {left : Nat}
    (hasked : Unblocked s.calls client pkt name type answers)
    (hfind : Sinkhole.dnsCacheFind s₀.cache (cacheKey name type) now = (none, cache))
    (hnow : s₀.time ≤ now) (hdone : now ≤ done)
    (hans : Sinkhole.forwardUpstream pkt true (fun i => rs[i]?.join) = some ans)
    (hlast : Serving s'.calls client pkt ⟨asks (asked name) answers, [now, done], true, rs⟩
      [.toUpstream pkt, .countForwarded (UInt32.ofInt (done - now)), .toClient client ans] left)
    (hcache : s'.cache = Sinkhole.dnsCacheInsert cache (cacheKey name type) ans now)
    (htime : s'.time = done) : Turned s₀ s' := by
  intro w hw hwt
  rw [hlast.turn]
  refine ⟨Int.le_trans hwt hnow, hdone,
    ⟨Sinkhole.dnsCacheInsert cache (cacheKey name type) ans now, pkt :: w.forwarded,
      ⟨pkt, now, ans⟩ :: w.relayed, done⟩, ?_, hcache.symm, Int.le_of_eq htime.symm⟩
  have hmiss : Sinkhole.dnsCacheFind w.cache (cacheKey name type) now = (none, cache) := by
    rw [hw, hfind]
  have hloop : recvLoop pkt (fun i => rs[i]?.join) 4 0 = some ans := (if_pos rfl).symm.trans hans
  rw [dnsTurn_looks (hasked.looks rfl), answerQuery_relay hmiss rfl hloop, hlast.effects]
  rfl

theorem dnsCacheFind_safe {Q : Option Nat → State → Prop} {m : Met} {fx : List Effect}
    {left : Nat} {key : UInt64} {now : Int} (hserve : Serving s.calls client pkt m fx left)
    (hpost : ∀ hit cache, Sinkhole.dnsCacheFind s.cache key now = (hit, cache) →
      Q hit { s with cache := cache }) : (dnsCacheFind key now).Safe Answers Polite Q s := by
  refine plain_safe hserve rfl trivial fun r s₁ hs => ?_
  cases hs with
  | getCache =>
      refine plain_safe hserve rfl trivial fun r s₂ hs => ?_
      cases hs with
      | setCache => exact hpost _ _ rfl

theorem dnsCacheInsert_safe {Q : Unit → State → Prop} {m : Met} {fx : List Effect} {left : Nat}
    {key : UInt64} {data : Bytes} {now : Int} (hserve : Serving s.calls client pkt m fx left)
    (hpost : Q () { s with cache := Sinkhole.dnsCacheInsert s.cache key data now }) :
    (dnsCacheInsert key data now).Safe Answers Polite Q s := by
  refine plain_safe hserve rfl trivial fun r s₁ hs => ?_
  cases hs with
  | getCache =>
      refine Prog.safe_call.mpr ⟨⟨hserve.patient rfl, trivial⟩, fun r s₂ hs => ?_⟩
      cases hs with
      | setCache => exact hpost

/-- A find leaves no answer that was not there, -/
theorem Filled.find {past : List Call} {cache : Cache} (h : Filled past cache) (key : UInt64)
    (now : Int) : Filled past (Sinkhole.dnsCacheFind cache key now).2 := by
  intro e he hvalid
  obtain ⟨e', he', hvalid', hsame⟩ := mem_find he hvalid
  rw [hsame.data]
  exact h e' he' hvalid'

/-- and an insert only the one it is given. -/
theorem Filled.insert {past : List Call} {cache : Cache} {ans : Bytes} (h : Filled past cache)
    (key : UInt64) (now : Int) (hcame : (⟨.recv, some ans⟩ : Call) ∈ past)
    (hqr : ans.getD 2 0 &&& 0x80 ≠ 0) (hlen : 12 ≤ ans.length ∧ ans.length ≤ dnsMaxPkt) :
    Filled past (Sinkhole.dnsCacheInsert cache key ans now) := by
  intro e he hvalid
  rcases mem_insert he with hold | ⟨-, -, hdata⟩
  · exact h e hold hvalid
  · rw [hdata]
    exact ⟨hcame, hqr, hlen⟩

/-- A miss is a turn. -/
theorem relay_safe {s₀ : State} {now : Int} {cache : Cache}
    (hasked : Unblocked s.calls client pkt name type answers)
    (hserve : Serving s.calls client pkt ⟨asks (asked name) answers, [now], false, []⟩ []
      (upstreamTimeoutMs * 4))
    (hfind : Sinkhole.dnsCacheFind s₀.cache (cacheKey name type) now = (none, cache))
    (hcache : s.cache = cache) (hfilled : Filled s.past cache) (hnow : s₀.time ≤ now)
    (htime : s.time = now) :
    (relay client pkt (cacheKey name type) now).Safe Answers Polite
      (fun _ s' => Done s₀ s') s := by
  refine Prog.safe_bind.mpr
    (forwardUpstream_safe rfl hserve hasked.passed fun sent rs r s₁ h => ?_)
  have hcache₁ := h.cache.trans hcache
  have htime₁ := h.time.trans htime
  cases r with
  | none =>
      refine Prog.safe_call.mpr ⟨⟨h.serving.patient rfl, trivial⟩, fun r s₂ hs => ?_⟩
      cases hs with
      | statsCountTimeout =>
          have hlast := h.serving.seen (o := .statsCountTimeout) (r := ()) rfl rfl
          refine ⟨turned_timeout hasked hfind hnow h.forwards hlast hcache₁ htime₁,
            ?_, hlast.done⟩
          show Filled (s₁.past ++ _) s₁.cache
          rw [hcache₁, h.past]
          exact hfilled.append _
  | some ans =>
      obtain ⟨rfl, hrelayed, hroom⟩ := h.answer ans rfl
      obtain ⟨hlen, h₀, h₁, hqr⟩ := hrelayed.2.2
      refine plain_safe h.serving rfl trivial fun done s₂ hs => ?_
      cases hs with
      | timerGetTime done hdone =>
          have hserve₂ := h.serving.quiet (o := .timerGetTime) (r := done) rfl rfl
          refine plain_safe hserve₂ rfl trivial fun r s₃ hs => ?_
          cases hs with
          | statsCountForwarded =>
              have hserve₃ := hserve₂.seen (s := (s₁.called .timerGetTime done))
                (o := .statsCountForwarded (UInt32.ofInt (done - now))) (r := ()) rfl rfl
              have hrelayed₃ := (hrelayed.append [⟨.timerGetTime, done⟩]).append
                [⟨.statsCountForwarded (UInt32.ofInt (done - now)), ()⟩]
              refine Prog.safe_bind.mpr (dnsCacheInsert_safe hserve₃ ?_)
              refine sendto_safe hserve₃ ⟨take_two (by omega) h₀ h₁, hqr, hlen, hroom⟩
                (Or.inr ⟨(h.passed.append _).append _, Or.inr hrelayed₃⟩) (by simp)
                fun hlast => ⟨?_, ?_, hlast.done⟩
              · refine turned_relay hasked hfind hnow (htime₁ ▸ hdone) h.forwards hlast ?_ rfl
                exact congrArg (Sinkhole.dnsCacheInsert · (cacheKey name type) ans now) hcache₁
              · show Filled (s₁.past ++ _) (Sinkhole.dnsCacheInsert s₁.cache _ ans now)
                rw [hcache₁, h.past]
                refine (hfilled.append _).insert _ _ ?_ hqr ⟨hlen, hroom⟩
                exact List.mem_append_right _ (List.mem_append_left _ hrelayed₃.2.1)

/-- A name that is not blocked is resolved in a turn. -/
theorem resolve_safe (hasked : Unblocked s.calls client pkt name type answers)
    (hserve : Serving s.calls client pkt ⟨asks (asked name) answers, [], false, []⟩ []
      (upstreamTimeoutMs * 4))
    (hpkt : 2 ≤ pkt.length) (hfilled : Filled s.past s.cache) :
    (resolve client pkt (cacheKey name type)).Safe Answers Polite (fun _ s' => Done s s') s := by
  refine plain_safe hserve rfl trivial fun now s₁ hs => ?_
  cases hs with
  | timerGetTime now hnow =>
      have hserve₁ := hserve.quiet (o := .timerGetTime) (r := now) rfl rfl
      have hasked₁ : Unblocked (s.called .timerGetTime now).calls client pkt name type answers :=
        { hasked with packet := hserve₁.packet, passed := hasked.passed.append _ }
      refine Prog.safe_bind.mpr (dnsCacheFind_safe hserve₁ fun hit cache hfind => ?_)
      have hfilled₁ := hfilled.find (cacheKey name type) now
      rw [show Sinkhole.dnsCacheFind s.cache (cacheKey name type) now = (hit, cache) from hfind]
        at hfilled₁
      cases hit with
      | none => exact relay_safe hasked₁ hserve₁ hfind rfl hfilled₁ hnow rfl
      | some hit => exact replay_safe hasked₁ hserve₁ hpkt hfind rfl hfilled₁ hnow rfl

end Parts

/-! ### A turn -/

section Asked

variable {ds : List Bytes} {answers : List Bool}

theorem Asked.calls_false {b : Bool} (h : Asked ds answers b) (hb : b = false) :
    ∀ d ∈ ds, (⟨.contains (domainHash d), false⟩ : Call) ∈ askCalls ds answers := by
  induction h with
  | none => exact nofun
  | listed => cases hb
  | @missed d ds answers b _ ih =>
      intro d' hd'
      rcases List.mem_cons.mp hd' with rfl | hd'
      · exact List.mem_cons_self
      · exact List.mem_cons_of_mem _ (ih hb d' hd')

theorem Asked.calls_true {b : Bool} (h : Asked ds answers b) (hb : b = true) :
    ∃ d ∈ ds, (⟨.contains (domainHash d), true⟩ : Call) ∈ askCalls ds answers := by
  induction h with
  | none => cases hb
  | listed => exact ⟨_, List.mem_cons_self, List.mem_cons_self⟩
  | missed _ ih =>
      obtain ⟨d, hd, hcall⟩ := ih hb
      exact ⟨d, List.mem_cons_of_mem _ hd, List.mem_cons_of_mem _ hcall⟩

theorem waited_askCalls (ds : List Bytes) : ∀ answers,
    waited (askCalls ds answers) ≤ 20 * ds.length := by
  induction ds with
  | nil => intro answers; exact Nat.le_refl 0
  | cons d ds ih =>
      intro answers
      cases answers with
      | nil => exact Nat.zero_le _
      | cons b answers =>
          have hrest := ih answers
          show 20 + waited (askCalls ds answers) ≤ _
          rw [List.length_cons]
          omega

end Asked

theorem qtype_some {pkt : Bytes} {qEnd : Nat} (hpos : 4 ≤ qEnd) (hle : qEnd ≤ pkt.length) :
    ∃ type, qtype pkt qEnd = some type := by
  have hhi := List.getElem?_eq_getElem (show qEnd - 4 < pkt.length by omega)
  have hlo := List.getElem?_eq_getElem (show qEnd - 3 < pkt.length by omega)
  unfold qtype
  rw [hhi, hlo]
  exact ⟨_, rfl⟩

section Turn

variable {s : State} {client : Nat} {pkt name : Bytes} {qEnd : Nat}

/-- A turn without a query. -/
theorem done_idle {s' : State} (hidle : ∀ w, dnsTurn w s'.turn = some (w, []))
    (hfx : effects s'.calls = []) (htimes : (met s'.calls).times = [])
    (hcache : s'.cache = s.cache) (htime : s'.time = s.time) (hpatient : Patient s'.calls)
    (hfilled : Filled (s'.past ++ s'.calls) s'.cache) : Done s s' where
  turned := fun w hw hwt => by
    have hclock : s'.turn.now = s.time ∧ s'.turn.done = s.time := by
      simp only [State.turn, Met.turn, htimes, List.getD_nil, htime, and_self]
    rw [hclock.1, hclock.2, hfx, hcache, htime]
    exact ⟨hwt, Int.le_refl _, w, hidle w, hw, hwt⟩
  filled := hfilled
  patient := hpatient

/-- A name that is blocked is refused in a turn. -/
theorem refuse_safe {answers : List Bool}
    (hparse : parseQuestion pkt dnsMaxName = some (name, qEnd))
    (hasked : Asked (asked name) answers true) {left : Nat}
    (hserve : Serving s.calls client pkt ⟨asks (asked name) answers, [], false, []⟩ [] left)
    (hroom : pkt.length ≤ dnsMaxPkt)
    (hlisted : ∃ d ∈ asked name, (⟨.contains (domainHash d), true⟩ : Call) ∈ s.calls)
    (hfilled : Filled s.past s.cache) :
    (statsCountBlocked >>= fun _ => sendto client (makeNxdomain pkt qEnd)).Safe Answers Polite
      (fun _ s' => Done s s') s := by
  have hnx := makeNxdomain_reply hparse
  have hreply : Reply pkt (makeNxdomain pkt qEnd) := by
    obtain ⟨-, -, rfl⟩ := parseQuestion_labels (by decide) hparse
    refine ⟨hnx.id, ?_, ?_, ?_⟩
    · rw [hnx.qr]
      decide
    · rw [hnx.length]
      omega
    · rw [hnx.length]
      exact hnx.length_le.trans hroom
  obtain ⟨d, hd, hcall⟩ := hlisted
  refine plain_safe hserve rfl trivial fun r s₁ hs => ?_
  cases hs with
  | statsCountBlocked =>
      refine sendto_safe (hserve.seen rfl rfl) hreply (Or.inl ⟨name, qEnd, hparse, hnx, d, hd,
        List.mem_append_left _ hcall⟩) (by simp) fun hlast => ⟨fun w hw hwt => ?_,
          hfilled.append _, hlast.done⟩
      rw [hlast.turn, hlast.effects]
      refine ⟨hwt, Int.le_refl _, w, ?_, hw, hwt⟩
      exact dnsTurn_blocked ⟨rfl, hparse⟩ (turn_isBlocked rfl hasked) w

/-- A question is answered, or waited for in vain, in a turn. -/
theorem decide_safe (hparse : parseQuestion pkt dnsMaxName = some (name, qEnd))
    (hserve : Serving s.calls client pkt ⟨[], [], false, []⟩ []
      (20 * (asked name).length + upstreamTimeoutMs * 4))
    (hroom : pkt.length ≤ dnsMaxPkt) (hfilled : Filled s.past s.cache) :
    (Loop.decide client pkt name qEnd).Safe Answers Polite (fun _ s' => Done s s') s := by
  have hpatience := hserve.patience
  unfold Loop.decide
  rw [isBlocked_eq_anyM]
  refine Prog.safe_bind.mpr (anyM_safe _ hserve.packet (by omega) fun answers b hasked => ?_)
  let s₁ : State := { s with calls := s.calls ++ askCalls (asked name) answers }
  have hserve₁ : Serving s₁.calls client pkt ⟨asks (asked name) answers, [], false, []⟩ []
      (upstreamTimeoutMs * 4) := by
    refine ⟨packetOf_append hserve.packet _, ?_, ?_, ?_⟩
    · show met (s.calls ++ _) = _
      rw [met_append, hserve.met, met_askCalls]
      rfl
    · have hasking := waited_askCalls (asked name) answers
      show waited (s.calls ++ _) + _ ≤ _
      rw [waited_append]
      omega
    · show effects (s.calls ++ _) = _
      rw [effects_append, hserve.effects, effects_askCalls, List.append_nil]
  cases b with
  | true =>
      obtain ⟨d, hd, hcall⟩ := hasked.calls_true rfl
      exact (refuse_safe (s := s₁) hparse hasked hserve₁ hroom
        ⟨d, hd, List.mem_append_right _ hcall⟩ hfilled).post fun _ _ h =>
          ⟨h.turned, h.filled, h.patient⟩
  | false =>
      obtain ⟨-, -, hend⟩ := parseQuestion_labels (by decide) hparse
      obtain ⟨type, htype⟩ := qtype_some (by omega) (makeNxdomain_reply hparse).length_le
      have hunblocked : Unblocked s₁.calls client pkt name type answers := by
        refine ⟨hserve₁.packet, ⟨qEnd, hparse, htype⟩, hasked, name, qEnd, hparse, fun d hd => ?_⟩
        exact List.mem_append_right _ (hasked.calls_false rfl d hd)
      have hpkt : 2 ≤ pkt.length := by
        have := (isQuery_of_parseQuestion hparse).length
        omega
      rw [if_neg Bool.false_ne_true]
      simp only [htype]
      exact (resolve_safe (s := s₁) hunblocked hserve₁ hpkt hfilled).post fun _ _ h =>
        ⟨h.turned, h.filled, h.patient⟩

/-- **One turn**, whatever it is answered. -/
theorem dnsTask_safe (hfilled : Filled (s.past ++ s.calls) s.cache) (hpatient : Patient s.calls) :
    dnsTask.Safe Answers Polite (fun _ s' => Done s s') s := by
  refine Prog.safe_call_bind.mpr ⟨⟨hpatient, trivial⟩, fun r s₁ hs => ?_⟩
  cases hs with
  | wdtReset =>
      refine Prog.safe_call_bind.mpr ⟨⟨Nat.le_refl 1000, trivial⟩, fun r s₂ hs => ?_⟩
      cases hs with
      | recvfrom r hroom =>
          cases r with
          | none =>
              exact done_idle (fun _ => rfl) rfl rfl rfl rfl (Nat.le_refl 1000)
                (hfilled.append _)
          | some p =>
              obtain ⟨client, pkt⟩ := p
              rcases hparse : parseQuestion pkt dnsMaxName with _ | ⟨name, qEnd⟩
              · simp only [hparse]
                refine done_idle (fun w => ?_) rfl rfl rfl rfl ?_ (hfilled.append _)
                · show dnsTurn w ⟨some (client, pkt), _, _, _, _, _⟩ = _
                  unfold dnsTurn
                  simp only [hparse]
                · show 1000 ≤ patienceMs (some (client, pkt))
                  unfold patienceMs
                  simp only [hparse, Nat.le_refl]
              · simp only [hparse]
                let s₁ : State :=
                  { s with
                    calls := [⟨.wdtReset, ()⟩, ⟨.recvfrom, some (client, pkt)⟩],
                    past := s.past ++ s.calls }
                refine (decide_safe (s := s₁) hparse ⟨rfl, rfl, ?_, rfl⟩ (hroom _ rfl) hfilled).post
                  fun _ _ h => ⟨h.turned, h.filled, h.patient⟩
                show 1000 + _ ≤ patienceMs (some (client, pkt))
                unfold patienceMs
                simp only [hparse]
                omega

end Turn

/-! ### The loop -/

/-- A reboot clears the statics. -/
def Reboot (_ : State) (_ : Code Unit) (s' : State) : Prop := ∃ time, s' = ⟨.init, time, [], []⟩

/-- `dns_task` on its device. -/
def serveLoop : Machine Op Op.Res State where
  boot := return ()
  job := dnsTask
  step _ := Answers
  restart := Reboot

/-- The device as it boots. -/
def start (time : Int) : Config Op Op.Res State := ⟨.boot, ⟨.init, time, [], []⟩, .pure ()⟩

/-- A state between two turns is a reachable state of the server, and what the turn before did
to the outside is what the `dnsTurn` does that is given the same answers. -/
structure Refines (s : State) (w : Server) : Prop where
  reach : w.Reach
  cache : w.cache = s.cache
  time : w.time ≤ s.time
  turn : s.calls = [] ∨ ∃ w₀, w₀.Reach ∧ dnsTurn w₀ s.turn = some (w, effects s.calls)

/-- What holds between two turns. -/
structure Idle (s : State) : Prop where
  refines : ∃ w, Refines s w
  filled : Filled (s.past ++ s.calls) s.cache
  patient : Patient s.calls

theorem idle_start (time : Int) : Idle ⟨.init, time, [], []⟩ where
  refines := ⟨.init time, ⟨time, .refl⟩, rfl, Int.le_refl time, Or.inl rfl⟩
  filled := fun e he hvalid => by
    rw [init_not_valid he] at hvalid
    cases hvalid
  patient := Nat.zero_le _

theorem Idle.done {s s' : State} (h : Idle s) (hdone : Done s s') : Idle s' where
  refines := by
    obtain ⟨w, hw⟩ := h.refines
    obtain ⟨hnow, hlate, w', hturn, hcache, htime⟩ := hdone.turned w hw.cache hw.time
    obtain ⟨time, hrun⟩ := hw.reach
    exact ⟨w', ⟨time, hrun.tail ⟨s'.turn, _, hnow, hlate, hturn⟩⟩, hcache, htime,
      Or.inr ⟨w, hw.reach, hturn⟩⟩
  filled := hdone.filled
  patient := hdone.patient

theorem reach_polite {time : Int} {c : Config Op Op.Res State}
    (hr : Reach serveLoop (start time) c) : c.Good serveLoop Polite Idle := by
  refine reach_good (fun s p s' _ hs => ?_) (fun s hs => ?_)
    (show Config.Good serveLoop Polite Idle (start time) from idle_start time) hr
  · obtain ⟨time, rfl⟩ := hs
    exact idle_start time
  · exact (dnsTask_safe hs.filled hs.patient).post fun _ _ hdone => hs.done hdone

/-- **The serve loop, whatever it is sent.**  In every run, whatever the clients send, whatever
comes from upstream, however the lookups are answered and whenever the device is reset: no call
reads out of bounds; upstream goes the packet of the turn, once, after every name that is looked
up for it was said not to be listed; one reply at most goes out in a turn, to whom the packet is
from, under its ID, as a response of 12 to 1500 bytes.  It is the refusal, and then one of those
names was said to be listed; or none was, and it is what upstream has just sent in answer to the
packet, or what upstream sent in a turn before and is stored under the key of the question.
Between two feeds of the watchdog the loop waits 12060 ms at most, and less than the watchdog's
10 s if no label of the question has a dot in it.  Each turn is the `dnsTurn` that is given the
same answers, from a reachable state of its server to the next. -/
theorem serve_loop {time : Int} {c : Config Op Op.Res State}
    (hr : Reach serveLoop (start time) c) :
    (∀ o k, c.prog = .op o k → Proper c.state o ∧
      waited c.state.calls + o.timeoutMs ≤ 12060 ∧
      ((∀ client pkt, packetOf c.state.calls = some (client, pkt) →
          ∀ l ∈ questionLabels pkt, dot ∉ l) →
        waited c.state.calls + o.timeoutMs < wdtTimeoutMs)) ∧
    (c.prog = .pure () → ∃ w, Refines c.state w) := by
  have hready := ready_of_safe (reach_polite hr)
  constructor
  · intro o k hprog
    rw [hprog] at hready
    obtain ⟨hpatient, hproper⟩ := hready
    refine ⟨hproper, hpatient.trans (patienceMs_le _), fun hplain => hpatient.trans_lt ?_⟩
    rcases hpacket : packetOf c.state.calls with _ | ⟨client, pkt⟩
    · decide
    · exact patienceMs_lt (hplain client pkt hpacket)
  · intro hprog
    rw [hprog] at hready
    exact hready.refines

/-! ### A refusal to look at -/

/-- A query for a listed name, as the loop has just looked it up. -/
def adsState : State :=
  ⟨.init, 0, [⟨.wdtReset, ()⟩, ⟨.recvfrom, some (7, adsQuery)⟩,
    ⟨.contains (domainHash (ascii "ads.example")), true⟩, ⟨.statsCountBlocked, ()⟩], []⟩

theorem reach_adsState : Reach serveLoop (start 0)
    ⟨.job, adsState, sendto 7 (makeNxdomain adsQuery 29)⟩ := by
  have hparse : parseQuestion adsQuery dnsMaxName = some (ascii "ads.example", 29) := by
    decide +kernel
  have hnames : asked (ascii "ads.example") = [ascii "ads.example"] := by decide +kernel
  have hstart : Reach serveLoop (start 0) ⟨.job, ⟨.init, 0, [], []⟩, dnsTask⟩ := .single .next
  have hfed := hstart.tail (.call .wdtReset)
  have hreceived := hfed.tail (.call (.recvfrom (some (7, adsQuery)) fun p hp => by
    obtain rfl := Option.some.inj hp
    decide +kernel))
  simp only [Prog.bind, hparse, Loop.decide, isBlocked_eq_anyM, hnames] at hreceived
  have hasked := hreceived.tail (.call (.contains _ true))
  exact hasked.tail (.call .statsCountBlocked)

theorem adsState_polite :
    (∀ o k, sendto 7 (makeNxdomain adsQuery 29) = .op o k → Proper adsState o ∧
      waited adsState.calls + o.timeoutMs ≤ 12060 ∧
      ((∀ client pkt, packetOf adsState.calls = some (client, pkt) →
          ∀ l ∈ questionLabels pkt, dot ∉ l) →
        waited adsState.calls + o.timeoutMs < wdtTimeoutMs)) ∧
    (sendto 7 (makeNxdomain adsQuery 29) = .pure () → ∃ w, Refines adsState w) :=
  serve_loop reach_adsState

end EspHole.Sinkhole.Loop
