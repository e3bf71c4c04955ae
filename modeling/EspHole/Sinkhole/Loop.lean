/-
The serve loop call by call: `dns_task` and `forward_upstream` of `main/dns_sinkhole.c` as a
program that waits.

`dnsTurn` is given what a turn meets and says what comes of it.  Here the turn itself makes
the calls, in the order of the source: it feeds the watchdog, receives, looks names up,
reads the clock, sends and receives again.  Clients, the upstream server and whoever holds the
lock of the list may do as they please; only the size of a buffer bounds what arrives.

`Polite` is what is to hold of every call that is about to be made: how long the loop may
have waited by then since it last fed the watchdog, what goes upstream, and what goes to a
client.  The patience of a turn is a matter of its packet, and the two loops have triples of
their own, since it is they that wait.
-/
import EspHole.Lib.Prog
import EspHole.Sinkhole.Answers
import EspHole.Sinkhole.Nxdomain

namespace EspHole.Sinkhole.Loop

open Ascii Dotted

/-! ### Calls -/

/-- The calls of `dns_task`.  The two statics of the cache are read and written as one. -/
inductive Op
  | wdtReset
  | recvfrom
  | contains (hash : UInt64)
  | timerGetTime
  | send (data : Bytes)
  | recv
  | sendto (client : Nat) (data : Bytes)
  | statsCountBlocked
  | statsCountForwarded (latUs : UInt32)
  | statsCountTimeout
  | getCache
  | setCache (cache : Cache)
  | fault

/-- What each answers; a datagram comes with its sender, and nothing is an error or the end
of the wait. -/
abbrev Op.Res : Op → Type
  | .recvfrom => Option (Nat × Bytes)
  | .contains _ => Bool
  | .timerGetTime => Int
  | .send _ => Bool
  | .recv => Option Bytes
  | .getCache => Cache
  | .fault => Empty
  | _ => Unit

abbrev Code (α : Type) : Type := Prog Op Op.Res α

/-- What reads out of bounds does not go on. -/
def outOfBounds {α : Type} : Code α := .op .fault Empty.elim

instance : MonadExcept Unit (Prog Op Op.Res) where
  throw _ := outOfBounds
  tryCatch p _ := p

abbrev wdtReset : Code Unit := Prog.call (Op.wdtReset)
abbrev recvfrom : Code (Option (Nat × Bytes)) := Prog.call (Op.recvfrom)
abbrev blocklistContains (hash : UInt64) : Code Bool := Prog.call (Op.contains hash)
abbrev timerGetTime : Code Int := Prog.call (Op.timerGetTime)
abbrev send (data : Bytes) : Code Bool := Prog.call (Op.send data)
abbrev recv : Code (Option Bytes) := Prog.call (Op.recv)
abbrev sendto (client : Nat) (data : Bytes) : Code Unit := Prog.call (Op.sendto client data)
abbrev statsCountBlocked : Code Unit := Prog.call (Op.statsCountBlocked)
abbrev statsCountForwarded (latUs : UInt32) : Code Unit := Prog.call (Op.statsCountForwarded latUs)
abbrev statsCountTimeout : Code Unit := Prog.call (Op.statsCountTimeout)
abbrev getCache : Code Cache := Prog.call (Op.getCache)
abbrev setCache (cache : Cache) : Code Unit := Prog.call (Op.setCache cache)

/-! ### One turn -/

/-- The test of `forward_upstream`: this may be the answer to that query. -/
def Matches (query ans : Bytes) : Prop :=
  ans.length ≥ 12 ∧ ans[0]? = query[0]? ∧ ans[1]? = query[1]? ∧ ans.getD 2 0 &&& 0x80 ≠ 0

instance (query ans : Bytes) : Decidable (Matches query ans) :=
  inferInstanceAs (Decidable (_ ∧ _ ∧ _ ∧ _))

/-- The receive loop of `forward_upstream`. -/
def recvTries (query : Bytes) : Nat → Code (Option Bytes)
  | 0 => return none
  | tries + 1 => do
      let some ans ← recv | return none
      if Matches query ans then return some ans
      recvTries query tries

/-- `forward_upstream` -/
def forwardUpstream (query : Bytes) : Code (Option Bytes) := do
  if !(← send query) then return none
  recvTries query 4

/-- `dns_cache_find` -/
def dnsCacheFind (key : UInt64) (now : Int) : Code (Option Nat) := do
  let found := Sinkhole.dnsCacheFind (← getCache) key now
  setCache found.2
  return found.1

/-- `dns_cache_insert` -/
def dnsCacheInsert (key : UInt64) (data : Bytes) (now : Int) : Code Unit := do
  setCache (Sinkhole.dnsCacheInsert (← getCache) key data now)

/-- A hit is replayed. -/
def replay (client : Nat) (pkt : Bytes) (hit : Nat) : Code Unit := do
  let some e := (← getCache).entries[hit]? | outOfBounds
  statsCountForwarded 0
  sendto client (patchId pkt e.data)

/-- A miss is forwarded. -/
def relay (client : Nat) (pkt : Bytes) (key : UInt64) (now : Int) : Code Unit := do
  match ← forwardUpstream pkt with
  | some ans =>
      statsCountForwarded (UInt32.ofInt ((← timerGetTime) - now))
      dnsCacheInsert key ans now
      sendto client ans
  | none => statsCountTimeout

/-- A name that is not blocked is answered from the cache, or else forwarded. -/
def resolve (client : Nat) (pkt : Bytes) (key : UInt64) : Code Unit := do
  let now ← timerGetTime
  match ← dnsCacheFind key now with
  | some hit => replay client pkt hit
  | none => relay client pkt key now

/-- What is done about a question. -/
def decide (client : Nat) (pkt name : Bytes) (qEnd : Nat) : Code Unit := do
  if ← isBlocked blocklistContains name then
    statsCountBlocked
    sendto client (makeNxdomain pkt qEnd)
  else
    let some type := qtype pkt qEnd | outOfBounds
    resolve client pkt (cacheKey name type)

/-- One turn of the loop of `dns_task`. -/
def dnsTask : Code Unit := do
  wdtReset
  let some (client, pkt) ← recvfrom | return ()
  let some (name, qEnd) := parseQuestion pkt dnsMaxName | return ()
  decide client pkt name qEnd

/-! ### Waiting -/

/-- `WDT_TIMEOUT_S`, in milliseconds. -/
def wdtTimeoutMs : Nat := 10000

/-- `UPSTREAM_TIMEOUT_MS` -/
def upstreamTimeoutMs : Nat := 1500

/-- How long a call may block: the timeouts of the two sockets, and of the lock in
`blocklist_contains`. -/
def Op.timeoutMs : Op → Nat
  | .recvfrom => 1000
  | .contains _ => 20
  | .recv => upstreamTimeoutMs
  | _ => 0

/-- A call and its answer. -/
abbrev Call : Type := Σ o : Op, o.Res

/-- How long these calls may have taken. -/
def waited (calls : List Call) : Nat := (calls.map fun c => c.1.timeoutMs).sum

@[simp] theorem waited_append (calls calls' : List Call) :
    waited (calls ++ calls') = waited calls + waited calls' := by
  unfold waited
  rw [List.map_append, List.sum_append]

@[simp] theorem waited_singleton (o : Op) (r : o.Res) : waited [⟨o, r⟩] = o.timeoutMs := by
  simp [waited]

/-- The packet of a turn. -/
def packetOf : List Call → Option (Nat × Bytes)
  | [] => none
  | ⟨.recvfrom, r⟩ :: _ => r
  | _ :: calls => packetOf calls

/-- How long a turn may wait, by the packet it is about. -/
def patienceMs : Option (Nat × Bytes) → Nat
  | none => 1000
  | some (_, pkt) =>
      match parseQuestion pkt dnsMaxName with
      | none => 1000
      | some (name, _) => 1000 + 20 * (asked name).length + upstreamTimeoutMs * 4

/-! ### The device -/

/-- What `dns_task` works on.  The calls of the turn so far, and those of the turns before it
since the boot, are for statements only. -/
structure State where
  cache : Cache
  time : Int
  calls : List Call
  past : List Call

/-- The state after a call that changes nothing else. -/
def State.called (s : State) (o : Op) (r : o.Res) : State :=
  { s with calls := s.calls ++ [⟨o, r⟩] }

/-- What each call may answer, and what it leaves.  A turn begins when the watchdog is fed. -/
inductive Answers : Prog.StepRel Op Op.Res State
  | wdtReset {s} :
      Answers s .wdtReset () { s with calls := [⟨.wdtReset, ()⟩], past := s.past ++ s.calls }
  | recvfrom {s} (r : Option (Nat × Bytes)) (h : ∀ p ∈ r, p.2.length ≤ dnsMaxPkt) :
      Answers s .recvfrom r (s.called .recvfrom r)
  | contains {s} (hash : UInt64) (b : Bool) :
      Answers s (.contains hash) b (s.called (.contains hash) b)
  | timerGetTime {s} (now : Int) (h : s.time ≤ now) :
      Answers s .timerGetTime now { s.called .timerGetTime now with time := now }
  | send {s} (data : Bytes) (sent : Bool) :
      Answers s (.send data) sent (s.called (.send data) sent)
  | recv {s} (r : Option Bytes) (h : ∀ d ∈ r, d.length ≤ dnsMaxPkt) :
      Answers s .recv r (s.called .recv r)
  | sendto {s} (client : Nat) (data : Bytes) :
      Answers s (.sendto client data) () (s.called (.sendto client data) ())
  | statsCountBlocked {s} : Answers s .statsCountBlocked () (s.called .statsCountBlocked ())
  | statsCountForwarded {s} (latUs : UInt32) :
      Answers s (.statsCountForwarded latUs) () (s.called (.statsCountForwarded latUs) ())
  | statsCountTimeout {s} : Answers s .statsCountTimeout () (s.called .statsCountTimeout ())
  | getCache {s} : Answers s .getCache s.cache s
  | setCache {s} (cache : Cache) : Answers s (.setCache cache) () { s with cache := cache }

/-- What a call does to the outside. -/
def effectOf : Call → Option Effect
  | ⟨.send data, _⟩ => some (.toUpstream data)
  | ⟨.sendto client data, _⟩ => some (.toClient client data)
  | ⟨.statsCountBlocked, _⟩ => some .countBlocked
  | ⟨.statsCountForwarded latUs, _⟩ => some (.countForwarded latUs)
  | ⟨.statsCountTimeout, _⟩ => some .countTimeout
  | _ => none

def effects (calls : List Call) : List Effect := calls.filterMap effectOf

/-! ### What a turn has met -/

/-- What the calls of a turn were answered: the lookups, the readings of the clock, whether the
packet could be sent, and what was received after that. -/
structure Met where
  asked : List (UInt64 × Bool)
  times : List Int
  sent : Bool
  recvs : List (Option Bytes)

/-- One more call. -/
def Met.call (m : Met) : Call → Met
  | ⟨.contains hash, b⟩ => { m with asked := m.asked ++ [(hash, b)] }
  | ⟨.timerGetTime, now⟩ => { m with times := m.times ++ [now] }
  | ⟨.send _, sent⟩ => { m with sent := sent }
  | ⟨.recv, r⟩ => { m with recvs := m.recvs ++ [r] }
  | _ => m

def met (calls : List Call) : Met := calls.foldl Met.call ⟨[], [], false, []⟩

/-- The turn of `dnsTurn` that is given these answers, and no lookup but those that were made.
A clock that was not read stands where it did. -/
def Met.turn (m : Met) (packet : Option (Nat × Bytes)) (time : Int) : Turn where
  packet := packet
  contains := fun i hash => m.asked[i]?.bind fun a => if a.1 = hash then some a.2 else none
  now := m.times.getD 0 time
  sent := m.sent
  recv := fun i => m.recvs[i]?.join
  done := m.times.getD 1 time

/-- The turn so far. -/
def State.turn (s : State) : Turn := (met s.calls).turn (packetOf s.calls) s.time

/-! ### What may be called -/

/-- A reply to a packet: under its ID, with `QR` set, a header at least, and no larger than the
buffer. -/
structure Reply (pkt d : Bytes) : Prop where
  id : d.take 2 = pkt.take 2
  qr : d.getD 2 0 &&& 0x80 ≠ 0
  length : 12 ≤ d.length ∧ d.length ≤ dnsMaxPkt

/-- Every name that is looked up for a packet was said not to be listed. -/
def Passed (calls : List Call) (pkt : Bytes) : Prop :=
  ∃ name qEnd, parseQuestion pkt dnsMaxName = some (name, qEnd) ∧
    ∀ d ∈ asked name, (⟨.contains (domainHash d), false⟩ : Call) ∈ calls

/-- One of them was said to be, and this is the refusal. -/
def Refused (calls : List Call) (pkt reply : Bytes) : Prop :=
  ∃ name qEnd, parseQuestion pkt dnsMaxName = some (name, qEnd) ∧ NxReply pkt name qEnd reply ∧
    ∃ d ∈ asked name, (⟨.contains (domainHash d), true⟩ : Call) ∈ calls

/-- This is stored under the key of the packet's question, and came from upstream in a turn
before this one. -/
def Stored (s : State) (pkt reply : Bytes) : Prop :=
  ∃ name type, cachedAs pkt = some (name, type) ∧
    ∃ e ∈ s.cache.entries, e.valid = true ∧ e.key = cacheKey name type ∧
      reply = patchId pkt e.data ∧ (⟨.recv, some e.data⟩ : Call) ∈ s.past

/-- This has come from upstream in answer to the packet. -/
def Relayed (calls : List Call) (pkt reply : Bytes) : Prop :=
  (⟨.send pkt, true⟩ : Call) ∈ calls ∧ (⟨.recv, some reply⟩ : Call) ∈ calls ∧ Matches pkt reply

/-- Nothing is read out of bounds.  Upstream goes the packet of the turn and nothing else, once,
and only when all of its names have passed.  A reply goes to whom the packet is from, once: it
refuses the query if one of the names is listed, and else it is an answer of upstream's. -/
def Proper (s : State) : Op → Prop
  | .fault => False
  | .send data => (∃ client, packetOf s.calls = some (client, data)) ∧ Passed s.calls data ∧
      effects s.calls = []
  | .sendto client data => ∃ pkt, packetOf s.calls = some (client, pkt) ∧ Reply pkt data ∧
      (Refused s.calls pkt data ∨
        Passed s.calls pkt ∧ (Stored s pkt data ∨ Relayed s.calls pkt data)) ∧
      ∀ client' data', .toClient client' data' ∉ effects s.calls
  | _ => True

/-- A call that may be made: it is a proper one, and the turn has the patience for it. -/
structure Polite (s : State) (o : Op) : Prop where
  patient : waited s.calls + o.timeoutMs ≤ patienceMs (packetOf s.calls)
  proper : Proper s o

/-! ### The loops -/

/-- Answers to lookups, one after the other, until one of them is yes. -/
inductive Asked : List Bytes → List Bool → Bool → Prop
  | none : Asked [] [] false
  | listed {d : Bytes} {ds : List Bytes} : Asked (d :: ds) [true] true
  | missed {d : Bytes} {ds : List Bytes} {answers : List Bool} {b : Bool}
      (h : Asked ds answers b) : Asked (d :: ds) (false :: answers) b

/-- The lookups that were answered, -/
def asks : List Bytes → List Bool → List (UInt64 × Bool) :=
  List.zipWith fun d b => (domainHash d, b)

/-- as calls. -/
def askCalls : List Bytes → List Bool → List Call :=
  List.zipWith fun d b => ⟨.contains (domainHash d), b⟩

/-- What arrives while an answer is waited for. -/
inductive Received (query : Bytes) : Nat → List (Option Bytes) → Option Bytes → Prop
  | tired : Received query 0 [] none
  | silent {n : Nat} : Received query (n + 1) [none] none
  | answer {n : Nat} {d : Bytes} (h : Matches query d) : Received query (n + 1) [some d] (some d)
  | stale {n : Nat} {d : Bytes} {rs : List (Option Bytes)} {r : Option Bytes}
      (h : ¬ Matches query d) (hrest : Received query n rs r) :
      Received query (n + 1) (some d :: rs) r

section Calls

variable {calls : List Call} {p : Nat × Bytes}

theorem packetOf_append (h : packetOf calls = some p) (calls' : List Call) :
    packetOf (calls ++ calls') = some p := by
  induction calls with
  | nil => cases h
  | cons c calls ih =>
      obtain ⟨o, r⟩ := c
      cases o with
      | recvfrom => exact h
      | _ => exact ih h

@[simp] theorem effects_append (calls calls' : List Call) :
    effects (calls ++ calls') = effects calls ++ effects calls' := List.filterMap_append

@[simp] theorem met_append (calls calls' : List Call) :
    met (calls ++ calls') = calls'.foldl Met.call (met calls) := List.foldl_append

theorem met_askCalls (ds : List Bytes) : ∀ (answers : List Bool) (m : Met),
    (askCalls ds answers).foldl Met.call m = { m with asked := m.asked ++ asks ds answers } := by
  induction ds with
  | nil =>
      intro answers m
      simp [askCalls, asks]
  | cons d ds ih =>
      intro answers m
      cases answers with
      | nil => simp [askCalls, asks]
      | cons b answers =>
          refine (ih answers (m.call ⟨.contains (domainHash d), b⟩)).trans ?_
          simp [Met.call, asks]

theorem met_recvs (rs : List (Option Bytes)) : ∀ m : Met,
    (rs.map fun r => (⟨.recv, r⟩ : Call)).foldl Met.call m =
      { m with recvs := m.recvs ++ rs } := by
  induction rs with
  | nil =>
      intro m
      simp
  | cons r rs ih =>
      intro m
      refine (ih (m.call ⟨.recv, r⟩)).trans ?_
      simp [Met.call]

/-- A lookup is seen by nobody. -/
theorem effects_askCalls (ds : List Bytes) : ∀ answers, effects (askCalls ds answers) = [] := by
  induction ds with
  | nil => intro answers; rfl
  | cons d ds ih =>
      intro answers
      cases answers with
      | nil => rfl
      | cons b answers => exact ih answers

theorem effects_recvs (rs : List (Option Bytes)) :
    effects (rs.map fun r => (⟨.recv, r⟩ : Call)) = [] := by
  induction rs with
  | nil => rfl
  | cons r rs ih => exact ih

end Calls

section Loops

variable {s : State} {p : Nat × Bytes} {α : Type}

/-- **The lookups of a turn**: their answers, and how long they may take. -/
theorem anyM_safe {Q : Bool → State → Prop} (ds : List Bytes) :
    ∀ {s : State}, packetOf s.calls = some p →
      waited s.calls + 20 * ds.length ≤ patienceMs (some p) →
      (∀ answers b, Asked ds answers b →
        Q b { s with calls := s.calls ++ askCalls ds answers }) →
      (ds.anyM fun d => blocklistContains (domainHash d)).Safe Answers Polite Q s := by
  induction ds with
  | nil =>
      intro s hpacket hwait hpost
      have h := hpost [] false .none
      rwa [show askCalls [] [] = [] from rfl, List.append_nil] at h
  | cons d ds ih =>
      intro s hpacket hwait hpost
      rw [List.length_cons] at hwait
      rw [List.anyM]
      refine Prog.safe_call_bind.mpr ⟨⟨?_, trivial⟩, fun r s' hs => ?_⟩
      · rw [hpacket]
        show waited s.calls + 20 ≤ _
        omega
      cases hs with
      | contains =>
          cases r with
          | true =>
              have h := hpost [true] true .listed
              rwa [show askCalls (d :: ds) [true] = [⟨.contains (domainHash d), true⟩] from
                congrArg (List.cons _) List.zipWith_nil_right] at h
          | false =>
              refine ih (packetOf_append hpacket _) ?_ fun answers b h => ?_
              · show waited (s.calls ++ [_]) + _ ≤ _
                rw [waited_append, waited_singleton]
                show waited s.calls + 20 + _ ≤ _
                omega
              · have h := hpost (false :: answers) b (.missed h)
                show Q b { s with calls := s.calls ++ [_] ++ askCalls ds answers }
                rwa [List.append_assoc]

/-- **The wait for an answer.** -/
theorem recvTries_safe {Q : Option Bytes → State → Prop} (query : Bytes) (tries : Nat) :
    ∀ {s : State}, packetOf s.calls = some p →
      waited s.calls + upstreamTimeoutMs * tries ≤ patienceMs (some p) →
      (∀ rs r, Received query tries rs r → (∀ d ∈ r, d.length ≤ dnsMaxPkt) →
        Q r { s with calls := s.calls ++ rs.map fun r => ⟨.recv, r⟩ }) →
      (recvTries query tries).Safe Answers Polite Q s := by
  induction tries with
  | zero =>
      intro s hpacket hwait hpost
      have h := hpost [] none .tired nofun
      rwa [List.map_nil, List.append_nil] at h
  | succ tries ih =>
      intro s hpacket hwait hpost
      rw [Nat.mul_succ] at hwait
      refine Prog.safe_call_bind.mpr ⟨⟨?_, trivial⟩, fun r s' hs => ?_⟩
      · rw [hpacket]
        show waited s.calls + upstreamTimeoutMs ≤ _
        omega
      cases hs with
      | recv r hroom =>
          cases r with
          | none => exact hpost [none] none .silent nofun
          | some d =>
              show Prog.Safe _ _ _ (if _ then _ else _) _
              by_cases hmatch : Matches query d
              · rw [if_pos hmatch]
                exact hpost [some d] (some d) (.answer hmatch) hroom
              · rw [if_neg hmatch]
                refine ih (packetOf_append hpacket _) ?_ fun rs r h hroom => ?_
                · show waited (s.calls ++ [_]) + _ ≤ _
                  rw [waited_append, waited_singleton]
                  show waited s.calls + upstreamTimeoutMs + _ ≤ _
                  omega
                · have h := hpost (some d :: rs) r (.stale hmatch h) hroom
                  show Q r { s with calls := s.calls ++ [_] ++ _ }
                  rwa [List.append_assoc]

end Loops

/-! ### How long a turn may take -/

theorem length_lookups : ∀ (labels : Nat) (p : Bytes), labels = p.count dot + 1 →
    (lookups labels p).length = max 1 (p.count dot) := by
  intro labels
  induction labels with
  | zero => intro p h; omega
  | succ n ih =>
      intro p h
      match n, ih, h with
      | 0, _, h => simp [lookups, show p.count dot = 0 by omega]
      | 1, _, h => simp [lookups, show p.count dot = 1 by omega]
      | rest + 2, ih, h =>
          have hdot : dot ∈ p := List.count_pos_iff.mp (by omega)
          rcases hp : afterSep dot p with _ | t
          · exact absurd hdot (afterSep_eq_none.mp hp)
          · have hcount := count_afterSep hp
            rw [lookups]
            simp only [hp, List.length_cons]
            rw [ih t (by omega)]
            omega

/-- As many names as dots, and one if there are none. -/
theorem length_asked (name : Bytes) : (asked name).length ≤ max 1 (name.count dot) := by
  unfold asked
  by_cases hname : cstr name = []
  · rw [if_pos hname]
    exact Nat.zero_le _
  · rw [if_neg hname, length_lookups _ _ rfl]
    have hcount : (cstr name).count dot ≤ name.count dot :=
      (List.takeWhile_sublist _).count_le dot
    omega

/-- Labels without dots have one dot between any two of them. -/
theorem count_dotted {ls : List Bytes} (hls : ∀ l ∈ ls, WireLabel l ∧ dot ∉ l) :
    2 * (dotted ls).count dot ≤ (dotted ls).length := by
  have hjoin : ∀ ls : List Bytes, (∀ l ∈ ls, WireLabel l ∧ dot ∉ l) → ls ≠ [] →
      2 * (dotted ls).count dot + 1 ≤ (dotted ls).length := by
    intro ls
    induction ls with
    | nil => intro _ hne; exact absurd rfl hne
    | cons l ls ih =>
        intro hls _
        obtain ⟨⟨hpos, -⟩, hdot⟩ := hls l List.mem_cons_self
        have hnone : (l.map lower).count dot = 0 := by
          refine List.count_eq_zero_of_not_mem fun hmem => ?_
          obtain ⟨c, hc, hlower⟩ := List.mem_map.mp hmem
          exact hdot ((lower_eq_dot c).mp hlower ▸ hc)
        by_cases hnil : ls = []
        · subst hnil
          simp only [dotted, List.map_cons, List.map_nil, List.intercalate_singleton]
          rw [hnone, List.length_map]
          omega
        · have hrest := ih (fun l' hl' => hls l' (List.mem_cons_of_mem _ hl')) hnil
          unfold dotted at hrest ⊢
          rw [List.map_cons, List.intercalate_cons_of_ne_nil (by simpa using hnil)]
          simp only [List.count_append, List.length_append, List.length_map, hnone,
            List.count_singleton_self, List.length_singleton]
          omega
  by_cases hnil : ls = []
  · subst hnil
    exact Nat.le_refl 0
  · have := hjoin ls hls hnil
    omega

/-- No turn takes longer than this, -/
theorem patienceMs_le (packet : Option (Nat × Bytes)) : patienceMs packet ≤ 12060 := by
  unfold patienceMs
  rcases packet with _ | ⟨client, pkt⟩
  · decide
  rcases hparse : parseQuestion pkt dnsMaxName with _ | ⟨name, qEnd⟩
  · simp only [hparse]
    decide
  · simp only [hparse]
    obtain ⟨hasks, hname, -⟩ := parseQuestion_labels (by decide) hparse
    have hfits := hasks.fits
    rw [← hname] at hfits
    have hlookups := length_asked name
    have hcount : name.count dot ≤ name.length := List.count_le_length
    unfold upstreamTimeoutMs
    unfold dnsMaxName at hfits
    omega

/-- and one about a name with no dots in its labels ends before the watchdog barks. -/
theorem patienceMs_lt {client : Nat} {pkt : Bytes} (hplain : ∀ l ∈ questionLabels pkt, dot ∉ l) :
    patienceMs (some (client, pkt)) < wdtTimeoutMs := by
  unfold patienceMs
  rcases hparse : parseQuestion pkt dnsMaxName with _ | ⟨name, qEnd⟩
  · simp only [hparse]
    decide
  · simp only [hparse]
    obtain ⟨hasks, hname, -⟩ := parseQuestion_labels (by decide) hparse
    have hfits := hasks.fits
    have hcount := count_dotted fun l hl => ⟨hasks.labels l hl, hplain l hl⟩
    rw [← hname] at hfits hcount
    have hlookups := length_asked name
    unfold upstreamTimeoutMs wdtTimeoutMs
    unfold dnsMaxName at hfits
    omega

end EspHole.Sinkhole.Loop
