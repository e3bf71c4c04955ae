/-
Counted by one task and read by another.

`dns_task` counts with `atomic_fetch_add`, up to three of them a query, and `stats_send_once`
reads with 20 `atomic_load`s, one after the other.  No lock is taken, so that a snapshot can
fall into the middle of a query and a query into the middle of a snapshot.  A run is any
interleaving of single calls on the counters.

Each task is the program of its calls that is left to run.  What such a program still has to
do is its triple: whoever counts ends with all increments of its turn made, and whoever reads
ends with what each counter was when it was read.  Neither triple is disturbed by a step of
the other task.
-/
import EspHole.Lib.Prog
import EspHole.Sinkhole.Nxdomain
import EspHole.System.Stats

namespace EspHole.System

open Ascii Generator Sinkhole Relation

/-! ### The counters -/

/-- `atomic_fetch_add_explicit` and `atomic_load_explicit` on a counter. -/
inductive CounterOp
  | fetchAdd (a : Counter) (v : UInt32)
  | load (a : Counter)
  deriving DecidableEq

/-- Both answer with what the counter was. -/
abbrev CounterOp.Res : CounterOp → Type := fun _ => UInt32

/-- What a call answers, and what it leaves. -/
def CounterOp.apply (counters : Counter → UInt32) : CounterOp → UInt32 × (Counter → UInt32)
  | .fetchAdd a v => (counters a, Function.update counters a (counters a + v))
  | .load a => (counters a, counters)

/-- A program that calls them. -/
abbrev Counting (α : Type) : Type := Prog CounterOp CounterOp.Res α

def fetchAdd (a : Counter) (v : UInt32) : Counting Unit := do
  let _ ← Prog.call (.fetchAdd a v)
  return ()

def load (a : Counter) : Counting UInt32 := Prog.call (.load a)

/-- `stats_count_blocked` -/
def statsCountBlocked : Counting Unit := fetchAdd .blocked 1

/-- `stats_count_timeout` -/
def statsCountTimeout : Counting Unit := fetchAdd .timeouts 1

/-- The counter of a latency's bucket. -/
def bucketOf (us : UInt32) : Counter :=
  .hist ⟨(latBucket us).toNat, by have := latBucket_range us; omega⟩

/-- `stats_count_forwarded` -/
def statsCountForwarded (latencyUs : UInt32) : Counting Unit := do
  fetchAdd .forwarded 1
  fetchAdd .latSumUs latencyUs
  fetchAdd (bucketOf latencyUs) 1

/-- The loop of `snap_counters`. -/
def snapHist : List (Fin statsHistBuckets) → Vector UInt32 statsHistBuckets →
    Counting (Vector UInt32 statsHistBuckets)
  | [], hist => return hist
  | i :: rest, hist => do
      let v ← load (.hist i)
      snapHist rest (hist.set i v)

/-- `snap_counters` -/
def snapCounters : Counting StatsSnap := do
  let blocked ← load .blocked
  let forwarded ← load .forwarded
  let timeouts ← load .timeouts
  let latSumUs ← load .latSumUs
  let hist ← snapHist (List.finRange _) (Vector.replicate _ 0)
  return ⟨blocked, forwarded, timeouts, latSumUs, hist⟩

/-- What a turn of `dns_task` counts, at one of its effects. -/
def countEffect : Effect → Counting Unit
  | .countBlocked => statsCountBlocked
  | .countForwarded latUs => statsCountForwarded latUs
  | .countTimeout => statsCountTimeout
  | .toUpstream _ => return ()
  | .toClient _ _ => return ()

/-- The calls of a turn with these effects. -/
def countEffects : List Effect → Counting Unit
  | [] => return ()
  | e :: fx => do
      countEffect e
      countEffects fx

/-! ### The two tasks -/

/-- An increment that was made. -/
abbrev Increment : Type := Counter × UInt32

/-- A load of a counter: what it answered, and what had been counted till then. -/
structure Seen where
  value : UInt32
  log : List Increment

/-- A call of `stats_send_once`: the snapshot it took, the deltas it computed and the line it
sent, if any.  The rest is not in the code: what had been counted when the call began, when it
loaded each counter, and when it ended. -/
structure Dispatch where
  snap : StatsSnap
  interval : StatsSnap
  line : Option Bytes
  began : List Increment
  found : Counter → List Increment
  ended : List Increment

/-- Where the two tasks stand: `serving` is what is left of a turn of `dns_task`, and `sending`
what is left of a snapshot, if `stats_send_once` is taking one.  No step reads what follows:
the turns so far and their effects, the increments made, those made before the snapshot at
hand began, the last load of each counter, and the calls of `stats_send_once` so far, the
latest one first. -/
structure Tasks where
  counters : Counter → UInt32
  server : Server
  serving : Counting Unit
  last : StatsSnap
  sending : Option (Counting StatsSnap)
  turns : List Turn
  effects : List Effect
  log : List Increment
  began : List Increment
  seen : Counter → Seen
  dispatches : List Dispatch

/-- After a boot. -/
def Tasks.init (time : Int) : Tasks :=
  ⟨fun _ => 0, .init time, pure (), .zero, none, [], [], [], [], fun _ => ⟨0, []⟩, []⟩

/-- The two tasks when `stats_send_once` has come to this end with this snapshot. -/
def Tasks.sent (c : Tasks) (cur : StatsSnap) (s : Sending) : Tasks :=
  { c with
    last := s.last
    sending := none
    dispatches := ⟨cur, s.d, s.line, c.began, fun a => (c.seen a).log, c.log⟩ :: c.dispatches }

/-- The increment of a call. -/
def CounterOp.logged (log : List Increment) : CounterOp → List Increment
  | .fetchAdd a v => log ++ [(a, v)]
  | .load _ => log

/-- The load of a call. -/
def CounterOp.noted (value : UInt32) (log : List Increment) (seen : Counter → Seen) :
    CounterOp → Counter → Seen
  | .fetchAdd _ _ => seen
  | .load a => Function.update seen a ⟨value, log⟩

/-- One step: a turn begins or makes a call, a snapshot begins or makes a call, or a snapshot is
there and `stats_send_once` goes on with it, to whatever end. -/
inductive Tasks.Step : Tasks → Tasks → Prop
  | turn {c : Tasks} {t : Turn} {w : Server} {fx : List Effect} (hidle : c.serving = pure ())
      (h : dnsTurn c.server t = some (w, fx)) :
      Step c { c with server := w, serving := countEffects fx, turns := c.turns ++ [t],
                      effects := c.effects ++ fx }
  | count {c : Tasks} {o : CounterOp} {k : UInt32 → Counting Unit} (h : c.serving = .op o k) :
      Step c { c with counters := (o.apply c.counters).2, serving := k (o.apply c.counters).1,
                      log := o.logged c.log }
  | snap {c : Tasks} (h : c.sending = none) :
      Step c { c with sending := some snapCounters, began := c.log }
  | read {c : Tasks} {o : CounterOp} {k : UInt32 → Counting StatsSnap}
      (h : c.sending = some (.op o k)) :
      Step c { c with counters := (o.apply c.counters).2,
                      sending := some (k (o.apply c.counters).1), log := o.logged c.log,
                      seen := o.noted (o.apply c.counters).1 c.log c.seen }
  | send {c : Tasks} {cur : StatsSnap} (h : c.sending = some (pure cur)) (node : Bytes)
      (nowUs : Nat) (reachable : Bool) :
      Step c (c.sent cur (statsSendOnce node cur c.last nowUs reachable))

/-- A run of the two tasks. -/
abbrev Tasks.Reach : Tasks → Tasks → Prop := ReflTransGen Step

/-! ### What is to be counted -/

/-- A packet arrives, and `parse_question` accepts it. -/
def accepts (t : Turn) : Bool :=
  t.packet.any fun p => (parseQuestion p.2 dnsMaxName).isSome

/-- The latency of an effect, if it is an answer that was forwarded. -/
def latencyOf : Effect → Option UInt32
  | .countForwarded latUs => some latUs
  | _ => none

/-- The latencies that were forwarded. -/
def Tasks.latencies (c : Tasks) : List UInt32 := c.effects.filterMap latencyOf

/-- The increments of an effect, in order. -/
def increments : Effect → List Increment
  | .countBlocked => [(.blocked, 1)]
  | .countForwarded latUs => [(.forwarded, 1), (.latSumUs, latUs), (bucketOf latUs, 1)]
  | .countTimeout => [(.timeouts, 1)]
  | .toUpstream _ => []
  | .toClient _ _ => []

/-- What increments come to for a counter. -/
def amount (log : List Increment) (a : Counter) : UInt32 :=
  (log.map fun p => if p.1 = a then p.2 else 0).sum

/-- A call did what it is for: each counter was read between its begin and its end, the snapshot
has what it was then, and the line that was sent is that of the deltas. -/
structure Dispatch.Exact (d : Dispatch) : Prop where
  fresh : ∀ a, d.began <+: d.found a ∧ d.found a <+: d.ended
  snap : ∀ a, delta d.snap a = amount (d.found a) a
  line : ∀ line, d.line = some line → ∃ node uptime, line = statsLine node d.interval uptime

/-- The latest snapshot. -/
def latestSnap : List Dispatch → StatsSnap
  | [] => .zero
  | d :: _ => d.snap

/-- What had been counted when it read a counter. -/
def latest : List Dispatch → Counter → List Increment
  | [], _ => []
  | d :: _, a => d.found a

/-- The calls came one after the other, each was exact, and each interval has what was counted
between two loads. -/
def Intervals : List Dispatch → Prop
  | [] => True
  | d :: ds => d.Exact ∧ (∀ e ∈ ds.head?, e.ended <+: d.began) ∧
      (∀ a, ∃ new, d.found a = latest ds a ++ new ∧ delta d.interval a = amount new a) ∧
      Intervals ds

/-! ### What the programs do -/

/-- A call as the log sees it, whatever it answers. -/
def logs : Prog.StepRel CounterOp CounterOp.Res (List Increment) :=
  fun log o _ log' => log' = o.logged log

/-- A call as the loads see it, whatever it answers, at any time after this much was counted. -/
def notes (began : List Increment) : Prog.StepRel CounterOp CounterOp.Res (Counter → Seen) :=
  fun seen o value seen' => ∃ log, began <+: log ∧ seen' = o.noted value log seen

/-- Nothing but a load. -/
def Loads (_ : Counter → Seen) (o : CounterOp) : Prop := ∃ a, o = .load a

section Programs

variable {α : Type}

theorem fetchAdd_safe {Q : Unit → List Increment → Prop} {a : Counter} {v : UInt32}
    {log : List Increment} (h : Q () (log ++ [(a, v)])) :
    (fetchAdd a v).Safe logs (fun _ _ => True) Q log :=
  ⟨trivial, fun _ _ hlog => hlog ▸ h⟩

/-- Each effect makes its increments. -/
theorem countEffect_safe (e : Effect) (log : List Increment) :
    (countEffect e).Safe logs (fun _ _ => True) (fun _ log' => log' = log ++ increments e) log := by
  cases e with
  | countBlocked => exact fetchAdd_safe rfl
  | countTimeout => exact fetchAdd_safe rfl
  | countForwarded latUs =>
      refine Prog.safe_bind.mpr (fetchAdd_safe (Prog.safe_bind.mpr (fetchAdd_safe
        (fetchAdd_safe ?_))))
      simp [increments]
  | toUpstream data => exact (List.append_nil log).symm
  | toClient client data => exact (List.append_nil log).symm

/-- **What is left of a turn ends with all of its increments made.** -/
theorem countEffects_safe (fx : List Effect) (log : List Increment) :
    (countEffects fx).Safe logs (fun _ _ => True)
      (fun _ log' => log' = log ++ fx.flatMap increments) log := by
  induction fx generalizing log with
  | nil => exact (List.append_nil log).symm
  | cons e fx ih =>
      refine Prog.safe_bind.mpr ((countEffect_safe e log).post fun _ log' hlog => ?_)
      subst hlog
      refine (ih _).post fun _ log'' hlog => ?_
      rw [hlog, List.flatMap_cons, List.append_assoc]

variable {began : List Increment}

theorem load_safe {f : UInt32 → Counting α} {Q : α → (Counter → Seen) → Prop} {a : Counter}
    {seen : Counter → Seen}
    (h : ∀ value log, began <+: log →
      (f value).Safe (notes began) Loads Q (Function.update seen a ⟨value, log⟩)) :
    (load a >>= f).Safe (notes began) Loads Q seen := by
  refine ⟨⟨a, rfl⟩, fun value seen' hseen => ?_⟩
  obtain ⟨log, hlog, rfl⟩ := hseen
  exact h value log hlog

/-- A value is that of the last load of a counter, which was not before the begin. -/
def Found (began : List Increment) (seen : Counter → Seen) (a : Counter) (value : UInt32) : Prop :=
  value = (seen a).value ∧ began <+: (seen a).log

/-- The loop leaves the other loads, and has the buckets of the rest and those before. -/
theorem snapHist_safe :
    ∀ (rest : List (Fin statsHistBuckets)) (hist : Vector UInt32 statsHistBuckets)
      (seen : Counter → Seen), (∀ i ∉ rest, Found began seen (.hist i) (hist.get i)) →
      (snapHist rest hist).Safe (notes began) Loads
        (fun hist' seen' => (∀ i, Found began seen' (.hist i) (hist'.get i)) ∧
          ∀ a, (∀ i, a ≠ .hist i) → seen' a = seen a) seen := by
  intro rest
  induction rest with
  | nil => exact fun hist seen h => ⟨fun i => h i (by simp), fun _ _ => rfl⟩
  | cons i rest ih =>
      intro hist seen h
      refine load_safe fun value log hlog => ?_
      refine (ih _ _ fun j hj => ?_).post fun hist' seen' hpost => ⟨hpost.1, fun a ha => ?_⟩
      · unfold Found
        by_cases hij : j = i
        · subst hij
          rw [Function.update_self]
          exact ⟨Vector.getElem_set_self _, hlog⟩
        · have hne : Counter.hist j ≠ .hist i := fun he => hij (Counter.hist.inj he)
          have hrest : j ∉ i :: rest := by simp [hij, hj]
          obtain ⟨hvalue, hbegan⟩ := h j hrest
          rw [Function.update_of_ne hne, ← hvalue]
          exact ⟨Vector.getElem_set_ne i.isLt j.isLt fun he => hij (Fin.ext he.symm), hbegan⟩
      · rw [hpost.2 a ha, Function.update_of_ne (ha i)]

/-- **A snapshot has of each counter what it was when it was read**, and reads it anew. -/
theorem snapCounters_safe (began : List Increment) (seen : Counter → Seen) :
    snapCounters.Safe (notes began) Loads
      (fun cur seen' => ∀ a, Found began seen' a (delta cur a)) seen := by
  refine load_safe fun blocked l₁ h₁ => load_safe fun forwarded l₂ h₂ =>
    load_safe fun timeouts l₃ h₃ => load_safe fun latSumUs l₄ h₄ => Prog.safe_bind.mpr ?_
  refine (snapHist_safe _ _ _ fun i hi => absurd (List.mem_finRange i) hi).post
    fun hist seen' hpost a => ?_
  obtain ⟨hhist, hrest⟩ := hpost
  cases a with
  | hist i => exact hhist i
  | blocked => exact ⟨by rw [hrest _ (by simp)]; rfl, by rw [hrest _ (by simp)]; exact h₁⟩
  | forwarded => exact ⟨by rw [hrest _ (by simp)]; rfl, by rw [hrest _ (by simp)]; exact h₂⟩
  | timeouts => exact ⟨by rw [hrest _ (by simp)]; rfl, by rw [hrest _ (by simp)]; exact h₃⟩
  | latSumUs => exact ⟨by rw [hrest _ (by simp)]; rfl, by rw [hrest _ (by simp)]; exact h₄⟩

end Programs

/-! ### What increments come to -/

theorem amount_append (log log' : List Increment) (a : Counter) :
    amount (log ++ log') a = amount log a + amount log' a := by
  unfold amount
  rw [List.map_append, List.sum_append]

theorem amount_singleton (a b : Counter) (v : UInt32) :
    amount [(a, v)] b = if a = b then v else 0 := by
  unfold amount
  rw [List.map_singleton, List.sum_singleton]

/-- A counter is what its increments come to, one call after the other. -/
theorem amount_logged {counters : Counter → UInt32} {log : List Increment}
    (h : ∀ a, counters a = amount log a) (o : CounterOp) (b : Counter) :
    (o.apply counters).2 b = amount (o.logged log) b := by
  cases o with
  | load a => exact h b
  | fetchAdd a v =>
      show Function.update counters a (counters a + v) b = amount (log ++ [(a, v)]) b
      rw [amount_append, amount_singleton, ← h b]
      by_cases hb : a = b
      · subst hb
        rw [Function.update_self, if_pos rfl]
      · rw [Function.update_of_ne (Ne.symm hb), if_neg hb, UInt32.add_zero]

theorem prefix_logged (o : CounterOp) (log : List Increment) : log <+: o.logged log := by
  cases o with
  | load a => exact List.prefix_refl log
  | fetchAdd a v => exact List.prefix_append log _

/-- An effect that counts a query. -/
def counts : Effect → Bool
  | .countBlocked => true
  | .countForwarded _ => true
  | .countTimeout => true
  | .toUpstream _ => false
  | .toClient _ _ => false

/-- **Each packet that is accepted is counted once**, and nothing else is. -/
theorem dnsTurn_counts {w w' : Server} {t : Turn} {fx : List Effect}
    (h : dnsTurn w t = some (w', fx)) : fx.countP counts = if accepts t then 1 else 0 := by
  have hasked : ∀ {client pkt name qEnd}, t.Asked client pkt name qEnd → accepts t = true := by
    intro client pkt name qEnd ha
    unfold accepts
    rw [ha.packet, Option.any_some, ha.question]
    rfl
  cases dnsTurn_outcome h with
  | idle hno =>
      have hnot : accepts t = false := by
        unfold accepts
        rcases hpacket : t.packet with _ | ⟨client, pkt⟩
        · rfl
        · rcases hparse : parseQuestion pkt dnsMaxName with _ | ⟨name, qEnd⟩
          · rw [Option.any_some, hparse]
            rfl
          · exact absurd ⟨hpacket, hparse⟩ (hno client pkt name qEnd)
      rw [hnot]
      rfl
  | blocked ha _ =>
      rw [hasked ha]
      rfl
  | hit hl _ _ =>
      obtain ⟨qEnd, ha, -⟩ := hl.asked
      rw [hasked ha]
      rfl
  | relay hl _ _ _ =>
      obtain ⟨qEnd, ha, -⟩ := hl.asked
      rw [hasked ha]
      rfl
  | timeout hl _ _ =>
      obtain ⟨qEnd, ha, -⟩ := hl.asked
      rw [hasked ha]
      rfl

/-- The bucket of a latency is the one it is in. -/
theorem bucketOf_eq (us : UInt32) (i : Fin statsHistBuckets) :
    bucketOf us = .hist i ↔ InBucket i us := by
  have hrange := latBucket_range us
  rw [← latBucket_eq_iff]
  unfold bucketOf
  rw [Counter.hist.injEq, Fin.ext_iff]
  show (latBucket us).toNat = i.val ↔ _
  omega

theorem ofNat_if (p : Prop) [Decidable p] :
    UInt32.ofNat (if p then 1 else 0) = if p then 1 else 0 := by
  split <;> rfl

section Effects

variable (e : Effect) (fx : List Effect)

theorem latencies_cons : (e :: fx).filterMap latencyOf =
    (latencyOf e).toList ++ fx.filterMap latencyOf := by
  rw [List.filterMap_cons]
  cases latencyOf e <;> rfl

/-- The queries are what three of the counters come to, -/
theorem amount_queries : amount (fx.flatMap increments) .blocked +
    amount (fx.flatMap increments) .forwarded + amount (fx.flatMap increments) .timeouts =
      UInt32.ofNat (fx.countP counts) := by
  induction fx with
  | nil => rfl
  | cons e fx ih =>
      have hone : amount (increments e) .blocked + amount (increments e) .forwarded +
          amount (increments e) .timeouts = if counts e = true then 1 else 0 := by
        cases e with
        | countForwarded latUs => simp [increments, amount, bucketOf, counts]
        | _ => simp [increments, amount, counts]
      rw [List.flatMap_cons, amount_append, amount_append, amount_append, List.countP_cons,
        UInt32.ofNat_add, ofNat_if, ← ih, ← hone]
      ac_rfl

/-- the fourth is the sum of the latencies, -/
theorem amount_latSumUs :
    amount (fx.flatMap increments) .latSumUs = (fx.filterMap latencyOf).sum := by
  induction fx with
  | nil => rfl
  | cons e fx ih =>
      have hone : amount (increments e) .latSumUs = (latencyOf e).toList.sum := by
        cases e with
        | countForwarded latUs => simp [increments, amount, bucketOf, latencyOf]
        | _ => rfl
      rw [List.flatMap_cons, amount_append, latencies_cons, List.sum_append, ih, hone]

/-- each bucket has the latencies that are in it, -/
theorem amount_hist (i : Fin statsHistBuckets) : amount (fx.flatMap increments) (.hist i) =
    UInt32.ofNat ((fx.filterMap latencyOf).countP fun us => InBucket i us) := by
  induction fx with
  | nil => rfl
  | cons e fx ih =>
      have hone : amount (increments e) (.hist i) =
          UInt32.ofNat ((latencyOf e).toList.countP fun us => InBucket i us) := by
        cases e with
        | countForwarded latUs =>
            have hlat : (latencyOf (.countForwarded latUs)).toList = [latUs] := rfl
            rw [hlat, List.countP_singleton, ofNat_if]
            simp [increments, amount, bucketOf_eq]
        | _ => rfl
      rw [List.flatMap_cons, amount_append, latencies_cons, List.countP_append, UInt32.ofNat_add,
        ih, hone]

/-- and together they have those that were forwarded. -/
theorem amount_buckets : (buckets.map (amount (fx.flatMap increments))).sum =
    amount (fx.flatMap increments) .forwarded := by
  have hpick : ∀ j : Fin statsHistBuckets,
      ((List.finRange statsHistBuckets).map fun i =>
        if j = i then (1 : UInt32) else 0).sum = 1 := by
    decide
  induction fx with
  | nil => rfl
  | cons e fx ih =>
      have hone : (buckets.map (amount (increments e))).sum =
          amount (increments e) .forwarded := by
        cases e with
        | countForwarded latUs =>
            have hforwarded : amount (increments (.countForwarded latUs)) .forwarded = 1 := by
              simp [increments, amount, bucketOf]
            obtain ⟨j, hj⟩ : ∃ j, bucketOf latUs = .hist j := ⟨_, rfl⟩
            rw [hforwarded, ← hpick j]
            unfold buckets
            rw [List.map_map]
            refine congrArg List.sum (List.map_congr_left fun i _ => ?_)
            simp [increments, amount, hj]
        | countBlocked => decide
        | countTimeout => decide
        | toUpstream data =>
            show (buckets.map (amount [])).sum = amount [] .forwarded
            decide
        | toClient client data =>
            show (buckets.map (amount [])).sum = amount [] .forwarded
            decide
      have hsplit : ∀ a, amount ((e :: fx).flatMap increments) a =
          amount (increments e) a + amount (fx.flatMap increments) a := fun a =>
        amount_append _ _ a
      rw [funext hsplit, List.sum_map_add, ih, hone]

end Effects

/-! ### What holds of the two tasks -/

/-- What is kept in every step of theirs. -/
structure Conserved (c : Tasks) : Prop where
  counters : ∀ a, c.counters a = amount c.log a
  serving : c.serving.Safe logs (fun _ _ => True)
    (fun _ log => log = c.effects.flatMap increments) c.log
  accepted : c.effects.countP counts = c.turns.countP accepts
  sending : ∀ p, c.sending = some p →
    p.Safe (notes c.began) Loads (fun cur seen => ∀ a, Found c.began seen a (delta cur a)) c.seen
  began : c.began <+: c.log
  after : c.sending ≠ none → ∀ d ∈ c.dispatches.head?, d.ended <+: c.began
  ended : ∀ d ∈ c.dispatches.head?, d.ended <+: c.log
  seen : ∀ a, (c.seen a).value = amount (c.seen a).log a ∧ (c.seen a).log <+: c.log
  last : c.last = latestSnap c.dispatches
  latest : ∀ a, delta (latestSnap c.dispatches) a = amount (latest c.dispatches a) a ∧
    latest c.dispatches a <+: (c.seen a).log
  intervals : Intervals c.dispatches

theorem delta_since (cur last : StatsSnap) (a : Counter) :
    delta (cur.since last) a = delta cur a - delta last a := by
  cases a with
  | hist i => exact Vector.getElem_zipWith ..
  | _ => rfl

theorem delta_zero (a : Counter) : delta .zero a = 0 := by
  cases a with
  | hist i => exact Vector.getElem_replicate _
  | _ => rfl

theorem conserved_init (time : Int) : Conserved (.init time) where
  counters := fun a => rfl
  serving := rfl
  accepted := rfl
  sending := fun p hp => by cases hp
  began := List.prefix_refl _
  after := fun _ d hd => by cases hd
  ended := fun d hd => by cases hd
  seen := fun a => ⟨rfl, List.prefix_refl _⟩
  last := rfl
  latest := fun a => ⟨delta_zero a, List.prefix_refl _⟩
  intervals := trivial

/-- A load keeps the loads honest: what it answers had been counted till then, and no load goes
back behind the one before. -/
theorem Conserved.noted {c : Tasks} (h : Conserved c) {a b : Counter} {found : Seen}
    (hfound : (CounterOp.load a).noted (c.counters a) c.log c.seen b = found) :
    found.value = amount found.log b ∧ found.log <+: c.log ∧ (c.seen b).log <+: found.log := by
  by_cases hb : b = a
  · subst hb
    obtain rfl : ⟨c.counters b, c.log⟩ = found := (Function.update_self ..).symm.trans hfound
    exact ⟨h.counters b, List.prefix_refl _, (h.seen b).2⟩
  · obtain rfl : c.seen b = found := (Function.update_of_ne hb ..).symm.trans hfound
    exact ⟨(h.seen b).1, (h.seen b).2, List.prefix_refl _⟩

/-- An exact call: its snapshot is there, and `stats_send_once` has made of it what it does. -/
theorem Conserved.exact {c : Tasks} (h : Conserved c) {cur : StatsSnap}
    (hcall : c.sending = some (pure cur)) (node : Bytes) (nowUs : Nat) (reachable : Bool) :
    Dispatch.Exact ⟨cur, (statsSendOnce node cur c.last nowUs reachable).d,
      (statsSendOnce node cur c.last nowUs reachable).line, c.began,
      fun a => (c.seen a).log, c.log⟩ where
  fresh := fun a => ⟨(h.sending _ hcall a).2, (h.seen a).2⟩
  snap := fun a => (h.sending _ hcall a).1.trans (h.seen a).1
  line := by
    intro line hline
    obtain ⟨hd, -, hspec⟩ := statsSendOnce_spec node cur c.last nowUs reachable
    refine ⟨node, nowUs / 1000000, ?_⟩
    show line = statsLine node (statsSendOnce node cur c.last nowUs reachable).d _
    rw [hd]
    exact hspec line hline

/-- The deltas it computes are what was counted since the load before. -/
theorem Conserved.interval {c : Tasks} (h : Conserved c) {cur : StatsSnap}
    (hcall : c.sending = some (pure cur)) (node : Bytes) (nowUs : Nat) (reachable : Bool)
    (a : Counter) : ∃ new, (c.seen a).log = System.latest c.dispatches a ++ new ∧
      delta (statsSendOnce node cur c.last nowUs reachable).d a = amount new a := by
  obtain ⟨hsnap, new, hnew⟩ := h.latest a
  have hcur : delta cur a = amount (c.seen a).log a :=
    (h.sending _ hcall a).1.trans (h.seen a).1
  refine ⟨new, hnew.symm, ?_⟩
  rw [(statsSendOnce_spec node cur c.last nowUs reachable).1, delta_since, hcur, h.last, hsnap,
    ← hnew, amount_append, UInt32.add_comm, UInt32.add_sub_cancel]

/-- **One step** keeps it. -/
theorem Conserved.step {c c' : Tasks} (h : Conserved c) (hs : Tasks.Step c c') :
    Conserved c' := by
  cases hs with
  | @turn t w fx hidle hturn =>
      have hdone := h.serving
      rw [hidle, Prog.safe_pure] at hdone
      refine { h with serving := ?_, accepted := ?_ }
      · refine (countEffects_safe fx c.log).post fun _ log hlog => ?_
        rw [hlog, hdone, List.flatMap_append]
      · show (c.effects ++ fx).countP counts = (c.turns ++ [t]).countP accepts
        rw [List.countP_append, List.countP_append, h.accepted, dnsTurn_counts hturn,
          List.countP_singleton]
  | @count o k hcall =>
      have hrest := h.serving
      rw [hcall] at hrest
      have hgrows := prefix_logged o c.log
      exact { h with
        counters := amount_logged h.counters o
        serving := hrest.2 _ _ rfl
        began := h.began.trans hgrows
        ended := fun d hd => (h.ended d hd).trans hgrows
        seen := fun a => ⟨(h.seen a).1, (h.seen a).2.trans hgrows⟩ }
  | snap hnone =>
      refine { h with sending := fun p hp => ?_, began := List.prefix_refl _,
                      after := fun _ => h.ended }
      obtain rfl := Option.some.inj hp
      exact snapCounters_safe c.log c.seen
  | @read o k hcall =>
      obtain ⟨⟨a, rfl⟩, hrest⟩ := h.sending _ hcall
      refine { h with sending := fun p hp => ?_, after := fun _ => h.after (by simp [hcall]),
                      seen := fun b => ?_, latest := fun b => ?_ }
      · obtain rfl := Option.some.inj hp
        exact hrest _ _ ⟨c.log, h.began, rfl⟩
      · obtain ⟨hvalue, hlog, -⟩ := h.noted (a := a) (b := b) rfl
        exact ⟨hvalue, hlog⟩
      · obtain ⟨-, -, hlater⟩ := h.noted (a := a) (b := b) rfl
        exact ⟨(h.latest b).1, (h.latest b).2.trans hlater⟩
  | @send cur hcall node nowUs reachable =>
      have hexact := h.exact hcall node nowUs reachable
      refine { h with sending := fun p hp => ?_, after := fun hne => absurd rfl hne,
                      ended := fun d hd => ?_,
                      last := (statsSendOnce_spec node cur c.last nowUs reachable).2.1,
                      latest := fun a => ⟨hexact.snap a, List.prefix_refl _⟩,
                      intervals := ⟨hexact, h.after (by simp [hcall]),
                        h.interval hcall node nowUs reachable, h.intervals⟩ }
      · cases hp
      · obtain rfl := Option.some.inj hd
        exact List.prefix_refl _

theorem Conserved.reach {c c' : Tasks} (h : Conserved c) (hr : Tasks.Reach c c') :
    Conserved c' := by
  induction hr with
  | refl => exact h
  | tail _ hs ih => exact ih.step hs

/-- The deltas that were computed come to what the latest snapshot has read. -/
theorem sum_intervals {dispatches : List Dispatch} (h : Intervals dispatches) (a : Counter) :
    (dispatches.map fun d => delta d.interval a).sum = amount (latest dispatches a) a := by
  induction dispatches with
  | nil => rfl
  | cons d ds ih =>
      obtain ⟨-, -, hnew, hrest⟩ := h
      obtain ⟨new, hlog, hdelta⟩ := hnew a
      rw [List.map_cons, List.sum_cons, ih hrest, hdelta]
      show _ = amount (d.found a) a
      rw [hlog, amount_append, UInt32.add_comm]

/-- Between two turns all increments are made. -/
theorem Conserved.idle {c : Tasks} (h : Conserved c) (hidle : c.serving = pure ()) :
    c.counters = amount (c.effects.flatMap increments) := by
  have hdone := h.serving
  rw [hidle, Prog.safe_pure] at hdone
  rw [← hdone]
  exact funext h.counters

/-- **No query is lost and none is counted twice**, in any interleaving of the two tasks.
Between two turns the counters are what was to be counted.  At any time the deltas of all calls
of `stats_send_once` come to what the latest snapshot has of a counter, which is what the
counter was between the begin and the end of the call, and each delta is what was counted
between two loads. -/
theorem statistics_conserved {time : Int} {c : Tasks} (h : Tasks.Reach (.init time) c) :
    (c.serving = pure () →
      c.counters .blocked + c.counters .forwarded + c.counters .timeouts =
        UInt32.ofNat (c.turns.countP accepts) ∧
      (buckets.map c.counters).sum = c.counters .forwarded ∧
      (∀ i, c.counters (.hist i) = UInt32.ofNat (c.latencies.countP fun us => InBucket i us)) ∧
      c.counters .latSumUs = c.latencies.sum) ∧
    (∀ a, (c.dispatches.map fun d => delta d.interval a).sum =
      delta (latestSnap c.dispatches) a) ∧
    Intervals c.dispatches ∧ (∀ d ∈ c.dispatches.head?, d.ended <+: c.log) ∧
    ∀ a, c.counters a = amount c.log a := by
  have hc : Conserved c := (conserved_init time).reach h
  refine ⟨fun hidle => ?_, fun a => ?_, hc.intervals, hc.ended, hc.counters⟩
  · rw [hc.idle hidle]
    refine ⟨?_, amount_buckets _, amount_hist _, amount_latSumUs _⟩
    rw [amount_queries, hc.accepted]
  · rw [sum_intervals hc.intervals, (hc.latest a).1]

/-! ### A query beside a snapshot -/

/-- The tasks after the rest of a snapshot, if nothing is counted meanwhile. -/
def Tasks.read : Counting StatsSnap → Tasks → Tasks
  | .pure cur, t => { t with sending := some (.pure cur) }
  | .op o k, t => Tasks.read (k (o.apply t.counters).1)
      { t with counters := (o.apply t.counters).2, sending := some (k (o.apply t.counters).1)
               log := o.logged t.log
               seen := o.noted (o.apply t.counters).1 t.log t.seen }

/-- Steps within a call of `stats_send_once`. -/
def Tasks.Within : Tasks → Tasks → Prop :=
  ReflTransGen fun t t' => Step t t' ∧ t'.dispatches = t.dispatches

theorem Tasks.Within.reach {t t' : Tasks} (h : Tasks.Within t t') : Tasks.Reach t t' :=
  h.lift id fun _ _ hs => hs.1

theorem within_read (p : Counting StatsSnap) : ∀ {t : Tasks},
    t.sending = some p → Tasks.Within t (Tasks.read p t) := by
  induction p with
  | pure cur =>
      intro t hsending
      have hsame : { t with sending := some (.pure cur) } = t := by rw [← hsending]
      unfold Tasks.read
      rw [hsame]
      exact .refl
  | op o k ih =>
      intro t hsending
      exact .head ⟨.read hsending, rfl⟩ (ih _ rfl)

/-- A query that is blocked while a snapshot is taken, after the snapshot has read the counter
of such queries: the counter has it, and the interval does not. -/
theorem statistics_conserved_between : ∃ c d, Tasks.Reach (.init 0) c ∧ c.dispatches = [d] ∧
    d.interval.blocked = 0 ∧ d.line.isSome = true ∧ c.counters .blocked = 1 ∧
    c.serving = pure () ∧
    c.counters .blocked + c.counters .forwarded + c.counters .timeouts =
      UInt32.ofNat (c.turns.countP accepts) ∧
    Intervals c.dispatches ∧ d.ended <+: c.log := by
  have hasked : adsTurn.Asked 7 adsQuery (ascii "ads.example") 29 := ⟨rfl, by decide +kernel⟩
  have hturn := dnsTurn_blocked hasked (by decide +kernel) (.init 0)
  have hreach := Relation.ReflTransGen.refl (r := Tasks.Step) (a := Tasks.init 0)
  have hsnap := hreach.tail (.snap rfl)
  have hread := hsnap.tail (.read (o := .load .blocked) rfl)
  have hserve := hread.tail (.turn rfl hturn)
  have hcount := hserve.tail (.count (o := .fetchAdd .blocked 1) rfl)
  have hrest := hcount.trans (within_read _ rfl).reach
  have hsent := hrest.tail (@Tasks.Step.send _ .zero rfl (ascii "10.0.0.7") 5000000 true)
  obtain ⟨hidle, -, hintervals, hended, -⟩ := statistics_conserved hsent
  refine ⟨_, _, hsent, rfl, by decide +kernel, by decide +kernel, rfl, rfl, (hidle rfl).1,
    hintervals, hended _ rfl⟩

end EspHole.System
