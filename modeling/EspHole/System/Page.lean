/-
What the page shows of a fleet.

Only what is in the table is shown, so with the law of `telemetry_conserved` the page cannot
show more than was counted.  The counters in turn are of the queries: a sinkhole counts each
packet that it accepts at most once, and once its turn is over exactly once.  So the sum of
three numbers on the page is at most the number of packets, and where all has arrived and
nothing was lost it is that number.
-/
import EspHole.System.Telemetry

namespace EspHole.System

open Ascii Generator Sinkhole Relation Ledger

/-! ### The page -/

/-- The queries among the counters. -/
def queries (f : Counter → Nat) : Nat := f .blocked + f .forwarded + f .timeouts

/-- The queries that the page shows of a tag. -/
def queriesOn (doc : Json) (n : Bytes) : ℚ :=
  ((itemsOf doc n).map fun item => (shows item .blocked).getD 0 +
    (shows item .forwarded).getD 0 + (shows item .timeouts).getD 0).sum

/-- The packets that were to be counted under an address. -/
def Telemetry.accepted (c : Telemetry) (n : Bytes) : Nat :=
  tally Reporter.tag (fun x (_ : Unit) => x.accepted) (c.nodes ++ c.gone) n ()

/-- All of a tag has arrived, and nothing of it was lost or came twice. -/
structure Settled (c : Telemetry) (n : Bytes) : Prop where
  lost : ∀ a, c.lost n a = 0
  underway : ∀ a, c.underway n a = 0
  pending : ∀ a, c.pending n a = 0
  copied : ∀ a, c.copied n a = 0
  idle : ∀ x ∈ c.nodes ++ c.gone, x.tag = n → x.tasks.serving = pure ()

section Page

variable {nodes : NodeTable} (hdistinct : Distinct nodes)

include hdistinct

/-- What a table has under the name of an entry is in that entry. -/
theorem tabled_used {i : Fin statsMaxNodes} (hused : (nodes i).used = true) (a : Counter) :
    tabled nodes (nodes i).node a = ((nodes i).count a).toNat := by
  have halone : tally StatsNode.node held (entriesBut nodes i) (nodes i).node a = 0 := by
    refine tally_eq_zero fun s hs hnode => if_neg fun hother => ?_
    obtain ⟨j, hj, rfl⟩ := mem_entriesBut hs
    exact hj (hdistinct j i hother hused hnode)
  rw [tabled_split nodes i, halone, weight_of_eq rfl, held, if_pos hused]
  rfl

/-- **The page shows what is in the table**, in one item for each name that has an entry. -/
theorem itemsOf_tabled (now : Int) (n : Bytes) :
    (itemsOf (statsJsonHandler nodes now) n = [] ∧ ∀ a, tabled nodes n a = 0) ∨
    ∃ item, itemsOf (statsJsonHandler nodes now) n = [item] ∧
      ∀ a ∈ shown, shows item a = some (tabled nodes n a : ℚ) := by
  by_cases hentry : ∃ i, (nodes i).used = true ∧ (nodes i).node = n
  · obtain ⟨i, hused, rfl⟩ := hentry
    have hone : ((List.finRange statsMaxNodes).filter fun j =>
        (nodes j).used && (nodes j).node == (nodes i).node) = [i] := by
      have hsame : ∀ j ∈ List.finRange statsMaxNodes,
          ((nodes j).used && (nodes j).node == (nodes i).node) = (j == i) := by
        intro j _
        rw [Bool.eq_iff_iff, Bool.and_eq_true, beq_iff_eq, beq_iff_eq]
        exact ⟨fun hj => hdistinct j i hj.1 hused hj.2, fun hj => by rw [hj]; exact ⟨hused, rfl⟩⟩
      rw [List.filter_congr hsame, List.filter_beq,
        List.count_eq_one_of_mem (List.nodup_finRange _) (List.mem_finRange i)]
      rfl
    refine Or.inr ⟨nodeItem now (nodes i), ?_, fun a ha => ?_⟩
    · rw [itemsOf_statsJsonHandler, hone]
      rfl
    · rw [shows_nodeItem now _ ha, tabled_used hdistinct hused]
  · push Not at hentry
    refine Or.inl ⟨?_, fun a => tally_eq_zero fun s hs hnode => if_neg fun hused => ?_⟩
    · rw [itemsOf_statsJsonHandler, List.map_eq_nil_iff, List.filter_eq_nil_iff]
      intro i _ hi
      rw [Bool.and_eq_true, beq_iff_eq] at hi
      exact hentry i hi.1 hi.2
    · obtain ⟨i, -, rfl⟩ := List.mem_map.mp hs
      exact hentry i hused hnode

theorem queriesOn_tabled (now : Int) (n : Bytes) :
    queriesOn (statsJsonHandler nodes now) n = (queries (tabled nodes n) : ℚ) := by
  unfold queriesOn queries
  rcases itemsOf_tabled hdistinct now n with ⟨hnone, hzero⟩ | ⟨item, hitem, hshows⟩
  · rw [hnone, hzero, hzero, hzero]
    rfl
  · rw [hitem, List.map_singleton, List.sum_singleton, hshows _ (by decide),
      hshows _ (by decide), hshows _ (by decide)]
    push_cast
    rfl

end Page

/-! ### What was to be counted -/

theorem counted_queries (fx : List Effect) :
    queries (counted (fx.flatMap increments)) = fx.countP counts := by
  induction fx with
  | nil => rfl
  | cons e fx ih =>
      have hone : queries (counted (increments e)) = if counts e = true then 1 else 0 := by
        cases e with
        | countForwarded latUs => simp [queries, increments, counted, bucketOf, counts]
        | _ => simp [queries, increments, counted, counts]
      rw [List.flatMap_cons, List.countP_cons, ← ih, ← hone]
      unfold queries
      rw [counted_append, counted_append, counted_append]
      omega

/-- What is left of a turn only adds to the increments. -/
theorem prefix_of_safe {log all : List Increment} (p : Counting Unit)
    (h : p.Safe logs (fun _ _ => True) (fun _ log' => log' = all) log) : log <+: all := by
  induction p generalizing log with
  | pure x =>
      obtain rfl : log = all := h
      exact List.prefix_refl log
  | op o k ih => exact (prefix_logged o log).trans (ih 0 (h.2 0 _ rfl))

section Tasks

variable {x : Reporter} (h : Conserved x.tasks)

include h

/-- No more queries are counted than were accepted, -/
theorem Reporter.counted_le : queries x.counted ≤ x.accepted := by
  have hlog := counted_prefix (prefix_of_safe _ h.serving)
  have hall := counted_queries x.tasks.effects
  rw [h.accepted] at hall
  have hb := hlog .blocked
  have hf := hlog .forwarded
  have ht := hlog .timeouts
  unfold queries at hall ⊢
  unfold Reporter.counted Reporter.accepted
  omega

/-- and between two turns all of them are. -/
theorem Reporter.counted_idle (hidle : x.tasks.serving = pure ()) :
    queries x.counted = x.accepted := by
  have hdone := h.serving
  rw [hidle, Prog.safe_pure] at hdone
  have hall := counted_queries x.tasks.effects
  rw [h.accepted, ← hdone] at hall
  exact hall

end Tasks

/-- The queries of all sinkholes with a tag are those of each. -/
theorem queries_tally (l : List Reporter) (n : Bytes) :
    queries (tally Reporter.tag Reporter.counted l n) =
      tally Reporter.tag (fun x (_ : Unit) => queries x.counted) l n () := by
  induction l with
  | nil => rfl
  | cons x l ih =>
      rw [tally_cons, ← ih]
      unfold queries
      simp only [tally_cons]
      by_cases hn : x.tag = n
      · simp only [weight_of_eq hn]
        omega
      · simp only [weight_of_ne hn]
        omega

theorem Balanced.counted_le {c : Telemetry} (h : Balanced c) (n : Bytes) :
    queries (c.counted n) ≤ c.accepted n :=
  (queries_tally _ n).trans_le (tally_le fun x hx _ => Reporter.counted_le (h.tasks x hx))

theorem Balanced.counted_settled {c : Telemetry} (h : Balanced c) {n : Bytes}
    (hidle : ∀ x ∈ c.nodes ++ c.gone, x.tag = n → x.tasks.serving = pure ()) :
    queries (c.counted n) = c.accepted n := by
  refine (queries_tally _ n).trans (tally_congr fun x hx => ?_)
  by_cases hn : x.tag = n
  · rw [weight_of_eq hn, weight_of_eq hn, Reporter.counted_idle (h.tasks x hx) (hidle x hx hn)]
  · rw [weight_of_ne hn, weight_of_ne hn]

/-- **The page never shows more queries than there were.**  In any run it has at most one item
for an address, the queries of which are no more than the packets that the sinkholes at this
address accepted and the queries in copies that the network made; and when all has arrived and
nothing was lost, they are exactly those packets. -/
theorem page_never_overstates {c : Telemetry} (hr : Telemetry.Reach .init c) (now : Int)
    (n : Bytes) :
    (itemsOf (statsJsonHandler c.stats.nodes now) n).length ≤ 1 ∧
    queriesOn (statsJsonHandler c.stats.nodes now) n ≤
      ((c.accepted n + queries (c.copied n) : ℕ) : ℚ) ∧
    (Settled c n →
      queriesOn (statsJsonHandler c.stats.nodes now) n = (c.accepted n : ℚ)) := by
  have h := balanced_reach hr
  have hlaw : ∀ a, c.shown n a + c.lost n a + c.underway n a + c.pending n a =
      c.counted n a + c.copied n a := by
    intro a
    have hbooks := h.books n a
    have htotal := h.issued_pending n a
    omega
  have hb := hlaw .blocked
  have hf := hlaw .forwarded
  have ht := hlaw .timeouts
  have hqueries : queriesOn (statsJsonHandler c.stats.nodes now) n = (queries (c.shown n) : ℚ) :=
    queriesOn_tabled h.distinct now n
  refine ⟨?_, ?_, fun hsettled => ?_⟩
  · rcases itemsOf_tabled h.distinct now n with ⟨hnone, -⟩ | ⟨item, hitem, -⟩
    · rw [hnone]
      decide
    · rw [hitem]
      exact Nat.le_refl 1
  · have haccepted := h.counted_le n
    rw [hqueries]
    unfold queries at haccepted ⊢
    exact_mod_cast (by omega)
  · have haccepted := h.counted_settled hsettled.idle
    have hzero : ∀ a, c.lost n a = 0 ∧ c.underway n a = 0 ∧ c.pending n a = 0 ∧
        c.copied n a = 0 := fun a =>
      ⟨hsettled.lost a, hsettled.underway a, hsettled.pending a, hsettled.copied a⟩
    have hzb := hzero .blocked
    have hzf := hzero .forwarded
    have hzt := hzero .timeouts
    rw [hqueries, ← haccepted]
    unfold queries
    exact_mod_cast (by omega)

theorem settled_adsReported (clock : Nat → Int) :
    Settled (adsReported clock) (ascii "10.0.0.7") where
  lost := by
    show ∀ a, tally Loss.tag Loss.amount (adsDatagram.losses Stats.init.nodes ++
      [adsReporter.wraps]) (ascii "10.0.0.7") a = 0
    decide +kernel
  underway := fun a => rfl
  pending := by
    show ∀ a, tally Reporter.tag Reporter.pending [adsReporter.sent adsSnap 5000000 true]
      (ascii "10.0.0.7") a = 0
    decide +kernel
  copied := fun a => rfl
  idle := by
    intro x hx _
    obtain rfl := List.mem_singleton.mp
      (show x ∈ [adsReporter.sent adsSnap 5000000 true] from hx)
    rfl

/-- The page shows it. -/
theorem page_adsReported : ∃ c, Telemetry.Reach .init c ∧ Settled c (ascii "10.0.0.7") ∧
    queriesOn (statsJsonHandler c.stats.nodes 7000000) (ascii "10.0.0.7") = 1 := by
  have hreach := reach_adsReported fun _ => 6000000
  have hsettled := settled_adsReported fun _ => 6000000
  have haccepted : (adsReported fun _ => 6000000).accepted (ascii "10.0.0.7") = 1 := by
    show tally Reporter.tag (fun x (_ : Unit) => x.accepted)
      [adsReporter.sent adsSnap 5000000 true] (ascii "10.0.0.7") () = 1
    decide +kernel
  refine ⟨_, hreach, hsettled, ?_⟩
  rw [(page_never_overstates hreach 7000000 (ascii "10.0.0.7")).2.2 hsettled, haccepted]
  rfl

end EspHole.System
