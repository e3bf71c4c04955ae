/-
What the generator shows of a run of reports.

Its table keeps one sum of 32 bits for every counter of a node, and it never takes an entry
back, so the first sixteen nodes are the ones it shows.  `Accounts` is what holds of the table
after any run: every entry has its node's sums, but modulo `2 ^ 32`.  So `totals_exact_iff`
says that the document is right exactly as long as no sum has come to `2 ^ 32`; microseconds
do so after 72 minutes of waiting.
-/
import Mathlib.Data.Fintype.Card
import EspHole.Generator.Datagram
import EspHole.System.Stats

namespace EspHole.System

open Ascii Generator Sinkhole

/-! ### A run of reports -/

/-- An interval of a node, with numbers that a `long` can hold. -/
structure Report where
  node : Bytes
  interval : StatsSnap
  uptime : Nat
  length : 1 ≤ node.length ∧ node.length ≤ 15
  plain : ' '.toUInt8 ∉ node ∧ 0 ∉ node ∧ newline ∉ node
  uptime_lt : uptime < 2 ^ 63 / 1000000
  small : ∀ c, (delta interval c).toNat ≤ 2 ^ 31 - 1

/-- The datagram that carries it. -/
def Report.datagram (r : Report) : Bytes := statsLine r.node r.interval r.uptime

/-- The generator after a run of datagrams since its boot. -/
def heard (clock : Nat → Int) (reports : List Report) : Stats :=
  reports.foldl (fun s r => statsListener clock s r.datagram) Stats.init

/-- What was reported of a counter in all. -/
def total (reports : List Report) (node : Bytes) (c : Counter) : Nat :=
  (reports.map fun r => if r.node = node then (delta r.interval c).toNat else 0).sum

/-- A node takes a place if one is left. -/
def place (taken : List Bytes) (node : Bytes) : List Bytes :=
  if node ∈ taken ∨ taken.length = statsMaxNodes then taken else taken ++ [node]

/-- The nodes that have a place: the first sixteen. -/
def places (reports : List Report) : List Bytes := (reports.map (·.node)).foldl place []

/-! ### What the document says -/

/-- The counters that are shown. -/
def shown : List Counter := [.blocked, .forwarded, .timeouts, .latSumUs]

/-- The items of the document that are of a node. -/
def itemsOf (doc : Json) (node : Bytes) : List Json :=
  match doc.getObjectItem (ascii "nodes") with
  | some (.arr items) =>
      items.filter fun item => Json.string? (item.getObjectItem (ascii "id")) == some node
  | _ => []

/-- A number that an item shows. -/
def shows (item : Json) (c : Counter) : Option ℚ :=
  Json.number? (item.getObjectItem (counterKey c))

/-- The average latency of the page, before it is rounded. -/
def averageLatency (item : Json) : Option ℚ :=
  (shows item .latSumUs).bind fun lat => (shows item .forwarded).map (lat / ·)

/-- An item has the totals of a run, and so the average. -/
structure Exact (reports : List Report) (node : Bytes) (item : Json) : Prop where
  totals : ∀ c ∈ shown, shows item c = some (total reports node c : ℚ)
  average : averageLatency item =
    some ((total reports node .latSumUs : ℚ) / total reports node .forwarded)

/-- Every node that has a place is shown once, with its totals. -/
def TotalsExact (reports : List Report) (doc : Json) : Prop :=
  ∀ node ∈ places reports, ∃ item, itemsOf doc node = [item] ∧ Exact reports node item

/-! ### One more report -/

section Append

variable (reports : List Report) (r : Report)

theorem heard_append (clock : Nat → Int) : heard clock (reports ++ [r]) =
    statsListener clock (heard clock reports) r.datagram := by
  unfold heard
  rw [List.foldl_append]
  rfl

theorem places_append : places (reports ++ [r]) = place (places reports) r.node := by
  unfold places
  rw [List.map_append, List.foldl_append]
  rfl

theorem total_append (node : Bytes) (c : Counter) : total (reports ++ [r]) node c =
    total reports node c + if r.node = node then (delta r.interval c).toNat else 0 := by
  unfold total
  rw [List.map_append, List.sum_append, List.map_singleton, List.sum_singleton]

end Append

/-- A node that is there, or for which a place is left, is there afterwards. -/
theorem mem_place {taken : List Bytes} {node : Bytes}
    (h : node ∈ taken ∨ taken.length ≠ statsMaxNodes) (other : Bytes) :
    other ∈ place taken node ↔ other ∈ taken ∨ other = node := by
  unfold place
  by_cases hmem : node ∈ taken
  · rw [if_pos (Or.inl hmem)]
    exact ⟨Or.inl, fun h => h.elim id fun heq => heq ▸ hmem⟩
  · rw [if_neg (not_or.mpr ⟨hmem, h.resolve_left hmem⟩), List.mem_append, List.mem_singleton]

/-- Without one, nothing changes. -/
theorem place_full {taken : List Bytes} (h : taken.length = statsMaxNodes) (node : Bytes) :
    place taken node = taken := if_pos (Or.inr h)

/-- Whoever reported has a place, or there is none left. -/
theorem mem_places {reports : List Report} {r : Report} (h : r ∈ reports) :
    r.node ∈ places reports ∨ (places reports).length = statsMaxNodes := by
  induction reports using List.reverseRecOn with
  | nil => cases h
  | append_singleton reports last ih =>
      rw [places_append]
      by_cases hfull : (places reports).length = statsMaxNodes
      · rw [place_full hfull]
        exact Or.inr hfull
      · rw [mem_place (Or.inr hfull)]
        rcases List.mem_append.mp h with hr | hr
        · exact Or.inl (Or.inl ((ih hr).resolve_right hfull))
        · exact Or.inl (Or.inr (by rw [List.mem_singleton.mp hr]))

/-- A node that waits for no place has reported nothing. -/
theorem total_new {reports : List Report} {node : Bytes} (hnew : node ∉ places reports)
    (hleft : (places reports).length ≠ statsMaxNodes) (c : Counter) : total reports node c = 0 := by
  have hzero : ∀ r ∈ reports, (if r.node = node then (delta r.interval c).toNat else 0) = 0 := by
    intro r hr
    refine if_neg fun heq => ?_
    exact hnew (heq ▸ (mem_places hr).resolve_right hleft)
  unfold total
  rw [List.map_congr_left hzero, List.map_const', List.sum_replicate]
  rfl

/-! ### The table keeps account -/

/-- The nodes with a place have an entry each, and every sum is the total, modulo `2 ^ 32`. -/
structure Accounts (reports : List Report) (nodes : NodeTable) : Prop where
  listed : ∀ node, node ∈ places reports ↔ ∃ i, (nodes i).used = true ∧ (nodes i).node = node
  single : ∀ i j, (nodes i).used = true → (nodes j).used = true →
    (nodes i).node = (nodes j).node → i = j
  size : (places reports).length = (Finset.univ.filter fun i => (nodes i).used = true).card
  sums : ∀ i, (nodes i).used = true → ∀ c,
    (nodes i).count c = UInt32.ofNat (total reports (nodes i).node c)

theorem accounts_nil : Accounts [] Stats.init.nodes where
  listed node := by
    constructor
    · rintro ⟨⟩
    · rintro ⟨i, ⟨⟩, -⟩
  single i j hused := by cases hused
  size := by decide
  sums i hused := by cases hused

section Step

variable {reports : List Report} {nodes nodes' : NodeTable}

/-- No place is left exactly if every entry is used. -/
theorem Accounts.full_iff (h : Accounts reports nodes) :
    (places reports).length = statsMaxNodes ↔ ∀ i, (nodes i).used = true := by
  rw [h.size]
  constructor
  · intro hcard i
    have huniv := Finset.eq_univ_of_card _ (hcard.trans (Fintype.card_fin _).symm)
    simpa using Finset.eq_univ_iff_forall.mp huniv i
  · intro hall
    rw [Finset.filter_true_of_mem fun i _ => hall i, Finset.card_univ, Fintype.card_fin]

theorem Accounts.hasPlace_iff (h : Accounts reports nodes) (node : Bytes) :
    HasPlace nodes node ↔ node ∈ places reports ∨ (places reports).length ≠ statsMaxNodes := by
  rw [h.listed, ne_eq, h.full_iff]
  constructor
  · rintro ⟨i, hi⟩
    by_cases hused : (nodes i).used = true
    · exact Or.inl ⟨i, hused, hi hused⟩
    · exact Or.inr fun hall => hused (hall i)
  · rintro (⟨i, -, hnode⟩ | hleft)
    · exact ⟨i, fun _ => hnode⟩
    · obtain ⟨i, hi⟩ := not_forall.mp hleft
      exact ⟨i, fun hused => absurd hused hi⟩

/-- A report without a place changes nothing. -/
theorem Accounts.dropped (h : Accounts reports nodes) {r : Report}
    (hplace : ¬ HasPlace nodes r.node) : Accounts (reports ++ [r]) nodes := by
  rw [h.hasPlace_iff, not_or, not_not] at hplace
  obtain ⟨hnot, hfull⟩ := hplace
  have hsame : places (reports ++ [r]) = places reports := by
    rw [places_append, place_full hfull]
  refine ⟨?_, h.single, ?_, fun i hused c => ?_⟩
  · rw [hsame]
    exact h.listed
  · rw [hsame]
    exact h.size
  · have hne : r.node ≠ (nodes i).node := by
      intro heq
      exact hnot ((h.listed _).mpr ⟨i, hused, heq.symm⟩)
    rw [total_append, if_neg hne, Nat.add_zero]
    exact h.sums i hused c

variable {r : Report} {uptime : Int} {i : Fin statsMaxNodes}

/-- The entries after a report: those before, and the one it is credited to. -/
theorem Accounts.used_iff (hc : Credited nodes nodes' r.node (delta r.interval) uptime i)
    (j : Fin statsMaxNodes) : (nodes' j).used = true ↔ (nodes j).used = true ∨ j = i := by
  by_cases hj : j = i
  · subst hj
    simp [hc.entry.1]
  · rw [hc.others j hj]
    simp [hj]

/-- A new entry is for a new node. -/
theorem Accounts.created (h : Accounts reports nodes)
    (hc : Credited nodes nodes' r.node (delta r.interval) uptime i)
    (hfree : ¬ (nodes i).used = true) :
    r.node ∉ places reports ∧ (places reports).length ≠ statsMaxNodes := by
  refine ⟨fun hmem => ?_, fun hfull => hfree (h.full_iff.mp hfull i)⟩
  obtain ⟨j, hused, hnode⟩ := (h.listed _).mp hmem
  exact hc.created (by simpa using hfree) j hused hnode

theorem Accounts.credited_size (h : Accounts reports nodes)
    (hc : Credited nodes nodes' r.node (delta r.interval) uptime i) :
    (place (places reports) r.node).length =
      (Finset.univ.filter fun j => (nodes' j).used = true).card := by
  have hfilter : (Finset.univ.filter fun j => (nodes' j).used = true) =
      insert i (Finset.univ.filter fun j => (nodes j).used = true) := by
    ext j
    simp [Accounts.used_iff hc j, or_comm]
  rw [hfilter]
  by_cases hi : (nodes i).used = true
  · have hmem : r.node ∈ places reports := (h.listed _).mpr ⟨i, hi, hc.known hi⟩
    rw [Finset.insert_eq_of_mem (by simpa using hi), place, if_pos (Or.inl hmem)]
    exact h.size
  · obtain ⟨hnot, hleft⟩ := h.created hc hi
    rw [Finset.card_insert_of_notMem (by simpa using hi), place,
      if_neg (not_or.mpr ⟨hnot, hleft⟩), List.length_append, h.size]
    rfl

/-- The sums of the entry that is credited. -/
theorem Accounts.credited_sums (h : Accounts reports nodes)
    (hc : Credited nodes nodes' r.node (delta r.interval) uptime i) (c : Counter) :
    (nodes' i).count c = UInt32.ofNat (total (reports ++ [r]) r.node c) := by
  rw [total_append, if_pos rfl, UInt32.ofNat_add, UInt32.ofNat_toNat, hc.counts]
  by_cases hi : (nodes i).used = true
  · rw [if_pos hi, h.sums i hi, hc.known hi]
  · obtain ⟨hnot, hleft⟩ := h.created hc hi
    rw [if_neg hi, total_new hnot hleft]
    rfl

/-- **A report that is credited is accounted for.** -/
theorem Accounts.credited (h : Accounts reports nodes)
    (hc : Credited nodes nodes' r.node (delta r.interval) uptime i) :
    Accounts (reports ++ [r]) nodes' := by
  have hplace : HasPlace nodes r.node := ⟨i, hc.known⟩
  refine ⟨fun node => ?_, hc.touches.distinct h.single, ?_, fun j hused c => ?_⟩
  · rw [places_append, mem_place ((h.hasPlace_iff _).mp hplace), h.listed]
    constructor
    · rintro (⟨j, hused, hnode⟩ | rfl)
      · by_cases hj : j = i
        · subst hj
          exact ⟨j, hc.entry.1, hc.entry.2.trans ((hc.known hused).symm.trans hnode)⟩
        · exact ⟨j, by rw [hc.others j hj]; exact ⟨hused, hnode⟩⟩
      · exact ⟨i, hc.entry⟩
    · rintro ⟨j, hused, hnode⟩
      by_cases hj : j = i
      · subst hj
        exact Or.inr (hnode.symm.trans hc.entry.2)
      · rw [hc.others j hj] at hused hnode
        exact Or.inl ⟨j, hused, hnode⟩
  · rw [places_append]
    exact h.credited_size hc
  · by_cases hj : j = i
    · subst hj
      rw [hc.entry.2]
      exact h.credited_sums hc c
    · rw [hc.others j hj] at hused ⊢
      rw [total_append, if_neg (hc.touches.alone h.single hj hused).symm, Nat.add_zero]
      exact h.sums j hused c

end Step

/-- A datagram is received as the line it is. -/
theorem statsListener_datagram (clock : Nat → Int) (s : Stats) (r : Report) :
    (statsListener clock s r.datagram).nodes = received clock s r.datagram := by
  obtain ⟨hspace, hnul, hnl⟩ := r.plain
  have hlen := statsLine_length r.length.2 r.interval (r.uptime_lt.trans (by decide))
  unfold Report.datagram
  rw [statsListener_line hlen (not_mem_statsLine (by decide) (by decide) hnul _ _)
    (not_mem_statsLine (by decide) (by decide) hnl _ _), hearAlone,
    hearLine_report hspace, received_eq hspace hnul]

/-- **Every run is accounted for.** -/
theorem accounts_heard (clock : Nat → Int) (reports : List Report) :
    Accounts reports (heard clock reports).nodes := by
  induction reports using List.reverseRecOn with
  | nil => exact accounts_nil
  | append_singleton reports r ih =>
      obtain ⟨hspace, hnul, -⟩ := r.plain
      rw [heard_append, statsListener_datagram]
      by_cases hplace : HasPlace (heard clock reports).nodes r.node
      · obtain ⟨i, hi⟩ := received_exact r.length hspace hnul clock (heard clock reports)
          r.uptime r.small hplace
        exact ih.credited hi
      · unfold Report.datagram
        rw [received_dropped r.length hspace hnul clock _ _ _ hplace]
        exact ih.dropped hplace

/-! ### The document -/

/-- The items of a document are the entries in use. -/
theorem itemsOf_statsJsonHandler (nodes : NodeTable) (now : Int) (node : Bytes) :
    itemsOf (statsJsonHandler nodes now) node =
      ((List.finRange _).filter fun i => (nodes i).used && (nodes i).node == node).map fun i =>
        nodeItem now (nodes i) := by
  have hdoc : (statsJsonHandler nodes now).getObjectItem (ascii "nodes") = some (.arr
      (((List.finRange _).filter fun i => (nodes i).used).map fun i => nodeItem now (nodes i))) :=
    rfl
  have hid : ∀ n : StatsNode,
      Json.string? ((nodeItem now n).getObjectItem (ascii "id")) = some n.node := fun _ => rfl
  unfold itemsOf
  rw [hdoc]
  dsimp only
  rw [List.filter_map, List.filter_filter]
  refine congrArg (List.map _) (List.filter_congr fun i _ => ?_)
  rw [Function.comp_apply, hid, Bool.and_comm]
  rfl

/-- An item shows the sums of its entry. -/
theorem shows_nodeItem (now : Int) (n : StatsNode) {c : Counter} (hc : c ∈ shown) :
    shows (nodeItem now n) c = some ((n.count c).toNat : ℚ) := by
  cases c with
  | hist i => exact absurd hc (by simp [shown])
  | _ => rfl

/-- **A node with a place has one item, which shows what its totals are modulo `2 ^ 32`.** -/
theorem Accounts.itemsOf {reports : List Report} {nodes : NodeTable} (h : Accounts reports nodes)
    (now : Int) {node : Bytes} (hplace : node ∈ places reports) :
    ∃ item, itemsOf (statsJsonHandler nodes now) node = [item] ∧
      ∀ c ∈ shown, shows item c = some ((total reports node c % 2 ^ 32 : Nat) : ℚ) := by
  obtain ⟨i, hused, rfl⟩ := (h.listed node).mp hplace
  refine ⟨nodeItem now (nodes i), ?_, fun c hc => ?_⟩
  · have hone : ((List.finRange statsMaxNodes).filter fun j =>
        (nodes j).used && (nodes j).node == (nodes i).node) = [i] := by
      have hsame : ∀ j ∈ List.finRange statsMaxNodes,
          ((nodes j).used && (nodes j).node == (nodes i).node) = (j == i) := by
        intro j _
        rw [Bool.eq_iff_iff, Bool.and_eq_true, beq_iff_eq, beq_iff_eq]
        exact ⟨fun hj => h.single j i hj.1 hused hj.2, fun hj => by rw [hj]; exact ⟨hused, rfl⟩⟩
      rw [List.filter_congr hsame, List.filter_beq,
        List.count_eq_one_of_mem (List.nodup_finRange _) (List.mem_finRange i)]
      rfl
    rw [itemsOf_statsJsonHandler, hone]
    rfl
  · rw [shows_nodeItem now _ hc, h.sums i hused, UInt32.toNat_ofNat']

/-- A total that is shown fits. -/
theorem Accounts.fits {reports : List Report} {nodes : NodeTable} (h : Accounts reports nodes)
    {now : Int} (hexact : TotalsExact reports (statsJsonHandler nodes now)) {node : Bytes}
    (hplace : node ∈ places reports) {c : Counter} (hc : c ∈ shown) :
    total reports node c < 2 ^ 32 := by
  obtain ⟨item, hitem, hshows⟩ := h.itemsOf now hplace
  obtain ⟨item', hitem', hexact⟩ := hexact node hplace
  obtain rfl : item' = item := by simpa using hitem'.symm.trans hitem
  have hmod := (hexact.totals c hc).symm.trans (hshows c hc)
  rw [Option.some.injEq, Nat.cast_inj] at hmod
  rw [hmod]
  exact Nat.mod_lt _ (by decide)

/-- **The document shows the totals of a run exactly if all of them fit into 32 bits.** -/
theorem totals_exact_iff (clock : Nat → Int) (reports : List Report) (now : Int) :
    TotalsExact reports (statsJsonHandler (heard clock reports).nodes now) ↔
      ∀ node ∈ places reports, ∀ c ∈ shown, total reports node c < 2 ^ 32 := by
  have haccounts := accounts_heard clock reports
  constructor
  · exact fun hexact node hplace c hc => haccounts.fits hexact hplace hc
  · intro hfits node hplace
    obtain ⟨item, hitem, hshows⟩ := haccounts.itemsOf now hplace
    have htotals : ∀ c ∈ shown, shows item c = some (total reports node c : ℚ) := by
      intro c hc
      rw [hshows c hc, Nat.mod_eq_of_lt (hfits node hplace c hc)]
    refine ⟨item, hitem, htotals, ?_⟩
    unfold averageLatency
    rw [htotals .latSumUs (by decide), htotals .forwarded (by decide)]
    rfl

/-- Thirty minutes of queries that take two seconds each. -/
def slowReport : Report where
  node := ascii "10.0.0.7"
  interval := { StatsSnap.zero with
    forwarded := 900, latSumUs := 1800000000, hist := StatsSnap.zero.hist.set 14 900 }
  uptime := 1800
  length := by decide
  plain := by decide
  uptime_lt := by decide
  small := by decide +kernel

/-- After an hour and a half of them the sum of the latencies has wrapped. -/
theorem not_totals_exact_slow : ¬ TotalsExact [slowReport, slowReport, slowReport]
    (statsJsonHandler
      (heard (fun _ => 0) [slowReport, slowReport, slowReport]).nodes 5400000000) := by
  intro hexact
  have hplace : slowReport.node ∈ places [slowReport, slowReport, slowReport] := by decide +kernel
  have hfits := (accounts_heard _ _).fits hexact hplace (c := .latSumUs) (by decide)
  exact absurd hfits (by decide +kernel)

end EspHole.System
