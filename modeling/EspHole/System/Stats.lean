/-
From a sinkhole's counters to the generator's table.

`statsLine` prints 21 fields and `ingest_line` reads them back, each by its key.  The numbers
are 32 bits wide, and `strtol` on the generator returns a `long` of as many, one of them for
the sign: a delta from `2 ^ 31` on arrives as `2 ^ 31 - 1`.  `arrives_iff` says that this is
all that can go wrong.
-/
import EspHole.Generator.Table
import EspHole.Sinkhole.Stats

namespace EspHole.System

open Ascii CString Generator Sinkhole

/-! ### The fields of the line -/

/-- The delta of that name. -/
def delta (d : StatsSnap) : Counter → UInt32
  | .blocked => d.blocked
  | .forwarded => d.forwarded
  | .timeouts => d.timeouts
  | .latSumUs => d.latSumUs
  | .hist i => d.hist.get i

/-- The key of a counter. -/
def counterKey : Counter → Bytes
  | .blocked => ascii "blocked"
  | .forwarded => ascii "forwarded"
  | .timeouts => ascii "timeouts"
  | .latSumUs => ascii "lat_sum_us"
  | .hist i => ascii "h" ++ decimal i.val

/-- A field as it is printed. -/
def printField (key : Bytes) (n : Nat) : Bytes := key ++ '='.toUInt8 :: (decimal n ++ ascii "i")

/-- The counters in front of the uptime. -/
def leading : List Counter := [.blocked, .forwarded, .timeouts, .latSumUs]

/-- The counters behind it. -/
def buckets : List Counter := (List.finRange statsHistBuckets).map .hist

/-- These are all. -/
theorem mem_counters (c : Counter) : c ∈ leading ++ buckets := by
  rw [List.mem_append]
  cases c with
  | hist i => exact Or.inr (List.mem_map_of_mem (List.mem_finRange i))
  | _ => exact Or.inl (by decide)

instance decidableForallCounter {p : Counter → Prop} [DecidablePred p] : Decidable (∀ c, p c) :=
  decidable_of_iff (∀ c ∈ leading ++ buckets, p c)
    ⟨fun h c => h c (mem_counters c), fun h c _ => h c⟩

/-- The fields of a report. -/
def reportFields (d : StatsSnap) (uptime : Nat) : List Bytes :=
  leading.map (fun c => printField (counterKey c) (delta d c).toNat) ++
    printField (ascii "uptime_s") uptime ::
      buckets.map fun c => printField (counterKey c) (delta d c).toNat

/-- The text of the fields. -/
def reportText (d : StatsSnap) (uptime : Nat) : Bytes :=
  [','.toUInt8].intercalate (reportFields d uptime)

/-- The fields of the buckets, as they follow the others. -/
theorem buckets_eq (d : StatsSnap) :
    ((buckets.map fun c => printField (counterKey c) (delta d c).toNat).map
        (','.toUInt8 :: ·)).flatten =
      (List.finRange statsHistBuckets).flatMap fun i =>
        ascii ",h" ++ decimal i.val ++ ascii "=" ++ decimal (d.hist.get i).toNat ++ ascii "i" := by
  unfold buckets
  rw [List.map_map, List.map_map, List.flatMap_def]
  refine congrArg List.flatten (List.map_congr_left fun i _ => ?_)
  show ','.toUInt8 :: printField (ascii "h" ++ decimal i.val) (d.hist.get i).toNat = _
  unfold printField
  simp only [List.append_assoc]
  rfl

/-- **The line is a node and its fields.** -/
theorem statsLine_eq (node : Bytes) (d : StatsSnap) (uptime : Nat) :
    statsLine node d uptime = linePrefix ++ (node ++ ' '.toUInt8 :: reportText d uptime) := by
  have hfields : reportFields d uptime = printField (ascii "blocked") d.blocked.toNat ::
      printField (ascii "forwarded") d.forwarded.toNat ::
      printField (ascii "timeouts") d.timeouts.toNat ::
      printField (ascii "lat_sum_us") d.latSumUs.toNat :: printField (ascii "uptime_s") uptime ::
      buckets.map fun c => printField (counterKey c) (delta d c).toNat := rfl
  unfold reportText statsLine
  rw [hfields, RegularExpression.intercalate_cons_eq]
  simp only [List.map_cons, List.flatten_cons]
  rw [buckets_eq]
  generalize (List.finRange statsHistBuckets).flatMap _ = rest
  unfold printField
  simp only [List.append_assoc, List.cons_append]
  rfl

/-! ### Reading it back -/

/-- A key is spelt without the marks of a field, and it is read as what it names. -/
theorem counterKey_spec (c : Counter) : counterOf (counterKey c) = some c ∧
    ','.toUInt8 ∉ counterKey c ∧ '='.toUInt8 ∉ counterKey c := by
  have hist : ∀ i : Fin statsHistBuckets, counterOf (ascii "h" ++ decimal i.val) = some (.hist i) ∧
      ','.toUInt8 ∉ ascii "h" ++ decimal i.val ∧ '='.toUInt8 ∉ ascii "h" ++ decimal i.val := by
    decide +kernel
  cases c with
  | hist i => exact hist i
  | _ => decide +kernel

theorem counterKey_ne_uptime (c : Counter) : counterKey c ≠ ascii "uptime_s" := by
  intro h
  have := (counterKey_spec c).1
  rw [h, counterOf_uptime] at this
  cases this

/-- A number as it arrives: the largest `long` stands for all that are larger. -/
def arriving (n : Nat) : Nat := min n (2 ^ 31 - 1)

theorem strtol_printed (n : Nat) : strtol (decimal n ++ ascii "i") = arriving n := by
  refine strtol_decimal ?_
  rintro c ⟨⟩
  decide

theorem keyValue_printField {key : Bytes} (hkey : '='.toUInt8 ∉ key) (n : Nat) :
    keyValue (printField key n) = some (key, decimal n ++ ascii "i") := keyValue_split hkey _

theorem comma_not_mem_printField {key : Bytes} (hkey : ','.toUInt8 ∉ key) (n : Nat) :
    ','.toUInt8 ∉ printField key n := by
  unfold printField
  rw [List.mem_append, List.mem_cons, List.mem_append]
  rintro (h | h | h | h)
  · exact hkey h
  · exact absurd h (by decide)
  · exact (isDigit_apart _ (isDigit_decimal n _ h)).2.2.2.2.1 rfl
  · exact absurd h (by decide)

/-- The fields that are read are those that were printed. -/
theorem fields_reportText (d : StatsSnap) (uptime : Nat) :
    fields (reportText d uptime) = reportFields d uptime := by
  refine List.splitOn_intercalate _ (fun field hfield => ?_) (by unfold reportFields; simp)
  unfold reportFields at hfield
  rcases List.mem_append.mp hfield with h | h
  · obtain ⟨c, -, rfl⟩ := List.mem_map.mp h
    exact comma_not_mem_printField (counterKey_spec c).2.1 _
  · rcases List.mem_cons.mp h with rfl | h
    · exact comma_not_mem_printField (by decide) _
    · obtain ⟨c, -, rfl⟩ := List.mem_map.mp h
      exact comma_not_mem_printField (counterKey_spec c).2.1 _

theorem adds_printField (c' : Counter) (n : Nat) (c : Counter) :
    adds (printField (counterKey c') n) c =
      if c' = c then UInt32.ofInt (arriving n) else 0 := by
  obtain ⟨hof, -, heq⟩ := counterKey_spec c'
  unfold adds
  rw [keyValue_printField heq]
  dsimp only
  rw [hof, strtol_printed]
  simp only [Option.some.injEq]

theorem sets_printField (c : Counter) (n : Nat) : sets (printField (counterKey c) n) = none := by
  unfold sets
  rw [keyValue_printField (counterKey_spec c).2.2]
  exact if_neg (counterKey_ne_uptime c)

/-- Of the counters of a list, one adds to a sum. -/
theorem sum_adds {l : List Counter} (hl : l.Nodup) (d : StatsSnap) (c : Counter) :
    (l.map fun c' => adds (printField (counterKey c') (delta d c').toNat) c).sum =
      if c ∈ l then UInt32.ofInt (arriving (delta d c).toNat) else 0 := by
  induction l with
  | nil => rfl
  | cons c' l ih =>
      obtain ⟨hnot, hl⟩ := List.nodup_cons.mp hl
      rw [List.map_cons, List.sum_cons, ih hl, adds_printField]
      by_cases hc : c' = c
      · subst hc
        rw [if_pos rfl, if_neg hnot, if_pos List.mem_cons_self, UInt32.add_zero]
      · rw [if_neg hc, UInt32.zero_add]
        simp [Ne.symm hc]

/-- **A report adds to each sum what arrives of its delta**, -/
theorem added_reportText (d : StatsSnap) (uptime : Nat) (c : Counter) :
    added (reportText d uptime) c = UInt32.ofInt (arriving (delta d c).toNat) := by
  have huptime : adds (printField (ascii "uptime_s") uptime) c = 0 := by
    unfold adds
    rw [keyValue_printField (by decide)]
    dsimp only
    rw [counterOf_uptime, if_neg (by simp)]
  have hbuckets : buckets.Nodup :=
    (List.nodup_finRange _).map fun i j h => by simpa using h
  have hsplit : ∀ c, (c ∈ leading ∧ c ∉ buckets) ∨ (c ∉ leading ∧ c ∈ buckets) := by
    decide +kernel
  unfold added
  rw [fields_reportText, reportFields, List.map_append, List.map_cons, List.map_map, List.map_map,
    List.sum_append, List.sum_cons, huptime, UInt32.zero_add]
  have hleading := sum_adds (l := leading) (by decide) d c
  have hrest := sum_adds hbuckets d c
  simp only [Function.comp_def]
  rw [hleading, hrest]
  rcases hsplit c with ⟨h, h'⟩ | ⟨h, h'⟩
  · rw [if_pos h, if_neg h', UInt32.add_zero]
  · rw [if_neg h, if_pos h', UInt32.zero_add]

/-- and it sets the uptime. -/
theorem uptimeSet_reportText (d : StatsSnap) (uptime : Nat) :
    uptimeSet (reportText d uptime) = some (arriving uptime : Int) := by
  have hbuckets : (buckets.map fun c =>
      printField (counterKey c) (delta d c).toNat).reverse.findSome? sets = none := by
    rw [List.findSome?_eq_none_iff]
    intro field hfield
    obtain ⟨c, -, rfl⟩ := List.mem_map.mp (List.mem_reverse.mp hfield)
    exact sets_printField c _
  have huptime : sets (printField (ascii "uptime_s") uptime) = some (arriving uptime : Int) := by
    unfold sets
    rw [keyValue_printField (by decide)]
    dsimp only
    rw [if_pos rfl, strtol_printed]
  unfold uptimeSet
  rw [fields_reportText, reportFields, List.reverse_append, List.reverse_cons, List.append_assoc,
    List.findSome?_append, hbuckets, List.singleton_append, List.findSome?_cons_of_isSome]
  · rw [huptime]
    rfl
  · rw [huptime]
    rfl

/-- A delta arrives as it is if it is a `long`. -/
theorem ofInt_arriving (n : UInt32) :
    UInt32.ofInt (arriving n.toNat) = n ↔ n.toNat ≤ 2 ^ 31 - 1 := by
  have hsmall : arriving n.toNat < 2 ^ 32 := by
    unfold arriving
    omega
  have hmod : ((arriving n.toNat : Int) % 2 ^ 32).toNat = arriving n.toNat := by omega
  have hnat : (UInt32.ofInt (arriving n.toNat)).toNat = arriving n.toNat := by
    unfold UInt32.ofInt
    rw [hmod]
    exact UInt32.toNat_ofNat_of_lt' hsmall
  rw [← UInt32.toNat_inj, hnat]
  unfold arriving
  omega

/-! ### The report and the table -/

/-- The table has the node, or room for it. -/
def HasPlace (nodes : NodeTable) (node : Bytes) : Prop :=
  ∃ i, (nodes i).used = true → (nodes i).node = node

/-- An entry credited with `v` and an uptime: it is that of the node, new if there was none, and
no other is touched. -/
structure Credited (nodes nodes' : NodeTable) (node : Bytes) (v : Counter → UInt32)
    (uptime : Int) (i : Fin statsMaxNodes) : Prop where
  entry : (nodes' i).used = true ∧ (nodes' i).node = node
  known : (nodes i).used = true → (nodes i).node = node
  created : (nodes i).used = false → ∀ j, (nodes j).used = true → (nodes j).node ≠ node
  counts : ∀ c, (nodes' i).count c = (if (nodes i).used then (nodes i).count c else 0) + v c
  uptime : (nodes' i).uptimeS = uptime
  others : ∀ j, j ≠ i → nodes' j = nodes j

/-- The table after a line was received into an empty buffer. -/
def received (clock : Nat → Int) (s : Stats) (line : Bytes) : NodeTable :=
  (ingestLine clock (line ++ [0]) s 0 line.length).2.nodes

/-- What becomes of an interval: it is sent, fits on both sides, and is credited if the table
has a place for its node. -/
structure Arrives (clock : Nat → Int) (s : Stats) (node : Bytes) (cur last : StatsSnap)
    (nowUs : Nat) : Prop where
  sent : (statsSendOnce node cur last nowUs true).line =
    some (statsLine node (cur.since last) (nowUs / 1000000))
  fits : (statsLine node (cur.since last) (nowUs / 1000000)).length < lineSize ∧
    (statsLine node (cur.since last) (nowUs / 1000000)).length ≤ statsMaxLine - 1
  credited : HasPlace s.nodes node → ∃ i, Credited s.nodes
    (received clock s (statsLine node (cur.since last) (nowUs / 1000000))) node
    (delta (cur.since last)) (nowUs / 1000000 : Nat) i
  dropped : ¬ HasPlace s.nodes node →
    received clock s (statsLine node (cur.since last) (nowUs / 1000000)) = s.nodes

/-- A node has a place exactly if it is given an entry. -/
theorem hasPlace_iff {nodes : NodeTable} {node : Bytes}
    (hsize : 1 ≤ node.length ∧ node.length < nodeSize) :
    HasPlace nodes node ↔ ∃ found, findOrCreateNode nodes node = some found := by
  have hfound := findOrCreateNode_spec nodes hsize
  generalize findOrCreateNode nodes node = found at hfound
  cases hfound with
  | @known i hused hnode => exact ⟨fun _ => ⟨_, rfl⟩, fun _ => ⟨i, fun _ => hnode⟩⟩
  | @created i hfree hnew =>
      exact ⟨fun _ => ⟨_, rfl⟩,
        fun _ => ⟨i, fun hused => absurd (hused.symm.trans hfree) (by decide)⟩⟩
  | full hall =>
      constructor
      · rintro ⟨i, hi⟩
        exact absurd (hi (hall i).1) (hall i).2
      · rintro ⟨found, ⟨⟩⟩

/-- An entry that is new has zeros. -/
theorem findOrCreateNode_count {nodes nodes' : NodeTable} {node : Bytes}
    {i : Fin statsMaxNodes} (h : findOrCreateNode nodes node = some (i, nodes')) (c : Counter) :
    (nodes' i).count c = if (nodes i).used then (nodes i).count c else 0 := by
  have hspec := findOrCreateNode_spec nodes (findOrCreateNode_length (by rw [h]; simp))
  rw [h] at hspec
  cases hspec with
  | known hused hnode => rw [if_pos hused]
  | created hfree hnew =>
      rw [if_neg (by rw [hfree]; decide), Function.update_self]
      cases c with
      | hist k => exact Vector.getElem_replicate _
      | _ => rfl

/-- What a text of fields makes of an entry. -/
theorem credit_entry (clock : Nat → Int) (s : Stats) (i : Fin statsMaxNodes) (nodes : NodeTable)
    (d : StatsSnap) (uptime : Nat) :
    (∀ c, ((s.credit clock i nodes (reportText d uptime)).nodes i).count c =
      (nodes i).count c + UInt32.ofInt (arriving (delta d c).toNat)) ∧
    ((s.credit clock i nodes (reportText d uptime)).nodes i).uptimeS = arriving uptime := by
  obtain ⟨-, -, -, hup⟩ :=
    creditFields_rest { nodes i with lastSeenUs := clock s.ticks } (reportText d uptime)
  unfold Stats.credit
  dsimp only
  rw [Function.update_self]
  refine ⟨fun c => ?_, ?_⟩
  · rw [creditFields_count, added_reportText]
    cases c <;> rfl
  · rw [hup, uptimeSet_reportText]
    rfl

/-- A line of a report, heard. -/
theorem hearLine_report {clock : Nat → Int} {node : Bytes} (hspace : ' '.toUInt8 ∉ node)
    (d : StatsSnap) (uptime : Nat) (s : Stats) :
    hearLine clock (statsLine node d uptime) [] s =
      (findOrCreateNode s.nodes node).map fun found =>
        s.credit clock found.1 found.2 (reportText d uptime) := by
  unfold hearLine
  rw [statsLine_eq, header_split hspace]
  simp only [List.append_nil]

theorem received_eq {clock : Nat → Int} {node : Bytes} (hspace : ' '.toUInt8 ∉ node)
    (hnul : 0 ∉ node) (d : StatsSnap) (uptime : Nat) (s : Stats) :
    received clock s (statsLine node d uptime) =
      (((findOrCreateNode s.nodes node).map fun found =>
        s.credit clock found.1 found.2 (reportText d uptime)).getD s).nodes := by
  have hspells : Spells (statsLine node d uptime ++ [0]) 0 (statsLine node d uptime ++ []) := by
    rw [List.append_nil]
    exact ⟨not_mem_statsLine (by decide) (by decide) hnul d uptime, [], rfl⟩
  obtain ⟨buf', hingest, -⟩ := ingestLine_spec clock hspells s
  unfold received
  rw [hingest, hearLine_report hspace]

theorem Credited.touches {nodes nodes' : NodeTable} {node : Bytes} {v : Counter → UInt32}
    {uptime : Int} {i : Fin statsMaxNodes} (h : Credited nodes nodes' node v uptime i) :
    Touches nodes nodes' node i :=
  ⟨h.entry, h.known, h.created, h.others⟩

/-- What an entry is credited with is seen in the tables. -/
theorem Credited.unique {nodes nodes' : NodeTable} {node : Bytes} {v v' : Counter → UInt32}
    {uptime uptime' : Int} {i j : Fin statsMaxNodes} (hi : Credited nodes nodes' node v uptime i)
    (hj : Credited nodes nodes' node v' uptime' j) : v = v' := by
  funext c
  by_cases hij : i = j
  · subst hij
    exact (UInt32.add_right_inj _).mp ((hi.counts c).symm.trans (hj.counts c))
  · -- Each is untouched by the other, so nothing was added to either.
    have hsamei := hj.others i hij
    have hsamej := hi.others j (Ne.symm hij)
    have hzero : ∀ {k w}, nodes' k = nodes k → (nodes' k).used = true →
        (nodes' k).count c = (if (nodes k).used then (nodes k).count c else 0) + w → w = 0 := by
      intro k w hsame hused hcount
      rw [hsame] at hused hcount
      rw [if_pos hused] at hcount
      exact (UInt32.left_eq_add).mp hcount
    rw [hzero hsamei hi.entry.1 (hi.counts c), hzero hsamej hj.entry.1 (hj.counts c)]

section Node

variable {node : Bytes} (hlen : 1 ≤ node.length ∧ node.length ≤ 15) (hspace : ' '.toUInt8 ∉ node)
  (hnul : 0 ∉ node)

include hlen hspace hnul

/-- **A report is credited with what arrives of it**, if its node has a place. -/
theorem received_credited (clock : Nat → Int) (s : Stats) (d : StatsSnap) (uptime : Nat)
    (hplace : HasPlace s.nodes node) :
    ∃ i, Credited s.nodes (received clock s (statsLine node d uptime)) node
      (fun c => UInt32.ofInt (arriving (delta d c).toNat)) (arriving uptime) i := by
  obtain ⟨⟨i, nodes⟩, hfind⟩ := (hasPlace_iff ⟨hlen.1, Nat.lt_succ_of_le hlen.2⟩).mp hplace
  have ht := (touches_findOrCreateNode hfind).credit clock (reportText d uptime)
  obtain ⟨hcounts, hup⟩ := credit_entry clock s i nodes d uptime
  rw [received_eq hspace hnul, hfind]
  exact ⟨i, {
    entry := ht.entry
    known := ht.known
    created := ht.created
    counts := fun c => by
      rw [← findOrCreateNode_count hfind]
      exact hcounts c
    uptime := hup
    others := ht.others }⟩

/-- A report of numbers that a `long` can hold is credited as it is. -/
theorem received_exact (clock : Nat → Int) (s : Stats) {d : StatsSnap} (uptime : Nat)
    (hsmall : ∀ c, (delta d c).toNat ≤ 2 ^ 31 - 1) (hplace : HasPlace s.nodes node) :
    ∃ i, Credited s.nodes (received clock s (statsLine node d uptime)) node (delta d)
      (arriving uptime) i := by
  obtain ⟨i, hi⟩ := received_credited hlen hspace hnul clock s d uptime hplace
  have hdelta : (fun c => UInt32.ofInt (arriving (delta d c).toNat)) = delta d :=
    funext fun c => (ofInt_arriving _).mpr (hsmall c)
  rw [hdelta] at hi
  exact ⟨i, hi⟩

/-- A report of a node without a place is dropped. -/
theorem received_dropped (clock : Nat → Int) (s : Stats) (d : StatsSnap) (uptime : Nat)
    (hplace : ¬ HasPlace s.nodes node) :
    received clock s (statsLine node d uptime) = s.nodes := by
  rcases hfind : findOrCreateNode s.nodes node with _ | found
  · rw [received_eq hspace hnul, hfind]
    rfl
  · exact absurd ((hasPlace_iff ⟨hlen.1, Nat.lt_succ_of_le hlen.2⟩).mpr ⟨found, hfind⟩) hplace

end Node

/-- **An interval arrives exactly if all of its deltas are a `long`**, or nothing of it does as
there is no place for its node. -/
theorem arrives_iff (clock : Nat → Int) (s : Stats) {node : Bytes}
    (hlen : 1 ≤ node.length ∧ node.length ≤ 15) (hspace : ' '.toUInt8 ∉ node) (hnul : 0 ∉ node)
    (cur last : StatsSnap) {nowUs : Nat} (hup : nowUs / 1000000 < 2 ^ 31) :
    Arrives clock s node cur last nowUs ↔
      (∀ c, (delta (cur.since last) c).toNat ≤ 2 ^ 31 - 1) ∨ ¬ HasPlace s.nodes node := by
  have hfits := statsLine_length hlen.2 (cur.since last) (hup.trans (by decide))
  have hpos : (statsLine node (cur.since last) (nowUs / 1000000)).length ≠ 0 := by
    rw [statsLine_eq]
    simp [linePrefix, ascii]
  constructor
  · intro harrives
    by_cases hplace : HasPlace s.nodes node
    · obtain ⟨i, hi⟩ := received_credited hlen hspace hnul clock s (cur.since last)
        (nowUs / 1000000) hplace
      obtain ⟨j, hj⟩ := harrives.credited hplace
      exact Or.inl fun c => (ofInt_arriving _).mp (congrFun (hi.unique hj) c)
    · exact Or.inr hplace
  · intro hcond
    refine ⟨?_, ⟨Nat.lt_succ_of_le hfits, hfits⟩, fun hplace => ?_,
      received_dropped hlen hspace hnul clock s _ _⟩
    · unfold statsSendOnce
      dsimp only
      rw [if_neg (by decide), if_neg (by unfold lineSize; omega)]
    · have hsmall := hcond.resolve_right (not_not.mpr hplace)
      have huptime : arriving (nowUs / 1000000) = nowUs / 1000000 := by
        unfold arriving
        omega
      obtain ⟨i, hi⟩ := received_exact hlen hspace hnul clock s (nowUs / 1000000) hsmall hplace
      rw [huptime] at hi
      exact ⟨i, hi⟩

/-- A few queries. -/
theorem arrives_few : Arrives (fun _ => 0) Stats.init (ascii "10.0.0.7")
    { StatsSnap.zero with blocked := 3, forwarded := 5, latSumUs := 70000 } .zero 5000000 :=
  (arrives_iff (fun _ => 0) Stats.init (by decide) (by decide) (by decide) _ _
    (by decide)).mpr (Or.inl (by decide +kernel))

/-- An hour of queries that take two seconds each: their latencies add up to more than a `long`. -/
theorem not_arrives_slow : ¬ Arrives (fun _ => 0) Stats.init (ascii "10.0.0.7")
    { StatsSnap.zero with
      forwarded := 1100, latSumUs := 2200000000, hist := StatsSnap.zero.hist.set 14 1100 }
    .zero 3605000000 := by
  intro h
  have hplace : HasPlace Stats.init.nodes (ascii "10.0.0.7") := ⟨0, fun hused => by cases hused⟩
  obtain ⟨i, hi⟩ := h.credited hplace
  obtain ⟨j, hj⟩ := received_credited (by decide) (by decide) (by decide) (fun _ => 0) Stats.init
    _ _ hplace
  have hlat := (ofInt_arriving _).mp (congrFun (hj.unique hi) .latSumUs)
  exact absurd hlat (by decide)

end EspHole.System
