/-
A datagram of several lines against its lines one by one.

The listener splits at newlines "defensively anyway", and the first line that finds its node
spoils it: the loop over the fields runs on through the lines behind it.  `separate_iff` says
for which datagrams this cannot be seen.  In one direction it is an equality of states; in
the other the two ways are told apart, by a timer that shows when a line was heard and by a
node that had been up for a while.
-/
import EspHole.Generator.Ingest

namespace EspHole.Generator

open Ascii

/-! ### The condition -/

/-- A line that reports for a node, with the text of its fields. -/
structure Reports (line node text : Bytes) : Prop where
  header : header line = some (node, text)
  length : 1 ≤ node.length ∧ node.length < nodeSize

/-- A line that reports for no node. -/
def Silent (line : Bytes) : Prop := ∀ node text, ¬ Reports line node text

/-- Two texts of fields that do the same. -/
def SameFields (text text' : Bytes) : Prop :=
  (∀ c, added text c = added text' c) ∧ uptimeSet text = uptimeSet text'

/-- After a line that reports no other does, and what follows it in the datagram, read on as
more of its fields, adds nothing. -/
def Apart : List Bytes → Prop
  | [] => True
  | line :: lines =>
      (∀ node text, Reports line node text →
        (∀ l ∈ lines, Silent l) ∧ SameFields (text ++ lines.flatMap (newline :: ·)) text) ∧
      Apart lines

/-- The datagram does what its lines do, each in a datagram of its own. -/
def Separate (datagram : Bytes) : Prop :=
  ∀ (clock : Nat → Int) (s : Stats), (statsListener clock s datagram).nodes =
    ((segments datagram).foldl (statsListener clock) s).nodes

/-! ### One line -/

/-- What a line does in a datagram of its own. -/
def hearAlone (clock : Nat → Int) (s : Stats) (line : Bytes) : Stats :=
  (hearLine clock line [] s).getD s

theorem statsListener_line {clock : Nat → Int} {line : Bytes} (hlen : line.length ≤ 511)
    (hnul : 0 ∉ line) (hnl : newline ∉ line) (s : Stats) :
    statsListener clock s line = hearAlone clock s line := by
  rw [statsListener_eq hlen hnul, segments_open hnl]
  rfl

theorem findOrCreateNode_length {nodes : NodeTable} {node : Bytes}
    (h : findOrCreateNode nodes node ≠ none) : 1 ≤ node.length ∧ node.length < nodeSize := by
  unfold findOrCreateNode at h
  split at h
  · exact absurd rfl h
  · omega

/-- With a free entry there is one for every node. -/
theorem findOrCreateNode_free {nodes : NodeTable} {node : Bytes}
    (hlen : 1 ≤ node.length ∧ node.length < nodeSize) {j : Fin statsMaxNodes}
    (hfree : (nodes j).used = false) : findOrCreateNode nodes node ≠ none := by
  intro hnone
  have hspec := findOrCreateNode_spec nodes hlen
  rw [hnone] at hspec
  cases hspec with
  | full hall =>
      rw [(hall j).1] at hfree
      cases hfree

theorem hearLine_silent {clock : Nat → Int} {line : Bytes} (h : Silent line) (tail : Bytes)
    (s : Stats) : hearLine clock line tail s = none := by
  unfold hearLine
  cases hheader : header line with
  | none => rfl
  | some pair =>
      obtain ⟨node, text⟩ := pair
      have hnone : findOrCreateNode s.nodes node = none := by
        by_contra hfound
        exact h node text ⟨hheader, findOrCreateNode_length hfound⟩
      dsimp only
      rw [hnone]
      rfl

theorem hearLine_reports {clock : Nat → Int} {line node text : Bytes}
    (h : Reports line node text) (tail : Bytes) (s : Stats) :
    hearLine clock line tail s = (findOrCreateNode s.nodes node).map fun found =>
      s.credit clock found.1 found.2 (text ++ tail) := by
  unfold hearLine
  rw [h.header]

/-- Texts that do the same do so to every entry. -/
theorem SameFields.credit {text text' : Bytes} (h : SameFields text text') (clock : Nat → Int)
    (s : Stats) (i : Fin statsMaxNodes) (nodes : NodeTable) :
    s.credit clock i nodes text = s.credit clock i nodes text' := by
  have hsame : ∀ n : StatsNode, creditFields n text = creditFields n text' := by
    intro n
    obtain ⟨hused, hnode, hseen, hup⟩ := creditFields_rest n text
    obtain ⟨hused', hnode', hseen', hup'⟩ := creditFields_rest n text'
    refine StatsNode.ext_count (hused.trans hused'.symm) (hnode.trans hnode'.symm) (fun c => ?_)
      ?_ (hseen.trans hseen'.symm)
    · rw [creditFields_count, creditFields_count, h.1 c]
    · rw [hup, hup', h.2]
  unfold Stats.credit
  rw [hsame]

/-! ### Lines that report nothing -/

section Silent

variable {lines : List Bytes}

theorem hearLines_silent {clock : Nat → Int} (h : ∀ l ∈ lines, Silent l) (s : Stats) :
    hearLines clock lines s = s := by
  induction lines with
  | nil => rfl
  | cons l lines ih =>
      rw [hearLines, hearLine_silent (h l List.mem_cons_self)]
      exact ih fun m hm => h m (List.mem_cons_of_mem l hm)

theorem hearAlone_silent {clock : Nat → Int} (h : ∀ l ∈ lines, Silent l) (s : Stats) :
    lines.foldl (hearAlone clock) s = s := by
  induction lines with
  | nil => rfl
  | cons l lines ih =>
      rw [List.foldl_cons, hearAlone, hearLine_silent (h l List.mem_cons_self)]
      exact ih fun m hm => h m (List.mem_cons_of_mem l hm)

theorem apart_silent (h : ∀ l ∈ lines, Silent l) : Apart lines := by
  induction lines with
  | nil => trivial
  | cons l lines ih =>
      exact ⟨fun node text hr => absurd hr (h l List.mem_cons_self node text),
        ih fun m hm => h m (List.mem_cons_of_mem l hm)⟩

end Silent

/-! ### Lines that are heard late -/

/-- A timer that shows how often it was read. -/
def counting : Nat → Int := fun ticks => ticks

/-- Something was heard after the timer was first read. -/
def HeardLate (s : Stats) : Prop := 1 ≤ s.ticks ∧ ∃ i, 1 ≤ (s.nodes i).lastSeenUs

theorem credit_lastSeen (clock : Nat → Int) (s : Stats) (i : Fin statsMaxNodes)
    (nodes : NodeTable) (text : Bytes) :
    ((s.credit clock i nodes text).nodes i).lastSeenUs = clock s.ticks := by
  unfold Stats.credit
  dsimp only
  rw [Function.update_self, (creditFields_rest _ _).2.2.1]

theorem heardLate_of_hearLine {line tail : Bytes} {s s' : Stats} (hticks : 1 ≤ s.ticks)
    (h : hearLine counting line tail s = some s') : HeardLate s' := by
  unfold hearLine at h
  cases hheader : header line with
  | none =>
      rw [hheader] at h
      cases h
  | some pair =>
      rw [hheader] at h
      obtain ⟨found, -, rfl⟩ := Option.map_eq_some_iff.mp h
      refine ⟨Nat.le_add_left 1 _, found.1, ?_⟩
      rw [credit_lastSeen]
      show (1 : Int) ≤ (s.ticks : Int)
      omega

theorem HeardLate.keep {s : Stats} (h : HeardLate s) (lines : List Bytes) :
    HeardLate (lines.foldl (hearAlone counting) s) := by
  induction lines generalizing s with
  | nil => exact h
  | cons line lines ih =>
      refine ih ?_
      unfold hearAlone
      cases hline : hearLine counting line [] s with
      | none => exact h
      | some s' => exact heardLate_of_hearLine h.1 hline

/-- A report after the first is heard late, where an entry is free. -/
theorem heardLate_of_reports {lines : List Bytes} (hreports : ¬ ∀ l ∈ lines, Silent l)
    {s : Stats} (hticks : 1 ≤ s.ticks) {j : Fin statsMaxNodes}
    (hfree : (s.nodes j).used = false) : HeardLate (lines.foldl (hearAlone counting) s) := by
  induction lines with
  | nil => exact absurd (by simp) hreports
  | cons line lines ih =>
      by_cases hsilent : Silent line
      · rw [List.foldl_cons, hearAlone, hearLine_silent hsilent]
        exact ih fun h => hreports (List.forall_mem_cons.mpr ⟨hsilent, h⟩)
      · unfold Silent at hsilent
        push Not at hsilent
        obtain ⟨node, text, hr⟩ := hsilent
        obtain ⟨found, hfound⟩ :=
          Option.ne_none_iff_exists'.mp (findOrCreateNode_free hr.length hfree)
        have hline : hearLine counting line [] s =
            some (s.credit counting found.1 found.2 (text ++ [])) := by
          rw [hearLine_reports hr, hfound]
          rfl
        rw [List.foldl_cons, hearAlone, hline]
        exact (heardLate_of_hearLine hticks hline).keep lines

/-! ### Telling the two ways apart -/

/-- One node is known, and has been up for a while. -/
def knowing (node : Bytes) (uptime : Int) : Stats :=
  ⟨Function.update (fun _ => .zero) 0
    { StatsNode.zero with used := true, node := node, uptimeS := uptime }, 0⟩

section Reports

variable {line node text : Bytes}

theorem knowing_find (h : Reports line node text) (uptime : Int) :
    findOrCreateNode (knowing node uptime).nodes node =
      some (0, (knowing node uptime).nodes) := by
  have hother : ∀ i, i ≠ 0 → ((knowing node uptime).nodes i).used = false := by
    intro i hi
    unfold knowing
    dsimp only
    rw [Function.update_of_ne hi]
    rfl
  have hspec := findOrCreateNode_spec (knowing node uptime).nodes h.length
  generalize findOrCreateNode (knowing node uptime).nodes node = found at hspec
  cases hspec with
  | @known i hused hnode =>
      by_cases hi : i = 0
      · rw [hi]
      · rw [hother i hi] at hused
        cases hused
  | created hfree hnew => exact absurd rfl (hnew 0 rfl)
  | full hall => exact absurd rfl (hall 0).2

theorem hearLines_knowing (h : Reports line node text) (clock : Nat → Int) (lines : List Bytes)
    (uptime : Int) : hearLines clock (line :: lines) (knowing node uptime) =
      (knowing node uptime).credit clock 0 (knowing node uptime).nodes
        (text ++ lines.flatMap (newline :: ·)) := by
  rw [hearLines, hearLine_reports h, knowing_find h]
  rfl

theorem hearAlone_knowing (h : Reports line node text) (clock : Nat → Int) (uptime : Int) :
    hearAlone clock (knowing node uptime) line =
      (knowing node uptime).credit clock 0 (knowing node uptime).nodes text := by
  rw [hearAlone, hearLine_reports h, knowing_find h, List.append_nil]
  rfl

/-- The timer is still at its first reading. -/
theorem knowing_not_late (text : Bytes) (i : Fin statsMaxNodes) :
    ¬ 1 ≤ (((knowing node 0).credit counting 0 (knowing node 0).nodes text).nodes
      i).lastSeenUs := by
  by_cases hi : i = 0
  · rw [hi, credit_lastSeen]
    exact Int.not_le.mpr Int.zero_lt_one
  · have hother : (((knowing node 0).credit counting 0 (knowing node 0).nodes text).nodes i) =
        .zero := by
      unfold Stats.credit knowing
      dsimp only
      rw [Function.update_of_ne hi, Function.update_of_ne hi]
    rw [hother]
    exact Int.not_le.mpr Int.zero_lt_one

/-- **Two reports in one datagram show.** -/
theorem silent_of_separate (h : Reports line node text) {lines : List Bytes}
    (hsep : ∀ (clock : Nat → Int) (s : Stats), (hearLines clock (line :: lines) s).nodes =
      ((line :: lines).foldl (hearAlone clock) s).nodes) : ∀ l ∈ lines, Silent l := by
  by_contra hreports
  have hlate : HeardLate ((line :: lines).foldl (hearAlone counting) (knowing node 0)) := by
    rw [List.foldl_cons, hearAlone_knowing h]
    refine heardLate_of_reports (j := 1) hreports (Nat.le_refl 1) ?_
    unfold Stats.credit knowing
    dsimp only
    rw [Function.update_of_ne (by decide), Function.update_of_ne (by decide)]
    rfl
  obtain ⟨-, i, hi⟩ := hlate
  rw [← hsep, hearLines_knowing h] at hi
  exact knowing_not_late _ i hi

/-- **What is added by what follows shows.** -/
theorem sameFields_of_separate (h : Reports line node text) {lines : List Bytes}
    (hsilent : ∀ l ∈ lines, Silent l)
    (hsep : ∀ (clock : Nat → Int) (s : Stats), (hearLines clock (line :: lines) s).nodes =
      ((line :: lines).foldl (hearAlone clock) s).nodes) :
    SameFields (text ++ lines.flatMap (newline :: ·)) text := by
  have hentry : ∀ uptime : Int,
      creditFields { (knowing node uptime).nodes 0 with lastSeenUs := 0 }
        (text ++ lines.flatMap (newline :: ·)) =
      creditFields { (knowing node uptime).nodes 0 with lastSeenUs := 0 } text := by
    intro uptime
    have hnodes := congrFun (hsep (fun _ => 0) (knowing node uptime)) 0
    rw [hearLines_knowing h, List.foldl_cons, hearAlone_silent hsilent, hearAlone_knowing h]
      at hnodes
    unfold Stats.credit at hnodes
    dsimp only at hnodes
    rwa [Function.update_self, Function.update_self] at hnodes
  refine ⟨fun c => ?_, ?_⟩
  · have hcount := congrArg (·.count c) (hentry 0)
    simp only [creditFields_count] at hcount
    exact (UInt32.add_right_inj _).mp hcount
  · have hup : ∀ uptime : Int, (uptimeSet (text ++ lines.flatMap (newline :: ·))).getD uptime =
        (uptimeSet text).getD uptime := by
      intro uptime
      have := congrArg StatsNode.uptimeS (hentry uptime)
      rwa [(creditFields_rest _ _).2.2.2, (creditFields_rest _ _).2.2.2] at this
    have hzero := hup 0
    have hone := hup 1
    cases huptime : uptimeSet (text ++ lines.flatMap (newline :: ·)) with
    | none =>
        rw [huptime] at hzero hone
        cases huptime' : uptimeSet text with
        | none => rfl
        | some u =>
            rw [huptime'] at hzero hone
            exact absurd (hzero.trans hone.symm) (by decide)
    | some u =>
        rw [huptime] at hzero hone
        cases huptime' : uptimeSet text with
        | none =>
            rw [huptime'] at hzero hone
            exact absurd (hzero.symm.trans hone) (by decide)
        | some u' =>
            rw [huptime'] at hzero
            exact congrArg some hzero

end Reports

/-! ### The two ways -/

/-- Lines that are apart do together what they do alone. -/
theorem hearLines_apart {lines : List Bytes} (h : Apart lines) (clock : Nat → Int) (s : Stats) :
    hearLines clock lines s = lines.foldl (hearAlone clock) s := by
  induction lines generalizing s with
  | nil => rfl
  | cons line lines ih =>
      obtain ⟨hline, hrest⟩ := h
      rw [List.foldl_cons, hearLines]
      by_cases hsilent : Silent line
      · rw [hearAlone, hearLine_silent hsilent, hearLine_silent hsilent]
        exact ih hrest s
      · unfold Silent at hsilent
        push Not at hsilent
        obtain ⟨node, text, hr⟩ := hsilent
        obtain ⟨hafter, hsame⟩ := hline node text hr
        rw [hearAlone, hearLine_reports hr, hearLine_reports hr, hearAlone_silent hafter,
          hearLines_silent hafter]
        cases findOrCreateNode s.nodes node with
        | none => rfl
        | some found =>
            rw [List.append_nil]
            exact hsame.credit clock s found.1 found.2

theorem apart_of_hearLines {lines : List Bytes}
    (hsep : ∀ (clock : Nat → Int) (s : Stats), (hearLines clock lines s).nodes =
      (lines.foldl (hearAlone clock) s).nodes) : Apart lines := by
  induction lines with
  | nil => trivial
  | cons line lines ih =>
      by_cases hsilent : Silent line
      · refine ⟨fun node text hr => absurd hr (hsilent node text), ih fun clock s => ?_⟩
        have := hsep clock s
        rwa [List.foldl_cons, hearLines, hearAlone, hearLine_silent hsilent,
          hearLine_silent hsilent] at this
      · unfold Silent at hsilent
        push Not at hsilent
        obtain ⟨node, text, hr⟩ := hsilent
        have hafter := silent_of_separate hr hsep
        refine ⟨fun node' text' hr' => ⟨hafter, sameFields_of_separate hr' hafter hsep⟩,
          apart_silent hafter⟩

/-- The lines of a datagram, each in one of its own. -/
theorem foldl_statsListener {clock : Nat → Int} {lines : List Bytes}
    (h : ∀ l ∈ lines, l.length ≤ 511 ∧ 0 ∉ l ∧ newline ∉ l) (s : Stats) :
    lines.foldl (statsListener clock) s = lines.foldl (hearAlone clock) s := by
  induction lines generalizing s with
  | nil => rfl
  | cons l lines ih =>
      obtain ⟨⟨hlen, hnul, hnl⟩, hrest⟩ := List.forall_mem_cons.mp h
      rw [List.foldl_cons, List.foldl_cons, statsListener_line hlen hnul hnl, ih hrest]

/-- **A datagram does what its lines do one by one, exactly if only the last line that reports
is followed by anything, and by nothing that adds to it.** -/
theorem separate_iff (datagram : Bytes) (hlen : datagram.length ≤ 511) (hnul : 0 ∉ datagram) :
    Separate datagram ↔ Apart (segments datagram) := by
  obtain ⟨l, lines, hsplit, hjoin, hnl⟩ := segments_join datagram
  have hlines : ∀ m ∈ segments datagram, m.length ≤ 511 ∧ 0 ∉ m ∧ newline ∉ m := by
    have hmem : ∀ m ∈ l :: lines, m <:+: datagram := by
      intro m hm
      rw [hjoin]
      rcases List.mem_cons.mp hm with rfl | hm
      · exact (List.prefix_append ..).isInfix
      · obtain ⟨before, after, rfl⟩ := List.append_of_mem hm
        exact ⟨l ++ before.flatMap (newline :: ·) ++ [newline], after.flatMap (newline :: ·),
          by simp⟩
    rw [hsplit]
    exact fun m hm => ⟨(hmem m hm).length_le.trans hlen,
      fun h0 => hnul ((hmem m hm).subset h0), hnl m hm⟩
  unfold Separate
  constructor
  · intro hsep
    refine apart_of_hearLines fun clock s => ?_
    rw [← statsListener_eq hlen hnul, hsep, foldl_statsListener hlines]
  · intro hapart clock s
    rw [statsListener_eq hlen hnul, foldl_statsListener hlines, hearLines_apart hapart]

/-- Two lines that report nothing, the line of a node, and its newline. -/
theorem separate_lines :
    Separate (ascii "# node 7\nuptime 12\nesphole,node=10.0.0.7 blocked=1i,uptime_s=12i\n") := by
  refine (separate_iff _ (by decide) (by decide)).mpr ?_
  rw [show segments _ = [ascii "# node 7", ascii "uptime 12",
    ascii "esphole,node=10.0.0.7 blocked=1i,uptime_s=12i", []] by decide +kernel]
  have hsilent : ∀ {line : Bytes}, header line = none → Silent line := by
    intro line h node text hr
    rw [hr.header] at h
    cases h
  refine ⟨fun node text hr => absurd hr (hsilent (by decide +kernel) node text),
    fun node text hr => absurd hr (hsilent (by decide +kernel) node text),
    fun node text hr => ⟨fun l hl => ?_, ?_⟩, apart_silent fun l hl => ?_⟩
  · obtain rfl := List.mem_singleton.mp hl
    exact hsilent (by decide +kernel)
  · have hheader := hr.header
    rw [show header _ = some (ascii "10.0.0.7", ascii "blocked=1i,uptime_s=12i") by
      decide +kernel] at hheader
    obtain ⟨rfl, rfl⟩ := Prod.mk.inj (Option.some.inj hheader)
    refine ⟨fun c => ?_, by decide +kernel⟩
    cases c with
    | hist i =>
        revert i
        decide +kernel
    | _ => decide +kernel
  · obtain rfl := List.mem_singleton.mp hl
    exact hsilent (by decide +kernel)

/-- The lines of two nodes: what the second forwarded is credited to the first. -/
theorem not_separate_two : ¬ Separate
    (ascii "esphole,node=10.0.0.7 blocked=1i\nesphole,node=10.0.0.8 blocked=2i,forwarded=3i") := by
  intro h
  have hfirst := congrArg StatsNode.forwarded (congrFun (h (fun _ => 0) Stats.init) 0)
  rw [statsListener_eq (by decide) (by decide), foldl_statsListener (by decide +kernel)] at hfirst
  exact absurd hfirst (by decide +kernel)

end EspHole.Generator
