/-
What one line does to the table, whatever its bytes are.

`statsListener_eq` is about datagrams that fit into the buffer and have no NUL.  Here neither
is asked for: the loops see of a datagram what its first 511 bytes spell, and a datagram of
one line credits at most one entry with it.  So the table stays tidy: its nodes have names of
1 to 15 bytes, no two the same, and who has an entry keeps it.
-/
import EspHole.Generator.Datagram
import Mathlib.Data.Fintype.Card

namespace EspHole.Generator

open Ascii CString

/-! ### A datagram of one line -/

/-- What the loops see of a datagram: of what was received, the bytes in front of a NUL. -/
def visible (datagram : Bytes) : Bytes := cstr (datagram.take (statsMaxLine - 1))

/-- There is no newline in it, or one at its end. -/
def SingleLine (datagram : Bytes) : Prop := newline ∉ datagram.dropLast

instance (datagram : Bytes) : Decidable (SingleLine datagram) :=
  inferInstanceAs (Decidable (_ ∉ _))

theorem dropLast_sublist_dropLast {l m : Bytes} (h : l.Sublist m) :
    l.dropLast.Sublist m.dropLast := by
  have htail : l.reverse.tail.Sublist m.reverse.tail := h.reverse.tail
  rw [List.tail_reverse, List.tail_reverse] at htail
  exact List.reverse_sublist.mp htail

/-- A datagram of one line stays so when bytes are left out. -/
theorem SingleLine.sublist {d d' : Bytes} (h : SingleLine d) (hsub : d'.Sublist d) :
    SingleLine d' := fun hmem => h ((dropLast_sublist_dropLast hsub).subset hmem)

theorem visible_sublist (datagram : Bytes) : (visible datagram).Sublist datagram :=
  (List.takeWhile_sublist _).trans (List.take_sublist _ _)

theorem visible_length (datagram : Bytes) : (visible datagram).length ≤ 511 :=
  (List.takeWhile_sublist _).length_le.trans (List.length_take_le _ _)

/-- All of a datagram is seen that fits and has no NUL. -/
theorem visible_eq_self {datagram : Bytes} (hlen : datagram.length ≤ 511) (hnul : 0 ∉ datagram) :
    visible datagram = datagram := by
  have htake : datagram.take (statsMaxLine - 1) = datagram := List.take_of_length_le hlen
  unfold visible
  rw [htake, cstr_eq_self hnul]

/-- A newline at the end of a line belongs to its fields. -/
theorem header_newline (line : Bytes) :
    header (line ++ [newline]) = (header line).map fun p => (p.1, p.2 ++ [newline]) := by
  cases hheader : header line with
  | some pair =>
      obtain ⟨rfl, hspace⟩ := header_eq_some hheader
      have hjoin : linePrefix ++ (pair.1 ++ ' '.toUInt8 :: pair.2) ++ [newline] =
          linePrefix ++ (pair.1 ++ ' '.toUInt8 :: (pair.2 ++ [newline])) := by
        simp only [List.append_assoc, List.cons_append]
      rw [hjoin, header_split hspace]
      rfl
  | none =>
      cases hended : header (line ++ [newline]) with
      | none => rfl
      | some pair =>
          obtain ⟨hjoin, hspace⟩ := header_eq_some hended
          -- The newline is not the space, so it is the last byte of the fields.
          rcases List.eq_nil_or_concat pair.2 with hnil | ⟨text, c, htext⟩
          · rw [hnil, ← List.append_assoc] at hjoin
            exact absurd (List.append_inj_right' hjoin rfl) (by decide)
          · rw [htext, List.concat_eq_append, ← List.cons_append, ← List.append_assoc,
              ← List.append_assoc] at hjoin
            have hline := List.append_inj_left' hjoin rfl
            rw [hline, List.append_assoc, header_split hspace] at hheader
            cases hheader

/-- What a line hears with a newline behind it, it hears with the newline in it. -/
theorem hearLine_newline (clock : Nat → Int) (line : Bytes) (s : Stats) :
    hearLine clock line [newline] s = hearLine clock (line ++ [newline]) [] s := by
  unfold hearLine
  rw [header_newline]
  cases header line with
  | none => rfl
  | some pair => simp only [Option.map_some, List.append_nil]

/-- **What a datagram of one line does**, for any bytes. -/
theorem statsListener_single {clock : Nat → Int} {datagram : Bytes} (h : SingleLine datagram)
    (s : Stats) : statsListener clock s datagram = hearAlone clock s (visible datagram) := by
  have hspells := spells_cstr (datagram.take (statsMaxLine - 1))
  have hline : SingleLine (visible datagram) := h.sublist (visible_sublist datagram)
  unfold statsListener
  dsimp only
  by_cases hnone : datagram.take (statsMaxLine - 1) = []
  · rw [if_pos hnone]
    unfold visible
    rw [hnone]
    rfl
  rw [if_neg hnone]
  change Spells _ 0 (visible datagram) at hspells
  generalize datagram.take (statsMaxLine - 1) ++ [0] = buf at hspells ⊢
  generalize visible datagram = line at hspells hline ⊢
  rcases List.eq_nil_or_concat line with rfl | ⟨l, c, rfl⟩
  · rw [lineLoop, if_pos hspells.str_eq]
    rfl
  rw [List.concat_eq_append] at hspells hline ⊢
  rw [SingleLine, List.dropLast_concat] at hline
  rw [lineLoop, if_neg (by rw [hspells.str_eq]; simp)]
  by_cases hc : c = newline
  · subst hc
    have hended : Spells buf 0 (l ++ [[]].flatMap (newline :: ·)) := by simpa using hspells
    obtain ⟨buf', hstep, hunheard, hheard⟩ := lineStep_spec clock hline hended s
    -- Behind the newline there is the NUL, whether or not the line was heard.
    have hend : Spells buf' (0 + l.length + 1) [] := by
      have hnul : Spells buf (0 + l.length + 1) [] := hspells.skip
      by_cases hear : hearLine clock l (List.flatMap (newline :: ·) [[]]) s = none
      · exact (hunheard hear).spells hnul (by omega)
      · exact (hheard hear).1.spells hnul (by simp)
    rw [if_neg (by simp)] at hstep
    rw [hstep]
    dsimp only
    rw [lineLoop, if_pos hend.str_eq]
    show (hearLine clock l [newline] s).getD s = _
    rw [hearLine_newline]
    rfl
  · have hnl : newline ∉ l ++ [c] := by
      rw [List.mem_append, List.mem_singleton]
      exact not_or.mpr ⟨hline, fun he => hc he.symm⟩
    have hopen : Spells buf 0 (l ++ [c] ++ [].flatMap (newline :: ·)) := by simpa using hspells
    obtain ⟨buf', hstep, -⟩ := lineStep_spec clock hnl hopen s
    rw [if_pos rfl] at hstep
    rw [hstep]
    rfl

/-! ### The entry of a line -/

/-- An entry is that of a node, new if there was none, and no other is different. -/
structure Touches (nodes nodes' : NodeTable) (node : Bytes) (i : Fin statsMaxNodes) : Prop where
  entry : (nodes' i).used = true ∧ (nodes' i).node = node
  known : (nodes i).used = true → (nodes i).node = node
  created : (nodes i).used = false → ∀ j, (nodes j).used = true → (nodes j).node ≠ node
  others : ∀ j, j ≠ i → nodes' j = nodes j

section Touches

variable {nodes nodes' : NodeTable} {node : Bytes} {i : Fin statsMaxNodes}

theorem touches_findOrCreateNode (h : findOrCreateNode nodes node = some (i, nodes')) :
    Touches nodes nodes' node i := by
  have hspec := findOrCreateNode_spec nodes (findOrCreateNode_length (by rw [h]; simp))
  rw [h] at hspec
  cases hspec with
  | known hused hnode =>
      exact ⟨⟨hused, hnode⟩, fun _ => hnode,
        fun hfree => absurd (hused.symm.trans hfree) (by decide), fun _ _ => rfl⟩
  | created hfree hnew =>
      refine ⟨by rw [Function.update_self]; exact ⟨rfl, rfl⟩,
        fun hused => absurd (hused.symm.trans hfree) (by decide), fun _ => hnew, fun j hj => ?_⟩
      exact Function.update_of_ne hj ..

/-- What is credited stays with the entry. -/
theorem Touches.credit {s : Stats} (h : Touches s.nodes nodes' node i) (clock : Nat → Int)
    (text : Bytes) : Touches s.nodes (s.credit clock i nodes' text).nodes node i := by
  obtain ⟨hused, hnode, -, -⟩ :=
    creditFields_rest { nodes' i with lastSeenUs := clock s.ticks } text
  have hentry : (s.credit clock i nodes' text).nodes i =
      creditFields { nodes' i with lastSeenUs := clock s.ticks } text := Function.update_self ..
  refine ⟨?_, h.known, h.created, fun j hj => ?_⟩
  · rw [hentry, hused, hnode]
    exact h.entry
  · exact (Function.update_of_ne hj ..).trans (h.others j hj)

section Distinct

variable (hdistinct : ∀ j k, (nodes j).used = true → (nodes k).used = true →
  (nodes j).node = (nodes k).node → j = k)

include hdistinct

/-- Besides the entry there is none with its name, -/
theorem Touches.alone (h : Touches nodes nodes' node i) {j : Fin statsMaxNodes} (hj : j ≠ i)
    (hused : (nodes j).used = true) : (nodes j).node ≠ node := by
  cases hi : (nodes i).used with
  | false => exact h.created hi j hused
  | true =>
      intro hnode
      exact hj (hdistinct j i hused hi (hnode.trans (h.known hi).symm))

/-- and no two names are the same afterwards. -/
theorem Touches.distinct (h : Touches nodes nodes' node i) (j k : Fin statsMaxNodes)
    (hjused : (nodes' j).used = true) (hkused : (nodes' k).used = true)
    (hnode : (nodes' j).node = (nodes' k).node) : j = k := by
  by_cases hj : j = i
  · by_cases hk : k = i
    · rw [hj, hk]
    · rw [hj, h.entry.2, h.others k hk] at hnode
      rw [h.others k hk] at hkused
      exact absurd hnode.symm (h.alone hdistinct hk hkused)
  · rw [h.others j hj] at hjused hnode
    by_cases hk : k = i
    · rw [hk, h.entry.2] at hnode
      exact absurd hnode (h.alone hdistinct hj hjused)
    · rw [h.others k hk] at hkused hnode
      exact hdistinct j k hjused hkused hnode

end Distinct

end Touches

/-- A line that reports for a node, where it finds the entry of the node. -/
theorem hearAlone_reports (clock : Nat → Int) {s : Stats} {line node text : Bytes}
    (h : Reports line node text) {i : Fin statsMaxNodes} {nodes : NodeTable}
    (hfind : findOrCreateNode s.nodes node = some (i, nodes)) :
    hearAlone clock s line = s.credit clock i nodes text := by
  unfold hearAlone
  rw [hearLine_reports h, hfind, List.append_nil]
  rfl

/-- **A line leaves everything, or it touches the entry of the node it reports for.** -/
theorem hearAlone_touches (clock : Nat → Int) (s : Stats) (line : Bytes) :
    hearAlone clock s line = s ∨ ∃ node text i, Reports line node text ∧
      Touches s.nodes (hearAlone clock s line).nodes node i := by
  by_cases hsilent : Silent line
  · left
    rw [hearAlone, hearLine_silent hsilent]
    rfl
  · unfold Silent at hsilent
    push Not at hsilent
    obtain ⟨node, text, hr⟩ := hsilent
    rcases hfind : findOrCreateNode s.nodes node with _ | ⟨i, nodes⟩
    · left
      rw [hearAlone, hearLine_reports hr, hfind]
      rfl
    · right
      refine ⟨node, text, i, hr, ?_⟩
      rw [hearAlone_reports clock hr hfind]
      exact (touches_findOrCreateNode hfind).credit clock text

/-! ### What holds of the table -/

/-- The nodes have names that fit, no two the same, and there are no more than entries. -/
structure Tidy (nodes : NodeTable) : Prop where
  length : ∀ i, (nodes i).used = true →
    1 ≤ (nodes i).node.length ∧ (nodes i).node.length ≤ 15
  distinct : ∀ i j, (nodes i).used = true → (nodes j).used = true →
    (nodes i).node = (nodes j).node → i = j
  size : (Finset.univ.filter fun i => (nodes i).used = true).card ≤ statsMaxNodes

/-- What a line can do to a table: who has an entry keeps it, and no entry is different but
that of the node on the line. -/
structure Framed (nodes nodes' : NodeTable) (line : Bytes) : Prop where
  kept : ∀ i, (nodes i).used = true →
    (nodes' i).used = true ∧ (nodes' i).node = (nodes i).node
  named : ∀ i, nodes' i ≠ nodes i →
    (nodes' i).used = true ∧ ∃ text, Reports line (nodes' i).node text
  one : ∀ i j, nodes' i ≠ nodes i → nodes' j ≠ nodes j → i = j

theorem card_used_le (nodes : NodeTable) :
    (Finset.univ.filter fun i => (nodes i).used = true).card ≤ statsMaxNodes :=
  (Finset.card_le_univ _).trans (Nat.le_of_eq (Fintype.card_fin _))

theorem tidy_init : Tidy Stats.init.nodes where
  length := fun i hused => by cases hused
  distinct := fun i j hused => by cases hused
  size := card_used_le _

section Step

variable {nodes nodes' : NodeTable} {node line text : Bytes} {i : Fin statsMaxNodes}

theorem Tidy.touch (h : Tidy nodes) (hr : Reports line node text)
    (ht : Touches nodes nodes' node i) : Tidy nodes' where
  length := by
    intro j hused
    by_cases hj : j = i
    · rw [hj, ht.entry.2]
      exact ⟨hr.length.1, Nat.le_of_lt_succ hr.length.2⟩
    · rw [ht.others j hj] at hused ⊢
      exact h.length j hused
  distinct := ht.distinct h.distinct
  size := card_used_le _

theorem Touches.framed (ht : Touches nodes nodes' node i) (hr : Reports line node text) :
    Framed nodes nodes' line := by
  have hsame : ∀ j, nodes' j ≠ nodes j → j = i := fun j hne => by
    by_contra hj
    exact hne (ht.others j hj)
  refine ⟨fun j hused => ?_, fun j hne => ?_, fun j k hj hk => (hsame j hj).trans (hsame k hk).symm⟩
  · by_cases hj : j = i
    · subst hj
      rw [ht.entry.2, ht.known hused]
      exact ⟨ht.entry.1, rfl⟩
    · rw [ht.others j hj]
      exact ⟨hused, rfl⟩
  · rw [hsame j hne, ht.entry.2]
    exact ⟨ht.entry.1, text, hr⟩

end Step

theorem framed_refl (nodes : NodeTable) (line : Bytes) : Framed nodes nodes line :=
  ⟨fun _ hused => ⟨hused, rfl⟩, fun _ hne => absurd rfl hne, fun _ _ hne => absurd rfl hne⟩

/-- **One datagram** keeps the table tidy, and the frame. -/
theorem statsListener_tidy (clock : Nat → Int) {s : Stats} (h : Tidy s.nodes) {datagram : Bytes}
    (hline : SingleLine datagram) : Tidy (statsListener clock s datagram).nodes ∧
      Framed s.nodes (statsListener clock s datagram).nodes (visible datagram) := by
  rw [statsListener_single hline]
  rcases hearAlone_touches clock s (visible datagram) with hsame | ⟨node, text, i, hr, ht⟩
  · rw [hsame]
    exact ⟨h, framed_refl _ _⟩
  · exact ⟨h.touch hr ht, ht.framed hr⟩

/-- **A run of datagrams** keeps it tidy. -/
theorem tidy_run (clock : Nat → Int) {datagrams : List Bytes}
    (h : ∀ d ∈ datagrams, SingleLine d) :
    Tidy (datagrams.foldl (statsListener clock) Stats.init).nodes := by
  induction datagrams using List.reverseRecOn with
  | nil => exact tidy_init
  | append_singleton before d ih =>
      rw [List.foldl_append]
      exact (statsListener_tidy clock (ih fun d' hd' => h d' (List.mem_append_left _ hd'))
        (h d (by simp))).1

end EspHole.Generator
