/-
What a datagram does to the table of nodes.

The loops of `stats_ui.c` cut one buffer into lines and fields while they read it.  Each is
described by what it reads, as a string, and by what it leaves in the buffer.  The loop over
the fields is the one to watch: it reads up to the NUL, and a line does not end in one.  So
the fields of a line that finds its node are all the fields there are up to the end of the
datagram, and their commas are gone afterwards.  `statsListener_eq` says this of a whole
datagram, in terms of its lines.
-/
import EspHole.Generator.Lines
import EspHole.Generator.Stats
import EspHole.Lib.Regex

namespace EspHole.Generator

open Ascii CString

/-! ### The loop over the fields -/

theorem fields_last {a : Bytes} (h : ','.toUInt8 ∉ a) : fields a = [a] :=
  List.splitOn_eq_singleton h

theorem fields_comma {a : Bytes} (h : ','.toUInt8 ∉ a) (b : Bytes) :
    fields (a ++ ','.toUInt8 :: b) = a :: fields b :=
  List.splitOn_append_cons_self_of_not_mem h b

theorem keyValue_none {a : Bytes} (h : '='.toUInt8 ∉ a) : keyValue a = none := if_neg h

theorem keyValue_split {key : Bytes} (h : '='.toUInt8 ∉ key) (val : Bytes) :
    keyValue (key ++ '='.toUInt8 :: val) = some (key, val) := by
  have hkey : ∀ c ∈ key, decide (c ≠ '='.toUInt8) = true := fun c hc => by
    simpa using fun he : c = '='.toUInt8 => h (he ▸ hc)
  have hstop : ∀ c ∈ ('='.toUInt8 :: val).head?, decide (c ≠ '='.toUInt8) = false := by
    rintro c ⟨⟩
    decide
  unfold keyValue
  rw [if_pos (by simp), takeWhile_append_stop hkey hstop, dropWhile_append_stop hkey hstop]
  rfl

/-- The two sides of a field are read where they stand. -/
theorem field_read {buf : Bytes} {field : Nat} {a : Bytes} (h : Spells buf field a)
    (n : StatsNode) (next : Option Nat) :
    ∃ buf', (match strchr buf field '='.toUInt8 with
        | some eq =>
            let buf := buf.set eq 0
            (buf, creditField n (str buf field) (str buf (eq + 1)), next)
        | none => (buf, n, next)) = (buf', creditPart n a, next) ∧
      Cuts field (field + a.length) buf buf' := by
  by_cases heq : '='.toUInt8 ∈ a
  · obtain ⟨key, val, rfl, hkey⟩ := List.eq_append_cons_of_mem heq
    have hlt := h.length_lt
    rw [List.length_append, List.length_cons] at hlt
    refine ⟨buf.set (field + key.length) 0, ?_, Cuts.set (by omega) (by simp) (by omega)⟩
    rw [h.strchr_some hkey]
    dsimp only
    rw [h.cut.str_eq, h.cut_rest.str_eq, creditPart, keyValue_split hkey]
  · refine ⟨buf, ?_, Cuts.refl _ _ _⟩
    rw [h.strchr_none heq, creditPart, keyValue_none heq]

/-- One turn at the last field. -/
theorem fieldStep_last {buf : Bytes} {field : Nat} {a : Bytes} (h : Spells buf field a)
    (hcomma : ','.toUInt8 ∉ a) (n : StatsNode) :
    ∃ buf', fieldStep buf n field = (buf', creditPart n a, none) ∧
      Cuts field (field + a.length) buf buf' := by
  unfold fieldStep
  rw [h.strchr_none hcomma]
  exact field_read h n none

/-- One turn at any other. -/
theorem fieldStep_comma {buf : Bytes} {field : Nat} {a b : Bytes}
    (h : Spells buf field (a ++ ','.toUInt8 :: b)) (hcomma : ','.toUInt8 ∉ a) (n : StatsNode) :
    ∃ buf', fieldStep buf n field = (buf', creditPart n a, some (field + a.length + 1)) ∧
      Cuts field (field + a.length + 1) buf buf' ∧ buf'[field + a.length]? = some 0 := by
  have hlt := h.length_lt
  rw [List.length_append, List.length_cons] at hlt
  have hset : Cuts field (field + a.length + 1) buf (buf.set (field + a.length) 0) :=
    Cuts.set (by omega) (by omega) (by omega)
  obtain ⟨buf', hbuf', hcuts⟩ := field_read h.cut n (some (field + a.length + 1))
  refine ⟨buf', ?_, hset.trans (hcuts.mono (Nat.le_refl _) (by omega)), ?_⟩
  · unfold fieldStep
    rw [h.strchr_some hcomma]
    exact hbuf'
  · have hzero : (buf.set (field + a.length) 0)[field + a.length]? = some 0 :=
      List.getElem?_set_self (by omega)
    rcases hcuts (field + a.length) with hsame | ⟨-, hlt, -⟩
    · rw [hsame, hzero]
    · omega

theorem fieldLoop_nil {buf : Bytes} {field : Nat} (h : Spells buf field []) (n : StatsNode) :
    fieldLoop buf n field = (buf, n) := by
  rw [fieldLoop, if_pos h.str_eq]

/-- **The loop over the fields credits all of them up to the NUL**, and no comma of theirs is
left. -/
theorem fieldLoop_spec {buf : Bytes} {field : Nat} {text : Bytes} (h : Spells buf field text)
    (n : StatsNode) :
    ∃ buf', fieldLoop buf n field = (buf', creditFields n text) ∧
      Cuts field (field + text.length) buf buf' ∧
      ∀ k, field ≤ k → k < field + text.length → buf'[k]? ≠ some ','.toUInt8 := by
  induction hlen : text.length using Nat.strong_induction_on generalizing buf field text n with
  | _ len ih =>
      by_cases hnil : text = []
      · subst hnil
        subst hlen
        refine ⟨buf, fieldLoop_nil h n, Cuts.refl _ _ _, fun k hlo hhi => ?_⟩
        rw [List.length_nil] at hhi
        omega
      rw [fieldLoop, if_neg (by rwa [h.str_eq])]
      by_cases hcomma : ','.toUInt8 ∈ text
      · obtain ⟨a, b, rfl, ha⟩ := List.eq_append_cons_of_mem hcomma
        rw [List.length_append, List.length_cons] at hlen
        obtain ⟨buf₁, hstep, hcuts₁, hzero⟩ := fieldStep_comma h ha n
        obtain ⟨buf₂, hloop, hcuts₂, hnone⟩ := ih b.length (by omega)
          (hcuts₁.spells h.skip (Nat.le_refl _)) (creditPart n a) rfl
        refine ⟨buf₂, ?_, (hcuts₁.mono (Nat.le_refl _) (by omega)).trans
          (hcuts₂.mono (by omega) (by omega)), fun k hlo hhi => ?_⟩
        · rw [hstep]
          dsimp only
          rw [hloop, creditFields, creditFields, fields_comma ha, List.foldl_cons]
        · by_cases hk : field + a.length + 1 ≤ k
          · exact hnone k hk (by omega)
          · -- The field itself has no comma, and the one behind it is cut.
            refine hcuts₂.ne (by decide) ?_
            by_cases hlast : k = field + a.length
            · rw [hlast, hzero]
              decide
            · refine hcuts₁.ne (by decide) ?_
              obtain ⟨j, rfl⟩ := Nat.exists_eq_add_of_le hlo
              rw [h.getElem? (by rw [List.length_append]; omega),
                List.getElem?_append_left (by omega)]
              exact fun he => ha (List.mem_of_getElem? he)
      · obtain ⟨buf₁, hstep, hcuts⟩ := fieldStep_last h hcomma n
        refine ⟨buf₁, ?_, hlen ▸ hcuts, fun k hlo hhi => hcuts.ne (by decide) ?_⟩
        · rw [hstep, creditFields, fields_last hcomma]
          rfl
        · obtain ⟨j, rfl⟩ := Nat.exists_eq_add_of_le hlo
          rw [h.getElem? (by omega)]
          exact fun he => hcomma (List.mem_of_getElem? he)

/-! ### The entry of a node -/

/-- What `find_or_create_node` can find for a name that fits. -/
inductive Found (nodes : NodeTable) (node : Bytes) :
    Option (Fin statsMaxNodes × NodeTable) → Prop
  | known {i : Fin statsMaxNodes} (hused : (nodes i).used = true) (hnode : (nodes i).node = node) :
      Found nodes node (some (i, nodes))
  | created {i : Fin statsMaxNodes} (hfree : (nodes i).used = false)
      (hnew : ∀ j, (nodes j).used = true → (nodes j).node ≠ node) :
      Found nodes node
        (some (i, Function.update nodes i { StatsNode.zero with node := node, used := true }))
  | full (hall : ∀ j, (nodes j).used = true ∧ (nodes j).node ≠ node) : Found nodes node none

/-- **A name that fits has an entry, or gets one, or there is none free.** -/
theorem findOrCreateNode_spec (nodes : NodeTable) {node : Bytes}
    (hlen : 1 ≤ node.length ∧ node.length < nodeSize) :
    Found nodes node (findOrCreateNode nodes node) := by
  unfold findOrCreateNode
  rw [if_neg (by omega)]
  cases hknown : (List.finRange _).find? fun i => (nodes i).used && (nodes i).node == node with
  | some i =>
      have hi := List.find?_some hknown
      simp only [Bool.and_eq_true, beq_iff_eq] at hi
      exact .known hi.1 hi.2
  | none =>
      have hnew : ∀ j, (nodes j).used = true → (nodes j).node ≠ node := by
        intro j hused hnode
        have hj := List.find?_eq_none.mp hknown j (List.mem_finRange j)
        simp [hused, hnode] at hj
      cases hfree : (List.finRange _).find? fun i => !(nodes i).used with
      | some i =>
          have hi := List.find?_some hfree
          exact .created (by simpa using hi) hnew
      | none =>
          refine .full fun j => ?_
          have hj := List.find?_eq_none.mp hfree j (List.mem_finRange j)
          have hused : (nodes j).used = true := by simpa using hj
          exact ⟨hused, hnew j hused⟩

/-! ### A line -/

/-- The node of a line, and the text of its fields. -/
def header (line : Bytes) : Option (Bytes × Bytes) :=
  if linePrefix.isPrefixOf line then
    let rest := line.drop linePrefix.length
    if ' '.toUInt8 ∈ rest then
      some (rest.takeWhile (· ≠ ' '.toUInt8), (rest.dropWhile (· ≠ ' '.toUInt8)).drop 1)
    else none
  else none

/-- An entry credited with a text of fields, at a reading of the timer. -/
def Stats.credit (clock : Nat → Int) (s : Stats) (i : Fin statsMaxNodes) (nodes : NodeTable)
    (text : Bytes) : Stats :=
  ⟨Function.update nodes i (creditFields { nodes i with lastSeenUs := clock s.ticks } text),
    s.ticks + 1⟩

/-- What a line does whose fields go on with `tail`; nothing if it finds no node. -/
def hearLine (clock : Nat → Int) (line tail : Bytes) (s : Stats) : Option Stats :=
  match header line with
  | none => none
  | some (node, text) =>
      (findOrCreateNode s.nodes node).map fun found =>
        s.credit clock found.1 found.2 (text ++ tail)

theorem header_split {node : Bytes} (h : ' '.toUInt8 ∉ node) (text : Bytes) :
    header (linePrefix ++ (node ++ ' '.toUInt8 :: text)) = some (node, text) := by
  have hnode : ∀ c ∈ node, decide (c ≠ ' '.toUInt8) = true := fun c hc => by
    simpa using fun he : c = ' '.toUInt8 => h (he ▸ hc)
  have hstop : ∀ c ∈ (' '.toUInt8 :: text).head?, decide (c ≠ ' '.toUInt8) = false := by
    rintro c ⟨⟩
    decide
  unfold header
  rw [if_pos (List.isPrefixOf_iff_prefix.mpr (List.prefix_append ..)), List.drop_left,
    if_pos (by simp), takeWhile_append_stop hnode hstop, dropWhile_append_stop hnode hstop]
  rfl

/-- A line that has a node is made of it. -/
theorem header_eq_some {line node text : Bytes} (h : header line = some (node, text)) :
    line = linePrefix ++ (node ++ ' '.toUInt8 :: text) ∧ ' '.toUInt8 ∉ node := by
  by_cases hpre : linePrefix.isPrefixOf line
  · obtain ⟨rest, rfl⟩ := List.isPrefixOf_iff_prefix.mp hpre
    by_cases hspace : ' '.toUInt8 ∈ rest
    · obtain ⟨a, b, rfl, ha⟩ := List.eq_append_cons_of_mem hspace
      rw [header_split ha] at h
      obtain ⟨rfl, rfl⟩ := Prod.mk.inj (Option.some.inj h)
      exact ⟨rfl, ha⟩
    · unfold header at h
      rw [if_pos hpre, List.drop_left, if_neg hspace] at h
      cases h
  · unfold header at h
    rw [if_neg hpre] at h
    cases h

/-- The prefix of a line is inside it. -/
theorem isPrefixOf_line {buf : Bytes} {line : Nat} {l tail : Bytes}
    (h : Spells buf line (l ++ tail)) (hlen : linePrefix.length ≤ l.length) :
    linePrefix.isPrefixOf (buf.drop line) = linePrefix.isPrefixOf l := by
  obtain ⟨rest, hrest⟩ := h.bytes
  rw [Bool.eq_iff_iff, List.isPrefixOf_iff_prefix, List.isPrefixOf_iff_prefix, hrest,
    List.append_assoc]
  exact ⟨fun hpre => List.prefix_of_prefix_length_le hpre (List.prefix_append ..) hlen,
    fun hpre => hpre.trans (List.prefix_append ..)⟩

/-- A line that has no node leaves everything. -/
theorem ingestLine_unheard {clock : Nat → Int} {buf : Bytes} {line : Nat} {l tail : Bytes}
    (h : Spells buf line (l ++ tail)) (hheader : header l = none) (s : Stats) :
    ingestLine clock buf s line l.length = (buf, s) := by
  unfold ingestLine
  split
  · rfl
  · rename_i hguard
    rw [not_or, Nat.not_le, Bool.not_eq_true', Bool.not_eq_false] at hguard
    obtain ⟨hlen, hpre⟩ := hguard
    rw [isPrefixOf_line h (by omega)] at hpre
    obtain ⟨rest, rfl⟩ := List.isPrefixOf_iff_prefix.mp hpre
    have hspace : ' '.toUInt8 ∉ rest := by
      intro hmem
      obtain ⟨a, b, rfl, ha⟩ := List.eq_append_cons_of_mem hmem
      rw [header_split ha] at hheader
      cases hheader
    have hrest : Spells buf (line + linePrefix.length) (rest ++ tail) :=
      Spells.shift (by rwa [← List.append_assoc])
    dsimp only
    rw [List.length_append, Nat.add_sub_cancel_left, hrest.memchr_none hspace]

/-- A line that has a node cuts it off and looks for it. -/
theorem ingestLine_node (clock : Nat → Int) {buf : Bytes} {line : Nat} {node text tail : Bytes}
    (h : Spells buf line (linePrefix ++ (node ++ ' '.toUInt8 :: text) ++ tail))
    (hspace : ' '.toUInt8 ∉ node) (s : Stats) :
    let space := line + linePrefix.length + node.length
    let looped := fun i (nodes : NodeTable) =>
      fieldLoop (buf.set space 0) { nodes i with lastSeenUs := clock s.ticks } (space + 1)
    ingestLine clock buf s line (linePrefix ++ (node ++ ' '.toUInt8 :: text)).length =
      match findOrCreateNode s.nodes node with
      | none => (buf.set space 0, s)
      | some (i, nodes) =>
          ((looped i nodes).1, ⟨Function.update nodes i (looped i nodes).2, s.ticks + 1⟩) := by
  have hlen : (linePrefix ++ (node ++ ' '.toUInt8 :: text)).length =
      linePrefix.length + (node.length + 1 + text.length) := by
    simp only [List.length_append, List.length_cons]
    omega
  have hpre : linePrefix.isPrefixOf (buf.drop line) = true := by
    rw [isPrefixOf_line h (by omega)]
    exact List.isPrefixOf_iff_prefix.mpr (List.prefix_append ..)
  have hrest : Spells buf (line + linePrefix.length) (node ++ ' '.toUInt8 :: (text ++ tail)) :=
    Spells.shift (by simpa using h)
  have htag : ((buf.set (line + linePrefix.length + node.length) 0).drop
      (line + linePrefix.length)).take node.length = node :=
    Spells.take (s := []) (by simpa using hrest.cut)
  have hguard : ¬ ((linePrefix ++ (node ++ ' '.toUInt8 :: text)).length ≤ linePrefix.length ∨
      (!linePrefix.isPrefixOf (buf.drop line)) = true) := by
    rw [hpre, hlen]
    simp
  intro space looped
  unfold ingestLine
  rw [if_neg hguard, hlen, Nat.add_sub_cancel_left]
  dsimp only
  rw [hrest.memchr_some hspace (by omega)]
  dsimp only
  rewrite [Nat.add_sub_cancel_left, htag]
  rfl

/-- **What a line does**, and what it leaves in the buffer: if it finds a node, no comma behind
it; if not, all that is behind it. -/
theorem ingestLine_spec (clock : Nat → Int) {buf : Bytes} {line : Nat} {l tail : Bytes}
    (h : Spells buf line (l ++ tail)) (s : Stats) :
    ∃ buf', ingestLine clock buf s line l.length =
        (buf', (hearLine clock l tail s).getD s) ∧
      (hearLine clock l tail s = none → Cuts line (line + l.length) buf buf') ∧
      (hearLine clock l tail s ≠ none → Cuts line (line + l.length + tail.length) buf buf' ∧
        ∀ k, line + l.length ≤ k → k < line + l.length + tail.length →
          buf'[k]? ≠ some ','.toUInt8) := by
  unfold hearLine
  cases hheader : header l with
  | none =>
      refine ⟨buf, ?_, fun _ => Cuts.refl _ _ _, fun hne => absurd rfl hne⟩
      rw [ingestLine_unheard h hheader]
      rfl
  | some pair =>
      obtain ⟨node, text⟩ := pair
      obtain ⟨rfl, hspace⟩ := header_eq_some hheader
      have hlt := h.length_lt
      have hlen : (linePrefix ++ (node ++ ' '.toUInt8 :: text)).length =
          linePrefix.length + node.length + text.length + 1 := by
        simp only [List.length_append, List.length_cons]
        omega
      have hingest := ingestLine_node clock h hspace s
      rw [List.length_append, hlen] at hlt
      rw [hlen] at hingest ⊢
      dsimp only at hingest ⊢
      rw [hingest]
      have hset : Cuts line (line + (linePrefix.length + node.length + text.length + 1)) buf
          (buf.set (line + linePrefix.length + node.length) 0) :=
        Cuts.set (by omega) (by omega) (by omega)
      cases hfind : findOrCreateNode s.nodes node with
      | none => exact ⟨_, rfl, fun _ => hset, fun hne => absurd rfl hne⟩
      | some found =>
          obtain ⟨i, nodes⟩ := found
          have hrest : Spells buf (line + linePrefix.length)
              (node ++ ' '.toUInt8 :: (text ++ tail)) := Spells.shift (by simpa using h)
          obtain ⟨buf', hloop, hcuts, hnone⟩ :=
            fieldLoop_spec hrest.cut_rest { nodes i with lastSeenUs := clock s.ticks }
          rw [List.length_append] at hcuts hnone
          refine ⟨buf', ?_, fun he => ?_, fun _ => ⟨?_, fun k hlo hhi => ?_⟩⟩
          · dsimp only
            rw [hloop]
            rfl
          · cases he
          · exact (hset.mono (Nat.le_refl _) (by omega)).trans
              (hcuts.mono (by omega) (by omega))
          · exact hnone k (by omega) (by omega)

/-! ### The loop over the lines -/

/-- Without a comma there is no line that is heard. -/
theorem ingestLine_quiet {clock : Nat → Int} {buf : Bytes} {line : Nat}
    (h : ∀ k, line ≤ k → buf[k]? ≠ some ','.toUInt8) (s : Stats) (len : Nat) :
    ingestLine clock buf s line len = (buf, s) := by
  have hpre : linePrefix.isPrefixOf (buf.drop line) = false := by
    rw [Bool.eq_false_iff, ne_eq, List.isPrefixOf_iff_prefix]
    rintro ⟨rest, hrest⟩
    have hcomma : (buf.drop line)[7]? = some ','.toUInt8 := by
      rw [← hrest, List.getElem?_append_left (by decide)]
      decide
    rw [List.getElem?_drop] at hcomma
    exact h (line + 7) (by omega) hcomma
  unfold ingestLine
  rw [if_pos (Or.inr (by rw [hpre]; rfl))]

theorem lineStep_quiet (clock : Nat → Int) {buf : Bytes} {line : Nat}
    (h : ∀ k, line ≤ k → buf[k]? ≠ some ','.toUInt8) (s : Stats) :
    lineStep clock buf s line = (buf, s, (strchr buf line newline).map (· + 1)) := by
  unfold lineStep
  dsimp only
  rw [ingestLine_quiet h, ite_self]

theorem lineLoop_quiet {clock : Nat → Int} {buf : Bytes} {line : Nat}
    (h : ∀ k, line ≤ k → buf[k]? ≠ some ','.toUInt8) (s : Stats) :
    lineLoop clock buf s line = s := by
  have hstep := lineStep_quiet clock h s
  induction hlen : buf.length - line using Nat.strong_induction_on generalizing line with
  | _ n ih =>
      rw [lineLoop]
      split
      · rfl
      · split
        · rename_i hnext
          rw [hstep] at hnext
          exact (Prod.mk.inj (Prod.mk.inj hnext).2).1.symm
        · rename_i buf' s' next hnext
          have hless := lineStep_next hnext
          rw [hstep] at hnext
          obtain ⟨rfl, hpair⟩ := Prod.mk.inj hnext
          obtain ⟨rfl, hsome⟩ := Prod.mk.inj hpair
          obtain ⟨nl, hnl, rfl⟩ := Option.map_eq_some_iff.mp hsome
          have hle := (strchr_lt hnl).1
          have h' : ∀ k, nl + 1 ≤ k → buf[k]? ≠ some ','.toUInt8 := fun k hk => h k (by omega)
          exact ih _ (hlen ▸ hless) h' (lineStep_quiet clock h' s) rfl

/-- One turn, at a line that is followed by nothing or by a newline. -/
theorem lineStep_spec (clock : Nat → Int) {buf : Bytes} {line : Nat} {l : Bytes}
    {lines : List Bytes} (hnl : newline ∉ l)
    (h : Spells buf line (l ++ lines.flatMap (newline :: ·))) (s : Stats) :
    ∃ buf', lineStep clock buf s line =
        (buf', (hearLine clock l (lines.flatMap (newline :: ·)) s).getD s,
          if lines = [] then none else some (line + l.length + 1)) ∧
      (hearLine clock l (lines.flatMap (newline :: ·)) s = none →
        Cuts line (line + l.length) buf buf') ∧
      (hearLine clock l (lines.flatMap (newline :: ·)) s ≠ none →
        Cuts line (line + l.length + (lines.flatMap (newline :: ·)).length) buf buf' ∧
        ∀ k, line + l.length ≤ k → k < line + l.length + (lines.flatMap (newline :: ·)).length →
          buf'[k]? ≠ some ','.toUInt8) := by
  have hsearch : strchr buf line newline =
      if lines = [] then none else some (line + l.length) := by
    cases lines with
    | nil => exact h.strchr_none (by simpa using hnl)
    | cons l₂ lines => exact h.strchr_some hnl
  have hlen : ((strchr buf line '\n'.toUInt8).map (· - line)).getD (str buf line).length =
      l.length := by
    rw [hsearch]
    cases lines with
    | nil => simp [h.str_eq]
    | cons l₂ lines => simp
  have hnext : (strchr buf line '\n'.toUInt8).map (· + 1) =
      if lines = [] then none else some (line + l.length + 1) := by
    rw [hsearch]
    cases lines <;> rfl
  unfold lineStep
  dsimp only
  rw [hlen, hnext]
  by_cases hpos : l.length > 0
  · rw [if_pos hpos]
    obtain ⟨buf', hingest, hcuts⟩ := ingestLine_spec clock h s
    exact ⟨buf', by rw [hingest], hcuts⟩
  · rw [if_neg hpos]
    obtain rfl : l = [] := List.eq_nil_of_length_eq_zero (by omega)
    exact ⟨buf, rfl, fun _ => Cuts.refl _ _ _, fun hne => absurd rfl hne⟩

/-- What the lines of a datagram do: the first that finds a node is the last that is heard, with
the rest of the datagram for fields. -/
def hearLines (clock : Nat → Int) : List Bytes → Stats → Stats
  | [], s => s
  | line :: lines, s =>
      (hearLine clock line (lines.flatMap (newline :: ·)) s).getD (hearLines clock lines s)

/-- **The loop over the lines** of a datagram that fills the buffer. -/
theorem lineLoop_eq {clock : Nat → Int} (lines : List Bytes) :
    ∀ {buf : Bytes} {line : Nat} {l : Bytes}, (∀ m ∈ l :: lines, newline ∉ m) →
      Spells buf line (l ++ lines.flatMap (newline :: ·)) →
      buf.length = line + (l ++ lines.flatMap (newline :: ·)).length + 1 → ∀ s : Stats,
        lineLoop clock buf s line = hearLines clock (l :: lines) s := by
  induction lines with
  | nil =>
      intro buf line l hnl h hend s
      rw [lineLoop, hearLines]
      by_cases hnil : l = []
      · subst hnil
        have hstr : str buf line = [] := h.str_eq
        rw [if_pos hstr]
        rfl
      · rw [if_neg (by rw [h.str_eq]; simpa using hnil)]
        obtain ⟨buf', hstep, -⟩ := lineStep_spec clock
          (hnl l List.mem_cons_self) h s
        rw [if_pos rfl] at hstep
        rw [hstep]
        rfl
  | cons l₂ lines ih =>
      intro buf line l hnl h hend s
      obtain ⟨buf', hstep, hunheard, hheard⟩ := lineStep_spec clock
        (hnl l List.mem_cons_self) h s
      have hlen : buf'.length = buf.length := by
        have := lineStep_length clock buf s line
        rwa [hstep] at this
      rw [List.length_append] at hend
      rw [if_neg (List.cons_ne_nil _ _)] at hstep
      rw [lineLoop, if_neg (by rw [h.str_eq]; simp), hstep]
      dsimp only
      rw [hearLines]
      cases hear : hearLine clock l ((l₂ :: lines).flatMap (newline :: ·)) s with
      | none =>
          -- The newline is still there, and the lines behind it are.
          have hrest : Spells buf (line + l.length + 1)
              (l₂ ++ lines.flatMap (newline :: ·)) := Spells.skip (by simpa using h)
          refine ih (fun m hm => hnl m (List.mem_cons_of_mem l hm))
            ((hunheard hear).spells hrest (by omega)) ?_ s
          rw [hlen, hend]
          simp only [List.flatMap_cons, List.cons_append, List.length_cons]
          omega
      | some s' =>
          -- There is no comma left, so nothing more is heard.
          obtain ⟨hcuts, hnone⟩ := hheard (by rw [hear]; simp)
          refine lineLoop_quiet (fun k hk => ?_) s'
          by_cases hin : k < line + l.length + ((l₂ :: lines).flatMap (newline :: ·)).length
          · exact hnone k (by omega) hin
          · refine hcuts.ne (by decide) ?_
            have hzero := h.getElem?_end
            rw [List.length_append, ← Nat.add_assoc] at hzero
            by_cases hlast : k = line + l.length + ((l₂ :: lines).flatMap (newline :: ·)).length
            · rw [hlast, hzero]
              decide
            · rw [List.getElem?_eq_none (by omega)]
              simp

/-- The lines of a datagram make it up. -/
theorem segments_join (datagram : Bytes) : ∃ l lines, segments datagram = l :: lines ∧
    datagram = l ++ lines.flatMap (newline :: ·) ∧ ∀ m ∈ l :: lines, newline ∉ m := by
  induction hlen : datagram.length using Nat.strong_induction_on generalizing datagram with
  | _ n ih =>
      by_cases hnl : newline ∈ datagram
      · obtain ⟨a, b, rfl, ha⟩ := List.eq_append_cons_of_mem hnl
        rw [List.length_append, List.length_cons] at hlen
        obtain ⟨l, lines, hsplit, hjoin, hrest⟩ := ih b.length (by omega) b rfl
        refine ⟨a, l :: lines, by rw [segments_ended ha, hsplit], ?_,
          List.forall_mem_cons.mpr ⟨ha, hrest⟩⟩
        rw [List.flatMap_cons, List.cons_append, ← hjoin]
      · exact ⟨datagram, [], segments_open hnl, by simp, by simpa using hnl⟩

/-- **What a datagram does**, for one that fits into the buffer and has no NUL. -/
theorem statsListener_eq {clock : Nat → Int} {datagram : Bytes} (hlen : datagram.length ≤ 511)
    (hnul : 0 ∉ datagram) (s : Stats) :
    statsListener clock s datagram = hearLines clock (segments datagram) s := by
  have hall : datagram.take (statsMaxLine - 1) = datagram := List.take_of_length_le hlen
  obtain ⟨l, lines, hsplit, hjoin, hnl⟩ := segments_join datagram
  unfold statsListener
  rw [hall, hsplit]
  dsimp only
  by_cases hnil : datagram = []
  · rw [if_pos hnil]
    subst hnil
    obtain ⟨rfl, rfl⟩ := List.cons.inj (hsplit.symm.trans (segments_open (by simp)))
    rfl
  · rw [if_neg hnil]
    have hspells : Spells (datagram ++ [0]) 0 (l ++ lines.flatMap (newline :: ·)) := by
      rw [← hjoin]
      exact ⟨hnul, [], rfl⟩
    refine lineLoop_eq lines hnl hspells ?_ s
    rw [← hjoin, List.length_append, List.length_singleton, Nat.zero_add]

end EspHole.Generator
