/-
The table of nodes and what a datagram does to it: `main/stats_ui.c`.

A datagram is received into a buffer, cut into lines, and each line into fields.  All of
this is done in place, by pointers into the buffer and NULs written to it, and the model
keeps it so: what a function leaves in the buffer is what the next one reads.

Every line takes a reading of the timer.  `clock` is what these readings are, one after the
other, and `Stats.ticks` counts them.
-/
import EspHole.Basic
import EspHole.Lib.CString
import EspHole.Lib.Decimal
import EspHole.Lib.Json

namespace EspHole.Generator

open Ascii CString

/-- `STATS_MAX_LINE` -/
def statsMaxLine : Nat := 512

/-- `STATS_MAX_NODES` -/
abbrev statsMaxNodes : Nat := 16

/-- `sizeof(s_nodes[0].node)` -/
def nodeSize : Nat := 16

/-- `stats_node_t`; `node` is the string in the array of that name. -/
structure StatsNode where
  used : Bool
  node : Bytes
  blocked : UInt32
  forwarded : UInt32
  timeouts : UInt32
  latSumUs : UInt32
  uptimeS : Int
  lastSeenUs : Int
  hist : Vector UInt32 statsHistBuckets
  deriving DecidableEq

/-- An entry after `memset`. -/
def StatsNode.zero : StatsNode := ⟨false, [], 0, 0, 0, 0, 0, 0, Vector.replicate _ 0⟩

/-- `s_nodes` -/
abbrev NodeTable : Type := Fin statsMaxNodes → StatsNode

/-- What the listener keeps, and how often it has read the timer. -/
structure Stats where
  nodes : NodeTable
  ticks : Nat

/-- After a boot. -/
def Stats.init : Stats := ⟨fun _ => .zero, 0⟩

/-- `find_or_create_node`: the entry of a node, in the table that has it. -/
def findOrCreateNode (nodes : NodeTable) (node : Bytes) :
    Option (Fin statsMaxNodes × NodeTable) :=
  if node.length = 0 ∨ node.length ≥ nodeSize then none
  else
    match (List.finRange _).find? fun i => (nodes i).used && (nodes i).node == node with
    | some i => some (i, nodes)
    | none =>
        match (List.finRange _).find? fun i => !(nodes i).used with
        | some i =>
            some (i, Function.update nodes i { StatsNode.zero with node := node, used := true })
        | none => none

/-- What the loop over the fields does with a key and a value. -/
def creditField (n : StatsNode) (key val : Bytes) : StatsNode :=
  let v := strtol val
  if key = ascii "blocked" then { n with blocked := n.blocked + UInt32.ofInt v }
  else if key = ascii "forwarded" then { n with forwarded := n.forwarded + UInt32.ofInt v }
  else if key = ascii "timeouts" then { n with timeouts := n.timeouts + UInt32.ofInt v }
  else if key = ascii "lat_sum_us" then { n with latSumUs := n.latSumUs + UInt32.ofInt v }
  else if key = ascii "uptime_s" then { n with uptimeS := v }
  else if key.head? = some 'h'.toUInt8 ∧ (key.drop 1).head?.any isDigit then
    let bucket := strtol (key.drop 1)
    if h : 0 ≤ bucket ∧ bucket < statsHistBuckets then
      { n with hist := n.hist.set bucket.toNat (n.hist[bucket.toNat] + UInt32.ofInt v) }
    else n
  else n

/-- One turn of the loop over the fields, with the next one if there is a comma. -/
def fieldStep (buf : Bytes) (n : StatsNode) (field : Nat) : Bytes × StatsNode × Option Nat :=
  let comma := strchr buf field ','.toUInt8
  let buf := match comma with
    | some comma => buf.set comma 0
    | none => buf
  match strchr buf field '='.toUInt8 with
  | some eq =>
      let buf := buf.set eq 0
      (buf, creditField n (str buf field) (str buf (eq + 1)), comma.map (· + 1))
  | none => (buf, n, comma.map (· + 1))

theorem strchr_lt {buf : Bytes} {p k : Nat} {c : UInt8} (h : strchr buf p c = some k) :
    p ≤ k ∧ k < buf.length := by
  unfold strchr at h
  split at h
  · rename_i hc
    obtain rfl := Option.some.inj h
    have hlt := List.idxOf_lt_length_of_mem hc
    have hle : (str buf p).length ≤ (buf.drop p).length := (List.takeWhile_prefix _).length_le
    rw [List.length_drop] at hle
    omega
  · cases h

theorem fieldStep_next {buf buf' : Bytes} {n n' : StatsNode} {field next : Nat}
    (h : fieldStep buf n field = (buf', n', some next)) :
    buf'.length - next < buf.length - field := by
  unfold fieldStep at h
  cases hcomma : strchr buf field ','.toUInt8 with
  | none =>
      rw [hcomma] at h
      dsimp only at h
      split at h <;> cases h
  | some comma =>
      obtain ⟨hle, hlt⟩ := strchr_lt hcomma
      rw [hcomma] at h
      dsimp only at h
      split at h
      · cases h
        rw [List.length_set, List.length_set]
        show buf.length - (comma + 1) < buf.length - field
        omega
      · cases h
        rw [List.length_set]
        show buf.length - (comma + 1) < buf.length - field
        omega

/-- The loop over the fields. -/
def fieldLoop (buf : Bytes) (n : StatsNode) (field : Nat) : Bytes × StatsNode :=
  if str buf field = [] then (buf, n)
  else
    match _h : fieldStep buf n field with
    | (buf, n, none) => (buf, n)
    | (buf, n, some next) => fieldLoop buf n next
termination_by buf.length - field
decreasing_by exact fieldStep_next _h

/-- What every line starts with. -/
def linePrefix : Bytes := ascii "esphole,node="

/-- `ingest_line`, with what it leaves in the buffer. -/
def ingestLine (clock : Nat → Int) (buf : Bytes) (s : Stats) (line len : Nat) : Bytes × Stats :=
  if len ≤ linePrefix.length ∨ !linePrefix.isPrefixOf (buf.drop line) then (buf, s)
  else
    let rest := line + linePrefix.length
    match memchr buf rest ' '.toUInt8 (len - linePrefix.length) with
    | none => (buf, s)
    | some space =>
        let buf := buf.set space 0
        match findOrCreateNode s.nodes ((buf.drop rest).take (space - rest)) with
        | none => (buf, s)
        | some (i, nodes) =>
            let n := { nodes i with lastSeenUs := clock s.ticks }
            let looped := fieldLoop buf n (space + 1)
            (looped.1, ⟨Function.update nodes i looped.2, s.ticks + 1⟩)

/-- One turn of the loop over the lines, with the next one if there is a newline. -/
def lineStep (clock : Nat → Int) (buf : Bytes) (s : Stats) (line : Nat) :
    Bytes × Stats × Option Nat :=
  let nl := strchr buf line '\n'.toUInt8
  let lineLen := (nl.map (· - line)).getD (str buf line).length
  let ingested := if lineLen > 0 then ingestLine clock buf s line lineLen else (buf, s)
  (ingested.1, ingested.2, nl.map (· + 1))

@[simp] theorem fieldStep_length (buf : Bytes) (n : StatsNode) (field : Nat) :
    (fieldStep buf n field).1.length = buf.length := by
  unfold fieldStep
  cases strchr buf field ','.toUInt8 with
  | none =>
      dsimp only
      split <;> simp
  | some comma =>
      dsimp only
      split <;> simp

@[simp] theorem fieldLoop_length (buf : Bytes) (n : StatsNode) (field : Nat) :
    (fieldLoop buf n field).1.length = buf.length := by
  fun_induction fieldLoop buf n field with
  | case1 => rfl
  | case2 buf n field _ buf' n' h =>
      have := fieldStep_length buf n field
      rwa [h] at this
  | case3 buf n field _ buf' n' next h ih =>
      have := fieldStep_length buf n field
      rw [h] at this
      exact ih.trans this

@[simp] theorem ingestLine_length (clock : Nat → Int) (buf : Bytes) (s : Stats)
    (line len : Nat) : (ingestLine clock buf s line len).1.length = buf.length := by
  unfold ingestLine
  split
  · rfl
  · dsimp only
    split
    · rfl
    · split
      · rw [List.length_set]
      · rw [fieldLoop_length, List.length_set]

@[simp] theorem lineStep_length (clock : Nat → Int) (buf : Bytes) (s : Stats) (line : Nat) :
    (lineStep clock buf s line).1.length = buf.length := by
  unfold lineStep
  dsimp only
  split
  · exact ingestLine_length ..
  · rfl

theorem lineStep_next {clock : Nat → Int} {buf buf' : Bytes} {s s' : Stats} {line next : Nat}
    (h : lineStep clock buf s line = (buf', s', some next)) :
    buf'.length - next < buf.length - line := by
  have hlen := lineStep_length clock buf s line
  rw [h] at hlen
  have hnext : (lineStep clock buf s line).2.2 = some next := by rw [h]
  obtain ⟨nl, hnl, rfl⟩ := Option.map_eq_some_iff.mp hnext
  have := strchr_lt hnl
  dsimp only at hlen ⊢
  omega

/-- The loop over the lines. -/
def lineLoop (clock : Nat → Int) (buf : Bytes) (s : Stats) (line : Nat) : Stats :=
  if str buf line = [] then s
  else
    match _h : lineStep clock buf s line with
    | (_, s, none) => s
    | (buf, s, some next) => lineLoop clock buf s next
termination_by buf.length - line
decreasing_by exact lineStep_next _h

/-- One turn of `stats_listener_task`: what does not fit into the buffer is lost. -/
def statsListener (clock : Nat → Int) (s : Stats) (datagram : Bytes) : Stats :=
  let received := datagram.take (statsMaxLine - 1)
  if received = [] then s else lineLoop clock (received ++ [0]) s 0

/-- The object of a node. -/
def nodeItem (now : Int) (n : StatsNode) : Json :=
  .obj [(ascii "id", .str n.node), (ascii "blocked", .num n.blocked.toNat),
    (ascii "forwarded", .num n.forwarded.toNat), (ascii "timeouts", .num n.timeouts.toNat),
    (ascii "lat_sum_us", .num n.latSumUs.toNat), (ascii "uptime_s", .num n.uptimeS),
    (ascii "last_seen_s", .num ((now - n.lastSeenUs).tdiv 1000000))]

/-- `stats_json_handler`: the document it sends. -/
def statsJsonHandler (nodes : NodeTable) (now : Int) : Json :=
  .obj [(ascii "nodes", .arr (((List.finRange _).filter fun i => (nodes i).used).map fun i =>
    nodeItem now (nodes i)))]

/-! ### What a list of fields adds up to -/

/-- The sums an entry keeps. -/
inductive Counter
  | blocked
  | forwarded
  | timeouts
  | latSumUs
  | hist (i : Fin statsHistBuckets)
  deriving DecidableEq

/-- The sum of that name. -/
def StatsNode.count (n : StatsNode) : Counter → UInt32
  | .blocked => n.blocked
  | .forwarded => n.forwarded
  | .timeouts => n.timeouts
  | .latSumUs => n.latSumUs
  | .hist i => n.hist[i]

/-- An entry is its sums and what it does not sum. -/
theorem StatsNode.ext_count {n m : StatsNode} (hused : n.used = m.used) (hnode : n.node = m.node)
    (hcount : ∀ c, n.count c = m.count c) (huptime : n.uptimeS = m.uptimeS)
    (hseen : n.lastSeenUs = m.lastSeenUs) : n = m := by
  have hhist : n.hist = m.hist := Vector.ext fun i hi => hcount (.hist ⟨i, hi⟩)
  have hblocked := hcount .blocked
  have hforwarded := hcount .forwarded
  have htimeouts := hcount .timeouts
  have hlat := hcount .latSumUs
  cases n
  cases m
  simp_all [StatsNode.count]

/-- A sum that grows. -/
def StatsNode.bump (n : StatsNode) (c : Counter) (v : UInt32) : StatsNode :=
  match c with
  | .blocked => { n with blocked := n.blocked + v }
  | .forwarded => { n with forwarded := n.forwarded + v }
  | .timeouts => { n with timeouts := n.timeouts + v }
  | .latSumUs => { n with latSumUs := n.latSumUs + v }
  | .hist i => { n with hist := n.hist.set i (n.hist[i] + v) }

theorem StatsNode.bump_count (n : StatsNode) (c c' : Counter) (v : UInt32) :
    (n.bump c v).count c' = n.count c' + if c = c' then v else 0 := by
  by_cases h : c = c'
  · subst h
    rw [if_pos rfl]
    cases c with
    | hist i => exact Vector.getElem_set_self _
    | _ => rfl
  · rw [if_neg h, UInt32.add_zero]
    cases c with
    | hist i =>
        cases c' with
        | hist j => exact Vector.getElem_set_ne i.isLt j.isLt fun hij => h (by rw [Fin.ext hij])
        | _ => rfl
    | _ =>
        cases c' with
        | hist j => rfl
        | _ => first | rfl | exact absurd rfl h

theorem StatsNode.bump_rest (n : StatsNode) (c : Counter) (v : UInt32) :
    (n.bump c v).used = n.used ∧ (n.bump c v).node = n.node ∧
      (n.bump c v).lastSeenUs = n.lastSeenUs ∧ (n.bump c v).uptimeS = n.uptimeS := by
  cases c <;> exact ⟨rfl, rfl, rfl, rfl⟩

/-- The sum that a key names. -/
def counterOf (key : Bytes) : Option Counter :=
  if key = ascii "blocked" then some .blocked
  else if key = ascii "forwarded" then some .forwarded
  else if key = ascii "timeouts" then some .timeouts
  else if key = ascii "lat_sum_us" then some .latSumUs
  else if key = ascii "uptime_s" then none
  else if key.head? = some 'h'.toUInt8 ∧ (key.drop 1).head?.any isDigit then
    if h : 0 ≤ strtol (key.drop 1) ∧ strtol (key.drop 1) < statsHistBuckets then
      some (.hist ⟨(strtol (key.drop 1)).toNat, by omega⟩)
    else none
  else none

theorem counterOf_uptime : counterOf (ascii "uptime_s") = none := by decide

/-- **A field adds its value to the sum it names**, or it sets the uptime. -/
theorem creditField_eq (n : StatsNode) (key val : Bytes) :
    creditField n key val = match counterOf key with
      | some c => n.bump c (UInt32.ofInt (strtol val))
      | none => if key = ascii "uptime_s" then { n with uptimeS := strtol val } else n := by
  by_cases huptime : key = ascii "uptime_s"
  · subst huptime
    rw [counterOf_uptime]
    rfl
  unfold creditField counterOf
  dsimp only
  by_cases hblocked : key = ascii "blocked"
  · rw [if_pos hblocked, if_pos hblocked]
    rfl
  rw [if_neg hblocked, if_neg hblocked]
  by_cases hforwarded : key = ascii "forwarded"
  · rw [if_pos hforwarded, if_pos hforwarded]
    rfl
  rw [if_neg hforwarded, if_neg hforwarded]
  by_cases htimeouts : key = ascii "timeouts"
  · rw [if_pos htimeouts, if_pos htimeouts]
    rfl
  rw [if_neg htimeouts, if_neg htimeouts]
  by_cases hlat : key = ascii "lat_sum_us"
  · rw [if_pos hlat, if_pos hlat]
    rfl
  rw [if_neg hlat, if_neg hlat, if_neg huptime, if_neg huptime, if_neg huptime]
  by_cases hhist : key.head? = some 'h'.toUInt8 ∧ (key.drop 1).head?.any isDigit
  · rw [if_pos hhist, if_pos hhist]
    by_cases hbucket : 0 ≤ strtol (key.drop 1) ∧ strtol (key.drop 1) < statsHistBuckets
    · rw [dif_pos hbucket, dif_pos hbucket]
      rfl
    · rw [dif_neg hbucket, dif_neg hbucket]
  · rw [if_neg hhist, if_neg hhist]

/-! ### A list of fields -/

/-- The two sides of a field's first `=`. -/
def keyValue (field : Bytes) : Option (Bytes × Bytes) :=
  if '='.toUInt8 ∈ field then
    some (field.takeWhile (· ≠ '='.toUInt8), (field.dropWhile (· ≠ '='.toUInt8)).drop 1)
  else none

/-- What a field does to an entry. -/
def creditPart (n : StatsNode) (field : Bytes) : StatsNode :=
  match keyValue field with
  | some (key, val) => creditField n key val
  | none => n

/-- What a field adds to a sum. -/
def adds (field : Bytes) (c : Counter) : UInt32 :=
  match keyValue field with
  | some (key, val) => if counterOf key = some c then UInt32.ofInt (strtol val) else 0
  | none => 0

/-- What a field sets the uptime to. -/
def sets (field : Bytes) : Option Int :=
  match keyValue field with
  | some (key, val) => if key = ascii "uptime_s" then some (strtol val) else none
  | none => none

/-- The fields of a text. -/
def fields (text : Bytes) : List Bytes := text.splitOn ','.toUInt8

/-- What a text of fields does to an entry. -/
def creditFields (n : StatsNode) (text : Bytes) : StatsNode := (fields text).foldl creditPart n

/-- What it adds to a sum in all. -/
def added (text : Bytes) (c : Counter) : UInt32 := ((fields text).map (adds · c)).sum

/-- What it leaves the uptime at: the last one that is set. -/
def uptimeSet (text : Bytes) : Option Int := (fields text).reverse.findSome? sets

theorem creditPart_count (n : StatsNode) (field : Bytes) (c : Counter) :
    (creditPart n field).count c = n.count c + adds field c := by
  unfold creditPart adds
  rcases keyValue field with _ | ⟨key, val⟩
  · exact (UInt32.add_zero _).symm
  · dsimp only
    rw [creditField_eq]
    cases hkey : counterOf key with
    | some a => simp only [StatsNode.bump_count, Option.some.injEq]
    | none =>
        simp only [reduceCtorEq, if_false, UInt32.add_zero]
        split
        · cases c <;> rfl
        · rfl

theorem creditPart_rest (n : StatsNode) (field : Bytes) :
    (creditPart n field).used = n.used ∧ (creditPart n field).node = n.node ∧
      (creditPart n field).lastSeenUs = n.lastSeenUs ∧
      (creditPart n field).uptimeS = (sets field).getD n.uptimeS := by
  unfold creditPart sets
  rcases keyValue field with _ | ⟨key, val⟩
  · exact ⟨rfl, rfl, rfl, rfl⟩
  · dsimp only
    rw [creditField_eq]
    by_cases huptime : key = ascii "uptime_s"
    · subst huptime
      rw [counterOf_uptime, if_pos rfl, if_pos rfl]
      exact ⟨rfl, rfl, rfl, rfl⟩
    · rw [if_neg huptime, if_neg huptime]
      cases counterOf key with
      | some a => exact n.bump_rest a (UInt32.ofInt (strtol val))
      | none => exact ⟨rfl, rfl, rfl, rfl⟩

/-- **The sums of an entry grow by what the text adds in all.** -/
theorem creditFields_count (n : StatsNode) (text : Bytes) (c : Counter) :
    (creditFields n text).count c = n.count c + added text c := by
  unfold creditFields added
  generalize fields text = parts
  induction parts generalizing n with
  | nil => exact (UInt32.add_zero _).symm
  | cons field parts ih =>
      rw [List.foldl_cons, ih, creditPart_count, List.map_cons, List.sum_cons, UInt32.add_assoc]

theorem creditFields_rest (n : StatsNode) (text : Bytes) :
    (creditFields n text).used = n.used ∧ (creditFields n text).node = n.node ∧
      (creditFields n text).lastSeenUs = n.lastSeenUs ∧
      (creditFields n text).uptimeS = (uptimeSet text).getD n.uptimeS := by
  unfold creditFields uptimeSet
  generalize fields text = parts
  induction parts generalizing n with
  | nil => exact ⟨rfl, rfl, rfl, rfl⟩
  | cons field parts ih =>
      obtain ⟨hused, hnode, hseen, hup⟩ := creditPart_rest n field
      obtain ⟨hused', hnode', hseen', hup'⟩ := ih (creditPart n field)
      refine ⟨hused'.trans hused, hnode'.trans hnode, hseen'.trans hseen, hup'.trans ?_⟩
      rw [hup, List.reverse_cons, List.findSome?_append]
      cases List.findSome? sets parts.reverse with
      | some u => rfl
      | none => cases hs : sets field <;> simp [hs]

end EspHole.Generator
