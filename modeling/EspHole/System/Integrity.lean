/-
The table over any run of datagrams of one line, and the fields that are not known.

The table stays tidy and framed whatever is received.  "Unknown fields ignored (forward
compat)", says `ingest_line`, and this is not so: its test for a bucket looks at an `h` and at
the digit behind it, and `strtol` then reads what it can, so that `h01` and `h1_max_us` are
taken for bucket 1.  `tableIntegrity_iff` says that this is all there is: the fields that are
not known are ignored in every step of a run exactly if none of them looks like a bucket.
-/
import EspHole.Generator.Table
import EspHole.System.Stats

namespace EspHole.System

open Ascii Generator

/-! ### Fields that are not known -/

/-- The keys of the line that `main/stats.c` sends. -/
def knownKeys : List Bytes := ascii "uptime_s" :: (leading ++ buckets).map counterKey

/-- A field with another key. -/
def isUnknown (field : Bytes) : Bool :=
  (keyValue field).any fun kv => !knownKeys.contains kv.1

/-- A field with another key that the test for a bucket takes for one, and with a value. -/
structure Lookalike (field key val : Bytes) : Prop where
  split : keyValue field = some (key, val)
  unknown : key ∉ knownKeys
  shape : key.head? = some 'h'.toUInt8 ∧ (key.drop 1).head?.any isDigit
  bucket : 0 ≤ strtol (key.drop 1) ∧ strtol (key.drop 1) < statsHistBuckets
  counts : UInt32.ofInt (strtol val) ≠ 0

/-- A line made of a node and fields. -/
def report (node : Bytes) (parts : List Bytes) : Bytes :=
  linePrefix ++ (node ++ ' '.toUInt8 :: [','.toUInt8].intercalate parts)

theorem isUnknown_iff {field : Bytes} :
    isUnknown field = true ↔ ∃ key val, keyValue field = some (key, val) ∧ key ∉ knownKeys := by
  unfold isUnknown
  rcases keyValue field with _ | ⟨key, val⟩
  · simp
  · simp

/-- Of a key that is not known something is made exactly if it looks like a bucket. -/
theorem counterOf_unknown {key : Bytes} (h : key ∉ knownKeys) : (∃ c, counterOf key = some c) ↔
    (key.head? = some 'h'.toUInt8 ∧ (key.drop 1).head?.any isDigit) ∧
      0 ≤ strtol (key.drop 1) ∧ strtol (key.drop 1) < statsHistBuckets := by
  have hne : ∀ c, key ≠ counterKey c := fun c he =>
    h (he ▸ List.mem_cons_of_mem _ (List.mem_map_of_mem (mem_counters c)))
  have hblocked : key ≠ ascii "blocked" := hne .blocked
  have hforwarded : key ≠ ascii "forwarded" := hne .forwarded
  have htimeouts : key ≠ ascii "timeouts" := hne .timeouts
  have hlat : key ≠ ascii "lat_sum_us" := hne .latSumUs
  have huptime : key ≠ ascii "uptime_s" := fun he => h (he ▸ List.mem_cons_self)
  unfold counterOf
  rw [if_neg hblocked, if_neg hforwarded, if_neg htimeouts, if_neg hlat, if_neg huptime]
  by_cases hshape : key.head? = some 'h'.toUInt8 ∧ (key.drop 1).head?.any isDigit
  · rw [if_pos hshape]
    by_cases hbucket : 0 ≤ strtol (key.drop 1) ∧ strtol (key.drop 1) < statsHistBuckets
    · rw [dif_pos hbucket]
      exact ⟨fun _ => ⟨hshape, hbucket⟩, fun _ => ⟨_, rfl⟩⟩
    · rw [dif_neg hbucket]
      constructor
      · rintro ⟨c, hc⟩
        cases hc
      · exact fun hb => absurd hb.2 hbucket
  · rw [if_neg hshape]
    constructor
    · rintro ⟨c, hc⟩
      cases hc
    · exact fun hs => absurd hs.1 hshape

/-- **A field that is not known adds to a sum exactly if it looks like a bucket.** -/
theorem adds_unknown {field : Bytes} (h : isUnknown field = true) :
    (∀ c, adds field c = 0) ↔ ∀ key val, ¬ Lookalike field key val := by
  obtain ⟨key, val, hsplit, hkey⟩ := isUnknown_iff.mp h
  unfold adds
  rw [hsplit]
  dsimp only
  constructor
  · intro hzero key' val' hlook
    obtain ⟨rfl, rfl⟩ := Prod.mk.inj (Option.some.inj (hsplit.symm.trans hlook.split))
    obtain ⟨c, hc⟩ := (counterOf_unknown hkey).mpr ⟨hlook.shape, hlook.bucket⟩
    have hadds := hzero c
    rw [if_pos hc] at hadds
    exact hlook.counts hadds
  · intro hno c
    by_cases hc : counterOf key = some c
    · rw [if_pos hc]
      by_contra hval
      obtain ⟨hshape, hbucket⟩ := (counterOf_unknown hkey).mp ⟨c, hc⟩
      exact hno key val ⟨hsplit, hkey, hshape, hbucket, hval⟩
    · rw [if_neg hc]

theorem sets_unknown {field : Bytes} (h : isUnknown field = true) : sets field = none := by
  obtain ⟨key, val, hsplit, hkey⟩ := isUnknown_iff.mp h
  have huptime : key ≠ ascii "uptime_s" := fun he => hkey (he ▸ List.mem_cons_self)
  unfold sets
  rw [hsplit]
  exact if_neg huptime

/-- One that adds nothing leaves every entry. -/
theorem creditPart_unknown {field : Bytes} (h : isUnknown field = true)
    (hadds : ∀ c, adds field c = 0) (n : StatsNode) : creditPart n field = n := by
  obtain ⟨hused, hnode, hseen, hup⟩ := creditPart_rest n field
  refine StatsNode.ext_count hused hnode (fun c => ?_) ?_ hseen
  · rw [creditPart_count, hadds, UInt32.add_zero]
  · rw [hup, sets_unknown h]
    rfl

/-- Whoever leaves them out credits the same. -/
theorem foldl_creditPart_filter {parts : List Bytes}
    (h : ∀ field ∈ parts, isUnknown field = true → ∀ c, adds field c = 0) (n : StatsNode) :
    (parts.filter (!isUnknown ·)).foldl creditPart n = parts.foldl creditPart n := by
  induction parts generalizing n with
  | nil => rfl
  | cons field parts ih =>
      have hrest := ih fun f hf => h f (List.mem_cons_of_mem field hf)
      by_cases hfield : isUnknown field = true
      · rw [List.filter_cons_of_neg (by simp [hfield]), List.foldl_cons,
          creditPart_unknown hfield (h field List.mem_cons_self hfield), hrest]
      · rw [List.filter_cons_of_pos (by simp [hfield]), List.foldl_cons, List.foldl_cons, hrest]

/-! ### Lines with fields left out -/

theorem intercalate_sublist {sep : Bytes} {parts parts' : List Bytes}
    (h : parts'.Sublist parts) :
    (sep.intercalate parts').Sublist (sep.intercalate parts) := by
  induction h with
  | slnil => exact List.Sublist.refl _
  | @cons parts' parts field h ih =>
      by_cases hnil : parts = []
      · subst hnil
        rw [List.sublist_nil.mp h]
        exact List.nil_sublist _
      · rw [List.intercalate_cons_of_ne_nil hnil]
        exact ih.trans (List.sublist_append_right _ _)
  | @cons_cons parts' parts field h ih =>
      by_cases hnil : parts' = []
      · subst hnil
        rw [List.intercalate_singleton]
        by_cases hnil' : parts = []
        · subst hnil'
          rw [List.intercalate_singleton]
        · rw [List.intercalate_cons_of_ne_nil hnil', List.append_assoc]
          exact List.sublist_append_left _ _
      · have hnil' : parts ≠ [] := fun he => hnil (List.sublist_nil.mp (he ▸ h))
        rw [List.intercalate_cons_of_ne_nil hnil, List.intercalate_cons_of_ne_nil hnil']
        exact ih.append_left _

/-- The fields of a line that is made of them. -/
theorem creditFields_intercalate {parts : List Bytes} (h : ∀ field ∈ parts, ','.toUInt8 ∉ field)
    (n : StatsNode) :
    creditFields n ([','.toUInt8].intercalate parts) = parts.foldl creditPart n := by
  unfold creditFields fields
  by_cases hnil : parts = []
  · subst hnil
    rfl
  · rw [List.splitOn_intercalate _ h hnil]

theorem not_mem_fields (text : Bytes) : ∀ field ∈ fields text, ','.toUInt8 ∉ field := by
  induction hlen : text.length using Nat.strong_induction_on generalizing text with
  | _ n ih =>
      by_cases hcomma : ','.toUInt8 ∈ text
      · obtain ⟨a, b, rfl, ha⟩ := List.eq_append_cons_of_mem hcomma
        rw [List.length_append, List.length_cons] at hlen
        rw [fields_comma ha]
        exact List.forall_mem_cons.mpr ⟨ha, ih b.length (by omega) b rfl⟩
      · rw [fields_last hcomma]
        simpa using hcomma

/-- The fields of a line make it up. -/
theorem report_fields {line node text : Bytes} (h : Reports line node text) :
    report node (fields text) = line := by
  unfold report fields
  rw [List.intercalate_splitOn, ← (header_eq_some h.header).1]

theorem report_sublist (node : Bytes) {parts parts' : List Bytes} (h : parts'.Sublist parts) :
    (report node parts').Sublist (report node parts) :=
  (((intercalate_sublist h).cons_cons _).append_left _).append_left _

section Report

variable {datagram node text : Bytes} {parts : List Bytes}

/-- With fields left out a line is received like any other, -/
theorem visible_report (h : Reports (visible datagram) node text)
    (hsub : parts.Sublist (fields text)) : visible (report node parts) = report node parts := by
  have hline : (report node parts).Sublist (visible datagram) := by
    rw [← report_fields h]
    exact report_sublist node hsub
  exact visible_eq_self (hline.length_le.trans (visible_length _))
    fun hnul => not_mem_cstr _ (hline.subset hnul)

/-- it is a line of the same node, -/
theorem reports_report (h : Reports (visible datagram) node text) :
    Reports (report node parts) node ([','.toUInt8].intercalate parts) :=
  ⟨header_split (header_eq_some h.header).2 _, h.length⟩

theorem singleLine_report (hline : SingleLine datagram) (h : Reports (visible datagram) node text)
    (hsub : parts.Sublist (fields text)) : SingleLine (report node parts) := by
  refine hline.sublist (List.Sublist.trans ?_ (visible_sublist datagram))
  rw [← report_fields h]
  exact report_sublist node hsub

/-- and it does the same if the fields that are left do. -/
theorem statsListener_report (clock : Nat → Int) {s : Stats} (hline : SingleLine datagram)
    (h : Reports (visible datagram) node text) (hplace : HasPlace s.nodes node)
    (hsub : parts.Sublist (fields text))
    (hsame : ∀ n, parts.foldl creditPart n = (fields text).foldl creditPart n) :
    statsListener clock s (report node parts) = statsListener clock s datagram := by
  obtain ⟨⟨i, nodes⟩, hfind⟩ := (hasPlace_iff h.length).mp hplace
  have hcredit : ∀ n, creditFields n ([','.toUInt8].intercalate parts) = creditFields n text :=
    fun n => (creditFields_intercalate
      (fun field hfield => not_mem_fields text field (hsub.subset hfield)) n).trans (hsame n)
  rw [statsListener_single hline, statsListener_single (singleLine_report hline h hsub),
    visible_report h hsub, hearAlone_reports clock h hfind,
    hearAlone_reports clock (reports_report h) hfind]
  unfold Stats.credit
  rw [hcredit]

end Report

/-! ### Integrity -/

/-- The fields of a line that are not known change no counter, and the line does what it does
without one of them, and without them all. -/
structure Ignored (clock : Nat → Int) (s : Stats) (datagram node text : Bytes) : Prop where
  unchanged : ∀ field ∈ fields text, isUnknown field = true →
    ∀ (n : StatsNode) (c : Counter), (creditPart n field).count c = n.count c
  without : ∀ before field after, fields text = before ++ field :: after →
    isUnknown field = true →
      statsListener clock s (report node (before ++ after)) = statsListener clock s datagram
  withoutAll : statsListener clock s (report node ((fields text).filter (!isUnknown ·))) =
    statsListener clock s datagram

/-- What is asked of one datagram. -/
structure Integrity (clock : Nat → Int) (s : Stats) (datagram : Bytes) : Prop where
  tidy : Tidy (statsListener clock s datagram).nodes
  framed : Framed s.nodes (statsListener clock s datagram).nodes (visible datagram)
  ignored : ∀ node text, Reports (visible datagram) node text → HasPlace s.nodes node →
    Ignored clock s datagram node text

/-- No field of a line that finds an entry looks like a bucket and is none. -/
def Plain (nodes : NodeTable) (datagram : Bytes) : Prop :=
  ∀ node text, Reports (visible datagram) node text → HasPlace nodes node →
    ∀ field ∈ fields text, ∀ key val, ¬ Lookalike field key val

/-- **The fields that are not known are ignored if and only if none looks like a bucket.** -/
theorem ignored_iff (clock : Nat → Int) {s : Stats} {datagram node text : Bytes}
    (hline : SingleLine datagram) (h : Reports (visible datagram) node text)
    (hplace : HasPlace s.nodes node) : Ignored clock s datagram node text ↔
      ∀ field ∈ fields text, ∀ key val, ¬ Lookalike field key val := by
  constructor
  · intro hignored field hfield key val hlook
    have hunknown : isUnknown field = true :=
      isUnknown_iff.mpr ⟨key, val, hlook.split, hlook.unknown⟩
    refine (adds_unknown hunknown).mp (fun c => ?_) key val hlook
    have hsame := hignored.unchanged field hfield hunknown .zero c
    rwa [creditPart_count, UInt32.add_eq_left] at hsame
  · intro hno
    have hadds : ∀ field ∈ fields text, isUnknown field = true → ∀ c, adds field c = 0 :=
      fun field hfield hunknown => (adds_unknown hunknown).mpr (hno field hfield)
    refine ⟨fun field hfield hunknown n c => ?_, fun before field after hsplit hunknown => ?_, ?_⟩
    · rw [creditPart_count, hadds field hfield hunknown, UInt32.add_zero]
    · refine statsListener_report clock hline h hplace ?_ fun n => ?_
      · rw [hsplit]
        exact (List.sublist_cons_self field after).append_left before
      · rw [hsplit, List.foldl_append, List.foldl_append, List.foldl_cons,
          creditPart_unknown hunknown (hadds field (by rw [hsplit]; simp) hunknown)]
    · exact statsListener_report clock hline h hplace List.filter_sublist
        (foldl_creditPart_filter hadds)

theorem integrity_iff (clock : Nat → Int) {s : Stats} (htidy : Tidy s.nodes) {datagram : Bytes}
    (hline : SingleLine datagram) : Integrity clock s datagram ↔ Plain s.nodes datagram := by
  obtain ⟨hkeeps, hframed⟩ := statsListener_tidy clock htidy hline
  constructor
  · exact fun hint node text hr hplace =>
      (ignored_iff clock hline hr hplace).mp (hint.ignored node text hr hplace)
  · exact fun hplain => ⟨hkeeps, hframed, fun node text hr hplace =>
      (ignored_iff clock hline hr hplace).mpr (hplain node text hr hplace)⟩

/-! ### Runs -/

/-- In each step of a run of datagrams since the boot, of the state that the one arrives in and
the datagram. -/
def EachStep (clock : Nat → Int) (datagrams : List Bytes) (P : Stats → Bytes → Prop) : Prop :=
  ∀ before datagram after, datagrams = before ++ datagram :: after →
    P (before.foldl (statsListener clock) Stats.init) datagram

/-- The integrity of the table over a run. -/
def TableIntegrity (clock : Nat → Int) (datagrams : List Bytes) : Prop :=
  EachStep clock datagrams (Integrity clock)

/-- **Any run of datagrams of one line** keeps the table tidy and framed in all of its steps, and
the fields that are not known are ignored in all of them exactly if none looks like a bucket. -/
theorem tableIntegrity_iff (clock : Nat → Int) (datagrams : List Bytes)
    (hlines : ∀ d ∈ datagrams, SingleLine d) :
    (EachStep clock datagrams fun s d => Tidy (statsListener clock s d).nodes ∧
      Framed s.nodes (statsListener clock s d).nodes (visible d)) ∧
    (TableIntegrity clock datagrams ↔ EachStep clock datagrams fun s d => Plain s.nodes d) := by
  have hreached : EachStep clock datagrams fun s d => Tidy s.nodes ∧ SingleLine d := by
    intro before d after hsplit
    refine ⟨tidy_run clock fun d' hd' => ?_, hlines d (by rw [hsplit]; simp)⟩
    exact hlines d' (by rw [hsplit]; exact List.mem_append_left _ hd')
  refine ⟨fun before d after hsplit => ?_, fun h before d after hsplit => ?_,
    fun h before d after hsplit => ?_⟩
  · obtain ⟨htidy, hline⟩ := hreached before d after hsplit
    exact statsListener_tidy clock htidy hline
  · obtain ⟨htidy, hline⟩ := hreached before d after hsplit
    exact (integrity_iff clock htidy hline).mp (h before d after hsplit)
  · obtain ⟨htidy, hline⟩ := hreached before d after hsplit
    exact (integrity_iff clock htidy hline).mpr (h before d after hsplit)

/-- A field that is not known behind one that is, and a line that is cut off by a NUL. -/
theorem tableIntegrity_rtt :
    (EachStep (fun _ => 0) [ascii "esphole,node=10.0.0.7 blocked=1i,rtt_us=3i",
        ascii "esphole,node=10" ++ 0 :: ascii ".0.0.8 blocked=1i\n"] fun s d =>
      Tidy (statsListener (fun _ => 0) s d).nodes ∧
        Framed s.nodes (statsListener (fun _ => 0) s d).nodes (visible d)) ∧
    (TableIntegrity (fun _ => 0) [ascii "esphole,node=10.0.0.7 blocked=1i,rtt_us=3i",
        ascii "esphole,node=10" ++ 0 :: ascii ".0.0.8 blocked=1i\n"] ↔
      EachStep (fun _ => 0) [ascii "esphole,node=10.0.0.7 blocked=1i,rtt_us=3i",
        ascii "esphole,node=10" ++ 0 :: ascii ".0.0.8 blocked=1i\n"] fun s d => Plain s.nodes d) :=
  tableIntegrity_iff (fun _ => 0) [ascii "esphole,node=10.0.0.7 blocked=1i,rtt_us=3i",
    ascii "esphole,node=10" ++ 0 :: ascii ".0.0.8 blocked=1i\n"] (by decide +kernel)

/-- A field of a later version that is not ignored: 250000 are added to bucket 1. -/
theorem not_tableIntegrity_max :
    ¬ TableIntegrity (fun _ => 0) [ascii "esphole,node=10.0.0.7 h1_max_us=250000i"] := by
  intro h
  have hint : Integrity (fun _ => 0) Stats.init (ascii "esphole,node=10.0.0.7 h1_max_us=250000i") :=
    h [] _ [] rfl
  have hreports : Reports (visible (ascii "esphole,node=10.0.0.7 h1_max_us=250000i"))
      (ascii "10.0.0.7") (ascii "h1_max_us=250000i") := ⟨by decide +kernel, by decide⟩
  have hplace : HasPlace Stats.init.nodes (ascii "10.0.0.7") := ⟨0, fun hused => by cases hused⟩
  have hcount := (hint.ignored _ _ hreports hplace).unchanged (ascii "h1_max_us=250000i")
    (by decide +kernel) (by decide +kernel) .zero (.hist 1)
  exact absurd hcount (by decide +kernel)

end EspHole.System
