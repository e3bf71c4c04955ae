/-
The numbers of a fleet, from the counters to the page.

Any number of sinkholes count and report, the network loses datagrams, brings them late or
twice, and whoever runs may lose power.  What a sinkhole has counted is then at one of four
places: it has not been reported yet, it is in a datagram under way, it is in the generator's
table, or it is lost.  `Telemetry.Step` writes down what is lost and why, and the law is that
nothing else is: the four come to what was counted, and to the copies that the network made.

So the page never shows more than that, and where nothing is lost it ends up showing all.
-/
import EspHole.Lib.Ledger
import EspHole.System.Tally
import EspHole.System.Totals

namespace EspHole.System

open Ascii Generator Sinkhole Relation Ledger

/-! ### Addresses -/

/-- An address of version 4. -/
structure Address where
  a : UInt8
  b : UInt8
  c : UInt8
  d : UInt8
  deriving DecidableEq

/-- `IPSTR`, as `on_got_ip` prints it into `s_node_ip` and `stats_start` copies it to `s_node`. -/
def Address.text (ip : Address) : Bytes :=
  decimal ip.a.toNat ++ dot :: (decimal ip.b.toNat ++ dot ::
    (decimal ip.c.toNat ++ dot :: decimal ip.d.toNat))

theorem decimal_byte (n : UInt8) : 1 ≤ (decimal n.toNat).length ∧ (decimal n.toNat).length ≤ 3 :=
  ⟨List.length_pos_iff.mpr (decimal_ne_nil _),
    decimal_length_le (by decide) (n.toNat_lt.trans (by decide))⟩

/-- It is short enough to be copied whole, -/
theorem Address.text_length (ip : Address) : 1 ≤ ip.text.length ∧ ip.text.length ≤ 15 := by
  have ha := decimal_byte ip.a
  have hb := decimal_byte ip.b
  have hc := decimal_byte ip.c
  have hd := decimal_byte ip.d
  unfold Address.text
  simp only [List.length_append, List.length_cons]
  omega

/-- and has nothing but digits and dots. -/
theorem Address.not_mem_text {c : UInt8} (hdigit : isDigit c = false) (hdot : c ≠ dot)
    (ip : Address) : c ∉ ip.text := by
  have hdecimal : ∀ n, c ∉ decimal n := by
    intro n hc
    rw [isDigit_decimal n c hc] at hdigit
    cases hdigit
  unfold Address.text
  simp only [List.mem_append, List.mem_cons, hdecimal, hdot, or_self, not_false_eq_true]

/-! ### What was counted -/

/-- What increments come to, without the wrap. -/
def counted (log : List Increment) (a : Counter) : Nat :=
  (log.map fun p => if p.1 = a then p.2.toNat else 0).sum

/-- A sinkhole since its boot: the address it got then, and its two tasks. -/
structure Reporter where
  ip : Address
  tasks : Tasks

/-- What it reports under. -/
def Reporter.tag (x : Reporter) : Bytes := x.ip.text

/-- What it has counted, -/
def Reporter.counted (x : Reporter) : Counter → Nat := System.counted x.tasks.log

/-- what the calls of `stats_send_once` so far have read of it, -/
def Reporter.reported (x : Reporter) (a : Counter) : Nat :=
  System.counted (latest x.tasks.dispatches a) a

/-- what they have not, -/
def Reporter.pending (x : Reporter) (a : Counter) : Nat := x.counted a - x.reported a

/-- and what the snapshot at hand has read that is new. -/
def Reporter.fresh (x : Reporter) (a : Counter) : Nat :=
  System.counted (x.tasks.seen a).log a - x.reported a

/-- The packets it was to count. -/
def Reporter.accepted (x : Reporter) : Nat := x.tasks.turns.countP accepts

/-- What `stats_send_once` makes of a snapshot of it, -/
def Reporter.makes (x : Reporter) (cur : StatsSnap) (nowUs : Nat) (reachable : Bool) : Sending :=
  statsSendOnce x.tag cur x.tasks.last nowUs reachable

/-- and where it leaves it. -/
def Reporter.sent (x : Reporter) (cur : StatsSnap) (nowUs : Nat) (reachable : Bool) : Reporter :=
  { x with tasks := x.tasks.sent cur (x.makes cur nowUs reachable) }

/-- A line on its way, which is that of an interval; the uptime is that of a timer of 63 bits. -/
structure Datagram where
  ip : Address
  interval : StatsSnap
  uptime : Nat
  uptime_lt : uptime < 10 ^ 13
  bytes : Bytes
  bytes_eq : bytes = statsLine ip.text interval uptime

def Datagram.tag (d : Datagram) : Bytes := d.ip.text

/-- What it carries. -/
def Datagram.amount (d : Datagram) (a : Counter) : Nat := (delta d.interval a).toNat

/-- The line of `stats_send_once` is that of the deltas it computed. -/
theorem Reporter.makes_line (x : Reporter) (cur : StatsSnap) (nowUs : Nat) (reachable : Bool) :
    ∀ line ∈ (x.makes cur nowUs reachable).line,
      line = statsLine x.ip.text (x.makes cur nowUs reachable).d (nowUs / 1000000) := by
  intro line hline
  obtain ⟨hd, -, hspec⟩ := statsSendOnce_spec x.tag cur x.tasks.last nowUs reachable
  unfold Reporter.makes
  rw [hd]
  exact hspec line hline

/-- The datagram that it sends, if it sends one. -/
def Reporter.issues (x : Reporter) (cur : StatsSnap) {nowUs : Nat} (h : nowUs < 2 ^ 63)
    (reachable : Bool) : Option Datagram :=
  (x.makes cur nowUs reachable).line.pmap
    (fun line hline => ⟨x.ip, (x.makes cur nowUs reachable).d, nowUs / 1000000, by omega, line,
      hline⟩) (x.makes_line cur nowUs reachable)

/-- What an entry of the table has. -/
def held (s : StatsNode) (a : Counter) : Nat := if s.used then (s.count a).toNat else 0

/-! ### What is lost -/

/-- Why it is lost. -/
inductive Cause
  | unsent    -- no line was sent, and the interval is dropped
  | underway  -- the network lost the datagram
  | noPlace   -- the table was full
  | off       -- the sinkhole lost power before it had reported
  | restart   -- the generator did, and its table is in RAM
  | clipped   -- more than a `long` of the generator holds
  | wrapped   -- 32 bits of a counter or of a sum
  deriving DecidableEq

structure Loss where
  cause : Cause
  tag : Bytes
  amount : Counter → Nat

/-- An interval of 32 bits loses what wrapped. -/
def Reporter.wraps (x : Reporter) : Loss := ⟨.wrapped, x.tag, fun a => x.fresh a / 2 ^ 32 * 2 ^ 32⟩

/-- A call of `stats_send_once` that sent this loses that, or all if it sent nothing. -/
def Reporter.loses (x : Reporter) : Option Datagram → Loss
  | some _ => x.wraps
  | none => ⟨.unsent, x.tag, x.fresh⟩

/-- What an entry of the table loses when the power goes. -/
def forgotten (s : StatsNode) : Loss := ⟨.restart, s.node, held s⟩

/-- The entries of a table. -/
def tableEntries (nodes : NodeTable) : List StatsNode := (List.finRange statsMaxNodes).map nodes

/-- What a table has under a tag. -/
def tabled (nodes : NodeTable) : Bytes → Counter → Nat :=
  tally StatsNode.node held (tableEntries nodes)

/-- What of a datagram does not get into the table. -/
def Datagram.losses (d : Datagram) (nodes : NodeTable) : List Loss :=
  if (findOrCreateNode nodes d.tag).isNone then [⟨.noPlace, d.tag, d.amount⟩]
  else [⟨.clipped, d.tag, fun a => d.amount a - arriving (d.amount a)⟩,
    ⟨.wrapped, d.tag, fun a =>
      (tabled nodes d.tag a + arriving (d.amount a)) / 2 ^ 32 * 2 ^ 32⟩]

/-! ### The fleet, the network and the generator -/

/-- Where all of them stand: the sinkholes that run, the datagrams under way, and the
generator's table.  No step reads the rest: the sinkholes that lost power, the copies that the
network made, and what was lost. -/
structure Telemetry where
  nodes : List Reporter
  flying : List Datagram
  stats : Stats
  gone : List Reporter
  copies : List Datagram
  losses : List Loss

/-- Before anything runs. -/
def Telemetry.init : Telemetry := ⟨[], [], .init, [], [], []⟩

/-- One step.  A sinkhole boots, works, ends a call of `stats_send_once`, to whatever end, or
loses power; the network loses a datagram, copies it or brings it; or the generator loses power. -/
inductive Telemetry.Step : Telemetry → Telemetry → Prop
  | boot {c : Telemetry} (ip : Address) (time : Int) :
      Step c { c with nodes := ⟨ip, .init time⟩ :: c.nodes }
  | work {c : Telemetry} {pre post : List Reporter} {x : Reporter} {t : Tasks}
      (h : c.nodes = pre ++ x :: post) (hs : Tasks.Step x.tasks t)
      (hsame : t.dispatches = x.tasks.dispatches) :
      Step c { c with nodes := pre ++ { x with tasks := t } :: post }
  | send {c : Telemetry} {pre post : List Reporter} {x : Reporter} {cur : StatsSnap} {nowUs : Nat}
      (h : c.nodes = pre ++ x :: post) (hcur : x.tasks.sending = some (pure cur))
      (hnow : nowUs < 2 ^ 63) (reachable : Bool) :
      Step c { c with nodes := pre ++ x.sent cur nowUs reachable :: post,
                      flying := (x.issues cur hnow reachable).toList ++ c.flying,
                      losses := x.loses (x.issues cur hnow reachable) :: c.losses }
  | off {c : Telemetry} {pre post : List Reporter} {x : Reporter} (h : c.nodes = pre ++ x :: post) :
      Step c { c with nodes := pre ++ post, gone := x :: c.gone,
                      losses := ⟨.off, x.tag, x.pending⟩ :: c.losses }
  | lose {c : Telemetry} {pre post : List Datagram} {d : Datagram}
      (h : c.flying = pre ++ d :: post) :
      Step c { c with flying := pre ++ post,
                      losses := ⟨.underway, d.tag, d.amount⟩ :: c.losses }
  | copy {c : Telemetry} {d : Datagram} (h : d ∈ c.flying) :
      Step c { c with flying := d :: c.flying, copies := d :: c.copies }
  | deliver {c : Telemetry} {pre post : List Datagram} {d : Datagram} (clock : Nat → Int)
      (h : c.flying = pre ++ d :: post) :
      Step c { c with flying := pre ++ post, stats := statsListener clock c.stats d.bytes,
                      losses := d.losses c.stats.nodes ++ c.losses }
  | restart {c : Telemetry} :
      Step c { c with stats := .init,
                      losses := (tableEntries c.stats.nodes).map forgotten ++ c.losses }

/-- Any number of steps. -/
abbrev Telemetry.Reach : Telemetry → Telemetry → Prop := ReflTransGen Step

/-! ### The four places -/

namespace Telemetry

variable (c : Telemetry)

/-- What the table has, -/
def shown : Bytes → Counter → Nat := tabled c.stats.nodes

/-- what is under way, -/
def underway : Bytes → Counter → Nat := tally Datagram.tag Datagram.amount c.flying

/-- what is lost, -/
def lost : Bytes → Counter → Nat := tally Loss.tag Loss.amount c.losses

/-- and what was not reported yet, -/
def pending : Bytes → Counter → Nat := tally Reporter.tag Reporter.pending c.nodes

/-- of what was counted -/
def counted : Bytes → Counter → Nat := tally Reporter.tag Reporter.counted (c.nodes ++ c.gone)

/-- and what was copied. -/
def copied : Bytes → Counter → Nat := tally Datagram.tag Datagram.amount c.copies

/-- What is out of the sinkholes' hands. -/
def issued (n : Bytes) (a : Counter) : Nat :=
  c.copied n a + tally Reporter.tag Reporter.reported c.nodes n a +
    tally Reporter.tag Reporter.counted c.gone n a

end Telemetry

/-! ### One report -/

theorem Reporter.tag_sent (x : Reporter) (cur : StatsSnap) (nowUs : Nat) (reachable : Bool) :
    (x.sent cur nowUs reachable).tag = x.tag := congrArg Address.text rfl

theorem counted_append (log log' : List Increment) (a : Counter) :
    counted (log ++ log') a = counted log a + counted log' a := by
  unfold counted
  rw [List.map_append, List.sum_append]

theorem counted_prefix {log log' : List Increment} (h : log <+: log') (a : Counter) :
    counted log a ≤ counted log' a := by
  obtain ⟨new, rfl⟩ := h
  rw [counted_append]
  exact Nat.le_add_right _ _

/-- A counter of 32 bits has what was counted, but for the wrap. -/
theorem toNat_amount (log : List Increment) (a : Counter) :
    (amount log a).toNat = counted log a % 2 ^ 32 := by
  induction log with
  | nil => rfl
  | cons p log ih =>
      have hcons : amount (p :: log) a = (if p.1 = a then p.2 else 0) + amount log a := by
        unfold amount
        rw [List.map_cons, List.sum_cons]
      have hlog : counted (p :: log) a = (if p.1 = a then p.2.toNat else 0) + counted log a := by
        unfold counted
        rw [List.map_cons, List.sum_cons]
      rw [hcons, hlog, UInt32.toNat_add, ih]
      split
      · omega
      · rw [UInt32.toNat_zero]
        omega

section Report

variable {x : Reporter} (h : Conserved x.tasks)

include h

/-- Nothing is reported that was not counted. -/
theorem Reporter.reported_le (a : Counter) : x.reported a ≤ x.counted a :=
  counted_prefix ((h.latest a).2.trans (h.seen a).2) a

theorem Reporter.reported_le_seen (a : Counter) :
    x.reported a ≤ System.counted (x.tasks.seen a).log a :=
  counted_prefix (h.latest a).2 a

/-- Sent, the new is reported. -/
theorem Reporter.reported_sent (cur : StatsSnap) (nowUs : Nat) (reachable : Bool) (a : Counter) :
    (x.sent cur nowUs reachable).reported a = x.reported a + x.fresh a := by
  have hle := Reporter.reported_le_seen h a
  have hseen : (x.sent cur nowUs reachable).reported a =
      System.counted (x.tasks.seen a).log a := rfl
  rw [hseen]
  unfold Reporter.fresh
  omega

/-- An interval is what the snapshot has read that is new, but for the wrap. -/
theorem Reporter.sent_delta {cur : StatsSnap} (hcur : x.tasks.sending = some (pure cur))
    (nowUs : Nat) (reachable : Bool) (a : Counter) :
    (delta (x.makes cur nowUs reachable).d a).toNat = x.fresh a % 2 ^ 32 := by
  obtain ⟨new, hlog, hdelta⟩ := h.interval hcur x.tag nowUs reachable a
  have hfresh : x.fresh a = System.counted new a := by
    unfold Reporter.fresh Reporter.reported
    rw [hlog, counted_append]
    omega
  rw [hfresh, ← toNat_amount]
  exact congrArg UInt32.toNat hdelta

/-- What is sent carries it, under the sinkhole's address. -/
theorem Reporter.issues_carries {cur : StatsSnap} (hcur : x.tasks.sending = some (pure cur))
    {nowUs : Nat} (hnow : nowUs < 2 ^ 63) (reachable : Bool) {d : Datagram}
    (hd : x.issues cur hnow reachable = some d) :
    d.tag = x.tag ∧ ∀ a, d.amount a = x.fresh a % 2 ^ 32 := by
  unfold Reporter.issues at hd
  obtain ⟨line, -, -, rfl⟩ := Option.pmap_eq_some_iff.mp hd
  exact ⟨rfl, Reporter.sent_delta h hcur nowUs reachable⟩

end Report

/-! ### One delivery -/

theorem toNat_ofInt_arriving (n : Nat) : (UInt32.ofInt (arriving n)).toNat = arriving n := by
  have hsmall : arriving n < 2 ^ 32 := by
    unfold arriving
    omega
  have hmod : ((arriving n : Int) % 2 ^ 32).toNat = arriving n := by omega
  unfold UInt32.ofInt
  rw [hmod]
  exact UInt32.toNat_ofNat_of_lt' hsmall

/-- The entries but one. -/
def entriesBut (nodes : NodeTable) (i : Fin statsMaxNodes) : List StatsNode :=
  ((List.finRange statsMaxNodes).erase i).map nodes

theorem mem_entriesBut {nodes : NodeTable} {i : Fin statsMaxNodes} {s : StatsNode}
    (h : s ∈ entriesBut nodes i) : ∃ j, j ≠ i ∧ nodes j = s := by
  obtain ⟨j, hj, rfl⟩ := List.mem_map.mp h
  exact ⟨j, ((List.nodup_finRange _).mem_erase_iff.mp hj).1, rfl⟩

theorem tabled_split (nodes : NodeTable) (i : Fin statsMaxNodes) (n : Bytes) (a : Counter) :
    tabled nodes n a =
      weight StatsNode.node held (nodes i) n a +
        tally StatsNode.node held (entriesBut nodes i) n a := by
  have hperm := (List.perm_cons_erase (List.mem_finRange i)).map nodes
  exact (tally_perm hperm).trans (tally_cons _ _)

/-- No two entries have the same name. -/
def Distinct (nodes : NodeTable) : Prop := ∀ i j, (nodes i).used = true →
  (nodes j).used = true → (nodes i).node = (nodes j).node → i = j

section Credited

variable {nodes nodes' : NodeTable} {node : Bytes} {v : Counter → UInt32} {uptime : Int}
  {i : Fin statsMaxNodes} (hc : Credited nodes nodes' node v uptime i)

include hc

theorem Credited.entriesBut : entriesBut nodes' i = entriesBut nodes i :=
  List.map_congr_left fun j hj =>
    hc.others j ((List.nodup_finRange _).mem_erase_iff.mp hj).1

/-- The name that is credited has the sum afterwards, -/
theorem Credited.tabled_self (hdistinct : Distinct nodes) (a : Counter) :
    tabled nodes' node a = (tabled nodes node a + (v a).toNat) % 2 ^ 32 := by
  have halone : tally StatsNode.node held (System.entriesBut nodes i) node a = 0 := by
    refine tally_eq_zero fun s hs hnode => if_neg fun hused => ?_
    obtain ⟨j, hj, rfl⟩ := mem_entriesBut hs
    exact hc.touches.alone hdistinct hj hused hnode
  have hcount := hc.counts a
  rw [tabled_split nodes' i, tabled_split nodes i, hc.entriesBut, halone,
    weight_of_eq hc.entry.2, held, if_pos hc.entry.1, hcount, UInt32.toNat_add]
  by_cases hused : (nodes i).used = true
  · rw [weight_of_eq (hc.known hused), held, if_pos hused, if_pos hused]
    rfl
  · have hfree : weight StatsNode.node held (nodes i) node a = 0 := by
      rw [weight, held, if_neg hused, ite_self]
    rw [hfree, if_neg hused]
    simp

/-- and the others have what they had. -/
theorem Credited.tabled_other {n : Bytes} (hn : node ≠ n) (a : Counter) :
    tabled nodes' n a = tabled nodes n a := by
  have hfree : weight StatsNode.node held (nodes i) n a = 0 := by
    by_cases hused : (nodes i).used = true
    · exact weight_of_ne fun h => hn ((hc.known hused).symm.trans h)
    · rw [weight, held, if_neg hused, ite_self]
  rw [tabled_split nodes' i, tabled_split nodes i, hc.entriesBut, hfree,
    weight_of_ne fun h => hn (hc.entry.2.symm.trans h)]

end Credited

section Deliver

variable (clock : Nat → Int) (s : Stats) (d : Datagram)

/-- A datagram is received as the line it is. -/
theorem statsListener_bytes :
    (statsListener clock s d.bytes).nodes = received clock s d.bytes := by
  have hspace : ' '.toUInt8 ∉ d.ip.text := d.ip.not_mem_text (by decide) (by decide)
  have hnul : 0 ∉ d.ip.text := d.ip.not_mem_text (by decide) (by decide)
  have hnl : newline ∉ d.ip.text := d.ip.not_mem_text (by decide) (by decide)
  have hlen := statsLine_length d.ip.text_length.2 d.interval d.uptime_lt
  rw [d.bytes_eq, statsListener_line hlen (not_mem_statsLine (by decide) (by decide) hnul _ _)
    (not_mem_statsLine (by decide) (by decide) hnl _ _), hearAlone, hearLine_report hspace,
    received_eq hspace hnul]

/-- **What a delivery brings into the table and what it loses is what the datagram carried.** -/
theorem deliver_balances (hdistinct : Distinct s.nodes) :
    Distinct (statsListener clock s d.bytes).nodes ∧ ∀ n a,
      tabled (statsListener clock s d.bytes).nodes n a +
          tally Loss.tag Loss.amount (d.losses s.nodes) n a =
        tabled s.nodes n a + weight Datagram.tag Datagram.amount d n a := by
  have hspace : ' '.toUInt8 ∉ d.ip.text := d.ip.not_mem_text (by decide) (by decide)
  have hnul : 0 ∉ d.ip.text := d.ip.not_mem_text (by decide) (by decide)
  have hsize := d.ip.text_length
  rw [statsListener_bytes, d.bytes_eq]
  unfold Datagram.losses
  rcases hfind : findOrCreateNode s.nodes d.tag with _ | found
  · have hplace : ¬ HasPlace s.nodes d.ip.text := by
      rw [hasPlace_iff ⟨hsize.1, Nat.lt_succ_of_le hsize.2⟩]
      rintro ⟨found, hsome⟩
      exact absurd (hfind.symm.trans hsome) (by simp)
    have hsame : received clock s (statsLine d.ip.text d.interval d.uptime) = s.nodes :=
      received_dropped hsize hspace hnul clock s d.interval d.uptime hplace
    rw [hsame]
    refine ⟨hdistinct, fun n a => ?_⟩
    rfl
  · have hplace : HasPlace s.nodes d.ip.text :=
      (hasPlace_iff ⟨hsize.1, Nat.lt_succ_of_le hsize.2⟩).mpr ⟨found, hfind⟩
    obtain ⟨i, hc⟩ := received_credited hsize hspace hnul clock s d.interval d.uptime hplace
    refine ⟨hc.touches.distinct hdistinct, fun n a => ?_⟩
    rw [if_neg (by simp), tally_cons, tally_cons, tally_nil, Nat.add_zero]
    by_cases hn : d.tag = n
    · subst hn
      have hself : tabled (received clock s (statsLine d.ip.text d.interval d.uptime)) d.tag a =
          (tabled s.nodes d.tag a + arriving (d.amount a)) % 2 ^ 32 := by
        rw [← toNat_ofInt_arriving]
        exact hc.tabled_self hdistinct a
      have hle : arriving (d.amount a) ≤ d.amount a := Nat.min_le_left _ _
      rw [hself, weight_of_eq rfl, weight_of_eq rfl, weight_of_eq rfl]
      dsimp only
      omega
    · have hother : tabled (received clock s (statsLine d.ip.text d.interval d.uptime)) n a =
          tabled s.nodes n a :=
        hc.tabled_other hn a
      have hloss : ∀ cause amount, weight Loss.tag Loss.amount ⟨cause, d.tag, amount⟩ n a = 0 :=
        fun _ _ => weight_of_ne hn
      rw [hother, hloss, hloss, weight_of_ne hn]

end Deliver

/-! ### The books -/

/-- What every step keeps: the four places have what was issued, and what is lost to the width
of the numbers is lost to large ones. -/
structure Balanced (c : Telemetry) : Prop where
  tasks : ∀ x ∈ c.nodes ++ c.gone, Conserved x.tasks
  distinct : Distinct c.stats.nodes
  books : ∀ n a, c.shown n a + c.lost n a + c.underway n a = c.issued n a
  width : ∀ l ∈ c.losses, l.cause = .clipped ∨ l.cause = .wrapped → ∀ a, l.amount a ≠ 0 →
    2 ^ 31 ≤ c.issued l.tag a

theorem tabled_init (n : Bytes) (a : Counter) : tabled Stats.init.nodes n a = 0 := by
  unfold tabled tableEntries
  rw [tally_map]
  exact tally_eq_zero fun i _ _ => rfl

theorem balanced_init : Balanced .init where
  tasks := fun x hx => absurd hx List.not_mem_nil
  distinct := fun i j hused => by cases hused
  books := fun n a => by
    show tabled Stats.init.nodes n a + 0 + 0 = 0
    rw [tabled_init]
  width := fun l hl => absurd hl List.not_mem_nil

/-- A step keeps the books if what it adds to the places it adds to what was issued, and
if the losses that it writes down are as they should. -/
theorem Balanced.next {c c' : Telemetry} (h : Balanced c)
    (htasks : ∀ x ∈ c'.nodes ++ c'.gone, Conserved x.tasks) (hdistinct : Distinct c'.stats.nodes)
    (hbooks : ∀ n a, c'.shown n a + c'.lost n a + c'.underway n a + c.issued n a =
      c.shown n a + c.lost n a + c.underway n a + c'.issued n a)
    (hgrows : ∀ n a, c.issued n a ≤ c'.issued n a)
    (hnew : ∀ l ∈ c'.losses, l ∈ c.losses ∨ (l.cause = .clipped ∨ l.cause = .wrapped → ∀ a,
      l.amount a ≠ 0 → 2 ^ 31 ≤ c'.issued l.tag a)) : Balanced c' where
  tasks := htasks
  distinct := hdistinct
  books := by
    intro n a
    have hold := h.books n a
    have hsame := hbooks n a
    omega
  width := by
    intro l hl hcause a hne
    rcases hnew l hl with hold | hlarge
    · exact (h.width l hold hcause a hne).trans (hgrows _ a)
    · exact hlarge hcause a hne

section Moved

variable {c : Telemetry} {pre post : List Reporter} {x : Reporter}
  (h : Balanced c) (hnodes : c.nodes = pre ++ x :: post)

include h hnodes

theorem Balanced.member : Conserved x.tasks :=
  h.tasks x (List.mem_append_left _ (by rw [hnodes]; simp))

/-- **One sinkhole moves** and passes on what it has reported anew, to the network or to the
losses. -/
theorem Balanced.moved (y : Reporter) (gain : Counter → Nat) (out : List Datagram)
    (new : List Loss) (hy : Conserved y.tasks) (htag : y.tag = x.tag)
    (hgain : ∀ a, y.reported a = x.reported a + gain a)
    (hout : ∀ n a, tally Datagram.tag Datagram.amount out n a +
      tally Loss.tag Loss.amount new n a = if x.tag = n then gain a else 0)
    (hnew : ∀ l ∈ new, l.cause = .clipped ∨ l.cause = .wrapped → ∀ a, l.amount a ≠ 0 →
      l.tag = x.tag ∧ 2 ^ 31 ≤ gain a) :
    Balanced { c with nodes := pre ++ y :: post, flying := out ++ c.flying,
                      losses := new ++ c.losses } := by
  have hreported : ∀ n a, weight Reporter.tag Reporter.reported y n a =
      weight Reporter.tag Reporter.reported x n a + if x.tag = n then gain a else 0 := by
    intro n a
    unfold weight
    rw [htag, hgain]
    split <;> rfl
  refine h.next (fun z hz => ?_) h.distinct (fun n a => ?_) (fun n a => ?_) fun l hl => ?_
  · simp only [List.mem_append, List.mem_cons] at hz
    have htasks := h.tasks z
    rw [hnodes] at htasks
    simp only [List.mem_append, List.mem_cons] at htasks
    rcases hz with (hz | rfl | hz) | hz
    · exact htasks (Or.inl (Or.inl hz))
    · exact hy
    · exact htasks (Or.inl (Or.inr (Or.inr hz)))
    · exact htasks (Or.inr hz)
  · have ho := hout n a
    have hr := hreported n a
    simp only [Telemetry.shown, Telemetry.lost, Telemetry.underway, Telemetry.issued,
      Telemetry.copied, tally_append, tally_cons, hnodes]
    omega
  · have hr := hreported n a
    simp only [Telemetry.issued, Telemetry.copied, tally_append, tally_cons, hnodes]
    omega
  · rcases List.mem_append.mp hl with hl | hold
    · refine Or.inr fun hcause a hne => ?_
      obtain ⟨hl, hlarge⟩ := hnew l hl hcause a hne
      have hr := hreported l.tag a
      rw [if_pos hl.symm] at hr
      simp only [Telemetry.issued, tally_append, tally_cons]
      omega
    · exact Or.inl hold

end Moved

section Step

variable {c : Telemetry} (h : Balanced c)

include h

/-- A call of `stats_send_once` ends: what it has reported anew is under way or lost. -/
theorem Balanced.send {pre post : List Reporter} {x : Reporter} {cur : StatsSnap} {nowUs : Nat}
    (hnodes : c.nodes = pre ++ x :: post) (hcur : x.tasks.sending = some (pure cur))
    (hnow : nowUs < 2 ^ 63) (reachable : Bool) :
    Balanced { c with nodes := pre ++ x.sent cur nowUs reachable :: post,
                      flying := (x.issues cur hnow reachable).toList ++ c.flying,
                      losses := x.loses (x.issues cur hnow reachable) :: c.losses } := by
  have hx := h.member hnodes
  have hsent : Conserved (x.sent cur nowUs reachable).tasks :=
    hx.step (.send hcur x.tag nowUs reachable)
  have hcarries := fun d => Reporter.issues_carries (d := d) hx hcur hnow reachable
  generalize x.issues cur hnow reachable = out at hcarries ⊢
  refine h.moved hnodes (x.sent cur nowUs reachable) x.fresh out.toList [x.loses out]
    hsent (x.tag_sent cur nowUs reachable) (Reporter.reported_sent hx cur nowUs reachable)
    (fun n a => ?_) fun l hl hcause a hne => ?_
  · cases out with
    | none => exact Nat.zero_add _
    | some d =>
        obtain ⟨htag, hamount⟩ := hcarries d rfl
        have hwraps : x.wraps.amount a = x.fresh a / 2 ^ 32 * 2 ^ 32 := rfl
        rw [Option.toList_some, tally_cons, tally_cons, tally_nil, tally_nil, weight, weight,
          hamount, htag]
        show (if x.tag = n then _ else 0) + 0 +
          ((if x.tag = n then x.wraps.amount a else 0) + 0) = _
        rw [hwraps]
        split <;> omega
  · obtain rfl := List.mem_singleton.mp hl
    cases out with
    | none => exact absurd hcause (not_or.mpr ⟨nofun, nofun⟩)
    | some d =>
        have hwraps : x.fresh a / 2 ^ 32 * 2 ^ 32 ≠ 0 := hne
        exact ⟨rfl, by omega⟩

/-- Any other step of a sinkhole. -/
theorem Balanced.work {pre post : List Reporter} {x : Reporter} {t : Tasks}
    (hnodes : c.nodes = pre ++ x :: post) (hs : Tasks.Step x.tasks t)
    (hsame : t.dispatches = x.tasks.dispatches) :
    Balanced { c with nodes := pre ++ { x with tasks := t } :: post } := by
  refine h.moved hnodes { x with tasks := t } (fun _ => 0) [] [] ((h.member hnodes).step hs) rfl
    (fun a => ?_) (fun n a => ?_) fun l hl => ?_
  · show System.counted (latest t.dispatches a) a = _
    rw [hsame]
    rfl
  · split <;> rfl
  · cases hl

/-- A boot has nothing to report yet. -/
theorem Balanced.boot (ip : Address) (time : Int) :
    Balanced { c with nodes := ⟨ip, .init time⟩ :: c.nodes } := by
  have hnew : ∀ n a, weight Reporter.tag Reporter.reported ⟨ip, .init time⟩ n a = 0 :=
    fun n a => ite_self 0
  have hissued : ∀ n a,
      Telemetry.issued { c with nodes := ⟨ip, .init time⟩ :: c.nodes } n a = c.issued n a := by
    intro n a
    simp only [Telemetry.issued, tally_cons, hnew, Nat.zero_add]
    rfl
  refine h.next (fun x hx => ?_) h.distinct (fun n a => ?_) (fun n a => ?_) fun l hl => Or.inl hl
  · rcases List.mem_cons.mp hx with rfl | hx
    · exact conserved_init time
    · exact h.tasks x hx
  · rw [hissued]
    rfl
  · exact Nat.le_of_eq (hissued n a).symm

/-- What was not reported is lost with the power, and the rest was issued. -/
theorem Balanced.off {pre post : List Reporter} {x : Reporter}
    (hnodes : c.nodes = pre ++ x :: post) :
    Balanced { c with nodes := pre ++ post, gone := x :: c.gone,
                      losses := ⟨.off, x.tag, x.pending⟩ :: c.losses } := by
  have hsplit : ∀ n a, weight Reporter.tag Reporter.reported x n a +
      weight Loss.tag Loss.amount ⟨.off, x.tag, x.pending⟩ n a =
        weight Reporter.tag Reporter.counted x n a := by
    intro n a
    have hle := Reporter.reported_le (h.member hnodes) a
    show (if x.tag = n then _ else 0) + (if x.tag = n then x.counted a - x.reported a else 0) =
      if x.tag = n then _ else 0
    split <;> omega
  refine h.next (fun y hy => ?_) h.distinct (fun n a => ?_) (fun n a => ?_) fun l hl => ?_
  · have htasks := h.tasks y
    rw [hnodes] at htasks
    simp only [List.mem_append, List.mem_cons] at htasks hy
    exact htasks (by tauto)
  · have hx := hsplit n a
    simp only [Telemetry.shown, Telemetry.lost, Telemetry.underway, Telemetry.issued,
      Telemetry.copied, tally_append, tally_cons, hnodes]
    omega
  · have hx := hsplit n a
    simp only [Telemetry.issued, Telemetry.copied, tally_append, tally_cons, hnodes]
    omega
  · rcases List.mem_cons.mp hl with rfl | hold
    · exact Or.inr fun hcause => by rcases hcause with ⟨⟨⟩⟩ | ⟨⟨⟩⟩
    · exact Or.inl hold

/-- A datagram is lost on its way. -/
theorem Balanced.lose {pre post : List Datagram} {d : Datagram}
    (hflying : c.flying = pre ++ d :: post) :
    Balanced { c with flying := pre ++ post,
                      losses := ⟨.underway, d.tag, d.amount⟩ :: c.losses } := by
  have hloss : ∀ n a, weight Loss.tag Loss.amount ⟨.underway, d.tag, d.amount⟩ n a =
      weight Datagram.tag Datagram.amount d n a := fun _ _ => rfl
  refine h.next h.tasks h.distinct (fun n a => ?_) (fun n a => Nat.le_refl _) fun l hl => ?_
  · simp only [Telemetry.shown, Telemetry.lost, Telemetry.underway, Telemetry.issued,
      Telemetry.copied, tally_append, tally_cons, hflying, hloss]
    omega
  · rcases List.mem_cons.mp hl with rfl | hold
    · exact Or.inr fun hcause => by rcases hcause with ⟨⟨⟩⟩ | ⟨⟨⟩⟩
    · exact Or.inl hold

/-- It is copied. -/
theorem Balanced.copy (d : Datagram) :
    Balanced { c with flying := d :: c.flying, copies := d :: c.copies } := by
  refine h.next h.tasks h.distinct (fun n a => ?_) (fun n a => ?_) fun l hl => Or.inl hl
  · simp only [Telemetry.shown, Telemetry.lost, Telemetry.underway, Telemetry.issued,
      Telemetry.copied, tally_cons]
    omega
  · simp only [Telemetry.issued, Telemetry.copied, tally_cons]
    omega

/-- It is brought. -/
theorem Balanced.deliver {pre post : List Datagram} {d : Datagram} (clock : Nat → Int)
    (hflying : c.flying = pre ++ d :: post) :
    Balanced { c with flying := pre ++ post, stats := statsListener clock c.stats d.bytes,
                      losses := d.losses c.stats.nodes ++ c.losses } := by
  obtain ⟨hdistinct, hbalance⟩ := deliver_balances clock c.stats d h.distinct
  refine h.next h.tasks hdistinct (fun n a => ?_) (fun n a => Nat.le_refl _) fun l hl => ?_
  · have hd := hbalance n a
    simp only [Telemetry.shown, Telemetry.lost, Telemetry.underway, Telemetry.issued,
      Telemetry.copied, tally_append, tally_cons, hflying]
    omega
  · rcases List.mem_append.mp hl with hl | hold
    · refine Or.inr fun hcause a hne => ?_
      -- Whatever is too large was in the table and under way, and so it was issued.
      have hbooks := h.books d.tag a
      have hunder : c.underway d.tag a = d.amount a +
          tally Datagram.tag Datagram.amount (pre ++ post) d.tag a := by
        rw [Telemetry.underway, hflying, tally_split, weight_of_eq rfl]
      unfold Datagram.losses at hl
      split at hl
      · obtain rfl := List.mem_singleton.mp hl
        rcases hcause with ⟨⟨⟩⟩ | ⟨⟨⟩⟩
      · simp only [List.mem_cons, List.not_mem_nil, or_false] at hl
        show 2 ^ 31 ≤ c.issued _ a
        rcases hl with rfl | rfl
        · have hclipped : d.amount a - min (d.amount a) (2 ^ 31 - 1) ≠ 0 := hne
          show 2 ^ 31 ≤ c.issued d.tag a
          omega
        · have hwrapped : (c.shown d.tag a + min (d.amount a) (2 ^ 31 - 1)) /
              2 ^ 32 * 2 ^ 32 ≠ 0 := hne
          show 2 ^ 31 ≤ c.issued d.tag a
          omega
    · exact Or.inl hold

/-- The table is lost with the power. -/
theorem Balanced.restart :
    Balanced { c with stats := .init,
                      losses := (tableEntries c.stats.nodes).map forgotten ++ c.losses } := by
  have hforgotten : ∀ n a, tally Loss.tag Loss.amount
      ((tableEntries c.stats.nodes).map forgotten) n a = c.shown n a := fun n a => tally_map _ _
  refine h.next h.tasks balanced_init.distinct (fun n a => ?_) (fun n a => Nat.le_refl _)
    fun l hl => ?_
  · simp only [Telemetry.lost, tally_append, hforgotten]
    show tabled Stats.init.nodes n a + _ + c.underway n a + c.issued n a = _ + c.issued n a
    rw [tabled_init]
    omega
  · rcases List.mem_append.mp hl with hl | hold
    · obtain ⟨s, -, rfl⟩ := List.mem_map.mp hl
      exact Or.inr fun hcause => by rcases hcause with ⟨⟨⟩⟩ | ⟨⟨⟩⟩
    · exact Or.inl hold

/-- **One step** keeps the books. -/
theorem Balanced.step {c' : Telemetry} (hs : Telemetry.Step c c') : Balanced c' := by
  cases hs with
  | boot ip time => exact h.boot ip time
  | work hnodes hs hsame => exact h.work hnodes hs hsame
  | send hnodes hcur hnow reachable => exact h.send hnodes hcur hnow reachable
  | off hnodes => exact h.off hnodes
  | lose hflying => exact h.lose hflying
  | copy _ => exact h.copy _
  | deliver clock hflying => exact h.deliver clock hflying
  | restart => exact h.restart

end Step

/-- **A run** keeps them. -/
theorem balanced_reach {c : Telemetry} (hr : Telemetry.Reach .init c) : Balanced c := by
  induction hr with
  | refl => exact balanced_init
  | tail _ hs ih => exact ih.step hs

/-! ### A report that arrives -/

/-- The datagram of a snapshot, -/
def Reporter.datagram (x : Reporter) (cur : StatsSnap) {nowUs : Nat} (h : nowUs < 2 ^ 63) :
    Datagram :=
  ⟨x.ip, cur.since x.tasks.last, nowUs / 1000000, by omega, _, rfl⟩

/-- which is sent if there is a way to send it, for it always fits. -/
theorem Reporter.issues_reachable (x : Reporter) (cur : StatsSnap) {nowUs : Nat}
    (hnow : nowUs < 2 ^ 63) : x.issues cur hnow true = some (x.datagram cur hnow) := by
  have hfits : (statsLine x.tag (cur.since x.tasks.last) (nowUs / 1000000)).length ≤ 511 :=
    statsLine_length x.ip.text_length.2 _ (by omega)
  have hpos : (statsLine x.tag (cur.since x.tasks.last) (nowUs / 1000000)).length ≠ 0 := by
    rw [statsLine_eq]
    simp [linePrefix, ascii]
  have hmakes : x.makes cur nowUs true = ⟨cur.since x.tasks.last, cur,
      some (statsLine x.tag (cur.since x.tasks.last) (nowUs / 1000000))⟩ := by
    unfold Reporter.makes statsSendOnce
    dsimp only
    rw [if_neg (by decide), if_neg (by unfold lineSize; omega)]
  unfold Reporter.issues
  simp only [hmakes, Option.pmap_some]
  rfl

/-- One sinkhole, and nothing has been sent yet. -/
def alone (ip : Address) (t : Tasks) : Telemetry := { Telemetry.init with nodes := [⟨ip, t⟩] }

theorem step_alone (ip : Address) {t t' : Tasks} (hs : Tasks.Step t t')
    (hsame : t'.dispatches = t.dispatches) : Telemetry.Step (alone ip t) (alone ip t') :=
  .work (show (alone ip t).nodes = [] ++ ⟨ip, t⟩ :: [] from rfl) hs hsame

theorem reach_within (ip : Address) {t t' : Tasks} (h : Tasks.Within t t') :
    Telemetry.Reach (alone ip t) (alone ip t') :=
  h.lift (alone ip) fun _ _ hs => step_alone ip hs.1 hs.2

/-- The tasks of a sinkhole that has blocked one query, -/
def adsTasks : Tasks :=
  { Tasks.init 0 with
    counters := Function.update (fun _ => 0) .blocked 1
    turns := [adsTurn]
    effects := [.countBlocked, .toClient 7 (makeNxdomain adsQuery 29)]
    log := [(.blocked, 1)] }

/-- and the sinkhole when it has read its counters. -/
def adsReporter : Reporter :=
  ⟨⟨10, 0, 0, 7⟩, Tasks.read snapCounters
    { adsTasks with sending := some snapCounters, began := [(.blocked, 1)] }⟩

/-- What it has read. -/
def adsSnap : StatsSnap := { StatsSnap.zero with blocked := 1 }

theorem adsReporter_sending : adsReporter.tasks.sending = some (pure adsSnap) := rfl

/-- The datagram that it sends. -/
def adsDatagram : Datagram := adsReporter.datagram adsSnap (show 5000000 < 2 ^ 63 by decide)

/-- It is on its way, -/
def adsSent : Telemetry :=
  { Telemetry.init with
    nodes := [adsReporter.sent adsSnap 5000000 true]
    flying := [adsDatagram]
    losses := [adsReporter.wraps] }

/-- and there. -/
def adsReported (clock : Nat → Int) : Telemetry :=
  { adsSent with
    flying := []
    stats := statsListener clock .init adsDatagram.bytes
    losses := adsDatagram.losses Stats.init.nodes ++ [adsReporter.wraps] }

theorem reach_adsSent : Telemetry.Reach .init adsSent := by
  have hasked : adsTurn.Asked 7 adsQuery (ascii "ads.example") 29 := ⟨rfl, by decide +kernel⟩
  have hturn := dnsTurn_blocked hasked (by decide +kernel) (.init 0)
  have hboot : Telemetry.Reach .init (alone ⟨10, 0, 0, 7⟩ (.init 0)) := .single (.boot _ 0)
  have hserve := hboot.tail (step_alone _ (.turn rfl hturn) rfl)
  have hcount := hserve.tail (step_alone _ (.count (o := .fetchAdd .blocked 1) rfl) rfl)
  have hsnap := hcount.tail (step_alone _ (.snap rfl) rfl)
  have hread : Telemetry.Reach .init (alone ⟨10, 0, 0, 7⟩ adsReporter.tasks) :=
    hsnap.trans (reach_within _ (within_read snapCounters rfl))
  have hone : (alone ⟨10, 0, 0, 7⟩ adsReporter.tasks).nodes = [] ++ adsReporter :: [] := rfl
  have hsend := hread.tail (.send hone adsReporter_sending (show 5000000 < 2 ^ 63 by decide) true)
  rw [Reporter.issues_reachable] at hsend
  exact hsend

theorem reach_adsReported (clock : Nat → Int) : Telemetry.Reach .init (adsReported clock) :=
  reach_adsSent.tail (.deliver clock (show adsSent.flying = [] ++ adsDatagram :: [] from rfl))

/-! ### The law -/

/-- What a sinkhole has not reported is the rest of what it has counted. -/
theorem Balanced.issued_pending {c : Telemetry} (h : Balanced c) (n : Bytes) (a : Counter) :
    c.issued n a + c.pending n a = c.counted n a + c.copied n a := by
  have hnodes : tally Reporter.tag Reporter.reported c.nodes n a +
      tally Reporter.tag Reporter.pending c.nodes n a =
        tally Reporter.tag Reporter.counted c.nodes n a := by
    refine tally_add fun x hx => ?_
    have hle := Reporter.reported_le (h.tasks x (List.mem_append_left _ hx)) a
    unfold Reporter.pending
    omega
  unfold Telemetry.issued Telemetry.pending Telemetry.counted
  rw [tally_append]
  omega

/-- **Nothing that was counted disappears.**  In any run, what was counted under an address and
what the network copied is shown, lost, under way or not reported yet, and a number is lost to
its width only if that much was counted or copied. -/
theorem telemetry_conserved {c : Telemetry} (hr : Telemetry.Reach .init c) (n : Bytes)
    (a : Counter) :
    c.shown n a + c.lost n a + c.underway n a + c.pending n a = c.counted n a + c.copied n a ∧
    (c.counted n a + c.copied n a < 2 ^ 31 → ∀ l ∈ c.losses, l.tag = n → l.amount a ≠ 0 →
      l.cause ≠ .clipped ∧ l.cause ≠ .wrapped) := by
  have h := balanced_reach hr
  have hbooks := h.books n a
  have htotal := h.issued_pending n a
  refine ⟨by omega, fun hsmall l hl htag hne => not_or.mp fun hcause => ?_⟩
  have hlarge := h.width l hl hcause a hne
  rw [htag] at hlarge
  omega

/-- Before it is there, the query it reports is nowhere else. -/
theorem conserved_adsSent : ∃ c, Telemetry.Reach .init c ∧
    c.underway (ascii "10.0.0.7") .blocked = 1 ∧ c.shown (ascii "10.0.0.7") .blocked +
      c.lost (ascii "10.0.0.7") .blocked + c.underway (ascii "10.0.0.7") .blocked +
        c.pending (ascii "10.0.0.7") .blocked = c.counted (ascii "10.0.0.7") .blocked +
          c.copied (ascii "10.0.0.7") .blocked :=
  ⟨adsSent, reach_adsSent, by decide +kernel, (telemetry_conserved reach_adsSent _ _).1⟩

end EspHole.System
