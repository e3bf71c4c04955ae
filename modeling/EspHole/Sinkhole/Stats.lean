/-
The report a sinkhole sends of itself: `main/stats.c`.

The counters only grow and wrap at 32 bits; an interval is their difference to the snapshot
before, which the wrap does not disturb.  `statsLine` prints an interval as one line, a key
and a number for each counter.  `statsLine_length` is the comment at the length check: the
line always fits.
-/
import EspHole.Basic
import EspHole.Lib.Decimal

namespace EspHole.Sinkhole

open Ascii

/-- `stats_snap_t` -/
structure StatsSnap where
  blocked : UInt32
  forwarded : UInt32
  timeouts : UInt32
  latSumUs : UInt32
  hist : Vector UInt32 statsHistBuckets
  deriving DecidableEq

/-- Nothing counted yet. -/
def StatsSnap.zero : StatsSnap := ⟨0, 0, 0, 0, Vector.replicate _ 0⟩

/-- The interval between two snapshots. -/
def StatsSnap.since (cur last : StatsSnap) : StatsSnap :=
  ⟨cur.blocked - last.blocked, cur.forwarded - last.forwarded, cur.timeouts - last.timeouts,
    cur.latSumUs - last.latSumUs, Vector.zipWith (· - ·) cur.hist last.hist⟩

/-- `__builtin_clz`: the zeros in front of the first bit that is set.  There is one. -/
def builtinClz (x : UInt32) : Int := 31 - x.toNat.log2

/-- `lat_bucket` -/
def latBucket (us : UInt32) : Int :=
  let b := (32 - builtinClz (us ||| 1)) - 7
  if b < 0 then 0 else if b > 15 then 15 else b

/-- The size of `s_line`. -/
def lineSize : Nat := 512

/-- The format of `stats_send_once`. -/
def statsLine (node : Bytes) (d : StatsSnap) (uptime : Nat) : Bytes :=
  ascii "esphole,node=" ++ node ++
    ascii " blocked=" ++ decimal d.blocked.toNat ++
    ascii "i,forwarded=" ++ decimal d.forwarded.toNat ++
    ascii "i,timeouts=" ++ decimal d.timeouts.toNat ++
    ascii "i,lat_sum_us=" ++ decimal d.latSumUs.toNat ++
    ascii "i,uptime_s=" ++ decimal uptime ++ ascii "i" ++
    (List.finRange statsHistBuckets).flatMap fun i =>
      ascii ",h" ++ decimal i.val ++ ascii "=" ++ decimal (d.hist.get i).toNat ++ ascii "i"

/-- What a call of `stats_send_once` makes of its snapshot: the deltas, what is then in `*last`,
and the datagram if one is sent. -/
structure Sending where
  d : StatsSnap
  last : StatsSnap
  line : Option Bytes

/-- `stats_send_once`, once `snap_counters` has read `cur`.  `reachable` says whether there is a
socket, and an address to send to. -/
def statsSendOnce (node : Bytes) (cur last : StatsSnap) (nowUs : Nat) (reachable : Bool) :
    Sending :=
  let d := cur.since last
  let last := cur
  if !reachable then ⟨d, last, none⟩
  else
    let line := statsLine node d (nowUs / 1000000)
    if line.length = 0 ∨ line.length ≥ lineSize then ⟨d, last, none⟩ else ⟨d, last, some line⟩

/-- The deltas are computed and the snapshot is kept, whatever becomes of the report; what is
sent is the line of the deltas. -/
theorem statsSendOnce_spec (node : Bytes) (cur last : StatsSnap) (nowUs : Nat)
    (reachable : Bool) :
    (statsSendOnce node cur last nowUs reachable).d = cur.since last ∧
    (statsSendOnce node cur last nowUs reachable).last = cur ∧
    ∀ line, (statsSendOnce node cur last nowUs reachable).line = some line →
      line = statsLine node (cur.since last) (nowUs / 1000000) := by
  unfold statsSendOnce
  dsimp only
  by_cases hreachable : (!reachable) = true
  · rw [if_pos hreachable]
    exact ⟨rfl, rfl, nofun⟩
  rw [if_neg hreachable]
  split
  · exact ⟨rfl, rfl, nofun⟩
  · exact ⟨rfl, rfl, fun line h => (Option.some.inj h).symm⟩

/-! ### The buckets of the latencies -/

/-- What a bucket is for: the first for what is below 128 us, the last for what is above all
others, and each between for twice as long latencies as the one before. -/
def InBucket (i : Fin statsHistBuckets) (us : UInt32) : Prop :=
  if i.val = 0 then us.toNat < 128
  else if i.val < 15 then 2 ^ (i.val + 6) ≤ us.toNat ∧ us.toNat < 2 ^ (i.val + 7)
  else 2 ^ 21 ≤ us.toNat

instance (i : Fin statsHistBuckets) (us : UInt32) : Decidable (InBucket i us) :=
  inferInstanceAs (Decidable (if i.val = 0 then us.toNat < 128
    else if i.val < 15 then 2 ^ (i.val + 6) ≤ us.toNat ∧ us.toNat < 2 ^ (i.val + 7)
    else 2 ^ 21 ≤ us.toNat))

/-- The bit that is set for the logarithm's sake is seen in it only below 2. -/
theorem le_log2_or_one (us : UInt32) {k : Nat} (hk : 1 ≤ k) :
    k ≤ (us ||| 1).toNat.log2 ↔ 2 ^ k ≤ us.toNat := by
  have hor : (us ||| 1).toNat = us.toNat ||| 1 := UInt32.toNat_or us 1
  have hone : 1 ≤ us.toNat ||| 1 := Nat.right_le_or
  rw [hor, Nat.le_log2 (by omega)]
  constructor
  · intro h
    by_contra hlt
    have hpow : 1 < 2 ^ k := Nat.one_lt_two_pow (by omega)
    exact absurd h (Nat.not_le.mpr (Nat.or_lt_two_pow (Nat.not_le.mp hlt) hpow))
  · exact fun h => h.trans Nat.left_le_or

/-- **A latency is counted in the bucket that is for it**, and in no other. -/
theorem latBucket_eq_iff (us : UInt32) (i : Fin statsHistBuckets) :
    latBucket us = i.val ↔ InBucket i us := by
  have hi : i.val < 16 := i.isLt
  have h7 := le_log2_or_one us (show 1 ≤ 7 by decide)
  have h21 := le_log2_or_one us (show 1 ≤ 21 by decide)
  have hlo := le_log2_or_one us (show 1 ≤ i.val + 6 by omega)
  have hhi := le_log2_or_one us (show 1 ≤ i.val + 7 by omega)
  unfold latBucket builtinClz InBucket
  dsimp only
  generalize (us ||| 1).toNat.log2 = n at h7 h21 hlo hhi ⊢
  by_cases hzero : i.val = 0
  · rw [if_pos hzero, hzero]
    split <;> omega
  · rw [if_neg hzero]
    by_cases hlast : i.val < 15
    · rw [if_pos hlast, ← hlo, ← Nat.not_le, ← hhi]
      split <;> omega
    · rw [if_neg hlast, ← h21]
      split <;> omega

theorem latBucket_range (us : UInt32) : 0 ≤ latBucket us ∧ latBucket us < statsHistBuckets := by
  have hcount : statsHistBuckets = 16 := rfl
  unfold latBucket
  dsimp only
  split <;> omega

/-! ### What the line is made of -/

/-- The letters of the format. -/
def lineAlphabet : Bytes := ascii "esphole,node= blocked=i,forwarded,timeouts,uptime_s"

/-- A byte that is not of the format, of the node or of a number is not in the line. -/
theorem not_mem_statsLine {c : UInt8} (hdigit : isDigit c = false) (hformat : c ∉ lineAlphabet)
    {node : Bytes} (hnode : c ∉ node) (d : StatsSnap) (uptime : Nat) :
    c ∉ statsLine node d uptime := by
  have hdecimal : ∀ n, c ∉ decimal n := by
    intro n hc
    rw [isDigit_decimal n c hc] at hdigit
    cases hdigit
  have hpieces : ∀ s ∈ [ascii "esphole,node=", ascii " blocked=", ascii "i,forwarded=",
      ascii "i,timeouts=", ascii "i,lat_sum_us=", ascii "i,uptime_s=", ascii "i", ascii ",h",
      ascii "="], c ∉ s := by
    have hsubset : ∀ s ∈ [ascii "esphole,node=", ascii " blocked=", ascii "i,forwarded=",
        ascii "i,timeouts=", ascii "i,lat_sum_us=", ascii "i,uptime_s=", ascii "i", ascii ",h",
        ascii "="], s ⊆ lineAlphabet := by
      decide +kernel
    exact fun s hs hc => hformat (hsubset s hs hc)
  simp only [List.forall_mem_cons] at hpieces
  obtain ⟨h1, h2, h3, h4, h5, h6, h7, h8, h9, -⟩ := hpieces
  unfold statsLine
  simp only [List.mem_append, List.mem_flatMap, h1, h2, h3, h4, h5, h6, h7, h8, h9, hnode, hdecimal,
    or_self, and_false, exists_false, not_false_eq_true]

/-! ### The line fits -/

theorem decimal_uint32_length (n : UInt32) : (decimal n.toNat).length ≤ 10 :=
  decimal_length_le (by decide) (n.toNat_lt.trans (by decide))

/-- Pieces of bounded length. -/
theorem flatMap_length_le {α : Type} {f : α → Bytes} {k : Nat} {l : List α}
    (h : ∀ a ∈ l, (f a).length ≤ k) : (l.flatMap f).length ≤ l.length * k := by
  induction l with
  | nil => simp
  | cons a l ih =>
      obtain ⟨ha, hl⟩ := List.forall_mem_cons.mp h
      have := ih hl
      rw [List.flatMap_cons, List.length_append, List.length_cons, Nat.succ_mul]
      omega

/-- The length of a bucket's field is that of its number, and a little more. -/
theorem bucket_length (i : Fin statsHistBuckets) (n : UInt32) :
    (ascii ",h" ++ decimal i.val ++ ascii "=" ++ decimal n.toNat ++ ascii "i").length ≤ 16 := by
  have hi : (decimal i.val).length ≤ 2 := decimal_length_le (by decide) (i.isLt.trans (by decide))
  have hn := decimal_uint32_length n
  have hkey : (ascii ",h").length = 2 := by decide
  have heq : (ascii "=").length = 1 := by decide
  have hend : (ascii "i").length = 1 := by decide
  simp only [List.length_append, hkey, heq, hend]
  omega

/-- **The line fits into its buffer, and into the receiver's.** -/
theorem statsLine_length {node : Bytes} (hnode : node.length ≤ 15) (d : StatsSnap) {uptime : Nat}
    (hup : uptime < 10 ^ 13) : (statsLine node d uptime).length ≤ 511 := by
  have hb := decimal_uint32_length d.blocked
  have hf := decimal_uint32_length d.forwarded
  have ht := decimal_uint32_length d.timeouts
  have hl := decimal_uint32_length d.latSumUs
  have hu : (decimal uptime).length ≤ 13 := decimal_length_le (by decide) hup
  have hbuckets := flatMap_length_le (l := List.finRange statsHistBuckets)
    fun i _ => bucket_length i (d.hist.get i)
  rw [List.length_finRange] at hbuckets
  have hcount : statsHistBuckets = 16 := rfl
  have h1 : (ascii "esphole,node=").length = 13 := by decide
  have h2 : (ascii " blocked=").length = 9 := by decide
  have h3 : (ascii "i,forwarded=").length = 12 := by decide
  have h4 : (ascii "i,timeouts=").length = 11 := by decide
  have h5 : (ascii "i,lat_sum_us=").length = 13 := by decide
  have h6 : (ascii "i,uptime_s=").length = 11 := by decide
  have h7 : (ascii "i").length = 1 := by decide
  unfold statsLine
  rw [List.length_append]
  generalize ((List.finRange statsHistBuckets).flatMap _).length = buckets at hbuckets ⊢
  simp only [List.length_append, h1, h2, h3, h4, h5, h6, h7]
  omega

end EspHole.Sinkhole
