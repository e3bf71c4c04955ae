/-
Whose answer a client is sent.

`forward_upstream` tells the answers on its one socket apart by their 16-bit ID, which is
the client's own.  An answer that comes too late stays queued, and a later query with the
same ID takes it.  `Exchange` puts the serve loop together with an upstream that answers
honestly but in its own time; `relayed_question` says when no answer is mistaken, and
`late_answer_relayed` is a run in which one is.

The cache is keyed by a hash of the name and the type.  `hit_answers` says what a hit has
in common with the query that was forwarded, and `hit_flattened` what it need not have.
-/
import EspHole.Sinkhole.DnsTask

namespace EspHole.Sinkhole

open Ascii Relation

/-! ### Questions -/

/-- What a message asks, or answers. -/
structure Question where
  labels : List Bytes
  qtype : Bytes
  qclass : Bytes
  deriving DecidableEq, Repr

/-- The first question of a message, its name in lower case. -/
def questionOf (d : Bytes) : Question :=
  let ls := questionLabels d
  let rest := d.drop (12 + (encodeLabels ls).length + 1)
  ⟨ls.map (·.map lower), rest.take 2, (rest.drop 2).take 2⟩

/-- A message that carries the ID and the question of a query. -/
structure IsAnswer (q d : Bytes) : Prop where
  id : d.take 2 = q.take 2
  question : questionOf d = questionOf q

instance (q d : Bytes) : Decidable (IsAnswer q d) :=
  decidable_of_iff (d.take 2 = q.take 2 ∧ questionOf d = questionOf q)
    ⟨fun h => ⟨h.1, h.2⟩, fun h => ⟨h.1, h.2⟩⟩

theorem take_two {d q : Bytes} (hd : 2 ≤ d.length) (h₀ : d[0]? = q[0]?) (h₁ : d[1]? = q[1]?) :
    d.take 2 = q.take 2 := by
  match d, hd with
  | a :: b :: d, _ =>
      match q, h₀, h₁ with
      | c :: e :: q, h₀, h₁ =>
          obtain rfl := Option.some.inj h₀
          obtain rfl := Option.some.inj h₁
          rfl

/-- What `forward_upstream` returns has arrived, and carries the ID of the query. -/
theorem recvLoop_some {query ans : Bytes} {recv : Nat → Option Bytes} (tries : Nat) :
    ∀ i, recvLoop query recv tries i = some ans →
      12 ≤ ans.length ∧ ans.take 2 = query.take 2 ∧ ∃ j, recv j = some ans := by
  induction tries with
  | zero => intro i h; cases h
  | succ n ih =>
      intro i h
      unfold recvLoop at h
      rcases hr : recv i with _ | d
      · rw [hr] at h
        cases h
      · rw [hr] at h
        simp only at h
        by_cases hc : d.length ≥ 12 ∧ d[0]? = query[0]? ∧ d[1]? = query[1]? ∧
            d.getD 2 0 &&& 0x80 ≠ 0
        · rw [if_pos hc] at h
          obtain rfl := Option.some.inj h
          obtain ⟨hlen, h₀, h₁, -⟩ := hc
          exact ⟨hlen, take_two (by omega) h₀ h₁, i, hr⟩
        · rw [if_neg hc] at h
          exact ih (i + 1) h

/-! ### Late answers -/

/-- The serve loop, and the forwarded queries that may still be answered. -/
structure Exchange where
  server : Server
  outstanding : List Bytes

def Exchange.init (time : Int) : Exchange := ⟨.init time, []⟩

/-- A turn in which everything that arrives from upstream answers the query just sent, or
an earlier one that may still be answered.  Which of these may be answered after the turn
is the upstream's choice: an answer may be late, repeated or lost. -/
structure Exchange.Turns (s : Exchange) (t : Turn) (s' : Exchange) : Prop where
  turn : ∃ fx, dnsTurn s.server t = some (s'.server, fx)
  arrivals : ∀ client pkt, t.packet = some (client, pkt) → ∀ i d, t.recv i = some d →
    ∃ q ∈ pkt :: s.outstanding, IsAnswer q d
  outstanding : ∀ q ∈ s'.outstanding, q ∈ s'.server.forwarded ∧
    (q ∈ s.outstanding ∨ ∃ client, t.packet = some (client, q))

/-- When this turn forwards a query, the queries with its ID that may still be answered
ask the same question. -/
def Exchange.IdFree (s : Exchange) (t : Turn) : Prop :=
  ∀ client pkt name type, t.Looks client pkt name type → t.sent = true →
    (dnsCacheFind s.server.cache (cacheKey name type) t.now).1 = none →
      ∀ q ∈ s.outstanding, q.take 2 = pkt.take 2 → questionOf q = questionOf pkt

/-- The states of runs whose turns all meet `P`. -/
abbrev Exchange.Reach (P : Exchange → Turn → Prop) (s : Exchange) : Prop :=
  ∃ time, ReflTransGen (fun s s' => ∃ t, P s t ∧ Exchange.Turns s t s') (.init time) s

/-- The answer that was relayed answers a query with the question that was asked. -/
def Relay.Fits (r : Relay) (forwarded : List Bytes) : Prop :=
  ∃ q ∈ forwarded, IsAnswer q r.answer ∧ questionOf q = questionOf r.query

theorem Relay.Fits.mono {r : Relay} {l l' : List Bytes} (h : r.Fits l) (hl : l ⊆ l') :
    r.Fits l' := by
  obtain ⟨q, hq, hans, hquestion⟩ := h
  exact ⟨q, hl hq, hans, hquestion⟩

/-- The invariant of the runs. -/
structure Exchange.Sound (s : Exchange) : Prop where
  outstanding : s.outstanding ⊆ s.server.forwarded
  relayed : ∀ r ∈ s.server.relayed, r.Fits s.server.forwarded

theorem Exchange.sound_init (time : Int) : (Exchange.init time).Sound :=
  ⟨List.Subset.refl _, fun r hr => by cases hr⟩

/-- One turn mistakes no answer. -/
theorem Exchange.sound_turn {s s' : Exchange} {t : Turn} (hs : s.Sound) (hid : s.IdFree t)
    (ht : s.Turns t s') : s'.Sound := by
  refine ⟨fun q hq => (ht.outstanding q hq).1, ?_⟩
  obtain ⟨fx, hrun⟩ := ht.turn
  have hout := dnsTurn_outcome hrun
  generalize s'.server = w at hout
  cases hout with
  | idle => exact hs.relayed
  | blocked => exact hs.relayed
  | hit => exact hs.relayed
  | @relay client pkt name type cache ans h hfind hsent hans =>
      intro r hr
      rcases List.mem_cons.mp hr with rfl | hr
      · obtain ⟨qEnd, hasked, -⟩ := h.asked
        obtain ⟨-, hsame, j, hj⟩ := recvLoop_some 4 0 hans
        obtain ⟨q, hq, hansw⟩ := ht.arrivals client pkt hasked.packet j ans hj
        rcases List.mem_cons.mp hq with rfl | hq
        · exact ⟨q, List.mem_cons_self, hansw, rfl⟩
        · have hnone : (dnsCacheFind s.server.cache (cacheKey name type) t.now).1 = none := by
            rw [hfind]
          have hquestion := hid client pkt name type h hsent hnone q hq
            (hansw.id.symm.trans hsame)
          exact ⟨q, List.mem_cons_of_mem _ (hs.outstanding hq), hansw, hquestion⟩
      · exact (hs.relayed r hr).mono (List.subset_cons_self _ _)
  | timeout =>
      intro r hr
      refine (hs.relayed r hr).mono ?_
      by_cases hsent : t.sent = true
      · rw [if_pos hsent]
        exact List.subset_cons_self _ _
      · rw [if_neg hsent]
        exact List.Subset.refl _

/-- **No answer is mistaken**, in any run in which no query is forwarded while one with its
ID and another question may still be answered. -/
theorem relayed_question {s : Exchange} (h : Exchange.Reach Exchange.IdFree s) :
    ∀ r ∈ s.server.relayed, ∃ q ∈ s.server.forwarded,
      IsAnswer q r.answer ∧ questionOf q = questionOf r.query := by
  obtain ⟨time, hrun⟩ := h
  have hsound : s.Sound := by
    induction hrun with
    | refl => exact Exchange.sound_init time
    | tail _ hstep ih =>
        obtain ⟨t, hid, hturn⟩ := hstep
        exact Exchange.sound_turn ih hid hturn
  exact hsound.relayed

/-- A query with its `QR` bit set is an answer to it. -/
def answerTo (q : Bytes) : Bytes := q.set 2 (q.getD 2 0 ||| 0x80)

theorem isAnswer_answerTo (q : Bytes) : IsAnswer q (answerTo q) := by
  have hdrop : ∀ n, (answerTo q).drop (12 + n) = q.drop (12 + n) := fun n =>
    List.drop_set_of_lt (by omega)
  have hlabels : questionLabels (answerTo q) = questionLabels q := by
    unfold questionLabels
    rw [hdrop 0, answerTo, List.length_set]
  refine ⟨?_, ?_⟩
  · rw [answerTo, List.take_set]
    exact List.set_eq_of_length_le (by simp)
  · have hrest := hdrop ((encodeLabels (questionLabels q)).length + 1)
    rw [← Nat.add_assoc] at hrest
    simp only [questionOf, hlabels, hrest]

/-- The condition on the queries that may still be answered is not too strong: where it
fails, an upstream that answers one of them now has its answer relayed for the other. -/
theorem stale_relayed {s : Exchange} {t : Turn} {client : Nat} {pkt name q : Bytes}
    {type : UInt16} (h : t.Looks client pkt name type) (hsent : t.sent = true)
    (hmiss : (dnsCacheFind s.server.cache (cacheKey name type) t.now).1 = none)
    (hq : q ∈ s.outstanding) (hlen : 12 ≤ q.length) (hid : q.take 2 = pkt.take 2)
    (hne : questionOf q ≠ questionOf pkt) :
    ∃ recv w fx ans, dnsTurn s.server { t with recv := recv } = some (w, fx) ∧
      (∀ i d, recv i = some d → ∃ q ∈ pkt :: s.outstanding, IsAnswer q d) ∧
      .toClient client ans ∈ fx ∧ questionOf ans ≠ questionOf pkt := by
  have hans := isAnswer_answerTo q
  have hget : ∀ i < 2, (answerTo q)[i]? = pkt[i]? := by
    intro i hi
    have := congrArg (·[i]?) (hans.id.trans hid)
    simpa [List.getElem?_take, hi] using this
  have hqr : (answerTo q).getD 2 0 &&& 0x80 ≠ 0 := by
    have hbyte : ∀ b : UInt8, (b ||| 0x80) &&& 0x80 ≠ 0 := forall_byte (by decide +kernel)
    have : (answerTo q).getD 2 0 = q.getD 2 0 ||| 0x80 := by
      rw [answerTo, List.getD_eq_getElem?_getD, List.getElem?_set_self (by omega)]
      rfl
    rw [this]
    exact hbyte _
  have hloop : recvLoop pkt (fun _ => some (answerTo q)) 4 0 = some (answerTo q) := by
    have hlen' : 12 ≤ (answerTo q).length := by simpa [answerTo] using hlen
    unfold recvLoop
    simp only
    rw [if_pos ⟨hlen', hget 0 (by omega), hget 1 (by omega), hqr⟩]
  let late : Turn := { t with recv := fun _ => some (answerTo q) }
  have hlooks : late.Looks client pkt name type := by
    obtain ⟨⟨qEnd, hasked, htype⟩, hunblocked⟩ := h
    exact ⟨⟨qEnd, ⟨hasked.packet, hasked.question⟩, htype⟩, hunblocked⟩
  rcases hfind : dnsCacheFind s.server.cache (cacheKey name type) t.now with ⟨_ | hit, cache⟩
  · have hrun := (dnsTurn_looks hlooks s.server).trans
      (answerQuery_relay (t := late) hfind hsent hloop)
    refine ⟨_, _, _, answerTo q, hrun, ?_, by simp, ?_⟩
    · intro i d hd
      obtain rfl := Option.some.inj hd
      exact ⟨q, List.mem_cons_of_mem _ hq, hans⟩
    · rw [hans.question]
      exact hne
  · rw [hfind] at hmiss
    cases hmiss

/-! ### A run with a late answer -/

/-- A packet with one question. -/
def query (id opcode : UInt8) (ls : List Bytes) (qtype qclass : UInt8) : Bytes :=
  [id, 1, opcode <<< 3, 0, 0, 1, 0, 0, 0, 0, 0, 0] ++ encodeLabels ls ++ [0, 0, qtype, 0, qclass]

/-- A turn with a packet that no list blocks. -/
def turnOf (pkt : Bytes) (now : Int) (recv : Nat → Option Bytes) : Turn :=
  ⟨some (7, pkt), fun _ _ => some false, now, true, recv, now⟩

/-- One more turn at the end of a run, all it forwarded being still outstanding. -/
theorem Exchange.Reach.turn {P : Exchange → Turn → Prop} {s : Exchange} (h : s.Reach P)
    {t : Turn} (hP : P s t) {w : Server} {fx : List Effect}
    (hrun : dnsTurn s.server t = some (w, fx))
    (harrivals : ∀ client pkt, t.packet = some (client, pkt) → ∀ i d, t.recv i = some d →
      ∃ q ∈ pkt :: s.outstanding, IsAnswer q d)
    (houtstanding : ∀ q ∈ w.forwarded, q ∈ s.outstanding ∨ ∃ client, t.packet = some (client, q)) :
    Exchange.Reach P ⟨w, w.forwarded⟩ := by
  obtain ⟨time, hreach⟩ := h
  exact ⟨time, hreach.tail ⟨t, hP, ⟨fx, hrun⟩, harrivals, fun q hq => ⟨hq, houtstanding q hq⟩⟩⟩

def slowQuery : Bytes := query 0x12 0 [ascii "slow", ascii "example"] 1 1

def nextQuery : Bytes := query 0x12 0 [ascii "next", ascii "example"] 1 1

theorem slow_then_next :
    ((dnsTurn (.init 0) (turnOf slowQuery 0 fun _ => none)).bind fun x =>
      (dnsTurn x.1 (turnOf nextQuery 1 fun _ => some (answerTo slowQuery))).map fun y =>
        (x.1.forwarded, y.1.forwarded, y.1.relayed)) =
      some ([slowQuery], [nextQuery, slowQuery], [⟨nextQuery, 1, answerTo slowQuery⟩]) := by
  decide +kernel

/-- **An answer mistaken.**  The first query gets no answer in time; the second carries the
same ID, and is given the first one's answer. -/
theorem late_answer_relayed :
    ∃ s, Exchange.Reach (fun _ _ => True) s ∧ ∃ r ∈ s.server.relayed,
      ¬ ∃ q ∈ s.server.forwarded, IsAnswer q r.answer ∧ questionOf q = questionOf r.query := by
  obtain ⟨⟨w₁, fx₁⟩, h₁, hrun⟩ := Option.bind_eq_some_iff.mp slow_then_next
  obtain ⟨⟨w₂, fx₂⟩, h₂, hw⟩ := Option.map_eq_some_iff.mp hrun
  obtain ⟨hw₁, hw₂, hr⟩ : w₁.forwarded = [slowQuery] ∧ w₂.forwarded = [nextQuery, slowQuery] ∧
      w₂.relayed = [⟨nextQuery, 1, answerTo slowQuery⟩] := by
    simpa using hw
  have hreach₁ : Exchange.Reach (fun _ _ => True) ⟨w₁, w₁.forwarded⟩ := by
    refine Exchange.Reach.turn ⟨0, .refl⟩ trivial h₁ ?_ ?_
    · intro client pkt _ i d hd
      cases hd
    · intro q hq
      rw [hw₁, List.mem_singleton] at hq
      exact Or.inr ⟨7, by rw [hq]; rfl⟩
  have hreach₂ : Exchange.Reach (fun _ _ => True) ⟨w₂, w₂.forwarded⟩ := by
    refine Exchange.Reach.turn hreach₁ trivial h₂ ?_ ?_
    · intro client pkt _ i d hd
      obtain rfl := Option.some.inj hd
      exact ⟨slowQuery, by simp [hw₁], isAnswer_answerTo _⟩
    · intro q hq
      rw [hw₂] at hq
      rcases List.mem_cons.mp hq with rfl | hq
      · exact Or.inr ⟨7, rfl⟩
      · exact Or.inl (hw₁ ▸ hq)
  refine ⟨_, hreach₂, ⟨nextQuery, 1, answerTo slowQuery⟩, by simp [hr], ?_⟩
  rw [hw₂]
  decide +kernel

/-- A query that is answered in time is relayed its answer. -/
theorem answered_in_time :
    ∃ s : Exchange, ⟨slowQuery, 0, answerTo slowQuery⟩ ∈ s.server.relayed ∧
      ∃ q ∈ s.server.forwarded, IsAnswer q (answerTo slowQuery) ∧
        questionOf q = questionOf slowQuery := by
  have hev : (dnsTurn (.init 0) (turnOf slowQuery 0 fun _ => some (answerTo slowQuery))).map
      (fun x => (x.1.forwarded, x.1.relayed)) =
        some ([slowQuery], [⟨slowQuery, 0, answerTo slowQuery⟩]) := by decide +kernel
  obtain ⟨⟨w, fx⟩, h, hw⟩ := Option.map_eq_some_iff.mp hev
  obtain ⟨hf, hr⟩ : w.forwarded = [slowQuery] ∧
      w.relayed = [⟨slowQuery, 0, answerTo slowQuery⟩] := by simpa using hw
  have hreach : Exchange.Reach Exchange.IdFree ⟨w, w.forwarded⟩ := by
    refine Exchange.Reach.turn (s := .init 0) ⟨0, .refl⟩ ?_ h ?_ ?_
    · intro client pkt name type _ _ _ q hq
      cases hq
    · intro client pkt hpkt i d hd
      obtain rfl := Option.some.inj hd
      obtain ⟨rfl, rfl⟩ := Prod.mk.inj (Option.some.inj hpkt)
      exact ⟨_, List.mem_cons_self, isAnswer_answerTo _⟩
    · intro q hq
      rw [hf, List.mem_singleton] at hq
      exact Or.inr ⟨7, by rw [hq]; rfl⟩
  have hmem : (⟨slowQuery, 0, answerTo slowQuery⟩ : Relay) ∈ w.relayed := by simp [hr]
  exact ⟨_, hmem, relayed_question hreach _ hmem⟩

/-! ### What a hit has in common with its query -/

/-- The parts of the key a packet is cached under: the string that is hashed, and the
type. -/
def cachedAs (pkt : Bytes) : Option (Bytes × UInt16) := do
  let (name, qEnd) ← parseQuestion pkt dnsMaxName
  some (cstr name, ← qtype pkt qEnd)

theorem Turn.Looks.cachedAs {t : Turn} {client : Nat} {pkt name : Bytes} {type : UInt16}
    (h : t.Looks client pkt name type) : cachedAs pkt = some (cstr name, type) := by
  obtain ⟨qEnd, hasked, htype⟩ := h.asked
  simp [Sinkhole.cachedAs, hasked.question, htype]

/-- An entry that holds this answer. -/
structure Relay.In (r : Relay) (e : CacheEntry) : Prop where
  key : ∃ name type, cachedAs r.query = some (name, type) ∧ e.key = cacheKey name type
  insertedUs : e.insertedUs = r.now
  data : e.data = r.answer

theorem Relay.In.same {r : Relay} {e e' : CacheEntry} (h : r.In e) (hs : e'.Same e) :
    r.In e' := by
  obtain ⟨name, type, hcached, hkey⟩ := h.key
  exact ⟨⟨name, type, hcached, hs.key.trans hkey⟩, hs.insertedUs.trans h.insertedUs,
    hs.data.trans h.data⟩

/-- The invariant of the serve loop: every answer in the cache was relayed. -/
structure Server.Sound (w : Server) : Prop where
  stored : ∀ e ∈ w.cache.entries, e.valid = true → ∃ r ∈ w.relayed, r.In e
  relayed : ∀ r ∈ w.relayed, r.now ≤ w.time ∧ 12 ≤ r.answer.length

theorem Server.sound_init (time : Int) : (Server.init time).Sound := by
  refine ⟨fun e he hvalid => ?_, fun r hr => by cases hr⟩
  rw [init_not_valid he] at hvalid
  cases hvalid

/-- A find leaves nothing in the cache that was not relayed. -/
theorem Server.Sound.find {w : Server} (hw : w.Sound) {key : UInt64} {now : Int} {cache : Cache}
    {hit : Option Nat} (hfind : dnsCacheFind w.cache key now = (hit, cache)) {e : CacheEntry}
    (he : e ∈ cache.entries) (hvalid : e.valid = true) : ∃ r ∈ w.relayed, r.In e := by
  have he' : e ∈ (dnsCacheFind w.cache key now).2.entries := by rw [hfind]; exact he
  obtain ⟨e₀, he₀, hvalid₀, hsame⟩ := mem_find he' hvalid
  obtain ⟨r, hr, hin⟩ := hw.stored e₀ he₀ hvalid₀
  exact ⟨r, hr, hin.same hsame⟩

theorem Server.sound_turn {w w' : Server} {t : Turn} {fx : List Effect} (hw : w.Sound)
    (hnow : w.time ≤ t.now) (hdone : t.now ≤ t.done) (hrun : dnsTurn w t = some (w', fx)) :
    w'.Sound := by
  have hlater : ∀ time, w.time ≤ time → ∀ r ∈ w.relayed, r.now ≤ time ∧ 12 ≤ r.answer.length :=
    fun time htime r hr => ⟨Int.le_trans (hw.relayed r hr).1 htime, (hw.relayed r hr).2⟩
  cases dnsTurn_outcome hrun with
  | idle => exact hw
  | blocked => exact hw
  | hit h hfind he => exact ⟨fun e he hvalid => hw.find hfind he hvalid, hlater _ hnow⟩
  | @relay client pkt name type cache ans h hfind hsent hans =>
      have hlen := (recvLoop_some 4 0 hans).1
      refine ⟨fun e he hvalid => ?_, fun r hr => ?_⟩
      · rcases mem_insert he with he | ⟨hkey, hinserted, hdata⟩
        · obtain ⟨r, hr, hin⟩ := hw.find hfind he hvalid
          exact ⟨r, List.mem_cons_of_mem _ hr, hin⟩
        · refine ⟨⟨pkt, t.now, ans⟩, List.mem_cons_self, ⟨cstr name, type, h.cachedAs, ?_⟩,
            hinserted, hdata⟩
          rw [hkey, cacheKey, cacheKey, cstr_cstr]
      · rcases List.mem_cons.mp hr with rfl | hr
        · exact ⟨hdone, hlen⟩
        · exact hlater _ (Int.le_trans hnow hdone) r hr
  | timeout h hfind hnone => exact ⟨fun e he hvalid => hw.find hfind he hvalid, hlater _ hnow⟩

theorem Server.Reach.sound {w : Server} (h : w.Reach) : w.Sound := by
  obtain ⟨time, hrun⟩ := h
  induction hrun with
  | refl => exact Server.sound_init time
  | tail _ hstep ih =>
      obtain ⟨t, fx, hnow, hdone, hturn⟩ := hstep
      exact Server.sound_turn ih hnow hdone hturn

/-- The type is the two bytes it was read from. -/
theorem qtype_inj {hi lo hi' lo' : UInt8}
    (h : hi.toUInt16 <<< 8 ||| lo.toUInt16 = hi'.toUInt16 <<< 8 ||| lo'.toUInt16) :
    hi = hi' ∧ lo = lo' := by
  have hnat : ∀ a b : UInt8, (a.toUInt16 <<< 8 ||| b.toUInt16).toNat = a.toNat * 256 + b.toNat := by
    intro a b
    have ha := a.toNat_lt
    have hb := b.toNat_lt
    have hor := Nat.shiftLeft_add_eq_or_of_lt (show b.toNat < 2 ^ 8 from hb) a.toNat
    rw [UInt16.toNat_or, UInt16.toNat_shiftLeft, UInt8.toNat_toUInt16, UInt8.toNat_toUInt16]
    show a.toNat <<< 8 % 2 ^ 16 ||| b.toNat = _
    rw [Nat.mod_eq_of_lt (by rw [Nat.shiftLeft_eq]; omega), ← hor, Nat.shiftLeft_eq]
  have hsum := congrArg UInt16.toNat h
  rw [hnat, hnat] at hsum
  have h₁ := lo.toNat_lt
  have h₂ := lo'.toNat_lt
  exact ⟨UInt8.toNat_inj.mp (by omega), UInt8.toNat_inj.mp (by omega)⟩

/-- A key tells types apart. -/
theorem cacheKey_inj {name : Bytes} {type type' : UInt16}
    (h : cacheKey name type = cacheKey name type') : type = type' := by
  unfold cacheKey at h
  rw [UInt64.xor_right_inj] at h
  have hnat := congrArg UInt64.toNat h
  have h₁ := type.toNat_lt
  have h₂ := type'.toNat_lt
  simp only [UInt64.toNat_shiftLeft, UInt16.toNat_toUInt64, Nat.shiftLeft_eq] at hnat
  have h32 : (32 : UInt64).toNat % 64 = 32 := rfl
  rw [h32] at hnat
  exact UInt16.toNat_inj.mp (by omega)

/-- The key's parts, in terms of the question on the wire. -/
theorem cachedAs_question {pkt name : Bytes} {type : UInt16}
    (h : cachedAs pkt = some (name, type)) :
    name = cstr (dotted (questionLabels pkt)) ∧ (∀ l ∈ questionLabels pkt, WireLabel l) ∧
      ∃ hi lo : UInt8, (questionOf pkt).qtype = [hi, lo] ∧
        type = hi.toUInt16 <<< 8 ||| lo.toUInt16 := by
  obtain ⟨⟨name', qEnd⟩, hparse, h⟩ := Option.bind_eq_some_iff.mp h
  obtain ⟨type', htype, h⟩ := Option.bind_eq_some_iff.mp h
  obtain ⟨rfl, rfl⟩ := Prod.mk.inj (Option.some.inj h)
  obtain ⟨hasks, rfl, rfl⟩ := parseQuestion_labels (by decide) hparse
  obtain ⟨hi, hhi, htype⟩ := Option.bind_eq_some_iff.mp htype
  obtain ⟨lo, hlo, htype⟩ := Option.bind_eq_some_iff.mp htype
  refine ⟨rfl, hasks.labels, hi, lo, ?_, (Option.some.inj htype).symm⟩
  have hdrop : ∀ n, pkt[n + 1]? = some hi → pkt[n + 2]? = some lo →
      pkt.drop (n + 1) = hi :: lo :: pkt.drop (n + 3) := by
    intro n h₁ h₂
    obtain ⟨hlt₁, rfl⟩ := List.getElem?_eq_some_iff.mp h₁
    obtain ⟨hlt₂, rfl⟩ := List.getElem?_eq_some_iff.mp h₂
    rw [List.drop_eq_getElem_cons hlt₁, List.drop_eq_getElem_cons hlt₂]
  have hrest := hdrop (12 + (encodeLabels (questionLabels pkt)).length) hhi hlo
  simp only [questionOf, hrest]
  rfl

/-- A reply that replays a relayed answer: of a query with the same hashed string and the
same type, so with the same name up to case if no label of either has a dot or a NUL in it;
at most five minutes old; and with nothing changed but the ID, which is the new query's. -/
structure Relay.Replayed (r : Relay) (now : Int) (pkt reply : Bytes) : Prop where
  past : r.now ≤ now
  fresh : now - r.now ≤ dnsCacheTtlUs
  key : ∃ x, cachedAs r.query = some x ∧ cachedAs pkt = some x
  qtype : (questionOf r.query).qtype = (questionOf pkt).qtype
  labels : (∀ l ∈ questionLabels r.query ++ questionLabels pkt, dot ∉ l ∧ 0 ∉ l) →
    (questionOf r.query).labels = (questionOf pkt).labels
  length : reply.length = r.answer.length
  id : reply.take 2 = pkt.take 2
  rest : reply.drop 2 = r.answer.drop 2

/-- **A cache hit** replays an answer that was relayed, when the queries' hashed strings do
not collide. -/
theorem hit_answers {w : Server} (hw : w.Reach) {t : Turn} (hnow : w.time ≤ t.now)
    {client : Nat} {pkt : Bytes} (hpacket : t.packet = some (client, pkt)) {w' : Server}
    {reply : Bytes} (hturn : dnsTurn w t = some (w', [.countForwarded 0, .toClient client reply]))
    (hcoll : ∀ r ∈ w.relayed, ∀ x y, cachedAs r.query = some x → cachedAs pkt = some y →
      cacheKey x.1 x.2 = cacheKey y.1 y.2 → x.1 = y.1) :
    ∃ r ∈ w.relayed, r.Replayed t.now pkt reply := by
  have hsound := hw.sound
  generalize hfx : ([.countForwarded 0, .toClient client reply] : List Effect) = fx at hturn
  cases dnsTurn_outcome hturn with
  | idle => cases hfx
  | blocked => cases hfx
  | relay => cases hfx
  | timeout => cases hfx
  | @hit client' pkt' name type i cache e h hfind he =>
      obtain ⟨qEnd, hasked, htype⟩ := h.asked
      obtain ⟨rfl, rfl⟩ := Prod.mk.inj (Option.some.inj (hpacket.symm.trans hasked.packet))
      obtain rfl : reply = patchId pkt e.data := by simpa using hfx
      have hhit : (dnsCacheFind w.cache (cacheKey name type) t.now).1 = some i := by rw [hfind]
      obtain ⟨e₀, he₀, hvalid, hkey, hfresh, -⟩ := dnsCacheFind_hit hhit
      obtain ⟨r, hr, hin⟩ := hsound.stored e₀ (List.mem_of_getElem? he₀) hvalid
      obtain rfl : e = { e₀ with lastUsed := w.cache.clock + 1 } := by
        have hget := dnsCacheFind_get hhit he₀
        rw [hfind] at hget
        exact Option.some.inj (he.symm.trans hget)
      obtain ⟨name', type', hcached, hkey'⟩ := hin.key
      have hkeys : cacheKey name' type' = cacheKey (cstr name) type := by
        rw [← hkey', hkey, cacheKey, cacheKey, cstr_cstr]
      obtain rfl : name' = cstr name := hcoll r hr _ _ hcached h.cachedAs hkeys
      obtain rfl := cacheKey_inj hkeys
      obtain ⟨hn, hl, hi, lo, hq, ht⟩ := cachedAs_question hcached
      obtain ⟨hn', hl', hi', lo', hq', ht'⟩ := cachedAs_question h.cachedAs
      obtain ⟨rfl, rfl⟩ := qtype_inj (ht.symm.trans ht')
      obtain ⟨hpast, hlen⟩ := hsound.relayed r hr
      have hquery := (isQuery_of_parseQuestion hasked.question).length
      obtain ⟨hid, hrest⟩ := patchId_split (show 2 ≤ pkt.length by omega)
        (show 2 ≤ e₀.data.length by rw [hin.data]; omega)
      refine ⟨r, hr, Int.le_trans hpast hnow, ?_, ⟨_, hcached, h.cachedAs⟩, hq.trans hq'.symm,
        ?_, ?_, hid, ?_⟩
      · rw [← hin.insertedUs]
        exact hfresh
      · intro hplain
        refine dotted_inj (fun l hl₀ => ⟨hl l hl₀, (hplain l (by simp [hl₀])).1⟩)
          (fun l hl₀ => ⟨hl' l hl₀, (hplain l (by simp [hl₀])).1⟩) ?_
        rw [← cstr_dotted fun l hl₀ => (hplain l (by simp [hl₀])).2, ← hn, hn',
          cstr_dotted fun l hl₀ => (hplain l (by simp [hl₀])).2]
      · simp [patchId, hin.data]
      · rw [← hin.data]
        exact hrest

/-! ### A run with cache hits -/

/-- The same question, in upper case. -/
def againQuery : Bytes := query 0x34 0 [ascii "SLOW", ascii "EXAMPLE"] 1 1

/-- The same name and type, in the class `CH`. -/
def chaosQuery : Bytes := query 0x34 0 [ascii "slow", ascii "example"] 1 3

/-- The same question, under the opcode `STATUS`. -/
def statusQuery : Bytes := query 0x34 2 [ascii "slow", ascii "example"] 1 1

/-- One label with a dot in it. -/
def joinedQuery : Bytes := query 0x34 0 [ascii "slow.example"] 1 1

theorem slow_stored :
    ∃ w : Server, w.Reach ∧ w.time = 0 ∧ w.relayed = [⟨slowQuery, 0, answerTo slowQuery⟩] ∧
      ∀ q ∈ [againQuery, chaosQuery, statusQuery, joinedQuery],
        ∃ w', dnsTurn w (turnOf q 1 fun _ => none) =
          some (w', [.countForwarded 0, .toClient 7 (patchId q (answerTo slowQuery))]) := by
  have hev : (dnsTurn (.init 0) (turnOf slowQuery 0 fun _ => some (answerTo slowQuery))).map
      (fun x => (x.1.time, x.1.relayed,
        [againQuery, chaosQuery, statusQuery, joinedQuery].all fun q =>
          (dnsTurn x.1 (turnOf q 1 fun _ => none)).map Prod.snd =
            some [.countForwarded 0, .toClient 7 (patchId q (answerTo slowQuery))])) =
        some (0, [⟨slowQuery, 0, answerTo slowQuery⟩], true) := by decide +kernel
  obtain ⟨⟨w, fx⟩, h, hw⟩ := Option.map_eq_some_iff.mp hev
  obtain ⟨htime, hw⟩ := Prod.mk.inj hw
  obtain ⟨hr, hall⟩ := Prod.mk.inj hw
  have hreach : w.Reach :=
    ⟨0, .tail .refl ⟨turnOf slowQuery 0 fun _ => some (answerTo slowQuery), fx, Int.le_refl 0,
      Int.le_refl 0, h⟩⟩
  refine ⟨w, hreach, htime, hr, fun q hq => ?_⟩
  have hq := List.all_eq_true.mp hall q hq
  obtain ⟨⟨w', fx'⟩, hturn, rfl⟩ := Option.map_eq_some_iff.mp (of_decide_eq_true hq)
  exact ⟨w', hturn⟩

theorem againQuery_replayed :
    ∃ r : Relay, r.query = slowQuery ∧
      r.Replayed 1 againQuery (patchId againQuery (answerTo slowQuery)) := by
  obtain ⟨w, hreach, htime, hr, hall⟩ := slow_stored
  obtain ⟨w', hturn⟩ := hall againQuery (by simp)
  have hsame : cachedAs slowQuery = cachedAs againQuery := by decide +kernel
  obtain ⟨r, hmem, hreplayed⟩ := hit_answers hreach (t := turnOf againQuery 1 fun _ => none)
    (by rw [htime]; decide) rfl hturn (fun r hmem x y hx hy _ => by
      rw [hr, List.mem_singleton] at hmem
      subst hmem
      rw [Option.some.inj (hx.symm.trans (hsame.trans hy))])
  rw [hr, List.mem_singleton] at hmem
  exact ⟨r, by rw [hmem], hreplayed⟩

/-- The opcode of a message, in its place in the flag byte. -/
def opcode (pkt : Bytes) : UInt8 := pkt.getD 2 0 &&& 0x78

/-- **What the key leaves out.**  Queries with another class, another opcode or another
division into labels are answered from the cache, though no collision is involved and the
upstream answered the query it was given. -/
theorem hit_flattened :
    ∃ w : Server, w.Reach ∧ (∀ r ∈ w.relayed, IsAnswer r.query r.answer) ∧
      ∀ q ∈ [chaosQuery, statusQuery, joinedQuery],
        ∃ w' reply, dnsTurn w (turnOf q 1 fun _ => none) =
            some (w', [.countForwarded 0, .toClient 7 reply]) ∧
          ∀ r ∈ w.relayed, cachedAs r.query = cachedAs q ∧
            ¬ (opcode r.query = opcode q ∧ questionOf r.query = questionOf q) := by
  obtain ⟨w, hreach, -, hr, hall⟩ := slow_stored
  have hdiffer : ∀ q ∈ [chaosQuery, statusQuery, joinedQuery],
      cachedAs slowQuery = cachedAs q ∧
        ¬ (opcode slowQuery = opcode q ∧ questionOf slowQuery = questionOf q) := by
    decide +kernel
  refine ⟨w, hreach, fun r hmem => ?_, fun q hq => ?_⟩
  · rw [hr, List.mem_singleton] at hmem
    rw [hmem]
    exact isAnswer_answerTo _
  · obtain ⟨w', hturn⟩ := hall q (List.mem_cons_of_mem _ hq)
    refine ⟨w', _, hturn, fun r hmem => ?_⟩
    rw [hr, List.mem_singleton] at hmem
    rw [hmem]
    exact hdiffer q hq

end EspHole.Sinkhole
