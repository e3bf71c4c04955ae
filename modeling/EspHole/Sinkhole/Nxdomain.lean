/-
The reply to a blocked query.

`make_nxdomain` patches the query where it stands, and sends what precedes the end that
`parse_question` found.  `makeNxdomain_reply` says what that makes of any accepted packet,
and `blocked_reply` what a turn of the serve loop does with it: nothing goes upstream and
nothing is kept, whatever the cache holds.
-/
import EspHole.Sinkhole.Blocklist
import EspHole.Sinkhole.DnsTask

namespace EspHole.Sinkhole

open Ascii

/-- A packet with its `QR` bit cleared. -/
def clearQr (d : Bytes) : Bytes := d.set 2 (d.getD 2 0 &&& 0x7F)

/-- An NXDOMAIN answer to the first question of a packet. -/
structure NxReply (pkt name : Bytes) (qEnd : Nat) (reply : Bytes) : Prop where
  length : reply.length = qEnd
  length_le : qEnd ≤ pkt.length
  id : reply.take 2 = pkt.take 2
  opcode_rd : reply.getD 2 0 &&& 0x79 = pkt.getD 2 0 &&& 0x79
  qr : reply.getD 2 0 &&& 0x80 = 0x80
  aa_tc : reply.getD 2 0 &&& 0x06 = 0
  rcode : reply.getD 3 0 &&& 0x0F = 3
  counts : (reply.drop 4).take 8 = [0, 1, 0, 0, 0, 0, 0, 0]
  question : reply.drop 12 = (pkt.take qEnd).drop 12
  parsed : parseQuestion (clearQr reply) dnsMaxName = some (name, qEnd)

/-- The flag byte `make_nxdomain` writes. -/
theorem nxFlags (b : UInt8) : (0x80 ||| (b &&& 0x79)) &&& 0x79 = b &&& 0x79 ∧
    (0x80 ||| (b &&& 0x79)) &&& 0x80 = 0x80 ∧ (0x80 ||| (b &&& 0x79)) &&& 0x06 = 0 ∧
    ((0x80 ||| (b &&& 0x79)) &&& 0x7F) &&& 0x80 = 0 := by
  revert b
  exact forall_byte (by decide +kernel)

/-- A packet with a header, taken apart. -/
theorem header_split {pkt : Bytes} (h : 12 ≤ pkt.length) :
    ∃ b₀ b₁ b₂ hdr, hdr.length = 9 ∧ pkt = b₀ :: b₁ :: b₂ :: (hdr ++ pkt.drop 12) := by
  match pkt, h with
  | b₀ :: b₁ :: b₂ :: rest, h =>
      refine ⟨b₀, b₁, b₂, rest.take 9, ?_, ?_⟩
      · simp at h ⊢
        omega
      · simp

/-- **What `make_nxdomain` makes of an accepted packet.** -/
theorem makeNxdomain_reply {pkt name : Bytes} {qEnd : Nat}
    (h : parseQuestion pkt dnsMaxName = some (name, qEnd)) :
    NxReply pkt name qEnd (makeNxdomain pkt qEnd) := by
  obtain ⟨ls, hasks, rfl, rfl⟩ := (parseQuestion_iff (by decide)).mp h
  obtain ⟨rest, hwire, hrest⟩ := hasks.wire
  obtain ⟨b₀, b₁, b₂, hdr, hhdr, hpkt⟩ := header_split hasks.query.length
  rw [hwire] at hpkt
  obtain ⟨hkept, hqr, haa, hclear⟩ := nxFlags b₂
  -- The question is what precedes its end.
  have hcut : (encodeLabels ls ++ 0 :: rest).take ((encodeLabels ls).length + 5) =
      encodeLabels ls ++ 0 :: rest.take 4 := by
    rw [List.take_append]
    simp
  have hreply : makeNxdomain pkt (12 + (encodeLabels ls).length + 5) =
      b₀ :: b₁ :: (0x80 ||| (b₂ &&& 0x79)) :: 0x83 :: 0 :: 1 :: 0 :: 0 :: 0 :: 0 :: 0 :: 0 ::
        (encodeLabels ls ++ 0 :: rest.take 4) := by
    rw [← hcut, makeNxdomain, hwire, hpkt, Nat.add_assoc, Nat.add_comm 12]
    rfl
  have hquestion : (pkt.take (12 + (encodeLabels ls).length + 5)).drop 12 =
      encodeLabels ls ++ 0 :: rest.take 4 := by
    rw [List.drop_take, hwire, ← hcut]
    congr 1
    omega
  rw [hreply]
  refine ⟨?_, ?_, ?_, ?_, hqr, haa, ?_, rfl, hquestion.symm, ?_⟩
  · simp
    omega
  · rw [hpkt]
    simp [hhdr]
    omega
  · rw [hpkt]
    rfl
  · rw [hpkt]
    exact hkept
  · show (0x83 : UInt8) &&& 0x0F = 3
    decide
  · refine (parseQuestion_iff (by decide)).mpr ⟨ls, ⟨⟨?_, ?_, ?_⟩, hasks.labels, ?_, hasks.fits⟩,
      rfl, rfl⟩
    · simp [clearQr]
    · intro b hb
      obtain rfl := Option.some.inj hb
      exact hclear
    · intro hi lo hhi hlo
      obtain rfl := Option.some.inj hhi
      obtain rfl := Option.some.inj hlo
      decide
    · refine ⟨rest.take 4, rfl, ?_⟩
      simp
      omega

/-! ### One list throughout the evaluation -/

theorem anyM_askEach {contains : Nat → UInt64 → Option Bool} {f : UInt64 → Option Bool}
    (h : ∀ i x, contains i x = f x) (l : List Bytes) :
    ∀ i, ((l.anyM fun d => askEach contains (domainHash d)).run i).map Prod.fst =
      l.anyM fun d => f (domainHash d) := by
  induction l with
  | nil => intro i; rfl
  | cons d rest ih =>
      intro i
      rw [List.anyM, List.anyM, StateT.run_bind]
      show (((contains i (domainHash d)).map fun b => (b, i + 1)).bind _).map _ = _
      rw [h]
      cases f (domainHash d) with
      | none => rfl
      | some b =>
          cases b with
          | true => rfl
          | false => exact ih (i + 1)

/-- When every lookup of a turn meets the same list, `is_blocked` is decided against it. -/
theorem Turn.isBlocked_const {t : Turn} {f : UInt64 → Option Bool}
    (h : ∀ i x, t.contains i x = f x) (name : Bytes) :
    t.isBlocked name = Sinkhole.isBlocked f name := by
  unfold Turn.isBlocked
  rw [isBlocked_eq_anyM, isBlocked_eq_anyM]
  exact anyM_askEach h _ 0

theorem dnsTurn_blocked {t : Turn} {client : Nat} {pkt name : Bytes} {qEnd : Nat}
    (h : t.Asked client pkt name qEnd) (hblocked : t.isBlocked name = some true) (w : Server) :
    dnsTurn w t = some (w, [.countBlocked, .toClient client (makeNxdomain pkt qEnd)]) := by
  unfold dnsTurn
  rw [h.packet]
  simp only
  rw [h.question]
  simp only
  rw [hblocked]
  rfl

/-- **A blocked query**, in any state of the loop: nothing is sent upstream, nothing
changes, and the client is sent one NXDOMAIN answer to the question it asked. -/
theorem blocked_reply (w : Server) {t : Turn} {client : Nat} {pkt name : Bytes} {qEnd : Nat}
    (hpacket : t.packet = some (client, pkt))
    (hparse : parseQuestion pkt dnsMaxName = some (name, qEnd)) {ram : Ram}
    (hserved : ∀ i h, t.contains i h = blocklistContains true ram h)
    (hblocked : isBlocked (blocklistContains true ram) name = some true) :
    ∃ reply, dnsTurn w t = some (w, [.countBlocked, .toClient client reply]) ∧
      NxReply pkt name qEnd reply := by
  have hturn : t.isBlocked name = some true := by rw [Turn.isBlocked_const hserved, hblocked]
  exact ⟨_, dnsTurn_blocked ⟨hpacket, hparse⟩ hturn w, makeNxdomain_reply hparse⟩

/-- A query for `ads.example`, with an additional record. -/
def adsQuery : Bytes := [0x12, 0x34, 1, 0, 0, 1, 0, 0, 0, 0, 0, 1] ++
  [3] ++ ascii "aDs" ++ [7] ++ ascii "Example" ++ [0, 0, 1, 0, 1, 0, 0, 41]

/-- A list with one name. -/
def adsList : Ram := ⟨[domainHash (ascii "ads.example")], 1, 0, []⟩

def adsTurn : Turn where
  packet := some (7, adsQuery)
  contains := fun _ => blocklistContains true adsList
  now := 0
  sent := true
  recv := fun _ => none
  done := 0

theorem adsQuery_reply :
    ∃ reply, dnsTurn (.init 0) adsTurn =
        some (.init 0, [.countBlocked, .toClient 7 reply]) ∧
      NxReply adsQuery (ascii "ads.example") 29 reply :=
  blocked_reply _ rfl (by decide +kernel) (fun _ _ => rfl) (by decide +kernel)

end EspHole.Sinkhole
