/-
`parse_question` on memory.

`parseQuestion` takes a packet as a list, where there is nothing past the end to read and
no buffer to overrun.  Here the function is written once more over a buffer that goes on
for ever, with the name written byte by byte, and with a record of every address that is
read or written.  `scan_iff` is its contract: which packets it accepts, what it leaves in
the name buffer, and that it stays inside both.
-/
import EspHole.Sinkhole.Question

namespace EspHole.Sinkhole

open Ascii

/-! ### The scan -/

/-- The name buffer, and the offsets of `pkt` read and of `name` written so far. -/
structure Scan where
  name : Nat → UInt8
  reads : List Nat
  writes : List Nat

namespace Scan

def read (s : Scan) (i : Nat) : Scan := { s with reads := i :: s.reads }

def write (s : Scan) (i : Nat) (b : UInt8) : Scan :=
  ⟨fun j => if j = i then b else s.name j, s.reads, i :: s.writes⟩

/-- The first `n` bytes of the name buffer. -/
def text (s : Scan) (n : Nat) : Bytes := (List.range n).map s.name

/-- Every read is in the packet, every write in the buffer. -/
structure Within (s : Scan) (len nameSz : Nat) : Prop where
  reads : ∀ i ∈ s.reads, i < len
  writes : ∀ i ∈ s.writes, i < nameSz

theorem within_start (name : Nat → UInt8) (len nameSz : Nat) :
    Within ⟨name, [], []⟩ len nameSz := by
  refine ⟨?_, ?_⟩
  · intro i hi
    cases hi
  · intro i hi
    cases hi

theorem Within.read {s : Scan} {len nameSz i : Nat} (h : s.Within len nameSz) (hi : i < len) :
    (s.read i).Within len nameSz :=
  ⟨List.forall_mem_cons.mpr ⟨hi, h.reads⟩, h.writes⟩

theorem Within.write {s : Scan} {len nameSz i : Nat} {b : UInt8} (h : s.Within len nameSz)
    (hi : i < nameSz) : (s.write i b).Within len nameSz :=
  ⟨h.reads, List.forall_mem_cons.mpr ⟨hi, h.writes⟩⟩

@[simp] theorem text_length (s : Scan) (n : Nat) : (s.text n).length = n := by simp [text]

@[simp] theorem text_read (s : Scan) (i n : Nat) : (s.read i).text n = s.text n := rfl

theorem text_write (s : Scan) (n : Nat) (b : UInt8) :
    (s.write n b).text (n + 1) = s.text n ++ [b] := by
  have hkeep : (List.range n).map (s.write n b).name = (List.range n).map s.name := by
    refine List.map_congr_left fun j hj => if_neg ?_
    exact Nat.ne_of_lt (List.mem_range.mp hj)
  rw [text, List.range_succ, List.map_append, hkeep, text]
  simp [write]

end Scan

/-- The inner loop: `k` bytes of a label are left. -/
def copyLabel (pkt : Nat → UInt8) : Nat → Nat → Nat → Scan → Scan
  | 0, _, _, s => s
  | k + 1, off, n, s => copyLabel pkt k (off + 1) (n + 1) ((s.read off).write n (lower (pkt off)))

/-- The label loop, at offset `off` with `n` bytes of the name written. -/
def scanName (pkt : Nat → UInt8) (len nameSz off n : Nat) (s : Scan) : Option (Nat × Nat) × Scan :=
  if off ≥ len then (none, s)
  else
    let lab := pkt off
    let s := s.read off
    if lab = 0 then (some (off + 1, n), s)
    else if lab &&& 0xC0 ≠ 0 ∨ off + 1 + lab.toNat > len then (none, s)
    else if n + lab.toNat + (if n ≠ 0 then 1 else 0) ≥ nameSz then (none, s)
    else
      let s := if n ≠ 0 then s.write n dot else s
      let n := if n ≠ 0 then n + 1 else n
      scanName pkt len nameSz (off + 1 + lab.toNat) (n + lab.toNat)
        (copyLabel pkt lab.toNat (off + 1) n s)
termination_by len - off
decreasing_by omega

/-- `parse_question`; the offset it returns, or -1. -/
def scanQuestion (pkt : Nat → UInt8) (len nameSz : Nat) (s : Scan) : Int × Scan :=
  if len < 12 then (-1, s)
  else if pkt 2 &&& 0x80 ≠ 0 then (-1, s.read 2)
  else
    let s := ((s.read 2).read 4).read 5
    if (pkt 4).toNat * 256 + (pkt 5).toNat < 1 then (-1, s)
    else
      match scanName pkt len nameSz 12 0 s with
      | (none, s) => (-1, s)
      | (some (off, n), s) =>
          let s := s.write n 0
          if off + 4 > len then (-1, s) else ((off : Int) + 4, s)

/-! ### It does what the list version does -/

section Loop

variable {pkt : Nat → UInt8} {len nameSz : Nat}

/-- The packet as a list. -/
def packetOf (pkt : Nat → UInt8) (len : Nat) : Bytes := (List.range len).map pkt

theorem copyLabel_text (k : Nat) :
    ∀ (off n : Nat) (s : Scan), (copyLabel pkt k off n s).text (n + k) =
      s.text n ++ (List.range k).map fun i => lower (pkt (off + i)) := by
  induction k with
  | zero => intro off n s; simp [copyLabel]
  | succ k ih =>
      intro off n s
      have := ih (off + 1) (n + 1) ((s.read off).write n (lower (pkt off)))
      rw [Scan.text_write, Scan.text_read] at this
      rw [copyLabel, show n + (k + 1) = n + 1 + k by omega, this, List.range_succ_eq_map]
      simp [Function.comp_def, Nat.add_assoc, Nat.add_comm 1]

theorem copyLabel_within (pkt : Nat → UInt8) (k : Nat) :
    ∀ {off n : Nat} {s : Scan}, s.Within len nameSz → off + k ≤ len → n + k ≤ nameSz →
      (copyLabel pkt k off n s).Within len nameSz := by
  induction k with
  | zero => intro off n s hs _ _; exact hs
  | succ k ih =>
      intro off n s hs hoff hn
      exact ih ((hs.read (by omega)).write (by omega)) (by omega) (by omega)

theorem packetOf_label {off k : Nat} (h : off + k ≤ len) :
    (((packetOf pkt len).drop off).take k).map lower =
      (List.range k).map fun i => lower (pkt (off + i)) := by
  refine List.ext_getElem ?_ fun i h₁ h₂ => ?_
  · simp [packetOf]
    omega
  · simp [packetOf]

theorem packetOf_get (off : Nat) :
    (packetOf pkt len)[off]? = if off < len then some (pkt off) else none := by
  by_cases h : off < len <;> simp [packetOf, h]

theorem parseName_packetOf (off : Nat) (name : Bytes) :
    parseName (packetOf pkt len) nameSz off name =
      if off ≥ len then none
      else if pkt off = 0 then some (name, off + 1)
      else if pkt off &&& 0xC0 ≠ 0 ∨ off + 1 + (pkt off).toNat > len then none
      else if name.length + (pkt off).toNat + (if name.length ≠ 0 then 1 else 0) ≥ nameSz then none
      else
        parseName (packetOf pkt len) nameSz (off + 1 + (pkt off).toNat)
          ((if name.length ≠ 0 then name ++ [dot] else name) ++
            (List.range (pkt off).toNat).map fun i => lower (pkt (off + 1 + i))) := by
  have hlen : (packetOf pkt len).length = len := by simp [packetOf]
  rw [parseName]
  split
  · rename_i hnone
    rw [packetOf_get] at hnone
    by_cases h : off < len
    · rw [if_pos h] at hnone
      cases hnone
    · rw [if_pos (by omega)]
  · rename_i lab hlab
    rw [packetOf_get] at hlab
    by_cases h : off < len
    · rw [if_pos h] at hlab
      obtain rfl := Option.some.inj hlab
      have hoff : ¬ off ≥ len := by omega
      rw [if_neg hoff, hlen]
      by_cases hin : off + 1 + (pkt off).toNat ≤ len
      · rw [packetOf_label hin]
      · have hbad : pkt off &&& 0xC0 ≠ 0 ∨ off + 1 + (pkt off).toNat > len := Or.inr (by omega)
        rw [if_pos hbad, if_pos hbad]
    · rw [if_neg h] at hlab
      cases hlab

/-- **The label loop** stays in bounds, and returns and writes what the list version
computes. -/
theorem scanName_spec (pkt : Nat → UInt8) (fuel : Nat) :
    ∀ {off n : Nat} {s : Scan}, len - off ≤ fuel → n < nameSz → s.Within len nameSz →
      (scanName pkt len nameSz off n s).2.Within len nameSz ∧
      (∀ e m, (scanName pkt len nameSz off n s).1 = some (e, m) → m < nameSz) ∧
      (scanName pkt len nameSz off n s).1.map (fun x =>
        ((scanName pkt len nameSz off n s).2.text x.2, x.1)) =
          parseName (packetOf pkt len) nameSz off (s.text n) := by
  have hnone : ∀ e m, (none : Option (Nat × Nat)) = some (e, m) → m < nameSz := by
    intro e m h
    cases h
  induction fuel with
  | zero =>
      intro off n s hf hn hs
      have hoff : off ≥ len := by omega
      rw [scanName, parseName_packetOf, if_pos hoff, if_pos hoff]
      exact ⟨hs, hnone, rfl⟩
  | succ fuel ih =>
      intro off n s hf hn hs
      rw [scanName, parseName_packetOf, Scan.text_length]
      by_cases hoff : off ≥ len
      · rw [if_pos hoff, if_pos hoff]
        exact ⟨hs, hnone, rfl⟩
      rw [if_neg hoff, if_neg hoff]
      have hread : (s.read off).Within len nameSz := hs.read (by omega)
      by_cases hend : pkt off = 0
      · simp only [hend, if_true]
        refine ⟨hread, fun e m h => ?_, rfl⟩
        obtain ⟨-, rfl⟩ := Prod.mk.inj (Option.some.inj h)
        exact hn
      by_cases hbad : pkt off &&& 0xC0 ≠ 0 ∨ off + 1 + (pkt off).toNat > len
      · simp only [hend, if_false, if_pos hbad]
        exact ⟨hread, hnone, rfl⟩
      by_cases hfit : n + (pkt off).toNat + (if n ≠ 0 then 1 else 0) ≥ nameSz
      · simp only [hend, if_false, if_neg hbad, if_pos hfit]
        exact ⟨hread, hnone, rfl⟩
      simp only [hend, if_false, if_neg hbad, if_neg hfit]
      have hin : off + 1 + (pkt off).toNat ≤ len := by
        by_contra h
        exact hbad (Or.inr (by omega))
      have hless : len - (off + 1 + (pkt off).toNat) ≤ fuel := by omega
      by_cases hsep : n ≠ 0
      · simp only [if_pos hsep] at hfit ⊢
        have hdot : ((s.read off).write n dot).Within len nameSz := hread.write hn
        have hcopy := copyLabel_within pkt (pkt off).toNat hdot hin
          (show n + 1 + (pkt off).toNat ≤ nameSz by omega)
        have := ih hless (show n + 1 + (pkt off).toNat < nameSz by omega) hcopy
        rwa [copyLabel_text, Scan.text_write, Scan.text_read] at this
      · simp only [if_neg hsep] at hfit ⊢
        have hcopy := copyLabel_within pkt (pkt off).toNat hread hin
          (show n + (pkt off).toNat ≤ nameSz by omega)
        have := ih hless (show n + (pkt off).toNat < nameSz by omega) hcopy
        rwa [copyLabel_text, Scan.text_read] at this

/-- **`parse_question`** stays in bounds, and returns and writes what the list version
computes. -/
theorem scanQuestion_spec (pkt : Nat → UInt8) (hsz : 0 < nameSz) {s : Scan}
    (hs : s.Within len nameSz) :
    (scanQuestion pkt len nameSz s).2.Within len nameSz ∧
      match parseQuestion (packetOf pkt len) nameSz with
      | none => (scanQuestion pkt len nameSz s).1 = -1
      | some (name, qEnd) => (scanQuestion pkt len nameSz s).1 = (qEnd : Int) ∧
          (scanQuestion pkt len nameSz s).2.text (name.length + 1) = name ++ [0] := by
  have hlen : (packetOf pkt len).length = len := by simp [packetOf]
  unfold scanQuestion parseQuestion
  rw [hlen]
  by_cases hshort : len < 12
  · rw [if_pos hshort, if_pos hshort]
    exact ⟨hs, rfl⟩
  have hget : ∀ i < 12, (packetOf pkt len)[i]? = some (pkt i) := fun i hi => by
    rw [packetOf_get, if_pos (by omega)]
  rw [if_neg hshort, if_neg hshort, hget 2 (by omega), hget 4 (by omega), hget 5 (by omega)]
  simp only [Option.bind_eq_bind, Option.bind_some]
  have h2 : (s.read 2).Within len nameSz := hs.read (by omega)
  by_cases hqr : pkt 2 &&& 0x80 ≠ 0
  · rw [if_pos hqr, if_pos hqr]
    exact ⟨h2, rfl⟩
  rw [if_neg hqr, if_neg hqr]
  have h5 : (((s.read 2).read 4).read 5).Within len nameSz :=
    (h2.read (by omega)).read (by omega)
  by_cases hqd : (pkt 4).toNat * 256 + (pkt 5).toNat < 1
  · rw [if_pos hqd, if_pos hqd]
    exact ⟨h5, rfl⟩
  rw [if_neg hqd, if_neg hqd]
  obtain ⟨hwithin, hlast, hname⟩ := scanName_spec pkt len (Nat.sub_le len 12) hsz h5
  rw [show (((s.read 2).read 4).read 5).text 0 = [] from rfl] at hname
  rw [← hname]
  generalize scanName pkt len nameSz 12 0 (((s.read 2).read 4).read 5) = r at hwithin hlast ⊢
  obtain ⟨_ | ⟨off, n⟩, s'⟩ := r
  · exact ⟨hwithin, rfl⟩
  · have hnul : (s'.write n 0).Within len nameSz := hwithin.write (hlast off n rfl)
    simp only [Option.map_some, Option.bind_some]
    by_cases htail : off + 4 > len
    · rw [if_pos htail, if_pos htail]
      exact ⟨hnul, rfl⟩
    · rw [if_neg htail, if_neg htail]
      refine ⟨hnul, by simp, ?_⟩
      rw [Scan.text_length, Scan.text_write]

end Loop

/-! ### The contract -/

/-- The grammar of `parse_question`, for these labels: nothing but what the bytes say. -/
structure Accepts (pkt : Nat → UInt8) (len : Nat) (ls : List Bytes) : Prop where
  length : 12 ≤ len
  qr : pkt 2 &&& 0x80 = 0
  qdcount : 1 ≤ (pkt 4).toNat * 256 + (pkt 5).toNat
  labels : ∀ l ∈ ls, 1 ≤ l.length ∧ l.length ≤ 63
  wire : ∃ rest, (packetOf pkt len).drop 12 = encodeLabels ls ++ 0 :: rest ∧ 4 ≤ rest.length
  total : (ls.map List.length).sum + (ls.length - 1) ≤ 253

theorem dotted_length (ls : List Bytes) :
    (dotted ls).length = (ls.map List.length).sum + (ls.length - 1) := by
  induction ls with
  | nil => rfl
  | cons l rest ih =>
      cases rest with
      | nil => simp [dotted]
      | cons l' rest =>
          have hcons : dotted (l :: l' :: rest) =
              l.map lower ++ ([dot] ++ dotted (l' :: rest)) := by
            simp [dotted, List.intercalate_cons_cons]
          rw [hcons]
          simp only [List.length_append, ih]
          simp
          omega

theorem accepts_iff {pkt : Nat → UInt8} {len : Nat} {ls : List Bytes} :
    Accepts pkt len ls ↔ Asks (packetOf pkt len) dnsMaxName ls := by
  have hfits : (ls.map List.length).sum + (ls.length - 1) ≤ 253 ↔
      (dotted ls).length < dnsMaxName := by
    rw [dotted_length, dnsMaxName]
    omega
  have hlen : (packetOf pkt len).length = len := by simp [packetOf]
  constructor
  · intro h
    have hget : ∀ i < 12, (packetOf pkt len)[i]? = some (pkt i) := fun i hi => by
      have := h.length
      rw [packetOf_get, if_pos (by omega)]
    refine ⟨⟨by rw [hlen]; exact h.length, ?_, ?_⟩, h.labels, h.wire, hfits.mp h.total⟩
    · intro b hb
      obtain rfl := Option.some.inj ((hget 2 (by omega)).symm.trans hb)
      exact h.qr
    · intro hi lo hhi hlo
      obtain rfl := Option.some.inj ((hget 4 (by omega)).symm.trans hhi)
      obtain rfl := Option.some.inj ((hget 5 (by omega)).symm.trans hlo)
      exact h.qdcount
  · intro h
    have hshort : 12 ≤ len := by
      have := h.query.length
      rwa [hlen] at this
    have hget : ∀ i < 12, (packetOf pkt len)[i]? = some (pkt i) := fun i hi => by
      rw [packetOf_get, if_pos (by omega)]
    exact ⟨hshort, h.query.qr _ (hget 2 (by omega)),
      h.query.qdcount _ _ (hget 4 (by omega)) (hget 5 (by omega)), h.labels, h.wire,
      hfits.mpr h.fits⟩

/-- **The contract of `parse_question`**, for every buffer and length: it accepts exactly
its grammar, the offset and the name are those of the labels, every read is of the packet
and every write in the name buffer. -/
theorem scan_iff (pkt : Nat → UInt8) (len : Nat) (name : Nat → UInt8) :
    (0 ≤ (scanQuestion pkt len dnsMaxName ⟨name, [], []⟩).1 ↔ ∃ ls, Accepts pkt len ls) ∧
    (∀ ls, Accepts pkt len ls →
      (scanQuestion pkt len dnsMaxName ⟨name, [], []⟩).1 =
          12 + (encodeLabels ls ++ [0]).length + 4 ∧
        (scanQuestion pkt len dnsMaxName ⟨name, [], []⟩).1 ≤ len ∧
        (scanQuestion pkt len dnsMaxName ⟨name, [], []⟩).2.text ((dotted ls).length + 1) =
          dotted ls ++ [0]) ∧
    (∀ i ∈ (scanQuestion pkt len dnsMaxName ⟨name, [], []⟩).2.reads, i < len) ∧
    (∀ i ∈ (scanQuestion pkt len dnsMaxName ⟨name, [], []⟩).2.writes, i < dnsMaxName) := by
  obtain ⟨hwithin, hresult⟩ := scanQuestion_spec pkt (show 0 < dnsMaxName by decide)
    (Scan.within_start name len dnsMaxName)
  generalize scanQuestion pkt len dnsMaxName ⟨name, [], []⟩ = r at hwithin hresult ⊢
  have hparse : ∀ ls, Accepts pkt len ls →
      parseQuestion (packetOf pkt len) dnsMaxName =
        some (dotted ls, 12 + (encodeLabels ls).length + 5) := fun ls h =>
    (parseQuestion_iff (by decide)).mpr ⟨ls, accepts_iff.mp h, rfl, rfl⟩
  refine ⟨⟨?_, ?_⟩, ?_, hwithin.reads, hwithin.writes⟩
  · intro hpos
    rcases hq : parseQuestion (packetOf pkt len) dnsMaxName with _ | ⟨out, qEnd⟩
    · rw [hq] at hresult
      simp only at hresult
      omega
    · obtain ⟨ls, hasks, -⟩ := (parseQuestion_iff (by decide)).mp hq
      exact ⟨ls, accepts_iff.mpr hasks⟩
  · rintro ⟨ls, h⟩
    rw [hparse ls h] at hresult
    obtain ⟨hoff, -⟩ := hresult
    omega
  · intro ls h
    rw [hparse ls h] at hresult
    obtain ⟨hoff, htext⟩ := hresult
    obtain ⟨rest, hwire, hrest⟩ := h.wire
    have hlen := congrArg List.length hwire
    simp [packetOf] at hlen
    refine ⟨?_, ?_, htext⟩
    · rw [hoff]
      simp
      omega
    · omega

end EspHole.Sinkhole
