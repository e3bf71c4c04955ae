/-
Reading the first question of a query: `parse_question` of `main/dns_sinkhole.c`.

A name on the wire is a sequence of length-prefixed labels, ended by a zero byte.  The
parser flattens it into one dotted, lower-cased string with a NUL after it, which is all
the serve loop keeps of it.  `parseQuestion_iff` says exactly which packets are accepted
and what the string is; `questionLabels` reads the labels off the packet independently,
so that statements about a question can speak of its labels and not of the string.
-/
import EspHole.Basic
import EspHole.Lib.Ascii
import Mathlib.Data.List.Basic

namespace EspHole.Sinkhole

open Ascii

/-- `DNS_MAX_NAME` -/
def dnsMaxName : Nat := 254

/-- The label loop of `parse_question`, at offset `off` with `name` written so far.
Returns the name and the offset after the terminating zero. -/
def parseName (pkt : Bytes) (nameSz off : Nat) (name : Bytes) : Option (Bytes × Nat) :=
  match _h : pkt[off]? with
  | none => none
  | some lab =>
      if lab = 0 then some (name, off + 1)
      else if lab &&& 0xC0 ≠ 0 ∨ off + 1 + lab.toNat > pkt.length then none
      else if name.length + lab.toNat + (if name.length ≠ 0 then 1 else 0) ≥ nameSz then none
      else
        let name := if name.length ≠ 0 then name ++ [dot] else name
        let name := name ++ ((pkt.drop (off + 1)).take lab.toNat).map lower
        parseName pkt nameSz (off + 1 + lab.toNat) name
termination_by pkt.length - off
decreasing_by
  have := (List.getElem?_eq_some_iff.mp _h).1
  omega

/-- `parse_question`: the name and the offset just past the question. -/
def parseQuestion (pkt : Bytes) (nameSz : Nat) : Option (Bytes × Nat) := do
  if pkt.length < 12 then none
  else if (← pkt[2]?) &&& 0x80 ≠ 0 then none
  else if (← pkt[4]?).toNat * 256 + (← pkt[5]?).toNat < 1 then none
  else
    let (name, off) ← parseName pkt nameSz 12 []
    if off + 4 > pkt.length then none else some (name, off + 4)

/-! ### Names on the wire -/

/-- A label as the wire carries it: 1 to 63 bytes. -/
def WireLabel (l : Bytes) : Prop := 1 ≤ l.length ∧ l.length ≤ 63

/-- The encoding of a sequence of labels, without the zero that ends it. -/
def encodeLabels (ls : List Bytes) : Bytes := ls.flatMap fun l => l.length.toUInt8 :: l

/-- Labels as one dotted, lower-cased string. -/
def dotted (ls : List Bytes) : Bytes := [dot].intercalate (ls.map (·.map lower))

/-- The string after one more label. -/
def addLabel (name l : Bytes) : Bytes :=
  (if name.length ≠ 0 then name ++ [dot] else name) ++ l.map lower

/-- The string after some more labels. -/
def joinOnto (name : Bytes) (ls : List Bytes) : Bytes := ls.foldl addLabel name

theorem joinOnto_of_ne_nil (ls : List Bytes) :
    ∀ name : Bytes, name ≠ [] →
      joinOnto name ls = [dot].intercalate (name :: ls.map (·.map lower)) := by
  induction ls with
  | nil => intro name _; simp [joinOnto]
  | cons l ls ih =>
      intro name hname
      have hlen : name.length ≠ 0 := by simpa using hname
      have := ih (name ++ [dot] ++ l.map lower) (by simp)
      rw [joinOnto] at this
      rw [List.map_cons, joinOnto, List.foldl_cons, addLabel, if_pos hlen, this]
      cases ls with
      | nil => simp [List.intercalate_cons_cons]
      | cons l' ls => simp [List.intercalate_cons_cons]

/-- From the start of the name, joining is what `dotted` says. -/
theorem joinOnto_nil {ls : List Bytes} (h : ∀ l ∈ ls, WireLabel l) :
    joinOnto [] ls = dotted ls := by
  cases ls with
  | nil => rfl
  | cons l ls =>
      have hl : l.map lower ≠ [] := by
        have hpos := (h l (by simp)).1
        exact List.ne_nil_of_length_pos (by rw [List.length_map]; exact hpos)
      have := joinOnto_of_ne_nil ls (l.map lower) hl
      simpa [joinOnto, addLabel, dotted] using this

theorem length_joinOnto_le (ls : List Bytes) :
    ∀ name : Bytes, name.length ≤ (joinOnto name ls).length := by
  induction ls with
  | nil => intro name; exact Nat.le_refl _
  | cons l ls ih =>
      intro name
      refine Nat.le_trans ?_ (ih _)
      by_cases h : name.length ≠ 0 <;> simp [addLabel, h]

/-- A name without a NUL in its labels is the whole C string. -/
theorem cstr_dotted {ls : List Bytes} (hplain : ∀ l ∈ ls, 0 ∉ l) :
    cstr (dotted ls) = dotted ls := by
  refine cstr_eq_self ?_
  induction ls with
  | nil => simp [dotted]
  | cons l rest ih =>
      have hl : 0 ∉ l.map lower := fun h => by
        obtain ⟨c, hc, hc0⟩ := List.mem_map.mp h
        exact hplain l (by simp) ((lower_eq_zero c).mp hc0 ▸ hc)
      have hrest : 0 ∉ dotted rest := ih fun l' hl' => hplain l' (by simp [hl'])
      unfold dotted at hrest ⊢
      by_cases hr : rest = []
      · subst hr
        simpa using hl
      · rw [List.map_cons, List.intercalate_cons_of_ne_nil (by simpa using hr)]
        simp only [List.mem_append, List.mem_singleton, not_or]
        exact ⟨⟨hl, by decide⟩, hrest⟩

/-- Joined labels without dots can be told apart, up to case. -/
theorem dotted_inj {ls ls' : List Bytes} (hls : ∀ l ∈ ls, WireLabel l ∧ dot ∉ l)
    (hls' : ∀ l ∈ ls', WireLabel l ∧ dot ∉ l) (h : dotted ls = dotted ls') :
    ls.map (·.map lower) = ls'.map (·.map lower) := by
  have hsplit : ∀ ls : List Bytes, ls ≠ [] → (∀ l ∈ ls, WireLabel l ∧ dot ∉ l) →
      (dotted ls).splitOn dot = ls.map (·.map lower) := by
    intro ls hne hls
    refine List.splitOn_intercalate dot ?_ (by simpa using hne)
    intro l' hl' hdot
    obtain ⟨l, hl, rfl⟩ := List.mem_map.mp hl'
    obtain ⟨c, hc, hcdot⟩ := List.mem_map.mp hdot
    exact (hls l hl).2 ((lower_eq_dot c).mp hcdot ▸ hc)
  -- No labels leave nothing, and one label leaves something.
  have hnil : ∀ ls : List Bytes, (∀ l ∈ ls, WireLabel l ∧ dot ∉ l) → dotted ls = [] → ls = [] := by
    intro ls hls hempty
    by_contra hne
    have hone := hsplit ls hne hls
    rw [hempty, List.splitOn_nil] at hone
    obtain ⟨l, hl⟩ : ∃ l, ls = [l] := List.length_eq_one_iff.mp (by
      have := congrArg List.length hone
      simpa using this.symm)
    subst hl
    have hlen := (hls l (by simp)).1.1
    simp at hone
    subst hone
    simp at hlen
  by_cases hne : ls = []
  · subst hne
    rw [hnil ls' hls' h.symm]
  · have hne' : ls' ≠ [] := by
      rintro rfl
      exact hne (hnil ls hls h)
    rw [← hsplit ls hne hls, ← hsplit ls' hne' hls', h]

/-- A length byte with its two upper bits clear is the length of a label. -/
theorem labelByte (lab : UInt8) : (lab ≠ 0 ∧ lab &&& 0xC0 = 0) ↔
    1 ≤ lab.toNat ∧ lab.toNat ≤ 63 := by
  revert lab
  exact forall_byte (by decide +kernel)

theorem labelByte_length {l : Bytes} (h : WireLabel l) : l.length.toUInt8.toNat = l.length := by
  obtain ⟨-, h2⟩ := h
  simp
  omega

/-! ### The label loop -/

section Loop

variable {pkt : Bytes} {nameSz : Nat}

theorem addLabel_length (name l : Bytes) : (addLabel name l).length =
    name.length + l.length + (if name.length ≠ 0 then 1 else 0) := by
  unfold addLabel
  by_cases h : name.length ≠ 0
  · rw [if_pos h, if_pos h]
    simp
    omega
  · rw [if_neg h, if_neg h]
    simp

/-- The loop behind the end of the packet, -/
theorem parseName_past {off : Nat} {name : Bytes} (h : pkt.drop off = []) :
    parseName pkt nameSz off name = none := by
  have hnone : pkt[off]? = none := by rw [← List.head?_drop, h, List.head?_nil]
  rw [parseName]
  split
  · rfl
  · rename_i lab hlab
    rw [hnone] at hlab
    cases hlab

/-- and on a byte. -/
theorem parseName_byte {off : Nat} {name rest : Bytes} {lab : UInt8}
    (h : pkt.drop off = lab :: rest) :
    parseName pkt nameSz off name =
      if lab = 0 then some (name, off + 1)
      else if lab &&& 0xC0 ≠ 0 ∨ off + 1 + lab.toNat > pkt.length then none
      else if (addLabel name (rest.take lab.toNat)).length ≥ nameSz then none
      else parseName pkt nameSz (off + 1 + lab.toNat) (addLabel name (rest.take lab.toNat)) := by
  have hget : pkt[off]? = some lab := by rw [← List.head?_drop, h, List.head?_cons]
  have hrest : pkt.drop (off + 1) = rest := by rw [← List.drop_drop, h, List.drop_one]; rfl
  have hlen : pkt.length - off = rest.length + 1 := by
    rw [← List.length_drop, h, List.length_cons]
  rw [parseName]
  split
  · rename_i hnone
    rw [hget] at hnone
    cases hnone
  · rename_i lab' hlab
    rw [hget] at hlab
    obtain rfl := Option.some.inj hlab
    by_cases h0 : lab = 0
    · rw [if_pos h0, if_pos h0]
    by_cases hbad : lab &&& 0xC0 ≠ 0 ∨ off + 1 + lab.toNat > pkt.length
    · rw [if_neg h0, if_neg h0, if_pos hbad, if_pos hbad]
    have htake : (rest.take lab.toNat).length = lab.toNat :=
      List.length_take_of_le (by omega)
    rw [if_neg h0, if_neg h0, if_neg hbad, if_neg hbad, addLabel_length, htake, hrest]
    rfl

theorem parseName_end {off : Nat} {name rest : Bytes} (h : pkt.drop off = 0 :: rest) :
    parseName pkt nameSz off name = some (name, off + 1) := by
  rw [parseName_byte h, if_pos rfl]

/-- One turn of the loop over a well-formed label. -/
theorem parseName_label {off : Nat} {name l rest : Bytes} (hl : WireLabel l)
    (h : pkt.drop off = l.length.toUInt8 :: (l ++ rest)) :
    parseName pkt nameSz off name =
      if (addLabel name l).length ≥ nameSz then none
      else parseName pkt nameSz (off + 1 + l.length) (addLabel name l) := by
  have hlen : pkt.length - off = l.length + rest.length + 1 := by
    rw [← List.length_drop, h, List.length_cons, List.length_append]
  have hbyte := labelByte_length hl
  obtain ⟨hne, hbits⟩ := (labelByte l.length.toUInt8).mpr (by rw [hbyte]; exact hl)
  have hgood : ¬ (l.length.toUInt8 &&& 0xC0 ≠ 0 ∨ off + 1 + l.length > pkt.length) :=
    not_or.mpr ⟨not_not.mpr hbits, by omega⟩
  rw [parseName_byte h, if_neg hne, hbyte, if_neg hgood, List.take_left]

/-- Well-formed labels that fit are read. -/
theorem parseName_encode (ls : List Bytes) {rest : Bytes} :
    ∀ (off : Nat) (name : Bytes), (∀ l ∈ ls, WireLabel l) →
      pkt.drop off = encodeLabels ls ++ 0 :: rest →
      (ls = [] ∨ (joinOnto name ls).length < nameSz) →
      parseName pkt nameSz off name =
        some (joinOnto name ls, off + (encodeLabels ls).length + 1) := by
  induction ls with
  | nil => intro off name _ hdrop _; exact parseName_end hdrop
  | cons l ls ih =>
      intro off name hls hdrop hfit
      have hl : WireLabel l := hls l (by simp)
      have hdrop' : pkt.drop off = l.length.toUInt8 :: (l ++ (encodeLabels ls ++ 0 :: rest)) := by
        rw [hdrop]
        simp [encodeLabels]
      have hlong := length_joinOnto_le ls (addLabel name l)
      have hjoin : joinOnto name (l :: ls) = joinOnto (addLabel name l) ls := rfl
      have hsz : (joinOnto name (l :: ls)).length < nameSz := hfit.resolve_left (by simp)
      have hnext : pkt.drop (off + 1 + l.length) = encodeLabels ls ++ 0 :: rest := by
        rw [Nat.add_assoc, ← List.drop_drop, hdrop', Nat.add_comm 1]
        simp
      rw [parseName_label hl hdrop', if_neg (by rw [hjoin] at hsz; omega),
        ih _ _ (fun l' hl' => hls l' (by simp [hl'])) hnext (Or.inr hsz), hjoin]
      simp [encodeLabels]
      omega

/-- Nothing else is. -/
theorem parseName_sound :
    ∀ (n off : Nat) {name out : Bytes} {e : Nat}, pkt.length - off ≤ n →
      parseName pkt nameSz off name = some (out, e) →
      ∃ ls rest, (∀ l ∈ ls, WireLabel l) ∧ pkt.drop off = encodeLabels ls ++ 0 :: rest ∧
        out = joinOnto name ls ∧ (ls = [] ∨ out.length < nameSz) ∧
        e = off + (encodeLabels ls).length + 1 := by
  intro n
  induction n with
  | zero =>
      intro off name out e hn h
      rw [parseName_past (List.drop_eq_nil_of_le (by omega))] at h
      cases h
  | succ n ih =>
      intro off name out e hn h
      rcases hd : pkt.drop off with _ | ⟨lab, tail⟩
      · rw [parseName_past hd] at h
        cases h
      by_cases h0 : lab = 0
      · subst h0
        rw [parseName_end hd] at h
        obtain ⟨rfl, rfl⟩ := Prod.mk.inj (Option.some.inj h)
        exact ⟨[], tail, by simp, rfl, rfl, Or.inl rfl, rfl⟩
      rw [parseName_byte hd, if_neg h0] at h
      by_cases hbad : lab &&& 0xC0 ≠ 0 ∨ off + 1 + lab.toNat > pkt.length
      · rw [if_pos hbad] at h
        cases h
      rw [if_neg hbad] at h
      obtain ⟨hbits, hin⟩ := not_or.mp hbad
      obtain ⟨hlab1, hlab2⟩ := (labelByte lab).mp ⟨h0, not_not.mp hbits⟩
      have hlen : pkt.length - off = tail.length + 1 := by
        rw [← List.length_drop, hd, List.length_cons]
      -- The label is the next `lab` bytes.
      have hlenl : (tail.take lab.toNat).length = lab.toNat :=
        List.length_take_of_le (by omega)
      have hl : WireLabel (tail.take lab.toNat) := by
        rw [WireLabel, hlenl]
        exact ⟨hlab1, hlab2⟩
      by_cases hsz : (addLabel name (tail.take lab.toNat)).length ≥ nameSz
      · rw [if_pos hsz] at h
        cases h
      rw [if_neg hsz] at h
      obtain ⟨ls, rest, hls, hdrop, rfl, hfit, rfl⟩ := ih _ (by omega) h
      have hnext : tail.drop lab.toNat = encodeLabels ls ++ 0 :: rest := by
        rw [← hdrop, Nat.add_assoc, ← List.drop_drop, hd, Nat.add_comm 1]
        rfl
      refine ⟨tail.take lab.toNat :: ls, rest, List.forall_mem_cons.mpr ⟨hl, hls⟩, ?_, rfl,
        Or.inr ?_, ?_⟩
      · rw [← List.take_append_drop lab.toNat tail, hnext]
        simp [encodeLabels, hlenl]
      · rcases hfit with rfl | hfit
        · exact Nat.lt_of_not_le hsz
        · exact hfit
      · simp [encodeLabels, hlenl]
        omega

end Loop

/-! ### What is accepted -/

/-- The header of a query with at least one question: `QR` clear, `QDCOUNT` not 0. -/
structure IsQuery (pkt : Bytes) : Prop where
  length : 12 ≤ pkt.length
  qr : ∀ b, pkt[2]? = some b → b &&& 0x80 = 0
  qdcount : ∀ hi lo, pkt[4]? = some hi → pkt[5]? = some lo → 1 ≤ hi.toNat * 256 + lo.toNat

/-- A packet whose first question has these labels. -/
structure Asks (pkt : Bytes) (nameSz : Nat) (ls : List Bytes) : Prop where
  query : IsQuery pkt
  labels : ∀ l ∈ ls, WireLabel l
  wire : ∃ rest, pkt.drop 12 = encodeLabels ls ++ 0 :: rest ∧ 4 ≤ rest.length
  fits : (dotted ls).length < nameSz

/-- The labels of the first question, read straight off the wire. -/
def wireLabels : Nat → Bytes → List Bytes
  | 0, _ => []
  | _, [] => []
  | n + 1, lab :: rest =>
      if lab = 0 then [] else rest.take lab.toNat :: wireLabels n (rest.drop lab.toNat)

def questionLabels (pkt : Bytes) : List Bytes := wireLabels pkt.length (pkt.drop 12)

theorem wireLabels_encode (ls : List Bytes) (rest : Bytes) :
    ∀ n, (∀ l ∈ ls, WireLabel l) → ls.length < n →
      wireLabels n (encodeLabels ls ++ 0 :: rest) = ls := by
  induction ls with
  | nil =>
      intro n _ hn
      obtain ⟨n, rfl⟩ : ∃ k, n = k + 1 := ⟨n - 1, by simp at hn; omega⟩
      simp [encodeLabels, wireLabels]
  | cons l ls ih =>
      intro n hls hn
      have hl := hls l (by simp)
      have hbyte := labelByte_length hl
      have hne : l.length.toUInt8 ≠ 0 := ((labelByte _).mpr (by rw [hbyte]; exact hl)).1
      obtain ⟨n, rfl⟩ : ∃ k, n = k + 1 := ⟨n - 1, by simp at hn; omega⟩
      have := ih n (fun l' hl' => hls l' (by simp [hl'])) (by simp at hn; omega)
      rw [encodeLabels, List.flatMap_cons, List.cons_append, List.cons_append, List.append_assoc,
        wireLabels, if_neg hne, hbyte, List.take_left, List.drop_left]
      exact congrArg (l :: ·) this

theorem length_le_encodeLabels (ls : List Bytes) : ls.length ≤ (encodeLabels ls).length := by
  induction ls with
  | nil => exact Nat.le_refl _
  | cons l ls ih =>
      rw [encodeLabels, List.flatMap_cons]
      simp only [List.length_append, List.length_cons]
      have : ls.length ≤ (ls.flatMap fun l => l.length.toUInt8 :: l).length := ih
      omega

/-- The labels a packet asks for are the ones read off it. -/
theorem Asks.labels_eq {pkt : Bytes} {nameSz : Nat} {ls : List Bytes} (h : Asks pkt nameSz ls) :
    questionLabels pkt = ls := by
  obtain ⟨rest, hwire, -⟩ := h.wire
  have hlen := congrArg List.length hwire
  have := length_le_encodeLabels ls
  simp at hlen
  unfold questionLabels
  rw [hwire]
  exact wireLabels_encode ls rest _ h.labels (by omega)

theorem parseQuestion_eq {pkt : Bytes} (nameSz : Nat) (h : IsQuery pkt) :
    parseQuestion pkt nameSz =
      (parseName pkt nameSz 12 []).bind fun (name, off) =>
        if off + 4 > pkt.length then none else some (name, off + 4) := by
  have hlen := h.length
  have h2 := List.getElem?_eq_getElem (show 2 < pkt.length by omega)
  have h4 := List.getElem?_eq_getElem (show 4 < pkt.length by omega)
  have h5 := List.getElem?_eq_getElem (show 5 < pkt.length by omega)
  have hqr := h.qr _ h2
  have hqd := h.qdcount _ _ h4 h5
  unfold parseQuestion
  rw [if_neg (by omega), h2, h4, h5]
  simp only [Option.bind_eq_bind, Option.bind_some]
  rw [if_neg (by simpa using hqr), if_neg (by omega)]

theorem isQuery_of_parseQuestion {pkt : Bytes} {nameSz : Nat} {r : Bytes × Nat}
    (h : parseQuestion pkt nameSz = some r) : IsQuery pkt := by
  unfold parseQuestion at h
  split at h
  · cases h
  · rename_i hlen
    have h2 := List.getElem?_eq_getElem (show 2 < pkt.length by omega)
    have h4 := List.getElem?_eq_getElem (show 4 < pkt.length by omega)
    have h5 := List.getElem?_eq_getElem (show 5 < pkt.length by omega)
    rw [h2, h4, h5] at h
    simp only [Option.bind_eq_bind, Option.bind_some] at h
    split at h
    · cases h
    · rename_i hqr
      split at h
      · cases h
      · rename_i hqd
        refine ⟨by omega, ?_, ?_⟩
        · intro b hb
          rw [h2] at hb
          obtain rfl := Option.some.inj hb
          simpa using hqr
        · intro hi lo hhi hlo
          rw [h4] at hhi
          rw [h5] at hlo
          obtain rfl := Option.some.inj hhi
          obtain rfl := Option.some.inj hlo
          omega

/-- **What `parse_question` accepts, and what it returns.** -/
theorem parseQuestion_iff {pkt : Bytes} {nameSz : Nat} (hsz : 0 < nameSz) {name : Bytes}
    {qEnd : Nat} :
    parseQuestion pkt nameSz = some (name, qEnd) ↔
      ∃ ls, Asks pkt nameSz ls ∧ name = dotted ls ∧
        qEnd = 12 + (encodeLabels ls).length + 5 := by
  constructor
  · intro h
    have hq := isQuery_of_parseQuestion h
    rw [parseQuestion_eq nameSz hq] at h
    obtain ⟨⟨out, off⟩, hname, h⟩ := Option.bind_eq_some_iff.mp h
    simp only at h
    obtain ⟨ls, rest, hls, hdrop, rfl, hfit, rfl⟩ := parseName_sound _ 12 (Nat.le_refl _) hname
    rw [joinOnto_nil hls] at h hfit
    have hlen := congrArg List.length hdrop
    simp at hlen
    split at h
    · cases h
    · obtain ⟨rfl, rfl⟩ := Prod.mk.inj (Option.some.inj h)
      refine ⟨ls, ⟨hq, hls, ⟨rest, hdrop, by omega⟩, ?_⟩, rfl, by omega⟩
      rcases hfit with rfl | hfit
      · exact hsz
      · exact hfit
  · rintro ⟨ls, h, rfl, rfl⟩
    obtain ⟨rest, hdrop, hrest⟩ := h.wire
    have hlen := congrArg List.length hdrop
    simp at hlen
    have hfit : (joinOnto [] ls).length < nameSz := by rw [joinOnto_nil h.labels]; exact h.fits
    rw [parseQuestion_eq nameSz h.query, parseName_encode ls 12 [] h.labels hdrop (Or.inr hfit),
      joinOnto_nil h.labels, Option.bind_some]
    simp only
    rw [if_neg (by omega)]

/-- The name of an accepted packet, in terms of the labels on the wire. -/
theorem parseQuestion_labels {pkt : Bytes} {nameSz : Nat} (hsz : 0 < nameSz) {name : Bytes}
    {qEnd : Nat} (h : parseQuestion pkt nameSz = some (name, qEnd)) :
    Asks pkt nameSz (questionLabels pkt) ∧ name = dotted (questionLabels pkt) ∧
      qEnd = 12 + (encodeLabels (questionLabels pkt)).length + 5 := by
  obtain ⟨ls, hasks, hname, hend⟩ := (parseQuestion_iff hsz).mp h
  rw [hasks.labels_eq]
  exact ⟨hasks, hname, hend⟩

example : parseQuestion ([0x12, 0x34, 1, 0, 0, 1, 0, 0, 0, 0, 0, 0] ++
    [3] ++ ascii "aDs" ++ [7] ++ ascii "Example" ++ [0, 0, 1, 0, 1]) dnsMaxName =
      some (ascii "ads.example", 29) := by decide +kernel

end EspHole.Sinkhole
