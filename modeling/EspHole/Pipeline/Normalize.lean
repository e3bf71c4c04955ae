/-
Normalising a blocklist token: `components/blocklist_pipeline/normalize.c`.

A token from a public list is trimmed, loses at most one trailing dot and one `*.`
prefix, and is lower-cased; what is left must be a domain name the sinkhole can look up.
Two hand-written scanners stand in for regular expressions.  `isValidDomainShape` is
the one the rest of the development rests on: `scanShape_iff` says that the character
scanner accepts exactly the strings whose labels, cut at the dots, are all well formed.

`ValidDomain` collects what a name that came out of `normalizeDomain` is known to be.
The two-label floor in it is what makes the sinkhole's left-drop loop complete.
-/
import EspHole.Lib.Ascii

namespace EspHole.Pipeline

open Ascii

/-- `IGNORED_HOSTS` -/
def ignoredHosts : List (List UInt8) :=
  ["localhost", "localhost.localdomain", "local", "broadcasthost",
    "ip6-localhost", "ip6-loopback", "ip6-localnet", "ip6-mcastprefix",
    "ip6-allnodes", "ip6-allrouters", "ip6-allhosts", "0.0.0.0"].map ascii

/-- `is_ignored_host` -/
def isIgnoredHost (s : List UInt8) : Bool := ignoredHosts.any (· == s)

/-- One turn of the loop of `domain_is_ipv4_shape`: a dot before every group but the
first, then one to three digits.  Returns what follows. -/
def ipv4Group (group : Nat) (s : List UInt8) : Option (List UInt8) :=
  let start : Option (List UInt8) :=
    if group > 0 then
      match s with
      | [] => none
      | c :: rest => if c = dot then some rest else none
    else some s
  match start with
  | none => none
  | some s =>
      let glen := (s.takeWhile isDigit).length
      if glen < 1 ∨ glen > 3 then none else some (s.dropWhile isDigit)

/-- `domain_is_ipv4_shape` -/
def domainIsIpv4Shape (s : List UInt8) : Bool :=
  match (List.range 4).foldlM (fun s group => ipv4Group group s) s with
  | none => false
  | some rest => rest.isEmpty

/-- What a label may start with. -/
def labelStart (c : UInt8) : Bool := isAlnum c || c == '_'.toUInt8

/-- What a label may go on with. -/
def labelChar (c : UInt8) : Bool := isAlnum c || c == '_'.toUInt8 || c == '-'.toUInt8

/-- The two nested loops of `is_valid_domain_shape`.  The first argument is
`i - label_start`: at 0 the outer loop is about to start a label, above that the inner
loop is inside one.  The second is `label_count`. -/
def scanShape : Nat → Nat → List UInt8 → Bool
  | 0, labels, [] => 2 ≤ labels
  | 0, labels, c0 :: rest => if labelStart c0 then scanShape 1 labels rest else false
  | n + 1, labels, [] => if n + 1 > 63 then false else 2 ≤ labels + 1
  | n + 1, labels, c :: rest =>
      if c = dot then
        if n + 1 > 63 then false
        else if rest.isEmpty then false -- a trailing dot with nothing after it
        else scanShape 0 (labels + 1) rest
      else if labelChar c then scanShape (n + 2) labels rest
      else false

/-- `is_valid_domain_shape` -/
def isValidDomainShape (s : List UInt8) : Bool := scanShape 0 0 s

/-- `normalize_domain`, with `none` for a token that is not a blockable domain. -/
def normalizeDomain (token : List UInt8) (outSz : Nat) : Option (List UInt8) :=
  let s := trim token
  let s := if s.getLast? = some dot then s.dropLast else s
  let s := if (ascii "*.").isPrefixOf s then s.drop 2 else s
  if s.length = 0 ∨ s.length > 253 ∨ s.length ≥ outSz then none
  else
    let lowered := s.map lower
    if isIgnoredHost lowered || domainIsIpv4Shape lowered then none
    else if lowered.any (0x80 ≤ ·) then none
    else if !isValidDomainShape lowered then none
    else some lowered

/-! ### What the scanner accepts -/

/-- A label of a domain: 1 to 63 bytes, the first of them not a hyphen. -/
structure ValidLabel (l : List UInt8) : Prop where
  start : ∃ c rest, l = c :: rest ∧ labelStart c = true
  chars : ∀ c ∈ l, labelChar c = true
  length : l.length ≤ 63

theorem labelChar_of_start {c : UInt8} (h : labelStart c = true) : labelChar c = true := by
  unfold labelStart at h
  unfold labelChar
  rw [h, Bool.true_or]

theorem labelChar_ne_dot {c : UInt8} (h : labelChar c = true) : c ≠ dot := by
  have key : ∀ c, labelChar c = true → c ≠ dot := forall_byte (by decide +kernel)
  exact key c h

theorem labelChar_ne_zero {c : UInt8} (h : labelChar c = true) : c ≠ 0 := by
  have key : ∀ c, labelChar c = true → c ≠ 0 := forall_byte (by decide +kernel)
  exact key c h

theorem splitOn_dot_cons (rest : List UInt8) :
    (dot :: rest).splitOn dot = [] :: rest.splitOn dot := by
  rw [List.splitOn_cons_eq_if_modifyHead, if_pos (by simp)]

theorem splitOn_cons_of_ne {c : UInt8} (hc : c ≠ dot) {rest l : List UInt8}
    {ls : List (List UInt8)} (h : rest.splitOn dot = l :: ls) :
    (c :: rest).splitOn dot = (c :: l) :: ls := by
  rw [List.splitOn_cons_eq_if_modifyHead, if_neg (by simpa using hc), h]
  rfl

/-- What the scanner decides inside a label, `n + 1` bytes in. -/
def DecidesInside (s : List UInt8) : Prop :=
  ∀ n labels l ls, s.splitOn dot = l :: ls →
    (scanShape (n + 1) labels s = true ↔
      (∀ c ∈ l, labelChar c = true) ∧ n + 1 + l.length ≤ 63 ∧
        (∀ l' ∈ ls, ValidLabel l') ∧ 2 ≤ labels + 1 + ls.length)

/-- What it decides at the start of one. -/
def DecidesAtStart (s : List UInt8) : Prop :=
  ∀ labels, s ≠ [] →
    (scanShape 0 labels s = true ↔
      (∀ l ∈ s.splitOn dot, ValidLabel l) ∧ 2 ≤ labels + (s.splitOn dot).length)

theorem not_validLabel_nil : ¬ ValidLabel ([] : List UInt8) := by
  intro h
  obtain ⟨c, r, hcr, -⟩ := h.start
  cases hcr

theorem decidesInside_nil : DecidesInside [] := by
  intro n labels l ls hsplit
  rw [List.splitOn_nil] at hsplit
  obtain ⟨rfl, rfl⟩ := List.cons.inj hsplit
  unfold scanShape
  by_cases hn : n + 1 > 63
  · rw [if_pos hn]
    simp
    omega
  · rw [if_neg hn]
    simp
    omega

/-- A label that ends here: the next one must not be missing. -/
theorem decidesInside_dot {rest : List UInt8} (hstart : DecidesAtStart rest) :
    DecidesInside (dot :: rest) := by
  intro n labels l ls hsplit
  rw [splitOn_dot_cons] at hsplit
  obtain ⟨rfl, rfl⟩ := List.cons.inj hsplit
  unfold scanShape
  rw [if_pos rfl]
  by_cases hn : n + 1 > 63
  · rw [if_pos hn]
    simp
    omega
  rw [if_neg hn]
  by_cases hemp : rest = []
  · subst hemp
    simp [not_validLabel_nil]
  rw [if_neg (by simpa using hemp), hstart (labels + 1) hemp]
  constructor
  · rintro ⟨hall, hlen⟩
    exact ⟨by simp, by simp; omega, hall, hlen⟩
  · rintro ⟨-, -, hall, hlen⟩
    exact ⟨hall, hlen⟩

/-- A byte of a label. -/
theorem decidesInside_cons {c : UInt8} {rest : List UInt8} (hc : c ≠ dot)
    (hinside : DecidesInside rest) : DecidesInside (c :: rest) := by
  intro n labels l ls hsplit
  obtain ⟨l₀, ls₀, hrest⟩ := List.exists_cons_of_ne_nil (List.splitOn_ne_nil dot rest)
  rw [splitOn_cons_of_ne hc hrest] at hsplit
  obtain ⟨rfl, rfl⟩ := List.cons.inj hsplit
  unfold scanShape
  rw [if_neg hc]
  by_cases hch : labelChar c = true
  · rw [if_pos hch, hinside (n + 1) labels l₀ ls₀ hrest]
    simp only [List.forall_mem_cons, hch, true_and, List.length_cons]
    constructor
    · rintro ⟨h1, h2, h3⟩
      exact ⟨h1, by omega, h3⟩
    · rintro ⟨h1, h2, h3⟩
      exact ⟨h1, by omega, h3⟩
  · rw [if_neg hch]
    simp [hch]

/-- The first byte of a label. -/
theorem decidesAtStart_cons {c : UInt8} {rest : List UInt8} (hinside : DecidesInside rest) :
    DecidesAtStart (c :: rest) := by
  intro labels _
  obtain ⟨l₀, ls₀, hrest⟩ := List.exists_cons_of_ne_nil (List.splitOn_ne_nil dot rest)
  unfold scanShape
  by_cases hst : labelStart c = true
  · have hch := labelChar_of_start hst
    rw [if_pos hst, hinside 0 labels l₀ ls₀ hrest,
      splitOn_cons_of_ne (labelChar_ne_dot hch) hrest]
    simp only [List.forall_mem_cons, List.length_cons]
    constructor
    · rintro ⟨h1, h2, h3, h4⟩
      refine ⟨⟨⟨⟨c, l₀, rfl, hst⟩, ?_, by simp; omega⟩, h3⟩, by omega⟩
      exact List.forall_mem_cons.mpr ⟨hch, h1⟩
    · rintro ⟨⟨hv, h3⟩, h4⟩
      refine ⟨(List.forall_mem_cons.mp hv.chars).2, ?_, h3, by omega⟩
      have hlen := hv.length
      simp only [List.length_cons] at hlen
      omega
  · rw [if_neg hst]
    refine iff_of_false (by simp) ?_
    rintro ⟨hall, -⟩
    -- A label that starts with `c`, or an empty one, is in the way.
    by_cases hc : c = dot
    · subst hc
      rw [splitOn_dot_cons] at hall
      exact not_validLabel_nil (hall [] (by simp))
    · rw [splitOn_cons_of_ne hc hrest] at hall
      obtain ⟨c', r, hcr, hst'⟩ := (hall _ (List.mem_cons_self ..)).start
      obtain ⟨rfl, -⟩ := List.cons.inj hcr
      exact hst hst'

/-- What the scanner decides: inside a label and at the start of one. -/
theorem scanShape_iff (s : List UInt8) : DecidesInside s ∧ DecidesAtStart s := by
  induction s with
  | nil => exact ⟨decidesInside_nil, fun labels h => absurd rfl h⟩
  | cons c rest ih =>
      obtain ⟨ihIn, ihStart⟩ := ih
      refine ⟨?_, decidesAtStart_cons ihIn⟩
      by_cases hc : c = dot
      · exact hc ▸ decidesInside_dot ihStart
      · exact decidesInside_cons hc ihIn

/-- **The scanner accepts what the regular expression describes**: two or more labels,
each well formed. -/
theorem isValidDomainShape_iff (s : List UInt8) :
    isValidDomainShape s = true ↔
      (∀ l ∈ s.splitOn dot, ValidLabel l) ∧ 2 ≤ (s.splitOn dot).length := by
  by_cases hs : s = []
  · subst hs
    simp [isValidDomainShape, scanShape]
  · have := (scanShape_iff s).2 0 hs
    rwa [Nat.zero_add] at this

/-! ### What comes out of the normaliser -/

/-- A domain name in the spelling the generator hashes. -/
structure ValidDomain (d : List UInt8) : Prop where
  labels : ∀ l ∈ d.splitOn dot, ValidLabel l
  twoLabels : 2 ≤ (d.splitOn dot).length
  length : d.length ≤ 253
  lowercase : d.map lower = d

theorem normalizeDomain_valid {token d : List UInt8} {outSz : Nat}
    (h : normalizeDomain token outSz = some d) : ValidDomain d := by
  unfold normalizeDomain at h
  simp only at h
  generalize (if (ascii "*.").isPrefixOf _ then _ else _) = s at h
  split at h
  · cases h
  · rename_i hlen
    split at h
    · cases h
    · split at h
      · cases h
      · split at h
        · cases h
        · rename_i hshape
          obtain rfl := Option.some.inj h
          obtain ⟨hall, htwo⟩ := (isValidDomainShape_iff _).mp (by simpa using hshape)
          refine ⟨hall, htwo, by simp; omega, ?_⟩
          rw [List.map_map]
          exact List.map_congr_left fun c _ => lower_lower c

namespace ValidDomain

variable {d : List UInt8}

/-- A domain has at least one dot. -/
theorem dot_mem (h : ValidDomain d) : dot ∈ d := by
  by_contra hno
  have := h.twoLabels
  rw [List.splitOn_eq_singleton hno] at this
  simp at this

/-- Every byte of a domain is a label character or a dot. -/
theorem chars (h : ValidDomain d) : ∀ c ∈ d, labelChar c = true ∨ c = dot := by
  have hmem : ∀ (ls : List (List UInt8)), (∀ l ∈ ls, ValidLabel l) →
      ∀ c ∈ [dot].intercalate ls, labelChar c = true ∨ c = dot := by
    intro ls
    induction ls with
    | nil => intro _ c hc; simp at hc
    | cons l rest ih =>
        intro hall c hc
        have hl := (hall l (by simp)).chars
        have hrest : ∀ l' ∈ rest, ValidLabel l' := fun l' hl' => hall l' (by simp [hl'])
        by_cases hr : rest = []
        · subst hr
          rw [List.intercalate_singleton] at hc
          exact Or.inl (hl c hc)
        · rw [List.intercalate_cons_of_ne_nil hr] at hc
          simp only [List.mem_append, List.mem_singleton] at hc
          rcases hc with (hc | hc) | hc
          · exact Or.inl (hl c hc)
          · exact Or.inr hc
          · exact ih hrest c hc
  have := hmem _ h.labels
  rwa [List.intercalate_splitOn] at this

/-- No NUL inside, so a C string holds all of it. -/
theorem zero_not_mem (h : ValidDomain d) : 0 ∉ d := by
  intro h0
  rcases h.chars 0 h0 with hc | hc
  · exact labelChar_ne_zero hc rfl
  · exact absurd hc (by decide)

/-- It starts like its first label. -/
theorem head (h : ValidDomain d) : ∃ c rest, d = c :: rest ∧ labelStart c = true := by
  obtain ⟨l, ls, hsplit⟩ := List.exists_cons_of_ne_nil (List.splitOn_ne_nil dot d)
  obtain ⟨c, l', rfl, hc⟩ := (h.labels l (by rw [hsplit]; exact List.mem_cons_self)).start
  have hjoin : [dot].intercalate (d.splitOn dot) = d := List.intercalate_splitOn dot
  rw [hsplit] at hjoin
  cases ls with
  | nil => exact ⟨c, l', by simpa using hjoin.symm, hc⟩
  | cons m ls => exact ⟨c, _, by simpa [List.intercalate_cons_cons] using hjoin.symm, hc⟩

/-- It does not end in a dot. -/
theorem getLast_ne_dot (h : ValidDomain d) : d.getLast? ≠ some dot := by
  intro hlast
  obtain ⟨s, rfl⟩ := List.getLast?_eq_some_iff.mp hlast
  have hempty : [] ∈ (s ++ [dot]).splitOn dot := by
    rw [List.splitOn_append_cons_self]
    simp
  obtain ⟨c, l, hcl, -⟩ := (h.labels [] hempty).start
  cases hcl

/-- What no byte of a domain is. -/
theorem plain (h : ValidDomain d) : ∀ c ∈ d, isSpace c = false ∧ c < 0x80 ∧
    c ≠ '#'.toUInt8 ∧ c ≠ ':'.toUInt8 := by
  have key : ∀ c : UInt8, labelChar c = true ∨ c = dot → isSpace c = false ∧ c < 0x80 ∧
      c ≠ '#'.toUInt8 ∧ c ≠ ':'.toUInt8 := forall_byte (by decide +kernel)
  exact fun c hc => key c (h.chars c hc)

theorem trim_eq (h : ValidDomain d) : trim d = d := trim_eq_self fun c hc => (h.plain c hc).1

end ValidDomain

/-- **A domain is its own normal form**, unless it is one of the names that are never
blockable. -/
theorem normalizeDomain_fixed {d : List UInt8} (h : ValidDomain d)
    (hhost : isIgnoredHost d = false) (hip : domainIsIpv4Shape d = false) :
    normalizeDomain d 256 = some d := by
  obtain ⟨c, rest, hd, hc⟩ := h.head
  have hstar : ((ascii "*.").isPrefixOf d) = false := by
    have hne : c ≠ '*'.toUInt8 := by
      rintro rfl
      exact absurd hc (by decide)
    rw [hd]
    simpa [ascii, List.isPrefixOf] using fun h : '*'.toUInt8 = c => absurd h.symm hne
  have hlen : ¬ (d.length = 0 ∨ d.length > 253 ∨ d.length ≥ 256) := by
    have := h.length
    have : d.length = rest.length + 1 := by rw [hd]; rfl
    omega
  have hhigh : d.any (0x80 ≤ ·) = false := by
    simpa using fun c hc => (h.plain c hc).2.1
  have hshape := (isValidDomainShape_iff d).mpr ⟨h.labels, h.twoLabels⟩
  unfold normalizeDomain
  simp only [h.trim_eq, if_neg h.getLast_ne_dot, hstar, Bool.false_eq_true, if_false,
    if_neg hlen, h.lowercase, hhost, hip, hhigh, hshape, Bool.or_false, Bool.not_true]

example : normalizeDomain (ascii " *.ADS.Example.com.") 256 = some (ascii "ads.example.com") := by
  decide +kernel

end EspHole.Pipeline
