/-
What the normaliser accepts, as regular expressions.

The two scanners of `normalize.c` stand for expressions that its comments and its origin
write out.  Both expressions are lists separated by dots, so each scanner is compared with
the labels its string splits into, and the labels with their class.  `normalize_grammar`
states the whole of `normalize_domain` with them; that it leaves its own output alone is
then a fact about the canonical spelling.
-/
import EspHole.Basic
import EspHole.Lib.Regex
import EspHole.Pipeline.Normalize

namespace EspHole.Pipeline

open Ascii RegularExpression

/-! ### The expressions -/

/-- `[0-9]{1,3}` -/
def groupRe : RegularExpression UInt8 :=
  oneOf (ascii "0123456789") * atMost (oneOf (ascii "0123456789")) 2

/-- `[0-9]{1,3}(\.[0-9]{1,3}){3}` -/
def ipv4Re : RegularExpression UInt8 := groupRe * (char dot * groupRe) ^ 3

/-- `[a-z0-9_][a-z0-9_-]{0,62}` -/
def labelRe : RegularExpression UInt8 :=
  oneOf (ascii "abcdefghijklmnopqrstuvwxyz0123456789_") *
    atMost (oneOf (ascii "abcdefghijklmnopqrstuvwxyz0123456789_-")) 62

/-- `[a-z0-9_][a-z0-9_-]{0,62}(\.[a-z0-9_][a-z0-9_-]{0,62})+` -/
def domainRe : RegularExpression UInt8 := labelRe * oneOrMore (char dot * labelRe)

/-! ### Addresses -/

/-- One to three digits. -/
structure Ipv4Group (l : Bytes) : Prop where
  digits : ∀ c ∈ l, isDigit c = true
  length : 1 ≤ l.length ∧ l.length ≤ 3

theorem mem_digits (c : UInt8) : c ∈ ascii "0123456789" ↔ isDigit c = true := by
  revert c
  exact forall_byte (by decide +kernel)

theorem mem_groupRe {l : Bytes} : l ∈ groupRe.matches' ↔ Ipv4Group l := by
  unfold groupRe
  rw [mem_oneOf_mul]
  constructor
  · rintro ⟨c, rest, rfl, hc, hrest⟩
    obtain ⟨hlen, hmem⟩ := mem_atMost_oneOf.mp hrest
    refine ⟨List.forall_mem_cons.mpr ⟨(mem_digits c).mp hc, fun d hd => ?_⟩, by simp,
      Nat.succ_le_succ hlen⟩
    exact (mem_digits d).mp (hmem d hd)
  · rintro ⟨hdigits, hlo, hhi⟩
    obtain ⟨c, rest, rfl⟩ := List.exists_cons_of_length_pos hlo
    obtain ⟨hc, hrest⟩ := List.forall_mem_cons.mp hdigits
    exact ⟨c, rest, rfl, (mem_digits c).mpr hc,
      mem_atMost_oneOf.mpr ⟨Nat.le_of_succ_le_succ hhi,
        fun d hd => (mem_digits d).mpr (hrest d hd)⟩⟩

/-- What stands before the digits of a group. -/
def groupSep (group : Nat) : Bytes := if group > 0 then [dot] else []

/-- **One turn of the address scanner** takes a separator and one to three digits, all there
are. -/
theorem ipv4Group_eq_some {group : Nat} {s rest : Bytes} :
    ipv4Group group s = some rest ↔
      ∃ l, Ipv4Group l ∧ s = groupSep group ++ (l ++ rest) ∧
        ∀ c ∈ rest.head?, isDigit c = false := by
  have hdigits : ∀ t : Bytes, (if (t.takeWhile isDigit).length < 1 ∨
      (t.takeWhile isDigit).length > 3 then none else some (t.dropWhile isDigit)) = some rest ↔
        ∃ l, Ipv4Group l ∧ t = l ++ rest ∧ ∀ c ∈ rest.head?, isDigit c = false := by
    intro t
    constructor
    · intro h
      split at h
      · cases h
      · rename_i hlen
        obtain rfl := Option.some.inj h
        refine ⟨t.takeWhile isDigit, ⟨fun c hc => List.mem_takeWhile_imp hc, by omega⟩,
          List.takeWhile_append_dropWhile.symm, fun c hc => ?_⟩
        have := List.head?_dropWhile_not isDigit t
        rw [Option.mem_def.mp hc] at this
        simpa using this
    · rintro ⟨l, hl, rfl, hrest⟩
      have hlen := hl.length
      rw [takeWhile_append_stop hl.digits hrest, dropWhile_append_stop hl.digits hrest,
        if_neg (by omega)]
  unfold ipv4Group groupSep
  by_cases hgroup : group > 0
  · simp only [hgroup, if_true]
    cases s with
    | nil => simp
    | cons c s =>
        by_cases hc : c = dot
        · subst hc
          simpa using hdigits s
        · simp [hc]
  · simp only [hgroup, if_false, List.nil_append]
    exact hdigits s

theorem domainIsIpv4Shape_groups (s : Bytes) : domainIsIpv4Shape s = true ↔
    ∃ s₁ s₂ s₃, ipv4Group 0 s = some s₁ ∧ ipv4Group 1 s₁ = some s₂ ∧ ipv4Group 2 s₂ = some s₃ ∧
      ipv4Group 3 s₃ = some [] := by
  have hfold : (List.range 4).foldlM (fun s group => ipv4Group group s) s =
      (ipv4Group 0 s).bind fun s₁ => (ipv4Group 1 s₁).bind fun s₂ => (ipv4Group 2 s₂).bind fun s₃ =>
        (ipv4Group 3 s₃).bind some := rfl
  have hend : domainIsIpv4Shape s = true ↔
      (List.range 4).foldlM (fun s group => ipv4Group group s) s = some [] := by
    unfold domainIsIpv4Shape
    rcases (List.range 4).foldlM (fun s group => ipv4Group group s) s with _ | rest <;> simp
  rw [hend, hfold]
  simp only [Option.bind_eq_some_iff, Option.some.injEq, exists_eq_right]
  constructor
  · rintro ⟨s₁, h₁, s₂, h₂, s₃, h₃, h₄⟩
    exact ⟨s₁, s₂, s₃, h₁, h₂, h₃, h₄⟩
  · rintro ⟨s₁, s₂, s₃, h₁, h₂, h₃, h₄⟩
    exact ⟨s₁, h₁, s₂, h₂, s₃, h₃, h₄⟩

/-- **The address scanner accepts what the expression describes.** -/
theorem domainIsIpv4Shape_iff (s : Bytes) : domainIsIpv4Shape s = true ↔ s ∈ ipv4Re.matches' := by
  unfold ipv4Re
  rw [domainIsIpv4Shape_groups, mem_mul_pow]
  constructor
  · rintro ⟨s₁, s₂, s₃, h₁, h₂, h₃, h₄⟩
    obtain ⟨a, ha, rfl, -⟩ := ipv4Group_eq_some.mp h₁
    obtain ⟨b, hb, rfl, -⟩ := ipv4Group_eq_some.mp h₂
    obtain ⟨c, hc, rfl, -⟩ := ipv4Group_eq_some.mp h₃
    obtain ⟨d, hd, rfl, -⟩ := ipv4Group_eq_some.mp h₄
    refine ⟨[a, b, c, d], rfl, ?_, ?_⟩
    · simpa [mem_groupRe] using ⟨ha, hb, hc, hd⟩
    · simp [groupSep, List.intercalate_cons_cons]
  · rintro ⟨ls, hlen, hls, rfl⟩
    obtain ⟨a, b, c, d, rfl⟩ := List.length_eq_four.mp hlen
    simp only [mem_groupRe, List.forall_mem_cons] at hls
    obtain ⟨ha, hb, hc, hd, -⟩ := hls
    have hdot : ∀ rest : Bytes, ∀ x ∈ (dot :: rest).head?, isDigit x = false := by
      rintro rest x ⟨⟩
      decide
    refine ⟨dot :: (b ++ dot :: (c ++ dot :: d)), dot :: (c ++ dot :: d), dot :: d,
      ipv4Group_eq_some.mpr ⟨a, ha, ?_, hdot _⟩, ipv4Group_eq_some.mpr ⟨b, hb, rfl, hdot _⟩,
      ipv4Group_eq_some.mpr ⟨c, hc, rfl, hdot _⟩,
      ipv4Group_eq_some.mpr ⟨d, hd, by simp [groupSep], by simp⟩⟩
    simp [groupSep, List.intercalate_cons_cons]

/-! ### Domains -/

theorem mem_labelStart (c : UInt8) : c ∈ ascii "abcdefghijklmnopqrstuvwxyz0123456789_" ↔
    labelStart c = true ∧ lower c = c := by
  revert c
  exact forall_byte (by decide +kernel)

theorem mem_labelChar (c : UInt8) : c ∈ ascii "abcdefghijklmnopqrstuvwxyz0123456789_-" ↔
    labelChar c = true ∧ lower c = c := by
  revert c
  exact forall_byte (by decide +kernel)

/-- A lower-case label. -/
theorem mem_labelRe {l : Bytes} : l ∈ labelRe.matches' ↔ ValidLabel l ∧ ∀ c ∈ l, lower c = c := by
  unfold labelRe
  rw [mem_oneOf_mul]
  constructor
  · rintro ⟨c, rest, rfl, hc, hrest⟩
    obtain ⟨hlen, hmem⟩ := mem_atMost_oneOf.mp hrest
    obtain ⟨hstart, hlower⟩ := (mem_labelStart c).mp hc
    refine ⟨⟨⟨c, rest, rfl, hstart⟩, ?_, Nat.succ_le_succ hlen⟩, ?_⟩
    · exact List.forall_mem_cons.mpr ⟨labelChar_of_start hstart,
        fun d hd => ((mem_labelChar d).mp (hmem d hd)).1⟩
    · exact List.forall_mem_cons.mpr ⟨hlower, fun d hd => ((mem_labelChar d).mp (hmem d hd)).2⟩
  · rintro ⟨⟨⟨c, rest, rfl, hstart⟩, hchars, hlen⟩, hlower⟩
    obtain ⟨-, hchars⟩ := List.forall_mem_cons.mp hchars
    obtain ⟨hlower, hlowers⟩ := List.forall_mem_cons.mp hlower
    refine ⟨c, rest, rfl, (mem_labelStart c).mpr ⟨hstart, hlower⟩, mem_atMost_oneOf.mpr
      ⟨Nat.le_of_succ_le_succ hlen, fun d hd => (mem_labelChar d).mpr ⟨hchars d hd, hlowers d hd⟩⟩⟩

/-- A byte of a label is one of the whole. -/
theorem mem_of_mem_splitOn {c : UInt8} {l s : Bytes} (hl : l ∈ s.splitOn dot) (hc : c ∈ l) :
    c ∈ s := by
  obtain ⟨l₀, ls, hsplit⟩ := List.exists_cons_of_ne_nil (List.splitOn_ne_nil dot s)
  have hjoin : [dot].intercalate (s.splitOn dot) = s := List.intercalate_splitOn dot
  rw [hsplit, intercalate_cons_eq] at hjoin
  rw [hsplit] at hl
  rw [← hjoin, List.mem_append]
  rcases List.mem_cons.mp hl with rfl | hl
  · exact Or.inl hc
  · exact Or.inr (List.mem_flatten.mpr ⟨dot :: l, List.mem_map.mpr ⟨l, hl, rfl⟩,
      List.mem_cons_of_mem dot hc⟩)

/-- **The domain scanner accepts what the expression describes**, on lower case. -/
theorem isValidDomainShape_mem {s : Bytes} (hlower : s.map lower = s) :
    isValidDomainShape s = true ↔ s ∈ domainRe.matches' := by
  have hsep : ∀ l ∈ labelRe.matches', dot ∉ l := fun l hl hdot =>
    labelChar_ne_dot ((mem_labelRe.mp hl).1.chars dot hdot) rfl
  have hbytes : ∀ c ∈ s, lower c = c :=
    List.map_eq_map_iff.mp (hlower.trans (List.map_id s).symm)
  unfold domainRe
  rw [mem_separated hsep, isValidDomainShape_iff, and_comm]
  refine and_congr_right fun _ => forall₂_congr fun l hl => ?_
  rw [mem_labelRe]
  exact ⟨fun h => ⟨h, fun c hc => hbytes c (mem_of_mem_splitOn hl hc)⟩, fun h => h.1⟩

/-! ### The normaliser -/

/-- The spelling of a token that is looked at: without white space around it, without one dot
behind and one `*.` in front, and in lower case. -/
def canonical (token : Bytes) : Bytes :=
  let s := trim token
  let s := if s.getLast? = some dot then s.dropLast else s
  let s := if (ascii "*.").isPrefixOf s then s.drop 2 else s
  s.map lower

/-- What may be blocked. -/
structure Blockable (s : Bytes) : Prop where
  length : 1 ≤ s.length ∧ s.length ≤ 253
  domain : s ∈ domainRe.matches'
  hosts : s ∉ ignoredHosts
  address : s ∉ ipv4Re.matches'

/-- `normalize_domain` with its out parameter: what it returns, and what the buffer holds
then. -/
def normalizeDomainOut (token out : Bytes) : Nat × Bytes :=
  match normalizeDomain token out.length with
  | none => (0, out)
  | some d => (d.length, d ++ 0 :: out.drop (d.length + 1))

theorem lower_canonical (token : Bytes) : (canonical token).map lower = canonical token := by
  unfold canonical
  rw [List.map_map]
  exact List.map_congr_left fun c _ => lower_lower c

theorem isIgnoredHost_iff (s : Bytes) : isIgnoredHost s = true ↔ s ∈ ignoredHosts := by
  unfold isIgnoredHost
  simp

/-- What may be blocked is a domain in the sense of the normaliser. -/
theorem Blockable.validDomain {s : Bytes} (h : Blockable s) (hlower : s.map lower = s) :
    ValidDomain s := by
  obtain ⟨hall, htwo⟩ :=
    (isValidDomainShape_iff s).mp ((isValidDomainShape_mem hlower).mpr h.domain)
  exact ⟨hall, htwo, h.length.2, hlower⟩

theorem Blockable.fixed {s : Bytes} (h : Blockable s) (hlower : s.map lower = s) :
    normalizeDomain s 256 = some s := by
  refine normalizeDomain_fixed (h.validDomain hlower) ?_ ?_
  · rw [Bool.eq_false_iff, ne_eq, isIgnoredHost_iff]
    exact h.hosts
  · rw [Bool.eq_false_iff, ne_eq, domainIsIpv4Shape_iff]
    exact h.address

/-- **The normaliser returns the canonical spelling of what may be blocked**, and nothing of
anything else. -/
theorem normalizeDomain_eq_some {token d : Bytes} :
    normalizeDomain token 256 = some d ↔ d = canonical token ∧ Blockable (canonical token) := by
  have hlower := lower_canonical token
  have hshape := isValidDomainShape_mem hlower
  have haddress := domainIsIpv4Shape_iff (canonical token)
  have hhosts := isIgnoredHost_iff (canonical token)
  unfold normalizeDomain
  simp only
  generalize hs : (if (ascii "*.").isPrefixOf _ then _ else _) = s
  have hcanon : s.map lower = canonical token := by
    rw [← hs]
    rfl
  have hlen : s.length = (canonical token).length := by rw [← hcanon, List.length_map]
  rw [hcanon, hlen]
  constructor
  · intro h
    split at h
    · cases h
    rename_i hbounds
    split at h
    · cases h
    rename_i hname
    split at h
    · cases h
    split at h
    · cases h
    rename_i hvalid
    obtain rfl := Option.some.inj h
    rw [Bool.or_eq_true, not_or] at hname
    exact ⟨rfl, by omega, hshape.mp (by simpa using hvalid), fun hm => hname.1 (hhosts.mpr hm),
      fun hm => hname.2 (haddress.mpr hm)⟩
  · rintro ⟨rfl, h⟩
    have hbounds := h.length
    have hplain := (h.validDomain hlower).plain
    have hascii : ¬ (canonical token).any (0x80 ≤ ·) = true := by
      rw [Bool.not_eq_true]
      simpa using fun c hc => (hplain c hc).2.1
    have hname : ¬ (isIgnoredHost (canonical token) ||
        domainIsIpv4Shape (canonical token)) = true := by
      rw [Bool.or_eq_true, not_or]
      exact ⟨fun hm => h.hosts (hhosts.mp hm), fun hm => h.address (haddress.mp hm)⟩
    rw [if_neg (by omega), if_neg hname, if_neg hascii, hshape.mpr h.domain]
    rfl

/-- **`normalize_domain` accepts exactly its grammar, and its output is its own normal
form.** -/
theorem normalize_grammar (token out : Bytes) (hout : out.length = 256) :
    ((normalizeDomainOut token out).1 ≠ 0 ↔ Blockable (canonical token)) ∧
    ((normalizeDomainOut token out).1 ≠ 0 →
      normalizeDomainOut token out = ((canonical token).length,
        canonical token ++ 0 :: out.drop ((canonical token).length + 1)) ∧
      cstr (normalizeDomainOut token out).2 = canonical token ∧
      ∀ out' : Bytes, out'.length = 256 →
        normalizeDomainOut (canonical token) out' = ((canonical token).length,
          canonical token ++ 0 :: out'.drop ((canonical token).length + 1))) := by
  have hnone : ¬ Blockable (canonical token) → normalizeDomainOut token out = (0, out) := by
    intro h
    have hn : normalizeDomain token 256 = none := by
      rw [Option.eq_none_iff_forall_ne_some]
      exact fun d hd => h (normalizeDomain_eq_some.mp hd).2
    unfold normalizeDomainOut
    rw [hout, hn]
  have hsome : Blockable (canonical token) → normalizeDomainOut token out =
      ((canonical token).length,
        canonical token ++ 0 :: out.drop ((canonical token).length + 1)) := by
    intro h
    unfold normalizeDomainOut
    rw [hout, normalizeDomain_eq_some.mpr ⟨rfl, h⟩]
  have hiff : (normalizeDomainOut token out).1 ≠ 0 ↔ Blockable (canonical token) := by
    by_cases h : Blockable (canonical token)
    · have := h.length.1
      rw [hsome h]
      exact ⟨fun _ => h, fun _ => by simp only; omega⟩
    · rw [hnone h]
      simp [h]
  refine ⟨hiff, fun hne => ?_⟩
  have h := hiff.mp hne
  refine ⟨hsome h, ?_, fun out' hout' => ?_⟩
  · have hplain := (h.validDomain (lower_canonical token)).zero_not_mem
    rw [hsome h]
    refine takeWhile_append_stop (fun c hc => ?_) ?_
    · simp only [ne_eq, decide_eq_true_eq]
      rintro rfl
      exact hplain hc
    · rintro c ⟨⟩
      rfl
  · unfold normalizeDomainOut
    rw [hout', h.fixed (lower_canonical token)]

/-- A name in capitals, with its star and its dot. -/
theorem normalize_grammar_shop :
    normalizeDomainOut (ascii " *.Shop.EXAMPLE.\n") (List.replicate 256 0) =
      ((canonical (ascii " *.Shop.EXAMPLE.\n")).length,
        canonical (ascii " *.Shop.EXAMPLE.\n") ++ 0 ::
          (List.replicate 256 0).drop ((canonical (ascii " *.Shop.EXAMPLE.\n")).length + 1)) :=
  ((normalize_grammar (ascii " *.Shop.EXAMPLE.\n") (List.replicate 256 0)
    (List.length_replicate ..)).2 (by decide +kernel)).1

example : canonical (ascii " *.Shop.EXAMPLE.\n") = ascii "shop.example" := by decide +kernel

end EspHole.Pipeline
