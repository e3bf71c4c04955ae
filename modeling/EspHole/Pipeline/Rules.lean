/-
The rules of an ad-block list that the generator has no use for.

`parse.h` promises a narrow subset: of the rules only `||domain^` blocks.  Comments start
at the first `#`, though, and they are cut off before the kind of the line is looked at.  So
a cosmetic rule, `domain##selector`, is read as the bare domain in front of it, and the
site it repairs is blocked.  `otherRule_silent` says for every rule of another kind exactly
when it stays silent.
-/
import EspHole.Pipeline.Line

namespace EspHole.Pipeline

open Ascii RegularExpression

/-! ### The rules -/

/-- A domain, in capitals or not. -/
def IsDomain (d : Bytes) : Prop := ValidDomain (d.map lower)

/-- The body of an exact rule: it ends in `^`, and has no other mark, path, wildcard or
modifier. -/
def ExactBody (body : Bytes) : Prop :=
  ascii "^" <:+ body ∧ Unmarked body.dropLast

/-- Rules that are not of the form `||domain^`. -/
inductive OtherRule : Bytes → Prop
  | comment (rest : Bytes) : OtherRule (ascii "!" ++ rest)
  | header (rest : Bytes) : OtherRule (ascii "[" ++ rest)
  | exception (rest : Bytes) : OtherRule (ascii "@@" ++ rest)
  | anchored {body : Bytes} (h : ¬ ExactBody body) : OtherRule (ascii "||" ++ body)
  | cosmetic {domain : Bytes} (selector : Bytes) (h : IsDomain domain) :
      OtherRule (domain ++ (ascii "##" ++ selector))
  | cosmeticException {domain : Bytes} (selector : Bytes) (h : IsDomain domain) :
      OtherRule (domain ++ (ascii "#@#" ++ selector))

/-- Rules of which something that blocks is left when the rest is taken for a comment. -/
inductive Stripped : Bytes → Prop
  | cosmetic {domain : Bytes} (rest : Bytes) (h : IsDomain domain)
      (hosts : isIgnoredHost (domain.map lower) = false)
      (address : domainIsIpv4Shape domain = false) :
      Stripped (domain ++ '#'.toUInt8 :: rest)
  | anchored {name pad : Bytes} (rest : Bytes) (marks : ∀ c ∈ name, c ∉ ascii "/^*$|#")
      (spaces : ∀ c ∈ pad, isSpace c = true) (h : Blockable (canonical name)) :
      Stripped (ascii "||" ++ (name ++ (ascii "^" ++ (pad ++ '#'.toUInt8 :: rest))))

/-! ### Cutting the comment off -/

/-- White space behind is dropped, -/
theorem rdropWhile_append_spaces {s pad : Bytes} (hpad : ∀ c ∈ pad, isSpace c = true) :
    (s ++ pad).rdropWhile isSpace = s.rdropWhile isSpace := by
  unfold List.rdropWhile
  rw [List.reverse_append, List.dropWhile_append_of_pos]
  exact fun c hc => hpad c (List.mem_reverse.mp hc)

/-- and no more than that. -/
theorem rdropWhile_append_plain {s : Bytes} (hs : ∀ c ∈ s, isSpace c = false) (rest : Bytes) :
    (s ++ rest).rdropWhile isSpace = s ++ rest.rdropWhile isSpace := by
  induction rest using List.reverseRecOn with
  | nil =>
      rw [List.append_nil, List.rdropWhile_nil, List.append_nil, List.rdropWhile_eq_self_iff]
      intro hne
      simp [hs _ (List.getLast_mem hne)]
  | append_singleton rest c ih =>
      rw [← List.append_assoc]
      by_cases hc : isSpace c = true
      · rw [List.rdropWhile_concat_pos _ _ _ hc, List.rdropWhile_concat_pos _ _ _ hc, ih]
      · rw [List.rdropWhile_concat_neg _ _ _ hc, List.rdropWhile_concat_neg _ _ _ hc,
          List.append_assoc]

theorem ne_hash_of_isSpace {c : UInt8} (h : isSpace c = true) : c ≠ '#'.toUInt8 := by
  rintro rfl
  exact absurd h (by decide)

/-- In front, trimming and cutting do not meet. -/
theorem takeWhile_dropWhile_comm (line : Bytes) :
    (line.takeWhile (· ≠ '#'.toUInt8)).dropWhile isSpace =
      (line.dropWhile isSpace).takeWhile (· ≠ '#'.toUInt8) := by
  induction line with
  | nil => rfl
  | cons c line ih =>
      by_cases hspace : isSpace c = true
      · rw [List.takeWhile_cons_of_pos (by simpa using ne_hash_of_isSpace hspace),
          List.dropWhile_cons_of_pos hspace, List.dropWhile_cons_of_pos hspace, ih]
      · rw [List.dropWhile_cons_of_neg hspace]
        by_cases hhash : c = '#'.toUInt8
        · rw [List.takeWhile_cons_of_neg (by simpa using hhash), List.dropWhile_nil]
        · rw [List.takeWhile_cons_of_pos (by simpa using hhash), List.dropWhile_cons_of_neg hspace]

/-- **The text of a line is the text of its rule**: the white space around the rule makes no
difference. -/
theorem lineText_trim (line : Bytes) :
    lineText line = ((trim line).takeWhile (· ≠ '#'.toUInt8)).rdropWhile isSpace := by
  unfold lineText trim
  rw [takeWhile_dropWhile_comm]
  generalize line.dropWhile isSpace = s
  have hsplit : s.rdropWhile isSpace ++ s.rtakeWhile isSpace = s :=
    List.rdropWhile_append_rtakeWhile
  have hspaces : ∀ c ∈ s.rtakeWhile isSpace, isSpace c = true := fun c hc =>
    List.mem_rtakeWhile_imp hc
  generalize s.rdropWhile isSpace = r at hsplit
  generalize s.rtakeWhile isSpace = pad at hsplit hspaces
  rw [← hsplit, List.takeWhile_append]
  split
  · rename_i hall
    have hcut : r.takeWhile (· ≠ '#'.toUInt8) = r :=
      (List.takeWhile_prefix _).eq_of_length hall
    have hpad : pad.takeWhile (· ≠ '#'.toUInt8) = pad :=
      List.takeWhile_eq_self_iff.mpr fun c hc => by
        simpa using ne_hash_of_isSpace (hspaces c hc)
    rw [hcut, hpad, rdropWhile_append_spaces hspaces]
  · rfl

/-- What the text of a rule begins with, if it is plain. -/
theorem prefix_lineText {line pre rest : Bytes} (h : trim line = pre ++ rest)
    (hpre : ∀ c ∈ pre, isSpace c = false ∧ c ≠ '#'.toUInt8) :
    lineText line = pre ++ (rest.takeWhile (· ≠ '#'.toUInt8)).rdropWhile isSpace := by
  rw [lineText_trim, h, List.takeWhile_append_of_pos fun c hc => by simpa using (hpre c hc).2,
    rdropWhile_append_plain fun c hc => (hpre c hc).1]

/-! ### Domains as lines -/

namespace IsDomain

variable {d : Bytes}

/-- What no byte of a domain is. -/
theorem plain (h : IsDomain d) : ∀ c ∈ d, isSpace c = false ∧ c ∉ ascii "#:*|![@" := by
  have key : ∀ c : UInt8, labelChar (lower c) = true ∨ lower c = dot →
      isSpace c = false ∧ c ∉ ascii "#:*|![@" := forall_byte (by decide +kernel)
  exact fun c hc => key c (h.chars (lower c) (List.mem_map_of_mem hc))

theorem ne_nil (h : IsDomain d) : d ≠ [] := by
  rintro rfl
  obtain ⟨c, rest, hd, -⟩ := h.head
  cases hd

/-- It starts with none of the marks of a rule. -/
theorem not_mark (h : IsDomain d) {c : UInt8} (hc : c ∈ ascii "#:*|![@") (rest : Bytes) :
    ¬ c :: rest <+: d := fun hpre =>
  (h.plain c (hpre.subset List.mem_cons_self)).2 hc

/-- Its canonical spelling is in lower case. -/
theorem canonical_eq (h : IsDomain d) : canonical d = d.map lower := by
  have hlast : ¬ d.getLast? = some dot := by
    intro hdot
    obtain ⟨s, rfl⟩ := List.getLast?_eq_some_iff.mp hdot
    have hlower := h.getLast_ne_dot
    rw [List.map_append] at hlower
    exact hlower (List.getLast?_eq_some_iff.mpr ⟨s.map lower, rfl⟩)
  have hstar : ¬ (ascii "*.").isPrefixOf d = true := fun hpre =>
    h.not_mark (by decide) _ (List.isPrefixOf_iff_prefix.mp hpre)
  unfold canonical
  rw [trim_eq_self fun c hc => (h.plain c hc).1]
  dsimp only
  rw [if_neg hlast, if_neg hstar]

theorem words_eq (h : IsDomain d) : words d = [d] := by
  have happend : words (d ++ []) = d :: words [] :=
    words_append h.ne_nil (fun c hc => (h.plain c hc).1) (by simp)
  rwa [List.append_nil] at happend

end IsDomain

theorem isDigit_lower (c : UInt8) : isDigit (lower c) = isDigit c := by
  revert c
  exact forall_byte (by decide +kernel)

theorem ipv4Group_lower (group : Nat) (s : Bytes) :
    ipv4Group group (s.map lower) = (ipv4Group group s).map (List.map lower) := by
  have hdigits : ∀ t : Bytes, (if ((t.map lower).takeWhile isDigit).length < 1 ∨
      ((t.map lower).takeWhile isDigit).length > 3 then none
      else some ((t.map lower).dropWhile isDigit)) =
        (if (t.takeWhile isDigit).length < 1 ∨ (t.takeWhile isDigit).length > 3 then none
          else some (t.dropWhile isDigit)).map (List.map lower) := by
    intro t
    have hdigit : isDigit ∘ lower = isDigit := funext isDigit_lower
    rw [List.takeWhile_map, List.dropWhile_map, hdigit, List.length_map]
    split <;> rfl
  unfold ipv4Group
  by_cases hgroup : group > 0
  · simp only [hgroup, if_true]
    cases s with
    | nil => rfl
    | cons c s =>
        by_cases hc : c = dot
        · subst hc
          exact hdigits s
        · simp [hc, (lower_eq_dot c).not.mpr hc]
  · simp only [hgroup, if_false]
    exact hdigits s

/-- Capitals do not make an address. -/
theorem domainIsIpv4Shape_lower (s : Bytes) :
    domainIsIpv4Shape (s.map lower) = domainIsIpv4Shape s := by
  have hgroups : ∀ (groups : List Nat) (s : Bytes),
      groups.foldlM (fun s group => ipv4Group group s) (s.map lower) =
        (groups.foldlM (fun s group => ipv4Group group s) s).map (List.map lower) := by
    intro groups
    induction groups with
    | nil => intro s; rfl
    | cons group groups ih =>
        intro s
        rw [List.foldlM_cons, List.foldlM_cons, ipv4Group_lower]
        rcases ipv4Group group s with _ | rest
        · rfl
        · exact ih rest
  unfold domainIsIpv4Shape
  rw [hgroups]
  rcases (List.range 4).foldlM (fun s group => ipv4Group group s) s with _ | rest
  · rfl
  · simp

/-- **A domain may be blocked**, unless it is one of the names that never are. -/
theorem IsDomain.blockable_iff {d : Bytes} (h : IsDomain d) :
    Blockable (canonical d) ↔
      isIgnoredHost (d.map lower) = false ∧ domainIsIpv4Shape d = false := by
  rw [h.canonical_eq, ← domainIsIpv4Shape_lower, Bool.eq_false_iff, Bool.eq_false_iff, ne_eq,
    ne_eq, isIgnoredHost_iff, domainIsIpv4Shape_iff]
  constructor
  · exact fun hb => ⟨hb.hosts, hb.address⟩
  · rintro ⟨hhosts, haddress⟩
    refine ⟨⟨?_, h.length⟩, (isValidDomainShape_mem h.lowercase).mp
      ((isValidDomainShape_iff _).mpr ⟨h.labels, h.twoLabels⟩), hhosts, haddress⟩
    rw [List.length_map]
    exact List.length_pos_of_ne_nil h.ne_nil

/-! ### What the format makes of a rule -/

/-- The normaliser refuses what may not be blocked. -/
theorem normalizeDomain_eq_none {token : Bytes} :
    normalizeDomain token 256 = none ↔ ¬ Blockable (canonical token) := by
  rw [Option.eq_none_iff_forall_ne_some]
  exact ⟨fun h hb => h _ (normalizeDomain_eq_some.mpr ⟨rfl, hb⟩),
    fun h d hd => h (normalizeDomain_eq_some.mp hd).2⟩

/-- A comment, a header and an exception emit nothing. -/
theorem lineFormat_ignored {text : Bytes}
    (h : ascii "!" <+: text ∨ ascii "[" <+: text ∨ ascii "@@" <+: text) : lineFormat text = [] := by
  unfold lineFormat
  rw [if_pos (Or.inr h)]

/-- **A domain is emitted**, unless it is one of the names that are never blockable. -/
theorem lineFormat_domain {d : Bytes} (h : IsDomain d) :
    lineFormat d = [] ↔ isIgnoredHost (d.map lower) = true ∨ domainIsIpv4Shape d = true := by
  have hkind : ¬ (d = [] ∨ ascii "!" <+: d ∨ ascii "[" <+: d ∨ ascii "@@" <+: d) := by
    rintro (hd | hd | hd | hd)
    · exact h.ne_nil hd
    · exact h.not_mark (by decide) _ hd
    · exact h.not_mark (by decide) _ hd
    · exact h.not_mark (by decide) _ hd
  have hbars : ¬ ascii "||" <+: d := h.not_mark (by decide) _
  have hcolon : ':'.toUInt8 ∉ d := fun hc => (h.plain _ hc).2 (by decide)
  have haddress : isAddress d = domainIsIpv4Shape d := by
    unfold isAddress
    rw [ipv4Re_rmatch, decide_eq_false hcolon, Bool.or_false]
  unfold lineFormat
  rw [if_neg hkind, if_neg hbars, h.words_eq]
  by_cases hip : domainIsIpv4Shape d = true
  · simp [haddress, hip]
  · have hnone : normalizeDomain d 256 = none ↔ isIgnoredHost (d.map lower) = true := by
      rw [normalizeDomain_eq_none, h.blockable_iff]
      simp [hip]
    simp [haddress, hip, hnone]

/-- **A rule that starts with bars** emits something if it is exact and its name may be
blocked. -/
theorem lineFormat_anchored (body : Bytes) :
    lineFormat (ascii "||" ++ body) = [] ↔
      ¬ (ExactBody body ∧ Blockable (canonical body.dropLast)) := by
  have hkind : ¬ (ascii "||" ++ body = [] ∨ ascii "!" <+: ascii "||" ++ body ∨
      ascii "[" <+: ascii "||" ++ body ∨ ascii "@@" <+: ascii "||" ++ body) := by
    rintro (h | h | h | h)
    · cases h
    · exact absurd (List.cons_prefix_cons.mp h).1 (by decide)
    · exact absurd (List.cons_prefix_cons.mp h).1 (by decide)
    · exact absurd (List.cons_prefix_cons.mp h).1 (by decide)
  have hcaret : ascii "^" <:+ ascii "||" ++ body ↔ ascii "^" <:+ body := by
    have hlast : ∀ s : Bytes, ascii "^" <:+ s ↔ s.getLast? = some '^'.toUInt8 :=
      fun _ => List.singleton_suffix_iff_getLast?_eq_some
    rw [hlast, hlast, List.getLast?_append]
    cases h : body.getLast? with
    | none => decide
    | some c => rfl
  have hdrop : (ascii "||" ++ body).drop 2 = body := rfl
  unfold lineFormat
  rw [if_neg hkind, if_pos (List.prefix_append ..), hdrop]
  by_cases hexact : ExactBody body
  · rw [if_pos ⟨hcaret.mpr hexact.1, hexact.2⟩]
    have hnone : normalizeDomain body.dropLast 256 = none ↔ _ := normalizeDomain_eq_none
    simp [hexact, ← hnone]
  · rw [if_neg (fun h => hexact ⟨hcaret.mp h.1, h.2⟩)]
    simp [hexact]

/-! ### What a line makes of a rule -/

/-- What stands in front of the first `#`. -/
theorem takeWhile_hash {s : Bytes} (hs : '#'.toUInt8 ∉ s) (rest : Bytes) :
    (s ++ '#'.toUInt8 :: rest).takeWhile (· ≠ '#'.toUInt8) = s := by
  refine takeWhile_append_stop (fun c hc => ?_) (by rintro c ⟨⟩; decide)
  simpa using fun h : c = '#'.toUInt8 => hs (h ▸ hc)

/-- The text of a cosmetic rule is its domain. -/
theorem lineText_domain {line domain rest : Bytes} (h : IsDomain domain)
    (hline : trim line = domain ++ '#'.toUInt8 :: rest) : lineText line = domain := by
  have hhash : '#'.toUInt8 ∉ domain := fun hc => (h.plain _ hc).2 (by decide)
  rw [lineText_trim, hline, takeWhile_hash hhash, List.rdropWhile_eq_self_iff]
  intro hne
  simp [(h.plain _ (List.getLast_mem hne)).1]

/-- The text of a rule that starts with bars. -/
theorem lineText_anchored {line body : Bytes} (hline : trim line = ascii "||" ++ body) :
    lineText line =
      ascii "||" ++ (body.takeWhile (· ≠ '#'.toUInt8)).rdropWhile isSpace :=
  prefix_lineText hline (by decide +kernel)

/-- Of a body that keeps its last bytes, nothing is trimmed. -/
theorem rdropWhile_body {line body : Bytes} (hline : trim line = ascii "||" ++ body) :
    body.rdropWhile isSpace = body := by
  have htrim : (trim line).rdropWhile isSpace = trim line := List.rdropWhile_idempotent ..
  rw [hline, rdropWhile_append_plain (by decide +kernel)] at htrim
  exact List.append_cancel_left htrim

theorem mem_marks (c : UInt8) :
    c ∈ ascii "/^*$|#" ↔ c ∈ ascii "/^*$|" ∨ c = '#'.toUInt8 := by
  revert c
  exact forall_byte (by decide +kernel)

/-- **What is left of a stripped rule blocks.** -/
theorem Stripped.emits {line : Bytes} (h : Stripped (trim line)) :
    lineFormat (lineText line) ≠ [] := by
  generalize hrule : trim line = rule at h
  cases h with
  | cosmetic rest hdomain hosts address =>
      rw [lineText_domain hdomain hrule, ne_eq, lineFormat_domain hdomain]
      simp [hosts, address]
  | @anchored name pad rest marks spaces hblock =>
      have hname : ∀ c ∈ name, c ∉ ascii "/^*$|" ∧ c ≠ '#'.toUInt8 := fun c hc =>
        not_or.mp fun h => marks c hc ((mem_marks c).mpr h)
      have hhash : '#'.toUInt8 ∉ name ++ (ascii "^" ++ pad) := by
        rw [List.mem_append, List.mem_append]
        rintro (hc | hc | hc)
        · exact (hname _ hc).2 rfl
        · exact absurd hc (by decide)
        · exact ne_hash_of_isSpace (spaces _ hc) rfl
      have hbody : name ++ (ascii "^" ++ (pad ++ '#'.toUInt8 :: rest)) =
          (name ++ (ascii "^" ++ pad)) ++ '#'.toUInt8 :: rest := by
        simp only [List.append_assoc]
      have hself : (name ++ ascii "^").rdropWhile isSpace = name ++ ascii "^" :=
        List.rdropWhile_concat_neg _ _ _ (by decide)
      rw [lineText_anchored hrule, hbody, takeWhile_hash hhash, ← List.append_assoc,
        rdropWhile_append_spaces spaces, hself, ne_eq, lineFormat_anchored, not_not]
      have hlast : (name ++ ascii "^").dropLast = name := List.dropLast_concat
      refine ⟨⟨List.suffix_append .., ?_⟩, ?_⟩
      · rw [hlast]
        exact fun c hc => (hname c hc).1
      · rwa [hlast]

/-- A rule that starts with bars and is not exact is silent, or it is stripped. -/
theorem anchored_silent {line body : Bytes} (hline : trim line = ascii "||" ++ body)
    (hbody : ¬ ExactBody body) (hstrip : ¬ Stripped (trim line)) :
    lineFormat (lineText line) = [] := by
  rw [lineText_anchored hline, lineFormat_anchored]
  rintro ⟨hexact, hblock⟩
  by_cases hhash : '#'.toUInt8 ∈ body
  · refine hstrip ?_
    obtain ⟨cut, rest, rfl, hcut⟩ := List.eq_append_cons_of_mem hhash
    rw [takeWhile_hash hcut] at hexact hblock
    have hpad : cut.rdropWhile isSpace ++ cut.rtakeWhile isSpace = cut :=
      List.rdropWhile_append_rtakeWhile
    have hspaces : ∀ c ∈ cut.rtakeWhile isSpace, isSpace c = true := fun c hc =>
      List.mem_rtakeWhile_imp hc
    generalize cut.rtakeWhile isSpace = pad at hpad hspaces
    obtain ⟨⟨name, hname⟩, hmarks⟩ := hexact
    have hlast : (cut.rdropWhile isSpace).dropLast = name := by
      rw [← hname]
      exact List.dropLast_concat
    rw [hlast] at hmarks hblock
    rw [← hname] at hpad
    have hrule : trim line =
        ascii "||" ++ (name ++ (ascii "^" ++ (pad ++ '#'.toUInt8 :: rest))) := by
      rw [hline, ← hpad]
      simp only [List.append_assoc]
    rw [hrule]
    refine Stripped.anchored rest (fun c hc => ?_) hspaces hblock
    rw [mem_marks, not_or]
    refine ⟨hmarks c hc, ?_⟩
    rintro rfl
    rw [← hpad] at hcut
    exact hcut (List.mem_append_left _ (List.mem_append_left _ hc))
  · -- Nothing is cut off, so the body is the one that is not exact.
    have hcut : body.takeWhile (· ≠ '#'.toUInt8) = body :=
      List.takeWhile_eq_self_iff.mpr fun c hc => by
        simpa using fun h : c = '#'.toUInt8 => hhash (h ▸ hc)
    rw [hcut, rdropWhile_body hline] at hexact
    exact hbody hexact

/-- A cosmetic rule is silent, or it is stripped. -/
theorem cosmetic_silent {line domain rest : Bytes} (h : IsDomain domain)
    (hline : trim line = domain ++ '#'.toUInt8 :: rest) (hstrip : ¬ Stripped (trim line)) :
    lineFormat (lineText line) = [] := by
  rw [lineText_domain h hline, lineFormat_domain h]
  by_contra hnot
  rw [not_or, Bool.not_eq_true, Bool.not_eq_true] at hnot
  rw [hline] at hstrip
  exact hstrip (Stripped.cosmetic rest h hnot.1 hnot.2)

/-- **A rule that is not of the form `||domain^` blocks nothing, exactly if what comment
stripping leaves of it does not.** -/
theorem otherRule_silent (line : Bytes) (h : OtherRule (trim line)) :
    parseLine line = [] ↔ 2048 < line.length ∨ ¬ Stripped (trim line) := by
  rw [parseLine_eq]
  by_cases hlong : line.length > 2048
  · rw [if_pos hlong]
    exact iff_of_true rfl (Or.inl hlong)
  rw [if_neg hlong, or_iff_right hlong]
  constructor
  · exact fun hsilent hstrip => hstrip.emits hsilent
  · intro hstrip
    generalize hrule : trim line = rule at h
    cases h with
    | comment rest =>
        exact lineFormat_ignored (Or.inl ⟨_, (prefix_lineText hrule (by decide +kernel)).symm⟩)
    | header rest =>
        exact lineFormat_ignored
          (Or.inr (Or.inl ⟨_, (prefix_lineText hrule (by decide +kernel)).symm⟩))
    | exception rest =>
        exact lineFormat_ignored
          (Or.inr (Or.inr ⟨_, (prefix_lineText hrule (by decide +kernel)).symm⟩))
    | anchored hbody => exact anchored_silent hrule hbody hstrip
    | cosmetic selector hdomain => exact cosmetic_silent hdomain hrule hstrip
    | cosmeticException selector hdomain => exact cosmetic_silent hdomain hrule hstrip

/-- The header of a list. -/
theorem header_silent : parseLine (ascii " [Adblock Plus 2.0]\r") = [] ↔
    2048 < (ascii " [Adblock Plus 2.0]\r").length ∨
      ¬ Stripped (trim (ascii " [Adblock Plus 2.0]\r")) :=
  otherRule_silent (ascii " [Adblock Plus 2.0]\r")
    (by have h : trim (ascii " [Adblock Plus 2.0]\r") = ascii "[" ++ ascii "Adblock Plus 2.0]" := by
          decide +kernel
        rw [h]
        exact OtherRule.header _)

/-- A rule that hides an element of a shop blocks the shop. -/
theorem cosmetic_blocks : OtherRule (trim (ascii "shop.example##.advert")) ∧
    parseLine (ascii "shop.example##.advert") = [ascii "shop.example"] := by
  refine ⟨?_, by decide +kernel⟩
  have hline : trim (ascii "shop.example##.advert") =
      ascii "shop.example" ++ (ascii "##" ++ ascii ".advert") := by decide +kernel
  have hnormal : normalizeDomain (ascii "shop.example") 256 =
      some ((ascii "shop.example").map lower) := by decide +kernel
  rw [hline]
  exact OtherRule.cosmetic _ (normalizeDomain_valid hnormal)

end EspHole.Pipeline
