/-
`parse_line` down to its indices, and what its format says.

`parseLine` reads a line as a list.  `parseLineAt` is the same function as the source has
it, with a buffer, a pointer into it and loops over indices, and it answers `none` if a
read would be outside the copied line or a length would wrap.  `lineFormat` is the format:
what is emitted, in terms of the text before the first `#`.  `parseLineAt_format` connects
the two: no read is outside, and what is emitted is what the format says.
-/
import EspHole.Lib.Cursor
import EspHole.Pipeline.Grammar
import EspHole.Pipeline.Parse

namespace EspHole.Pipeline

open Ascii Cursor RegularExpression

/-! ### The loops of the source -/

/-- A pointer to characters. -/
abbrev Reader : Type := Nat → Option UInt8

/-- The groups of `domain_is_ipv4_shape` from index `i` on. -/
def ipv4GroupsAt (s : Reader) (len : Nat) : Nat → Nat → Nat → Option Bool
  | 0, _, i => some (i == len)
  | groups + 1, group, i => do
      let dotted ← (if group > 0 then
          if i ≥ len then pure false else return (← s i) == dot
        else pure true : Option Bool)
      if !dotted then return false
      let start := if group > 0 then i + 1 else i
      let i ← scanWhile isDigit s start len
      let glen := i - start
      if glen < 1 ∨ glen > 3 then return false
      ipv4GroupsAt s len groups (group + 1) i

/-- `domain_is_ipv4_shape` -/
def domainIsIpv4ShapeAt (s : Reader) (len : Nat) : Option Bool := ipv4GroupsAt s len 4 0 0

/-- `emit_token` -/
def emitTokenAt (tok : Reader) (tokLen : Nat) : Option (List Bytes) :=
  ((List.range tokLen).mapM tok).map emitToken

/-- `len >= 2 && line[0] == c && line[1] == c` -/
def doubled (line : Reader) (len : Nat) (c : UInt8) : Option Bool :=
  if len ≥ 2 then do
    if (← line 0) = c then return (← line 1) == c
    else return false
  else return false

/-- The branch of a line that starts with `||`. -/
def ruleAt (line : Reader) (len : Nat) : Option (List Bytes) := do
  if (← line (len - 1)) ≠ '^'.toUInt8 then return []
  if len < 3 then none -- `len - 3` would wrap
  else
    let body := shift line 2
    let bodyLen := len - 3
    let i ← scanWhile (!abpReserved ·) body 0 bodyLen
    if i < bodyLen then return []
    emitTokenAt body bodyLen

/-- The loop over `tok_start` and `tok_len`. -/
def tokensAt (line : Reader) (len i : Nat) (toks : List (Nat × Nat)) :
    Option (List (Nat × Nat)) :=
  if _h : i < len ∧ toks.length < parseMaxTokens then do
    let i ← scanWhile isSpace line i len
    if i ≥ len then return toks
    let tstart := i
    let i ← scanWhile (!isSpace ·) line i len
    tokensAt line len i (toks ++ [(tstart, i - tstart)])
  else return toks
termination_by parseMaxTokens - toks.length
decreasing_by simp; omega

/-- `first` -/
def firstAt (line : Reader) : List (Nat × Nat) → Option Nat
  | [] => return 0
  | (start, len) :: _ => do
      let t0 := shift line start
      let k ← scanWhile (· ≠ ':'.toUInt8) t0 0 len
      if (← domainIsIpv4ShapeAt t0 len) || decide (k < len) then return 1 else return 0

/-- The branch of all other lines. -/
def namesAt (line : Reader) (len : Nat) : Option (List Bytes) := do
  let toks ← tokensAt line len 0 []
  let first ← firstAt line toks
  let emitted ← (toks.drop first).mapM fun tok => emitTokenAt (shift line tok.1) tok.2
  return emitted.flatten

/-- `parse_line` -/
def parseLineAt (lineIn : Bytes) : Option (List Bytes) :=
  if lineIn.length > parseMaxLine then return []
  else do
    let buf : Reader := fun k => lineIn[k]?
    let len ← scanWhile (· ≠ '#'.toUInt8) buf 0 lineIn.length
    let start ← scanWhile isSpace buf 0 len
    let stop ← scanBack isSpace buf start len
    let line := shift buf start
    let len := stop - start
    if len = 0 then return []
    let c0 ← line 0
    if c0 = '!'.toUInt8 ∨ c0 = '['.toUInt8 then return []
    if ← doubled line len '@'.toUInt8 then return []
    if ← doubled line len '|'.toUInt8 then ruleAt line len
    else namesAt line len

/-! ### The format -/

/-- What a line is looked at for: the text before the first `#`, without the white space
around it. -/
def lineText (line : Bytes) : Bytes := trim (line.takeWhile (· ≠ '#'.toUInt8))

/-- The maximal runs without white space. -/
def words (text : Bytes) : List Bytes := (text.splitOnP isSpace).filter (· ≠ [])

/-- A word that is an address. -/
def isAddress (word : Bytes) : Bool := ipv4Re.rmatch word || decide (':'.toUInt8 ∈ word)

/-- None of the bytes that a rule's domain cannot have. -/
def Unmarked (s : Bytes) : Prop := ∀ c ∈ s, c ∉ ascii "/^*$|"

instance decidableUnmarked (s : Bytes) : Decidable (Unmarked s) :=
  List.decidableBAll (fun c => c ∉ ascii "/^*$|") s

/-- What a text emits. -/
def lineFormat (text : Bytes) : List Bytes :=
  if text = [] ∨ ascii "!" <+: text ∨ ascii "[" <+: text ∨ ascii "@@" <+: text then []
  else if ascii "||" <+: text then
    if ascii "^" <:+ text ∧ Unmarked (text.drop 2).dropLast then
      (normalizeDomain (text.drop 2).dropLast 256).toList
    else []
  else
    let words := (words text).take 64
    let names := if words.head?.any isAddress then words.drop 1 else words
    names.filterMap fun word => normalizeDomain word 256

/-! ### The list program follows the format -/

theorem ipv4Re_rmatch (word : Bytes) : ipv4Re.rmatch word = domainIsIpv4Shape word := by
  rw [Bool.eq_iff_iff, rmatch_iff_matches', domainIsIpv4Shape_iff]

theorem words_space {c : UInt8} (hc : isSpace c = true) (s : Bytes) : words (c :: s) = words s := by
  unfold words
  rw [List.splitOnP_cons_eq_if_modifyHead, if_pos hc]
  rfl

/-- White space in front makes no difference. -/
theorem words_dropWhile (s : Bytes) : words (s.dropWhile isSpace) = words s := by
  induction s with
  | nil => rfl
  | cons c s ih =>
      by_cases hc : isSpace c = true
      · rw [List.dropWhile_cons_of_pos hc, words_space hc, ih]
      · rw [List.dropWhile_cons_of_neg hc]

/-- A word, and what comes after it. -/
theorem words_append {l rest : Bytes} (hne : l ≠ []) (hl : ∀ c ∈ l, isSpace c = false)
    (hrest : ∀ c ∈ rest.head?, isSpace c = true) : words (l ++ rest) = l :: words rest := by
  cases rest with
  | nil =>
      unfold words
      rw [List.append_nil, List.splitOnP_eq_singleton hl]
      simp [hne]
  | cons c rest =>
      have hc := hrest c rfl
      rw [words_space hc]
      unfold words
      rw [List.splitOnP_append_cons_of_forall_mem hl c hc]
      simp [hne]

/-- The token loop finds the words, as long as there is room. -/
theorem tokenize_words (room : Nat) : ∀ s : Bytes, tokenize room s = (words s).take room := by
  induction room with
  | zero => intro s; rfl
  | succ room ih =>
      intro s
      unfold tokenize
      dsimp only
      rw [← words_dropWhile s]
      generalize hs : s.dropWhile isSpace = t
      cases t with
      | nil => rfl
      | cons c t =>
          have hc : isSpace c = false := by
            have := List.head?_dropWhile_not isSpace s
            rw [hs] at this
            simpa using this
          have hword : c :: t =
              (c :: t).takeWhile (!isSpace ·) ++ (c :: t).dropWhile (!isSpace ·) :=
            List.takeWhile_append_dropWhile.symm
          rw [if_neg (by simp), ih]
          conv_rhs => rw [hword]
          rw [words_append, List.take_succ_cons]
          · simp [hc]
          · intro d hd
            simpa using List.mem_takeWhile_imp hd
          · intro d hd
            have := List.head?_dropWhile_not (!isSpace ·) (c :: t)
            rw [Option.mem_def.mp hd] at this
            simpa using this

theorem abpReserved_iff (c : UInt8) : abpReserved c = true ↔ c ∈ ascii "/^*$|" := by
  revert c
  exact forall_byte (by decide +kernel)

theorem any_abpReserved (s : Bytes) :
    s.any abpReserved = true ↔ ¬ Unmarked s := by
  rw [List.any_eq_true]
  unfold Unmarked
  push Not
  exact exists_congr fun c => and_congr_right fun _ => abpReserved_iff c

/-- What is left of a rule between its marks. -/
theorem take_drop_two (text : Bytes) :
    (text.drop 2).take (text.length - 3) = (text.drop 2).dropLast := by
  rw [List.dropLast_eq_take, List.length_drop]
  congr 1

/-- The names of a line are what follows the address in front, if there is one. -/
theorem drop_firstName (toks : List Bytes) :
    toks.drop (firstName toks) = if toks.head?.any isAddress then toks.drop 1 else toks := by
  cases toks with
  | nil => rfl
  | cons word toks =>
      have haddress : isAddress word =
          (domainIsIpv4Shape word || word.any (· == ':'.toUInt8)) := by
        unfold isAddress
        rw [ipv4Re_rmatch, List.any_beq', List.contains_eq_mem]
      unfold firstName
      simp only [List.head?_cons, Option.any_some, haddress]
      split <;> rfl

/-- **A line emits what its format says**, if it is not too long. -/
theorem parseLine_eq (line : Bytes) :
    parseLine line = if line.length > 2048 then [] else lineFormat (lineText line) := by
  unfold parseLine parseMaxLine
  by_cases hlong : line.length > 2048
  · rw [if_pos hlong, if_pos hlong]
  have htext : trim (line.takeWhile (· ≠ '#'.toUInt8)) = lineText line := rfl
  rw [if_neg hlong, if_neg hlong, htext]
  dsimp only
  generalize lineText line = text
  have hignored : (text = [] ∨ ascii "!" <+: text ∨ ascii "[" <+: text ∨ ascii "@@" <+: text) ↔
      (text.length = 0 ∨ text.head? = some '!'.toUInt8 ∨ text.head? = some '['.toUInt8 ∨
        (ascii "@@").isPrefixOf text) := by
    rw [List.length_eq_zero_iff, List.isPrefixOf_iff_prefix]
    exact or_congr_right (or_congr List.singleton_prefix_iff_head?_eq_some
      (or_congr_left List.singleton_prefix_iff_head?_eq_some))
  have hlast : ascii "^" <:+ text ↔ text.getLast? = some '^'.toUInt8 :=
    List.singleton_suffix_iff_getLast?_eq_some
  unfold lineFormat
  by_cases hempty : text.length = 0
  · rw [if_pos hempty, if_pos (hignored.mpr (Or.inl hempty))]
  rw [if_neg hempty]
  by_cases hkind : text.head? = some '!'.toUInt8 ∨ text.head? = some '['.toUInt8 ∨
      (ascii "@@").isPrefixOf text
  · rw [if_pos hkind, if_pos (hignored.mpr (Or.inr hkind))]
  rw [if_neg hkind, if_neg (fun h => (hignored.mp h).elim hempty hkind)]
  by_cases hrule : ascii "||" <+: text
  · rw [if_pos (List.isPrefixOf_iff_prefix.mpr hrule), if_pos hrule, take_drop_two]
    by_cases hend : text.getLast? = some '^'.toUInt8
    · rw [if_neg (fun h => h hend)]
      by_cases hbody : (text.drop 2).dropLast.any abpReserved
      · rw [if_pos hbody, if_neg (fun h => (any_abpReserved _).mp hbody h.2)]
      · rw [if_neg hbody,
          if_pos ⟨hlast.mpr hend, not_not.mp fun h => hbody ((any_abpReserved _).mpr h)⟩, emitToken]
    · rw [if_pos hend, if_neg (fun h => hend (hlast.mp h.1))]
  · rw [if_neg (fun h => hrule (List.isPrefixOf_iff_prefix.mp h)), if_neg hrule, tokenize_words,
      drop_firstName]
    dsimp only
    rw [List.filterMap_eq_flatMap_toList]
    rfl

/-! ### The loops of the source follow the list program -/

/-- **The groups of an address**, from where the index stands. -/
theorem ipv4GroupsAt_eq {s : Reader} {l : Bytes} (h : Reads s l) (groups : Nat) :
    ∀ group i, i ≤ l.length → ipv4GroupsAt s l.length groups group i =
      some (((List.range' group groups).foldlM (fun s group => ipv4Group group s)
        (l.drop i)).any List.isEmpty) := by
  induction groups with
  | zero =>
      intro group i hi
      show some (i == l.length) = some (l.drop i).isEmpty
      rw [Option.some_inj, Bool.eq_iff_iff, beq_iff_eq, List.isEmpty_iff, List.drop_eq_nil_iff]
      omega
  | succ groups ih =>
      intro group i hi
      -- The digits, from where they start.
      have hdigits : ∀ start ≤ l.length,
          (do let i ← scanWhile isDigit s start l.length
              let glen := i - start
              if glen < 1 ∨ glen > 3 then return false
              ipv4GroupsAt s l.length groups (group + 1) i : Option Bool) =
            some ((((if ((l.drop start).takeWhile isDigit).length < 1 ∨
                ((l.drop start).takeWhile isDigit).length > 3 then none
              else some ((l.drop start).dropWhile isDigit)) : Option Bytes).bind
                ((List.range' (group + 1) groups).foldlM fun s group => ipv4Group group s)).any
                  List.isEmpty) := by
        intro start hstart
        rw [scanWhile_eq h start hstart]
        simp only [Option.bind_eq_bind, Option.bind_some, Nat.add_sub_cancel_left]
        by_cases hlen : ((l.drop start).takeWhile isDigit).length < 1 ∨
            ((l.drop start).takeWhile isDigit).length > 3
        · rw [if_pos hlen, if_pos hlen]
          rfl
        · rw [if_neg hlen, if_neg hlen, ih _ _ (takeWhile_length_le hstart), drop_takeWhile_length]
          rfl
      unfold ipv4GroupsAt
      rw [List.range'_succ, List.foldlM_cons]
      unfold ipv4Group
      by_cases hgroup : group > 0
      · simp only [hgroup, if_true]
        by_cases hend : i ≥ l.length
        · rw [if_pos hend, List.drop_eq_nil_of_le hend]
          rfl
        · have hlt : i < l.length := by omega
          rw [if_neg hend, h.get hlt, List.drop_eq_getElem_cons hlt]
          by_cases hdot : l[i] = dot
          · simp only [hdot, if_true]
            exact hdigits (i + 1) hlt
          · simp [hdot]
      · simp only [hgroup, if_false]
        exact hdigits i hi

theorem domainIsIpv4ShapeAt_eq {s : Reader} {l : Bytes} (h : Reads s l) :
    domainIsIpv4ShapeAt s l.length = some (domainIsIpv4Shape l) := by
  unfold domainIsIpv4ShapeAt domainIsIpv4Shape
  rw [ipv4GroupsAt_eq h 4 0 0 (Nat.zero_le _), List.drop_zero, ← List.range_eq_range']
  rcases (List.range 4).foldlM (fun s group => ipv4Group group s) l with _ | rest <;> rfl

theorem emitTokenAt_eq {tok : Reader} {l : Bytes} (h : Reads tok l) :
    emitTokenAt tok l.length = some (emitToken l) := by
  unfold emitTokenAt
  rw [mapM_range h]
  rfl

theorem doubled_eq {line : Reader} {text : Bytes} (h : Reads line text) (c : UInt8) :
    doubled line text.length c = some ([c, c].isPrefixOf text) := by
  unfold doubled
  rcases text with _ | ⟨a, _ | ⟨b, rest⟩⟩
  · rfl
  · simp [List.isPrefixOf]
  · have h₀ : line 0 = some a := h 0 (by simp)
    have h₁ : line 1 = some b := h 1 (by simp)
    rw [h₀, h₁]
    by_cases ha : a = c
    · simp [ha, List.isPrefixOf, Bool.beq_comm]
    · simp [ha, List.isPrefixOf, beq_eq_false_iff_ne.mpr (Ne.symm ha)]

/-- A loop that looks for the first byte of a kind stops early if there is one. -/
theorem takeWhile_not_length_lt {p : UInt8 → Bool} (l : Bytes) :
    (l.takeWhile (!p ·)).length < l.length ↔ l.any p = true := by
  have hle := (List.takeWhile_prefix (l := l) (!p ·)).length_le
  have hall : (l.takeWhile (!p ·)).length = l.length ↔ ∀ c ∈ l, (!p c) = true := by
    rw [← List.takeWhile_eq_self_iff]
    exact ⟨(List.takeWhile_prefix (!p ·)).eq_of_length, congrArg List.length⟩
  rw [List.any_eq_true]
  constructor
  · intro hlt
    by_contra hnone
    have := hall.mpr fun c hc => by simpa using fun h => hnone ⟨c, hc, h⟩
    omega
  · rintro ⟨c, hc, hp⟩
    have : ¬ (l.takeWhile (!p ·)).length = l.length := fun h => by simpa [hp] using hall.mp h c hc
    omega

/-- The branch of the rules. -/
theorem ruleAt_eq {line : Reader} {text : Bytes} (h : Reads line text)
    (hbars : (ascii "||").isPrefixOf text = true) : ruleAt line text.length =
      some (if text.getLast? ≠ some '^'.toUInt8 then []
        else if ((text.drop 2).take (text.length - 3)).any abpReserved then []
        else emitToken ((text.drop 2).take (text.length - 3))) := by
  obtain ⟨rest, rfl⟩ := List.isPrefixOf_iff_prefix.mp hbars
  have hlen : (ascii "||" ++ rest).length = rest.length + 2 := by
    rw [List.length_append, Nat.add_comm]
    rfl
  have hlast : line ((ascii "||" ++ rest).length - 1) = (ascii "||" ++ rest).getLast? := by
    rw [h _ (by omega), List.getLast?_eq_getElem?]
  unfold ruleAt
  obtain ⟨c, hc⟩ : ∃ c, (ascii "||" ++ rest).getLast? = some c :=
    ⟨_, List.getLast?_eq_some_getLast (List.cons_ne_nil _ _)⟩
  rw [hlast, hc]
  simp only [Option.bind_eq_bind, Option.bind_some, ne_eq, Option.some.injEq]
  by_cases hcaret : c = '^'.toUInt8
  · rw [if_neg (not_not.mpr hcaret), if_neg (not_not.mpr hcaret)]
    -- The last byte is no bar, so it is a third one.
    have hthree : ¬ (ascii "||" ++ rest).length < 3 := by
      rintro hlt
      obtain rfl : rest = [] := List.eq_nil_of_length_eq_zero (by omega)
      rw [hcaret] at hc
      exact absurd hc (by decide)
    rw [if_neg hthree]
    generalize hbody : ((ascii "||" ++ rest).drop 2).take ((ascii "||" ++ rest).length - 3) = body
    have hblen : (ascii "||" ++ rest).length - 3 = body.length := by
      rw [← hbody, List.length_take, List.length_drop]
      omega
    have hreads : Reads (shift line 2) body := hbody ▸ (h.drop 2).take _
    rw [hblen, scanWhile_zero hreads, Option.bind_some]
    by_cases hany : body.any abpReserved = true
    · rw [if_pos ((takeWhile_not_length_lt body).mpr hany), if_pos hany]
      rfl
    · rw [if_neg (fun hlt => hany ((takeWhile_not_length_lt body).mp hlt)), if_neg hany,
        emitTokenAt_eq hreads]
  · rw [if_pos hcaret, if_pos hcaret]
    rfl

/-- The bytes of a token. -/
def tokenText (text : Bytes) (tok : Nat × Nat) : Bytes := (text.drop tok.1).take tok.2

/-- A table of tokens that lie in the text. -/
def Inside (text : Bytes) (toks : List (Nat × Nat)) : Prop :=
  ∀ tok ∈ toks, tok.1 + tok.2 ≤ text.length

/-- A token can be read behind its pointer, -/
theorem reads_token {line : Reader} {text : Bytes} (h : Reads line text) (tok : Nat × Nat) :
    Reads (shift line tok.1) (tokenText text tok) := (h.drop tok.1).take tok.2

/-- and has its length. -/
theorem tokenText_length {text : Bytes} {tok : Nat × Nat} (h : tok.1 + tok.2 ≤ text.length) :
    (tokenText text tok).length = tok.2 := by
  unfold tokenText
  rw [List.length_take, List.length_drop]
  omega

/-- **The token loop**, from where the index stands: what it adds to the table. -/
theorem tokensAt_eq {line : Reader} {text : Bytes} (h : Reads line text) (room : Nat) :
    ∀ i ≤ text.length, ∀ toks : List (Nat × Nat), toks.length + room = parseMaxTokens →
      ∃ more, tokensAt line text.length i toks = some (toks ++ more) ∧ Inside text more ∧
        more.map (tokenText text) = tokenize room (text.drop i) := by
  induction room with
  | zero =>
      intro i hi toks hroom
      refine ⟨[], ?_, by simp [Inside], rfl⟩
      unfold tokensAt
      rw [dif_neg (by omega), List.append_nil]
      rfl
  | succ room ih =>
      intro i hi toks hroom
      unfold tokensAt tokenize
      by_cases hlt : i < text.length
      · rw [dif_pos ⟨hlt, by omega⟩, scanWhile_eq h i hi]
        dsimp only
        rw [Option.bind_eq_bind, Option.bind_some, ← drop_takeWhile_length]
        have hstart := takeWhile_length_le (p := isSpace) hi
        generalize i + ((text.drop i).takeWhile isSpace).length = start at hstart ⊢
        by_cases hend : start ≥ text.length
        · refine ⟨[], ?_, by simp [Inside], ?_⟩
          · rw [if_pos hend, List.append_nil]
            rfl
          · rw [List.drop_eq_nil_of_le hend]
            rfl
        · rw [if_neg hend, scanWhile_eq h start hstart, Option.bind_some,
            if_neg (by simpa using hend), Nat.add_sub_cancel_left]
          have hstop := takeWhile_length_le (p := (!isSpace ·)) hstart
          obtain ⟨more, hmore, hinside, hmap⟩ := ih _ hstop
            (toks ++ [(start, ((text.drop start).takeWhile (!isSpace ·)).length)]) (by simp; omega)
          refine ⟨(start, ((text.drop start).takeWhile (!isSpace ·)).length) :: more, ?_, ?_, ?_⟩
          · rw [hmore, List.append_assoc]
            rfl
          · exact List.forall_mem_cons.mpr ⟨hstop, hinside⟩
          · rw [List.map_cons, hmap, drop_takeWhile_length]
            congr 1
            exact (List.prefix_iff_eq_take.mp (List.takeWhile_prefix _)).symm
      · refine ⟨[], ?_, by simp [Inside], ?_⟩
        · rw [dif_neg (by omega), List.append_nil]
          rfl
        · rw [List.drop_eq_nil_of_le (by omega)]
          rfl

theorem firstAt_eq {line : Reader} {text : Bytes} (h : Reads line text)
    {toks : List (Nat × Nat)} (hin : Inside text toks) :
    firstAt line toks = some (firstName (toks.map (tokenText text))) := by
  cases toks with
  | nil => rfl
  | cons tok toks =>
      obtain ⟨start, len⟩ := tok
      have hlen := tokenText_length (hin (start, len) List.mem_cons_self)
      have hreads := reads_token h (start, len)
      generalize hword : tokenText text (start, len) = word at hlen hreads
      dsimp only at hlen hreads
      have hcolon : (· ≠ ':'.toUInt8 : UInt8 → Bool) = fun c => !(c == ':'.toUInt8) := by
        funext c
        rw [Bool.eq_iff_iff]
        simp
      have hany : decide ((word.takeWhile (· ≠ ':'.toUInt8)).length < word.length) =
          word.any (· == ':'.toUInt8) := by
        rw [Bool.eq_iff_iff, decide_eq_true_eq, hcolon]
        exact takeWhile_not_length_lt word
      unfold firstAt firstName
      rw [List.map_cons, hword, ← hlen]
      dsimp only
      rw [scanWhile_zero hreads, domainIsIpv4ShapeAt_eq hreads]
      simp only [Option.bind_eq_bind, Option.bind_some, hany]
      split <;> rfl

/-- The branch of all other lines. -/
theorem namesAt_eq {line : Reader} {text : Bytes} (h : Reads line text) :
    namesAt line text.length =
      some (((tokenize parseMaxTokens text).drop
        (firstName (tokenize parseMaxTokens text))).flatMap emitToken) := by
  obtain ⟨toks, htoks, hin, hmap⟩ := tokensAt_eq h parseMaxTokens 0 (Nat.zero_le _) [] (by simp)
  rw [List.drop_zero] at hmap
  have hemit : ∀ toks, Inside text toks →
      toks.mapM (fun tok => emitTokenAt (shift line tok.1) tok.2) =
        some (toks.map fun tok => emitToken (tokenText text tok)) := by
    intro toks
    induction toks with
    | nil => intro _; rfl
    | cons tok toks ih =>
        intro hin
        obtain ⟨hhead, hrest⟩ := List.forall_mem_cons.mp hin
        have htok : emitTokenAt (shift line tok.1) tok.2 =
            some (emitToken (tokenText text tok)) := by
          have := emitTokenAt_eq (reads_token h tok)
          rwa [tokenText_length hhead] at this
        rw [List.mapM_cons, htok, ih hrest]
        rfl
  unfold namesAt
  rw [htoks, List.nil_append, Option.bind_eq_bind, Option.bind_some, firstAt_eq h hin,
    Option.bind_eq_bind, Option.bind_some, hmap,
    hemit _ fun tok ht => hin tok (List.mem_of_mem_drop ht), ← hmap, ← List.map_drop,
    List.flatMap_map]
  rfl

/-- **No read of the source is outside the line**, and what it emits is what the list program
does. -/
theorem parseLineAt_eq (lineIn : Bytes) : parseLineAt lineIn = some (parseLine lineIn) := by
  unfold parseLineAt parseLine
  by_cases hlong : lineIn.length > parseMaxLine
  · rw [if_pos hlong, if_pos hlong]
    rfl
  rw [if_neg hlong, if_neg hlong]
  dsimp only
  rw [scanWhile_zero (reads_list lineIn), Option.bind_eq_bind, Option.bind_some]
  -- The text before the hash, then without the white space in front.
  have hcode := (reads_list lineIn).isPrefix (List.takeWhile_prefix (· ≠ '#'.toUInt8))
  generalize lineIn.takeWhile (· ≠ '#'.toUInt8) = code at hcode
  have hstart := takeWhile_length_le (p := isSpace) (Nat.zero_le code.length)
  have hleft := drop_takeWhile_length (p := isSpace) code 0
  rw [List.drop_zero, Nat.zero_add] at hstart hleft
  have htrim : (code.dropWhile isSpace).rdropWhile isSpace = trim code := rfl
  rw [scanWhile_zero hcode, Option.bind_some, scanBack_eq hcode _ hstart, Option.bind_some, hleft,
    Nat.add_sub_cancel_left, htrim]
  have hreads := hleft ▸ hcode.drop (code.takeWhile isSpace).length
  have htext : Reads (shift (fun k => lineIn[k]?) (code.takeWhile isSpace).length) (trim code) :=
    hreads.isPrefix (List.rdropWhile_prefix isSpace _)
  generalize trim code = text at htext
  generalize shift (fun k => lineIn[k]?) (code.takeWhile isSpace).length = reader at htext
  cases text with
  | nil => rfl
  | cons c rest =>
      have hhead : reader 0 = some c := htext 0 (by simp)
      have hzero : ¬ (c :: rest).length = 0 := by simp
      have hats : doubled reader (c :: rest).length '@'.toUInt8 =
          some ((ascii "@@").isPrefixOf (c :: rest)) := doubled_eq htext _
      have hbars : doubled reader (c :: rest).length '|'.toUInt8 =
          some ((ascii "||").isPrefixOf (c :: rest)) := doubled_eq htext _
      rw [if_neg hzero, if_neg hzero, hhead, Option.bind_eq_bind, Option.bind_some, hats, hbars,
        List.head?_cons]
      simp only [Option.some.injEq]
      by_cases hmark : c = '!'.toUInt8 ∨ c = '['.toUInt8
      · rw [if_pos hmark, if_pos (hmark.elim Or.inl (Or.inr ∘ Or.inl))]
        rfl
      rw [if_neg hmark, Option.bind_eq_bind, Option.bind_some]
      by_cases hat : (ascii "@@").isPrefixOf (c :: rest) = true
      · rw [if_pos (Or.inr (Or.inr hat)), if_pos hat]
        rfl
      have hother : ¬ (c = '!'.toUInt8 ∨ c = '['.toUInt8 ∨
          (ascii "@@").isPrefixOf (c :: rest) = true) := by
        rintro (h | h | h)
        · exact hmark (Or.inl h)
        · exact hmark (Or.inr h)
        · exact hat h
      rw [if_neg hat, if_neg hother, Option.bind_some]
      by_cases hrule : (ascii "||").isPrefixOf (c :: rest) = true
      · rw [if_pos hrule, if_pos hrule, ruleAt_eq htext hrule]
      · rw [if_neg hrule, if_neg hrule, namesAt_eq htext]

/-- **`parse_line` emits exactly what its format says**, and reads nothing outside the line it
copied. -/
theorem parseLineAt_format (line : Bytes) :
    parseLineAt line =
      some (if line.length > 2048 then [] else lineFormat (lineText line)) := by
  rw [parseLineAt_eq, parseLine_eq]

end EspHole.Pipeline
