/-
Reading one line of a source list: `components/blocklist_pipeline/parse.c`.

One classifier serves three kinds of list: hosts files, bare domains, and the
`||domain^` rules of an ad-block list.  `parseLine` returns the domains it would hand
to its sink, in order; what the sink does with them is the caller's business.
-/
import EspHole.Basic
import EspHole.Pipeline.Normalize

namespace EspHole.Pipeline

open Ascii

/-- `PARSE_MAX_LINE` -/
def parseMaxLine : Nat := 2048

/-- `PARSE_MAX_TOKENS` -/
def parseMaxTokens : Nat := 64

/-- `emit_token`: the sink calls of one token, at most one. -/
def emitToken (tok : Bytes) : List Bytes := (normalizeDomain tok 256).toList

/-- What may not stand inside the body of a `||domain^` rule. -/
def abpReserved (c : UInt8) : Bool :=
  c == '/'.toUInt8 || c == '^'.toUInt8 || c == '*'.toUInt8 || c == '$'.toUInt8 ||
    c == '|'.toUInt8

/-- The white-space tokens of a line, at most as many as there is room for. -/
def tokenize : Nat → Bytes → List Bytes
  | 0, _ => []
  | room + 1, line =>
      let line := line.dropWhile isSpace
      if line.isEmpty then []
      else line.takeWhile (!isSpace ·) :: tokenize room (line.dropWhile (!isSpace ·))

/-- `first`: the token a hosts line starts with is an address, not a name. -/
def firstName (toks : List Bytes) : Nat :=
  match toks with
  | [] => 0
  | t0 :: _ => if domainIsIpv4Shape t0 || t0.any (· == ':'.toUInt8) then 1 else 0

/-- `parse_line`: the domains the sink is called with, in order. -/
def parseLine (lineIn : Bytes) : List Bytes :=
  if lineIn.length > parseMaxLine then []
  else
    let line := trim (lineIn.takeWhile (· ≠ '#'.toUInt8))
    if line.length = 0 then []
    else if line.head? = some '!'.toUInt8 ∨ line.head? = some '['.toUInt8 ∨
        (ascii "@@").isPrefixOf line then []
    else if (ascii "||").isPrefixOf line then
      if line.getLast? ≠ some '^'.toUInt8 then []
      else
        let body := (line.drop 2).take (line.length - 3)
        if body.any abpReserved then [] else emitToken body
    else
      let toks := tokenize parseMaxTokens line
      (toks.drop (firstName toks)).flatMap emitToken

theorem emitToken_valid {tok d : Bytes} (h : d ∈ emitToken tok) : ValidDomain d := by
  unfold emitToken at h
  rw [Option.mem_toList] at h
  exact normalizeDomain_valid h

/-- **Whatever a line emits is a normalised domain.** -/
theorem parseLine_valid {line d : Bytes} (h : d ∈ parseLine line) : ValidDomain d := by
  unfold parseLine at h
  simp only at h
  split at h
  · cases h
  · split at h
    · cases h
    · split at h
      · cases h
      · split at h
        · split at h
          · cases h
          · split at h
            · cases h
            · exact emitToken_valid h
        · obtain ⟨tok, -, hd⟩ := List.mem_flatMap.mp h
          exact emitToken_valid hd

/-- A line that is a domain emits that domain. -/
theorem parseLine_bare {d : Bytes} (h : ValidDomain d) (hhost : isIgnoredHost d = false)
    (hip : domainIsIpv4Shape d = false) : parseLine d = [d] := by
  obtain ⟨c, rest, hd, hc⟩ := h.head
  have hstart : c ≠ '!'.toUInt8 ∧ c ≠ '['.toUInt8 ∧ c ≠ '@'.toUInt8 ∧ c ≠ '|'.toUInt8 := by
    have key : ∀ c : UInt8, labelStart c = true → c ≠ '!'.toUInt8 ∧ c ≠ '['.toUInt8 ∧
        c ≠ '@'.toUInt8 ∧ c ≠ '|'.toUInt8 := forall_byte (by decide +kernel)
    exact key c hc
  obtain ⟨hbang, hbracket, hat, hbar⟩ := hstart
  have hlen : ¬ d.length > parseMaxLine := by
    have := h.length
    unfold parseMaxLine
    omega
  have hhash : d.takeWhile (· ≠ '#'.toUInt8) = d :=
    List.takeWhile_eq_self_iff.mpr fun c hc => by simpa using (h.plain c hc).2.2.1
  have hne : d ≠ [] := by rw [hd]; simp
  have hkind : ¬ (d.head? = some '!'.toUInt8 ∨ d.head? = some '['.toUInt8 ∨
      (ascii "@@").isPrefixOf d = true) := by
    rw [hd]
    simpa [ascii, List.isPrefixOf, hbang, hbracket] using fun he => absurd he.symm hat
  have hrule : ¬ (ascii "||").isPrefixOf d = true := by
    rw [hd]
    simpa [ascii, List.isPrefixOf] using fun he => absurd he.symm hbar
  have hword : ∀ c ∈ d, (!isSpace c) = true := fun c hc => by simp [(h.plain c hc).1]
  have hleft : d.dropWhile isSpace = d := by
    rw [hd]
    simp [(h.plain c (by rw [hd]; exact List.mem_cons_self)).1]
  have htok : tokenize parseMaxTokens d = [d] := by
    show (if (d.dropWhile isSpace).isEmpty then [] else _) = _
    rw [hleft, if_neg (by simpa using hne), List.takeWhile_eq_self_iff.mpr hword,
      List.dropWhile_eq_nil_iff.mpr hword]
    rfl
  have hcolon : d.any (· == ':'.toUInt8) = false := by
    simpa using fun c hc => (h.plain c hc).2.2.2
  have hfirst : firstName [d] = 0 := by simp [firstName, hip, hcolon]
  unfold parseLine
  rw [if_neg hlen]
  simp only [hhash, h.trim_eq]
  rw [if_neg (by simpa using hne), if_neg hkind, if_neg hrule, htok, hfirst]
  simp [emitToken, normalizeDomain_fixed h hhost hip]

example : parseLine (ascii "0.0.0.0 ads.example.com tracker.example.com # both") =
    [ascii "ads.example.com", ascii "tracker.example.com"] := by decide +kernel

end EspHole.Pipeline
