/-
The generator's exceptions: `generator-node/main/allowlist.c`.

The configuration is one string of comma-separated names.  Each goes through the same
normaliser as a list token and only its hash is kept, in a table of 32.
`allowlistInit_eq` reads the loop off as a list: the valid entries in order, cut at 32.
-/
import EspHole.Basic
import EspHole.Lib.Dotted
import EspHole.Pipeline.Hash
import EspHole.Pipeline.Normalize

namespace EspHole.Generator

open Ascii Dotted Pipeline

/-- `ALLOWLIST_MAX` -/
def allowlistMax : Nat := 32

/-- The byte `,` between two entries. -/
abbrev comma : UInt8 := ','.toUInt8

theorem afterSep_length {s t : Bytes} (h : afterSep comma s = some t) : t.length < s.length := by
  obtain ⟨p, -, rfl⟩ := afterSep_eq_some h
  simp
  omega

/-- The loop of `allowlist_init`, with `p` the rest of the configuration string. -/
def allowlistLoop (p : Bytes) (hashes : List UInt64) : List UInt64 :=
  if p = [] ∨ hashes.length ≥ allowlistMax then hashes
  else
    let hashes := match normalizeDomain (p.takeWhile (· ≠ comma)) 256 with
      | some norm => hashes ++ [domainHash norm]
      | none => hashes
    match _h : afterSep comma p with
    | some rest => allowlistLoop rest hashes
    | none => hashes
termination_by p.length
decreasing_by exact afterSep_length _h

/-- `allowlist_init`: the table it leaves, for a value of `CONFIG_GENERATOR_ALLOWLIST`. -/
def allowlistInit (config : Bytes) : List UInt64 := allowlistLoop config []

/-- `allowlist_contains` -/
def allowlistContains (hashes : List UInt64) (hash : UInt64) : Bool := hashes.any (· == hash)

@[simp] theorem allowlistContains_iff {hashes : List UInt64} {hash : UInt64} :
    allowlistContains hashes hash = true ↔ hash ∈ hashes := by
  simp [allowlistContains]

/-- The domains a configuration string allows: its entries that normalise. -/
def allowlistEntries (config : Bytes) : List Bytes :=
  (config.splitOn comma).filterMap fun entry => normalizeDomain entry 256

theorem allowlistEntries_valid {config d : Bytes} (h : d ∈ allowlistEntries config) :
    ValidDomain d := by
  obtain ⟨entry, -, hd⟩ := List.mem_filterMap.mp h
  exact normalizeDomain_valid hd

theorem splitOn_of_afterSep {p rest : Bytes} (h : afterSep comma p = some rest) :
    p.splitOn comma = p.takeWhile (· ≠ comma) :: rest.splitOn comma := by
  obtain ⟨entry, hentry, rfl⟩ := afterSep_eq_some h
  have hall : ∀ c ∈ entry, decide (c ≠ comma) = true := fun c hc => by
    simp only [decide_eq_true_eq]
    rintro rfl
    exact hentry hc
  rw [List.splitOn_append_cons_self_of_not_mem hentry, List.takeWhile_append_of_pos hall]
  simp

theorem allowlistEntries_nil : allowlistEntries [] = [] := by decide +kernel

/-- The loop appends the hashes of the valid entries while there is room. -/
theorem allowlistLoop_eq :
    ∀ (n : Nat) (p : Bytes) (hashes : List UInt64), p.length ≤ n →
      hashes.length ≤ allowlistMax →
      allowlistLoop p hashes =
        (hashes ++ (allowlistEntries p).map domainHash).take allowlistMax := by
  intro n
  induction n with
  | zero =>
      intro p hashes hp hlen
      obtain rfl : p = [] := List.length_eq_zero_iff.mp (by omega)
      rw [allowlistLoop, if_pos (Or.inl rfl), allowlistEntries_nil]
      simp [List.take_of_length_le hlen]
  | succ n ih =>
      intro p hashes hp hlen
      by_cases hstop : p = [] ∨ hashes.length ≥ allowlistMax
      · rw [allowlistLoop, if_pos hstop]
        rcases hstop with rfl | hfull
        · rw [allowlistEntries_nil]
          simp [List.take_of_length_le hlen]
        · rw [List.take_append_of_le_length hfull, List.take_of_length_le hlen]
      · have hroom : hashes.length < allowlistMax := by omega
        set entry := p.takeWhile (· ≠ comma) with hentry
        -- One entry is one more hash, or none.
        have hone : (match normalizeDomain entry 256 with
            | some norm => hashes ++ [domainHash norm]
            | none => hashes) =
            hashes ++ ((normalizeDomain entry 256).toList.map domainHash) := by
          cases normalizeDomain entry 256 <;> simp
        have hle : (hashes ++ ((normalizeDomain entry 256).toList.map domainHash)).length ≤
            allowlistMax := by
          cases normalizeDomain entry 256 <;> simp <;> omega
        rw [allowlistLoop, if_neg hstop]
        simp only [← hentry, hone]
        split
        · rename_i rest hrest
          have hshort := afterSep_length hrest
          rw [ih rest _ (by omega) hle]
          have hsplit : allowlistEntries p =
              (normalizeDomain entry 256).toList ++ allowlistEntries rest := by
            unfold allowlistEntries
            rw [splitOn_of_afterSep hrest, ← hentry]
            cases hn : normalizeDomain entry 256 <;> simp [hn]
          rw [hsplit, List.map_append, List.append_assoc]
        · rename_i hnone
          have hno : comma ∉ p := afterSep_eq_none.mp hnone
          have hall : entry = p := by
            rw [hentry]
            exact List.takeWhile_eq_self_iff.mpr fun c hc => by
              simp only [ne_eq, decide_eq_true_eq]
              rintro rfl
              exact hno hc
          have hsplit : allowlistEntries p = (normalizeDomain entry 256).toList := by
            unfold allowlistEntries
            rw [List.splitOn_eq_singleton hno, ← hall]
            cases hn : normalizeDomain entry 256 <;> simp [hn]
          rw [hsplit, List.take_of_length_le hle]

/-- **The table holds the valid entries**, as many as fit. -/
theorem allowlistInit_eq (config : Bytes) :
    allowlistInit config = ((allowlistEntries config).map domainHash).take allowlistMax :=
  allowlistLoop_eq config.length config [] (Nat.le_refl _) (Nat.zero_le _)

/-- With at most 32 valid entries none is lost. -/
theorem allowlistContains_entry {config d : Bytes}
    (h : (allowlistEntries config).length ≤ allowlistMax) (hd : d ∈ allowlistEntries config) :
    allowlistContains (allowlistInit config) (domainHash d) = true := by
  rw [allowlistContains_iff, allowlistInit_eq, List.take_of_length_le (by simpa using h)]
  exact List.mem_map_of_mem hd

end EspHole.Generator
