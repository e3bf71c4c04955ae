/-
Regular expressions in the notation programs write them in.

Mathlib's expressions have characters, sums, products, powers and stars.  Here are the
character class `[cs]`, the repetitions `r{0,n}` and `r+`, and what they match.  A
separated list, `r(sep r)+` or `r(sep r){n}`, matches what splits at the separator into
matches of `r`, when no match of `r` holds a separator.
-/
import Mathlib.Computability.RegularExpressions

namespace RegularExpression

variable {α : Type}

/-- `[cs]` -/
def oneOf (cs : List α) : RegularExpression α := (cs.map char).foldr (· + ·) 0

/-- `r{0,n}` -/
def atMost (r : RegularExpression α) : Nat → RegularExpression α
  | 0 => 1
  | n + 1 => 1 + r * atMost r n

/-- `r+` -/
def oneOrMore (r : RegularExpression α) : RegularExpression α := r * star r

@[simp] theorem mem_oneOf {cs x : List α} : x ∈ (oneOf cs).matches' ↔ ∃ c ∈ cs, x = [c] := by
  induction cs with
  | nil =>
      show x ∈ (0 : Language α) ↔ _
      simp
  | cons c cs ih =>
      show x ∈ ({[c]} : Language α) + (oneOf cs).matches' ↔ _
      rw [Language.mem_add, ih]
      constructor
      · rintro (h | ⟨d, hd, rfl⟩)
        · exact ⟨c, List.mem_cons_self, h⟩
        · exact ⟨d, List.mem_cons_of_mem c hd, rfl⟩
      · rintro ⟨d, hd, rfl⟩
        rcases List.mem_cons.mp hd with rfl | hd
        · exact Or.inl rfl
        · exact Or.inr ⟨d, hd, rfl⟩

/-- A class and what follows it. -/
theorem mem_oneOf_mul {cs x : List α} {r : RegularExpression α} :
    x ∈ (oneOf cs * r).matches' ↔ ∃ c rest, x = c :: rest ∧ c ∈ cs ∧ rest ∈ r.matches' := by
  rw [matches'_mul, Language.mem_mul]
  constructor
  · rintro ⟨a, ha, rest, hrest, rfl⟩
    obtain ⟨c, hc, rfl⟩ := mem_oneOf.mp ha
    exact ⟨c, rest, rfl, hc, hrest⟩
  · rintro ⟨c, rest, rfl, hc, hrest⟩
    exact ⟨[c], mem_oneOf.mpr ⟨c, hc, rfl⟩, rest, hrest, rfl⟩

/-- At most `n` characters of a class. -/
theorem mem_atMost_oneOf {cs : List α} {n : Nat} : ∀ {x : List α},
    x ∈ (atMost (oneOf cs) n).matches' ↔ x.length ≤ n ∧ ∀ c ∈ x, c ∈ cs := by
  induction n with
  | zero =>
      intro x
      show x ∈ (1 : Language α) ↔ _
      rw [Language.mem_one]
      constructor
      · rintro rfl
        exact ⟨Nat.le_refl 0, nofun⟩
      · intro h
        exact List.eq_nil_of_length_eq_zero (Nat.le_zero.mp h.1)
  | succ n ih =>
      intro x
      show x ∈ (1 : Language α) + (oneOf cs * atMost (oneOf cs) n).matches' ↔ _
      rw [Language.mem_add, Language.mem_one, mem_oneOf_mul]
      constructor
      · rintro (rfl | ⟨c, rest, rfl, hc, hrest⟩)
        · exact ⟨Nat.zero_le _, nofun⟩
        · obtain ⟨hlen, hmem⟩ := ih.mp hrest
          exact ⟨Nat.succ_le_succ hlen, List.forall_mem_cons.mpr ⟨hc, hmem⟩⟩
      · rintro ⟨hlen, hmem⟩
        cases x with
        | nil => exact Or.inl rfl
        | cons c rest =>
            obtain ⟨hc, hrest⟩ := List.forall_mem_cons.mp hmem
            exact Or.inr ⟨c, rest, rfl, hc, ih.mpr ⟨Nat.le_of_succ_le_succ hlen, hrest⟩⟩

/-! ### Separated lists -/

section Separated

variable {r : RegularExpression α} {sep : α}

/-- Joining puts a separator before every item but the first. -/
theorem intercalate_cons_eq (ls : List (List α)) : ∀ l : List α,
    [sep].intercalate (l :: ls) = l ++ (ls.map (sep :: ·)).flatten := by
  induction ls with
  | nil => intro l; simp
  | cons l' ls ih =>
      intro l
      rw [List.intercalate_cons_cons, ih l']
      simp

/-- Items behind separators, each in one piece. -/
theorem mem_char_mul {y : List α} :
    y ∈ (char sep * r).matches' ↔ ∃ l ∈ r.matches', y = sep :: l := by
  rw [matches'_mul, Language.mem_mul]
  constructor
  · rintro ⟨_, rfl, l, hl, rfl⟩
    exact ⟨l, hl, rfl⟩
  · rintro ⟨l, hl, rfl⟩
    exact ⟨[sep], rfl, l, hl, rfl⟩

/-- An item and `n` items behind separators are `n + 1` items joined. -/
theorem mem_mul_pow {x : List α} {n : Nat} :
    x ∈ (r * (char sep * r) ^ n).matches' ↔
      ∃ ls : List (List α), ls.length = n + 1 ∧ (∀ l ∈ ls, l ∈ r.matches') ∧
        x = [sep].intercalate ls := by
  rw [matches'_mul, matches'_pow, Language.mem_mul]
  constructor
  · rintro ⟨l, hl, y, hy, rfl⟩
    obtain ⟨S, rfl, rfl, hS⟩ := Language.mem_pow.mp hy
    -- The pieces without their separators.
    have hpieces : ∀ T : List (List α), (∀ y ∈ T, y ∈ (char sep * r).matches') →
        ∃ ls : List (List α), ls.length = T.length ∧ (∀ l ∈ ls, l ∈ r.matches') ∧
          T = ls.map (sep :: ·) := by
      intro T
      induction T with
      | nil => exact fun _ => ⟨[], rfl, nofun, rfl⟩
      | cons y T ih =>
          intro hT
          obtain ⟨hy, hT⟩ := List.forall_mem_cons.mp hT
          obtain ⟨ls, hlen, hls, rfl⟩ := ih hT
          obtain ⟨l, hl, rfl⟩ := mem_char_mul.mp hy
          exact ⟨l :: ls, by simp, List.forall_mem_cons.mpr ⟨hl, hls⟩, rfl⟩
    obtain ⟨ls, hlen, hls, rfl⟩ := hpieces S hS
    exact ⟨l :: ls, by simp, List.forall_mem_cons.mpr ⟨hl, hls⟩, (intercalate_cons_eq ls l).symm⟩
  · rintro ⟨ls, hlen, hls, rfl⟩
    obtain ⟨l, ls, rfl⟩ := List.exists_cons_of_length_eq_add_one hlen
    obtain ⟨hl, hls⟩ := List.forall_mem_cons.mp hls
    refine ⟨l, hl, (ls.map (sep :: ·)).flatten, Language.mem_pow.mpr
      ⟨ls.map (sep :: ·), rfl, by simpa using hlen, fun y hy => ?_⟩,
      (intercalate_cons_eq ls l).symm⟩
    obtain ⟨l', hl', rfl⟩ := List.mem_map.mp hy
    exact mem_char_mul.mpr ⟨l', hls l' hl', rfl⟩

variable [DecidableEq α]

/-- **A list of a given length** is one that splits into as many items. -/
theorem mem_separated_pow (hsep : ∀ l ∈ r.matches', sep ∉ l) {x : List α} {n : Nat} :
    x ∈ (r * (char sep * r) ^ n).matches' ↔
      (x.splitOn sep).length = n + 1 ∧ ∀ l ∈ x.splitOn sep, l ∈ r.matches' := by
  rw [mem_mul_pow]
  constructor
  · rintro ⟨ls, hlen, hls, rfl⟩
    have hne : ls ≠ [] := List.ne_nil_of_length_pos (by omega)
    rw [List.splitOn_intercalate sep (fun l hl => hsep l (hls l hl)) hne]
    exact ⟨hlen, hls⟩
  · rintro ⟨hlen, hls⟩
    exact ⟨x.splitOn sep, hlen, hls, (List.intercalate_splitOn sep).symm⟩

/-- **A list of two or more items.** -/
theorem mem_separated (hsep : ∀ l ∈ r.matches', sep ∉ l) {x : List α} :
    x ∈ (r * oneOrMore (char sep * r)).matches' ↔
      2 ≤ (x.splitOn sep).length ∧ ∀ l ∈ x.splitOn sep, l ∈ r.matches' := by
  have hpow : ∀ n, x ∈ r.matches' * (char sep * r).matches' ^ n ↔
      (x.splitOn sep).length = n + 1 ∧ ∀ l ∈ x.splitOn sep, l ∈ r.matches' := by
    intro n
    rw [← matches'_pow (char sep * r) n, ← matches'_mul]
    exact mem_separated_pow hsep
  show x ∈ r.matches' * ((char sep * r).matches' * KStar.kstar (char sep * r).matches') ↔ _
  rw [Language.kstar_eq_iSup_pow, Language.mul_iSup, Language.mul_iSup, Language.mem_iSup]
  simp only [← pow_succ', hpow]
  constructor
  · rintro ⟨n, hlen, hls⟩
    exact ⟨by omega, hls⟩
  · rintro ⟨hlen, hls⟩
    exact ⟨(x.splitOn sep).length - 2, by omega, hls⟩

end Separated

end RegularExpression
