/-
Decimal numbers as C prints and reads them.

`decimal` is what `%u` and `%lld` print of a number that is not negative, `strtol` what
the function of that name reads, on a target where `long` has 32 bits: it skips white
space, takes a sign and digits, stops at the first byte that is not a digit, and a number
out of range is brought to the end of the range.  `strtol_decimal` puts the two together.
-/
import EspHole.Lib.Ascii
import Mathlib.Algebra.Order.Ring.Int

namespace Ascii

/-- `%u` -/
def decimal (n : Nat) : List UInt8 := ascii (toString n)

/-- The number that digits spell. -/
def value (digits : List UInt8) : Nat :=
  digits.foldl (fun v c => 10 * v + (c.toNat - 48)) 0

/-- A `long` of 32 bits: what is out of range goes to the end of the range. -/
def clampLong (v : Int) : Int := max (-2 ^ 31) (min v (2 ^ 31 - 1))

/-- `strtol` in base 10 -/
def strtol (s : List UInt8) : Int :=
  match s.dropWhile isSpace with
  | [] => 0
  | c :: rest =>
      if c = '-'.toUInt8 then clampLong (-(value (rest.takeWhile isDigit) : Int))
      else if c = '+'.toUInt8 then clampLong (value (rest.takeWhile isDigit))
      else clampLong (value ((c :: rest).takeWhile isDigit))

/-! ### Digits -/

theorem decimal_eq (n : Nat) : decimal n = (Nat.toDigits 10 n).map Char.toUInt8 := by
  unfold decimal ascii
  rw [Nat.toString_eq_ofList_toDigits, String.toList_ofList]

/-- The byte of a digit. -/
theorem digitChar_byte {d : Nat} (h : d < 10) : d.digitChar.toUInt8 = UInt8.ofNat (48 + d) := by
  revert d
  decide

theorem decimal_of_lt {n : Nat} (h : n < 10) : decimal n = [UInt8.ofNat (48 + n)] := by
  rw [decimal_eq, Nat.toDigits_of_lt_base h, List.map_singleton, digitChar_byte h]

/-- The last digit, and those before it. -/
theorem decimal_of_le {n : Nat} (h : 10 ≤ n) :
    decimal n = decimal (n / 10) ++ [UInt8.ofNat (48 + n % 10)] := by
  rw [decimal_eq, decimal_eq, Nat.toDigits_of_base_le (by decide) h, List.map_append,
    List.map_singleton, digitChar_byte (Nat.mod_lt n (by decide))]

theorem decimal_ne_nil (n : Nat) : decimal n ≠ [] := by
  rw [decimal_eq]
  simp

/-- A number below `10 ^ k` prints in `k` digits. -/
theorem decimal_length_le {n k : Nat} (hk : 0 < k) (h : n < 10 ^ k) : (decimal n).length ≤ k := by
  rw [decimal_eq, List.length_map]
  exact (Nat.length_toDigits_le_iff (by decide) hk).mpr h

theorem isDigit_ofNat {d : Nat} (h : d < 10) : isDigit (UInt8.ofNat (48 + d)) = true := by
  revert d
  decide

theorem toNat_digit {d : Nat} (h : d < 10) : (UInt8.ofNat (48 + d)).toNat = 48 + d := by
  revert d
  decide

theorem isDigit_decimal (n : Nat) : ∀ c ∈ decimal n, isDigit c = true := by
  induction n using Nat.strong_induction_on with
  | _ n ih =>
      by_cases h : n < 10
      · rw [decimal_of_lt h]
        exact List.forall_mem_singleton.mpr (isDigit_ofNat h)
      · rw [decimal_of_le (by omega)]
        exact List.forall_mem_append.mpr ⟨ih (n / 10) (by omega),
          List.forall_mem_singleton.mpr (isDigit_ofNat (Nat.mod_lt n (by decide)))⟩

/-- What is printed reads back. -/
theorem value_decimal (n : Nat) : value (decimal n) = n := by
  induction n using Nat.strong_induction_on with
  | _ n ih =>
      by_cases h : n < 10
      · rw [decimal_of_lt h]
        show 10 * 0 + ((UInt8.ofNat (48 + n)).toNat - 48) = n
        rw [toNat_digit h]
        omega
      · have hlast := toNat_digit (Nat.mod_lt n (by decide : 0 < 10))
        have hinit : value (decimal (n / 10)) = n / 10 := ih (n / 10) (by omega)
        rw [decimal_of_le (by omega), value, List.foldl_append, List.foldl_cons, List.foldl_nil,
          hlast]
        show 10 * value (decimal (n / 10)) + _ = n
        rw [hinit]
        omega

/-- A digit is none of the bytes that have a meaning around numbers. -/
theorem isDigit_apart (c : UInt8) : isDigit c = true → isSpace c = false ∧ c ≠ '-'.toUInt8 ∧
    c ≠ '+'.toUInt8 ∧ c ≠ 0 ∧ c ≠ ','.toUInt8 ∧ c ≠ '='.toUInt8 := by
  revert c
  exact forall_byte (by decide +kernel)

/-- **A number that is read back** is the one that was printed, or the largest there is. -/
theorem strtol_decimal {n : Nat} {rest : List UInt8}
    (hrest : ∀ c ∈ rest.head?, isDigit c = false) :
    strtol (decimal n ++ rest) = min n (2 ^ 31 - 1) := by
  have htake := takeWhile_append_stop (isDigit_decimal n) hrest
  obtain ⟨c, cs, hcons⟩ := List.exists_cons_of_ne_nil (decimal_ne_nil n)
  have hdigit := isDigit_apart c (isDigit_decimal n c (by rw [hcons]; exact List.mem_cons_self))
  have hhead : decimal n ++ rest = c :: (cs ++ rest) := by rw [hcons, List.cons_append]
  unfold strtol
  rw [hhead, List.dropWhile_cons_of_neg (by simp [hdigit.1])]
  show (if c = _ then _ else if c = _ then _ else _) = _
  rw [if_neg hdigit.2.1, if_neg hdigit.2.2.1, ← hhead, htake, value_decimal]
  unfold clampLong
  omega

end Ascii
