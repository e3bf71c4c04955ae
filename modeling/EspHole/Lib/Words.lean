/-
Little-endian 64-bit words.

`encode` and `decode` are the two shift loops every C program writes for this, and
`words` reads a byte string as an array of words, dropping a ragged tail.  All three
are shown to be what they look like through one bridge: a decoded word is
`Nat.ofDigits 256` of its bytes.  Everything else — the two round trips, and that
`words` inverts the concatenation of encodings — follows from Mathlib's digits.

The order on words is the numeric one; Mathlib leaves it to its users to say so.
-/
import Mathlib.Data.Nat.Digits.Lemmas
import Mathlib.Data.UInt

instance instLinearOrderUInt64 : LinearOrder UInt64 where
  le_refl := UInt64.le_refl
  le_trans _ _ _ := UInt64.le_trans
  le_antisymm _ _ := UInt64.le_antisymm
  le_total := UInt64.le_total
  lt_iff_le_not_ge _ _ := by simp [UInt64.lt_iff_toNat_lt, UInt64.le_iff_toNat_le]; omega
  toDecidableLE := inferInstance

namespace Words

/-- The eight bytes of a word, least significant first. -/
def encode (v : UInt64) : List UInt8 :=
  (List.range 8).map fun i => (v >>> (8 * i).toUInt64).toUInt8

/-- The word a little-endian byte string spells. -/
def decode (p : List UInt8) : UInt64 :=
  p.foldr (fun b v => (v <<< 8) ||| b.toUInt64) 0

/-- A byte string read as an array of words. -/
def words : List UInt8 → List UInt64
  | b0 :: b1 :: b2 :: b3 :: b4 :: b5 :: b6 :: b7 :: rest =>
      decode [b0, b1, b2, b3, b4, b5, b6, b7] :: words rest
  | _ => []

@[simp] theorem encode_length (v : UInt64) : (encode v).length = 8 := by simp [encode]

/-! ### Decoding is reading digits -/

private theorem digit_lt (p : List UInt8) : ∀ x ∈ p.map UInt8.toNat, x < 256 := by
  intro x hx
  obtain ⟨b, -, rfl⟩ := List.mem_map.mp hx
  exact b.toNat_lt

private theorem ofDigits_lt (p : List UInt8) :
    Nat.ofDigits 256 (p.map UInt8.toNat) < 256 ^ p.length := by
  simpa using Nat.ofDigits_lt_base_pow_length (by omega) (digit_lt p)

theorem decode_toNat (p : List UInt8) :
    p.length ≤ 8 → (decode p).toNat = Nat.ofDigits 256 (p.map UInt8.toNat) := by
  induction p with
  | nil => intro _; rfl
  | cons b rest ih =>
      intro h
      have hrest : (decode rest).toNat = Nat.ofDigits 256 (rest.map UInt8.toNat) :=
        ih (by simp at h; omega)
      -- At most seven bytes are in, so the shift drops nothing.
      have hsmall : (decode rest).toNat < 2 ^ 56 := by
        rw [hrest]
        calc Nat.ofDigits 256 (rest.map UInt8.toNat) < 256 ^ rest.length := ofDigits_lt rest
          _ ≤ 256 ^ 7 := Nat.pow_le_pow_right (by omega) (by simp at h; omega)
          _ = 2 ^ 56 := by norm_num
      have hb : b.toNat < 2 ^ 8 := b.toNat_lt
      show ((decode rest <<< 8) ||| b.toUInt64).toNat = _
      rw [UInt64.toNat_or, UInt64.toNat_shiftLeft, UInt8.toNat_toUInt64]
      have hshift : (decode rest).toNat <<< ((8 : UInt64).toNat % 64) % 2 ^ 64
          = (decode rest).toNat <<< 8 := by
        refine Nat.mod_eq_of_lt ?_
        show (decode rest).toNat <<< 8 < 2 ^ 64
        rw [Nat.shiftLeft_eq]
        omega
      rw [hshift, ← Nat.shiftLeft_add_eq_or_of_lt hb, Nat.shiftLeft_eq, hrest, List.map_cons,
        Nat.ofDigits_cons]
      omega

private theorem ofDigits_range (n : Nat) :
    ∀ k, Nat.ofDigits 256 ((List.range k).map fun i => n / 256 ^ i % 256) = n % 256 ^ k := by
  intro k
  induction k with
  | zero => simp [Nat.mod_one]
  | succ k ih =>
      rw [List.range_succ, List.map_append, Nat.ofDigits_append, ih]
      simp only [List.map_cons, List.map_nil, Nat.ofDigits_singleton, List.length_map,
        List.length_range]
      rw [pow_succ, Nat.mod_mul]

private theorem encode_digits (v : UInt64) :
    (encode v).map UInt8.toNat = (List.range 8).map fun i => v.toNat / 256 ^ i % 256 := by
  unfold encode
  rw [List.map_map]
  refine List.map_congr_left fun i hi => ?_
  have hi' : i < 8 := List.mem_range.mp hi
  have hmod : (8 * i).toUInt64.toNat % 64 = 8 * i := by
    rw [show (8 * i).toUInt64.toNat = 8 * i from
      UInt64.toNat_ofNat_of_lt' (by show 8 * i < 2 ^ 64; omega)]
    omega
  simp only [Function.comp_apply, UInt64.toNat_toUInt8, UInt64.toNat_shiftRight, hmod,
    Nat.shiftRight_eq_div_pow]
  rw [Nat.pow_mul]

/-- Decoding an encoded word gives it back. -/
@[simp] theorem decode_encode (v : UInt64) : decode (encode v) = v := by
  refine UInt64.toNat.inj ?_
  rw [decode_toNat _ (by simp), encode_digits, ofDigits_range]
  exact Nat.mod_eq_of_lt v.toNat_lt

theorem decode_inj {p q : List UInt8} (hp : p.length = 8) (hq : q.length = 8)
    (h : decode p = decode q) : p = q := by
  have hnat := congrArg UInt64.toNat h
  rw [decode_toNat p (by omega), decode_toNat q (by omega)] at hnat
  have := Nat.ofDigits_inj_of_len_eq (by omega : 1 < 256) (by simp [hp, hq]) (digit_lt p)
    (digit_lt q) hnat
  exact List.map_injective_iff.mpr (fun _ _ => UInt8.toNat.inj) this

/-- Encoding eight decoded bytes gives them back. -/
theorem encode_decode {p : List UInt8} (h : p.length = 8) : encode (decode p) = p :=
  decode_inj (by simp) h (by simp)

/-! ### Arrays of words -/

theorem words_append {p : List UInt8} (hp : p.length = 8) (rest : List UInt8) :
    words (p ++ rest) = decode p :: words rest := by
  match p, hp with
  | [b0, b1, b2, b3, b4, b5, b6, b7], _ => rfl

/-- Reading back a concatenation of encodings. -/
@[simp] theorem words_encode (ws : List UInt64) : words (ws.flatMap encode) = ws := by
  induction ws with
  | nil => rfl
  | cons w ws ih => rw [List.flatMap_cons, words_append (by simp), ih, decode_encode]

@[simp] theorem flatMap_encode_length (ws : List UInt64) :
    (ws.flatMap encode).length = 8 * ws.length := by
  induction ws with
  | nil => rfl
  | cons w ws ih => simp [ih]; omega

/-- No word reaches past the end. -/
theorem words_length_le (b : List UInt8) : 8 * (words b).length ≤ b.length := by
  fun_induction words b with
  | case1 b0 b1 b2 b3 b4 b5 b6 b7 rest ih => simp only [List.length_cons]; omega
  | case2 b h => simp

/-- A byte string of `8 * n` bytes holds `n` words, and they spell it. -/
theorem words_spec :
    ∀ (n : Nat) (b : List UInt8), b.length = 8 * n →
      (words b).length = n ∧ (words b).flatMap encode = b := by
  intro n
  induction n with
  | zero =>
      intro b hb
      obtain rfl : b = [] := List.length_eq_zero_iff.mp (by omega)
      exact ⟨rfl, rfl⟩
  | succ n ih =>
      intro b hb
      have htake : (b.take 8).length = 8 := by simp; omega
      obtain ⟨hlen, hspell⟩ := ih (b.drop 8) (by simp; omega)
      rw [← List.take_append_drop 8 b, words_append htake]
      refine ⟨by simp [hlen], ?_⟩
      rw [List.flatMap_cons, hspell, encode_decode htake]

theorem words_length {b : List UInt8} {n : Nat} (h : b.length = 8 * n) :
    (words b).length = n := (words_spec n b h).1

theorem encode_words {b : List UInt8} {n : Nat} (h : b.length = 8 * n) :
    (words b).flatMap encode = b := (words_spec n b h).2

/-- Word `i` of a concatenation of encodings sits at byte `8 * i`. -/
theorem decode_take_drop (ws : List UInt64) :
    ∀ {i : Nat} (hi : i < ws.length),
      decode (((ws.flatMap encode).drop (8 * i)).take 8) = ws[i] := by
  induction ws with
  | nil => intro i hi; simp at hi
  | cons w ws ih =>
      intro i hi
      cases i with
      | zero =>
          rw [List.flatMap_cons, Nat.mul_zero, List.drop_zero,
            List.take_left' (encode_length w), decode_encode]
          rfl
      | succ i =>
          rw [List.flatMap_cons, show 8 * (i + 1) = 8 + 8 * i by omega, ← List.drop_drop,
            List.drop_left' (encode_length w)]
          exact ih (by simpa using hi)

end Words
