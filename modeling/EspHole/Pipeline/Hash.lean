/-
The 64-bit FNV-1a hash of `components/blocklist_pipeline/hash.c`.

A domain is never stored: both firmwares keep and compare its hash only.  The function
is written out twice in the repository, once for each firmware, and the two copies have
to stay byte-identical; `Sinkhole/Lookup.lean` holds the other one.

Nothing is proved of collisions in general, and there are some.  But each step can be
undone, and three steps are too few to bring two states together again:
`domainHash_last_three`.
-/
import EspHole.Lib.Ascii
import Mathlib.Data.UInt
import Mathlib.Tactic.Ring

namespace EspHole.Pipeline

open Ascii

/-- `domain_hash` of `hash.c`. -/
def domainHash (s : List UInt8) : UInt64 :=
  s.foldl (fun h c => (h ^^^ c.toUInt64) * 0x100000001b3) 0xcbf29ce484222325

example : domainHash (ascii "ads.example.com") = 0xc0933158979aa55e := by decide +kernel

/-- The hash of a string with one more byte. -/
theorem domainHash_concat (s : List UInt8) (c : UInt8) :
    domainHash (s ++ [c]) = (domainHash s ^^^ c.toUInt64) * 0x100000001b3 := by
  simp [domainHash]

/-! ### Names that cannot collide -/

/-- The FNV prime can be divided out. -/
theorem mul_prime_inj {x y : UInt64} (h : x * 0x100000001b3 = y * 0x100000001b3) : x = y := by
  have hinv : (0x100000001b3 : UInt64) * 0xce965057aff6957b = 1 := by decide
  have := congrArg (· * 0xce965057aff6957b) h
  simpa only [UInt64.mul_assoc, hinv, UInt64.mul_one] using this

theorem byte_shiftRight (c : UInt8) : c.toUInt64 >>> 8 = 0 := by
  revert c
  exact forall_byte (by decide +kernel)

theorem domainHash_concat_eq {s t : List UInt8} {c d : UInt8}
    (h : domainHash (s ++ [c]) = domainHash (t ++ [d])) :
    domainHash s ^^^ c.toUInt64 = domainHash t ^^^ d.toUInt64 := by
  rw [domainHash_concat, domainHash_concat] at h
  exact mul_prime_inj h

/-- The last byte reaches the lowest eight bits of the state before it, and no others. -/
theorem domainHash_concat_top {s t : List UInt8} {c d : UInt8}
    (h : domainHash (s ++ [c]) = domainHash (t ++ [d])) :
    domainHash s >>> 8 = domainHash t >>> 8 := by
  have := congrArg (fun w : UInt64 => w >>> 8) (domainHash_concat_eq h)
  simpa only [UInt64.shiftRight_xor, byte_shiftRight, UInt64.xor_zero] using this

/-- A byte moves a word by less than 256. -/
theorem xor_byte (x : UInt64) (c : UInt8) :
    ∃ e : Int, ((x ^^^ c.toUInt64).toNat : Int) = x.toNat + e ∧ -256 < e ∧ e < 256 := by
  have hx := Nat.div_add_mod x.toNat 256
  have hy := Nat.div_add_mod (x ^^^ c.toUInt64).toNat 256
  have hdiv : (x ^^^ c.toUInt64).toNat / 256 = x.toNat / 256 := by
    have := congrArg UInt64.toNat (show (x ^^^ c.toUInt64) >>> 8 = x >>> 8 by
      rw [UInt64.shiftRight_xor, byte_shiftRight, UInt64.xor_zero])
    simpa [Nat.shiftRight_eq_div_pow] using this
  have h1 := Nat.mod_lt x.toNat (show 0 < 256 by decide)
  have h2 := Nat.mod_lt (x ^^^ c.toUInt64).toNat (show 0 < 256 by decide)
  exact ⟨(x ^^^ c.toUInt64).toNat - x.toNat, by omega, by omega, by omega⟩

theorem mul_prime (x : UInt64) :
    ∃ k : Int, ((x * 0x100000001b3).toNat : Int) = x.toNat * 0x100000001b3 - k * 2 ^ 64 := by
  refine ⟨(x.toNat * 0x100000001b3 / 2 ^ 64 : Nat), ?_⟩
  rw [UInt64.toNat_mul]
  have := Nat.div_add_mod (x.toNat * 0x100000001b3) (2 ^ 64)
  show ((x.toNat * 0x100000001b3 % 2 ^ 64 : Nat) : Int) = _
  omega

theorem no_small_relation {d e f k : Int} (hd : -512 < d ∧ d < 512) (he : -512 < e ∧ e < 512)
    (hf : -512 < f ∧ f < 512)
    (h : (d * 0x100000001b3 + e) * 0x100000001b3 - k * 2 ^ 64 = f) : d = 0 ∧ e = 0 := by
  -- The square of the prime is `870 * 2 ^ 40 + 189225` modulo `2 ^ 64`.
  have hsplit : (870 * d + e + 2 ^ 40 * d - 2 ^ 24 * k) * 2 ^ 40 = f - 189225 * d - 435 * e := by
    rw [← h]
    ring
  have hhigh : 870 * d + e + 2 ^ 40 * d - 2 ^ 24 * k = 0 := by omega
  have hlow : 870 * d + e = 0 := by omega
  omega

/-- **Names of one length that differ in their last three bytes only do not collide.** -/
theorem domainHash_last_three {s : List UInt8} {x y z x' y' z' : UInt8}
    (h : domainHash (s ++ [x, y, z]) = domainHash (s ++ [x', y', z'])) :
    x = x' ∧ y = y' ∧ z = z' := by
  have hcut : ∀ x y z : UInt8, s ++ [x, y, z] = s ++ [x] ++ [y] ++ [z] := by simp
  have hz : domainHash (s ++ [x] ++ [y]) ^^^ z.toUInt64 =
      domainHash (s ++ [x'] ++ [y']) ^^^ z'.toUInt64 :=
    domainHash_concat_eq (by rw [← hcut, ← hcut, h])
  simp only [domainHash_concat] at hz
  generalize domainHash s = w at hz
  obtain ⟨e₁, h₁, hl₁, hu₁⟩ := xor_byte w x
  obtain ⟨e₁', h₁', hl₁', hu₁'⟩ := xor_byte w x'
  generalize ha : w ^^^ x.toUInt64 = a at hz h₁
  generalize ha' : w ^^^ x'.toUInt64 = a' at hz h₁'
  obtain ⟨k₁, hk₁⟩ := mul_prime a
  obtain ⟨k₁', hk₁'⟩ := mul_prime a'
  obtain ⟨e₂, h₂, hl₂, hu₂⟩ := xor_byte (a * 0x100000001b3) y
  obtain ⟨e₂', h₂', hl₂', hu₂'⟩ := xor_byte (a' * 0x100000001b3) y'
  generalize hb : (a * 0x100000001b3) ^^^ y.toUInt64 = b at hz h₂
  generalize hb' : (a' * 0x100000001b3) ^^^ y'.toUInt64 = b' at hz h₂'
  obtain ⟨k₂, hk₂⟩ := mul_prime b
  obtain ⟨k₂', hk₂'⟩ := mul_prime b'
  obtain ⟨e₃, h₃, hl₃, hu₃⟩ := xor_byte (b * 0x100000001b3) z
  obtain ⟨e₃', h₃', hl₃', hu₃'⟩ := xor_byte (b' * 0x100000001b3) z'
  rw [hz] at h₃
  obtain ⟨hd, he⟩ := no_small_relation (d := e₁ - e₁') (e := e₂ - e₂') (f := e₃' - e₃)
    (k := (k₁ - k₁') * 0x100000001b3 + (k₂ - k₂')) (by omega) (by omega) (by omega) (by omega)
  obtain rfl : a = a' := UInt64.toNat.inj (by omega)
  obtain rfl : b = b' := UInt64.toNat.inj (by omega)
  rw [← ha', UInt64.xor_right_inj] at ha
  rw [← hb', UInt64.xor_right_inj] at hb
  rw [UInt64.xor_right_inj] at hz
  exact ⟨UInt8.toUInt64_inj.mp ha, UInt8.toUInt64_inj.mp hb, UInt8.toUInt64_inj.mp hz⟩

end EspHole.Pipeline
