/-
SHA-256, as a function on byte strings.

The development takes its digest as a parameter, since neither firmware computes it
itself.  This is the function both of them are linked against, so that a result about
every digest can be read at the one that is used.
-/
import Mathlib.Data.UInt
import EspHole.Lib.Ascii

namespace Sha256

/-- The round constants. -/
def roundConstants : List UInt32 := [
  0x428a2f98, 0x71374491, 0xb5c0fbcf, 0xe9b5dba5, 0x3956c25b, 0x59f111f1, 0x923f82a4, 0xab1c5ed5,
  0xd807aa98, 0x12835b01, 0x243185be, 0x550c7dc3, 0x72be5d74, 0x80deb1fe, 0x9bdc06a7, 0xc19bf174,
  0xe49b69c1, 0xefbe4786, 0x0fc19dc6, 0x240ca1cc, 0x2de92c6f, 0x4a7484aa, 0x5cb0a9dc, 0x76f988da,
  0x983e5152, 0xa831c66d, 0xb00327c8, 0xbf597fc7, 0xc6e00bf3, 0xd5a79147, 0x06ca6351, 0x14292967,
  0x27b70a85, 0x2e1b2138, 0x4d2c6dfc, 0x53380d13, 0x650a7354, 0x766a0abb, 0x81c2c92e, 0x92722c85,
  0xa2bfe8a1, 0xa81a664b, 0xc24b8b70, 0xc76c51a3, 0xd192e819, 0xd6990624, 0xf40e3585, 0x106aa070,
  0x19a4c116, 0x1e376c08, 0x2748774c, 0x34b0bcb5, 0x391c0cb3, 0x4ed8aa4a, 0x5b9cca4f, 0x682e6ff3,
  0x748f82ee, 0x78a5636f, 0x84c87814, 0x8cc70208, 0x90befffa, 0xa4506ceb, 0xbef9a3f7, 0xc67178f2]

/-- The chaining state: eight words. -/
structure State where
  a : UInt32
  b : UInt32
  c : UInt32
  d : UInt32
  e : UInt32
  f : UInt32
  g : UInt32
  h : UInt32
  deriving DecidableEq, Repr

def State.start : State :=
  ⟨0x6a09e667, 0xbb67ae85, 0x3c6ef372, 0xa54ff53a, 0x510e527f, 0x9b05688c, 0x1f83d9ab, 0x5be0cd19⟩

def State.add (s t : State) : State :=
  ⟨s.a + t.a, s.b + t.b, s.c + t.c, s.d + t.d, s.e + t.e, s.f + t.f, s.g + t.g, s.h + t.h⟩

def State.words (s : State) : List UInt32 := [s.a, s.b, s.c, s.d, s.e, s.f, s.g, s.h]

def rotr (x n : UInt32) : UInt32 := (x >>> n) ||| (x <<< (32 - n))

/-- The next word of the message schedule, from the sixteen before it. -/
def nextWord (w : List UInt32) : UInt32 :=
  let x := w.getD 1 0
  let y := w.getD 14 0
  w.getD 0 0 + (rotr x 7 ^^^ rotr x 18 ^^^ (x >>> 3)) + w.getD 9 0 +
    (rotr y 17 ^^^ rotr y 19 ^^^ (y >>> 10))

/-- One round, with the word and the constant already added up. -/
def round (s : State) (kw : UInt32) : State :=
  let t1 := s.h + (rotr s.e 6 ^^^ rotr s.e 11 ^^^ rotr s.e 25) +
    ((s.e &&& s.f) ^^^ (~~~ s.e &&& s.g)) + kw
  let t2 := (rotr s.a 2 ^^^ rotr s.a 13 ^^^ rotr s.a 22) +
    ((s.a &&& s.b) ^^^ (s.a &&& s.c) ^^^ (s.b &&& s.c))
  ⟨t1 + t2, s.a, s.b, s.c, s.d + t1, s.e, s.f, s.g⟩

/-- The rounds, the window `w` holding the next sixteen words of the schedule. -/
def rounds : List UInt32 → List UInt32 → State → State
  | [], _, s => s
  | k :: ks, w, s => rounds ks (w.tail ++ [nextWord w]) (round s (k + w.getD 0 0))

/-- A word from its bytes, most significant first. -/
def bigEndian (bs : List UInt8) : UInt32 :=
  bs.foldl (fun w b => (w <<< 8) ||| b.toUInt32) 0

/-- Cut a list into pieces of `n`, of which there are `m`. -/
def pieces {α : Type} (n : Nat) : Nat → List α → List (List α)
  | 0, _ => []
  | m + 1, l => l.take n :: pieces n m (l.drop n)

def compress (s : State) (block : List UInt8) : State :=
  s.add (rounds roundConstants ((pieces 4 16 block).map bigEndian) s)

/-- A one bit, zeros to the end of a block but for eight bytes, and the length in bits. -/
def pad (msg : List UInt8) : List UInt8 :=
  msg ++ 0x80 :: List.replicate ((119 - msg.length % 64) % 64) 0 ++
    (List.range 8).map fun i => UInt8.ofNat (8 * msg.length / 256 ^ (7 - i))

/-- SHA-256.  Nothing unfolds it: a proof never needs to know what it computes. -/
@[irreducible] def sha256 (msg : List UInt8) : Vector UInt8 32 :=
  let padded := pad msg
  let s := (pieces 64 (padded.length / 64) padded).foldl compress State.start
  Vector.ofFn fun i =>
    (s.words.getD (i.val / 4) 0 >>> UInt32.ofNat (8 * (3 - i.val % 4))).toUInt8

example : sha256 (Ascii.ascii "abc") = ⟨#[
    0xba, 0x78, 0x16, 0xbf, 0x8f, 0x01, 0xcf, 0xea, 0x41, 0x41, 0x40, 0xde, 0x5d, 0xae, 0x22, 0x23,
    0xb0, 0x03, 0x61, 0xa3, 0x96, 0x17, 0x7a, 0x9c, 0xb4, 0x10, 0xff, 0x61, 0xf2, 0x00, 0x15, 0xad],
    rfl⟩ := by
  decide +kernel

end Sha256
