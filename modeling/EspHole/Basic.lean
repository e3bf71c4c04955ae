/-
What both firmwares share: bytes, digests, the machine's integer width, error codes.

Both run on an ESP32-P4, a 32-bit core, so `size_t` arithmetic is taken modulo `2 ^ 32`
wherever a value can come from outside.
-/
import Mathlib.Data.UInt
import Mathlib.Data.Nat.Notation

namespace EspHole

/-- A run of memory, flash or wire. -/
abbrev Bytes : Type := List UInt8

/-- A SHA-256 value. -/
abbrev Digest : Type := Vector UInt8 32

/-- `size_t` and `uint32_t` are both 32 bits wide on the target. -/
def sizeT (n : Nat) : Nat := n % 2 ^ 32

theorem sizeT_of_lt {n : Nat} (h : n < 2 ^ 32) : sizeT n = n := Nat.mod_eq_of_lt h

/-- `BLOCKLIST_MIN_DOMAINS`, the floor both firmwares refuse to go below. -/
def blocklistMinDomains : Nat := 10000

/-- `STATS_HIST_BUCKETS`, the latency buckets that one firmware counts and the other sums. -/
abbrev statsHistBuckets : Nat := 16

/-- `esp_err_t`, as far as the modelled code tells its values apart.  `driver` stands for
the codes that NVS, the flash driver and the HTTP client hand up. -/
inductive EspErr
  | ok
  | fail
  | noMem
  | invalidArg
  | invalidState
  | invalidSize
  | notFound
  | invalidCrc
  | driver
  deriving DecidableEq, Repr

/-- The bytes of a digest, as `memcmp` sees them. -/
def Digest.bytes (d : Digest) : Bytes := d.toList

@[simp] theorem Digest.bytes_length (d : Digest) : d.bytes.length = 32 := by
  simp [Digest.bytes]

theorem Digest.bytes_inj {d e : Digest} (h : d.bytes = e.bytes) : d = e :=
  Vector.toList_inj.mp h

/-! ### Tests that cannot fail, one after the other -/

theorem allM_some {α : Type} {f : α → Option Bool} {p : α → Bool} {l : List α}
    (h : ∀ x ∈ l, f x = some (p x)) : l.allM f = some (l.all p) := by
  induction l with
  | nil => rfl
  | cons x xs ih =>
      have hxs := ih fun y hy => h y (by simp [hy])
      rw [List.allM, h x (by simp)]
      cases hp : p x with
      | true => simpa [hp] using hxs
      | false => simp [hp]

theorem anyM_some {α : Type} {f : α → Option Bool} {p : α → Bool} {l : List α}
    (h : ∀ x ∈ l, f x = some (p x)) : l.anyM f = some (l.any p) := by
  induction l with
  | nil => rfl
  | cons x xs ih =>
      have hxs := ih fun y hy => h y (by simp [hy])
      rw [List.anyM, h x (by simp)]
      cases hp : p x with
      | true => simp [hp]
      | false => simpa [hp] using hxs

end EspHole
