/-
JSON trees, with what C code that uses cJSON does to them.

Strings and keys are byte strings; a number is the exact value of its double.  Looking
a key up ignores case and takes the first match, and a number becomes an integer by the
target's conversion, which truncates and saturates.  `fixed0` is what `%.0f` prints.
-/
import Mathlib.Data.List.Nodup
import Mathlib.Data.Rat.Floor
import EspHole.Lib.Ascii

open Ascii

/-- A parsed document. -/
inductive Json
  | null
  | bool (b : Bool)
  | num (valuedouble : ℚ)
  | str (valuestring : List UInt8)
  | arr (items : List Json)
  | obj (items : List (List UInt8 × Json))

namespace Json

/-- `cJSON_GetObjectItem`: the first item whose key is `key` up to case. -/
def getObjectItem (root : Json) (key : List UInt8) : Option Json :=
  match root with
  | .obj items => (items.find? fun item => item.1.map lower == key.map lower).map (·.2)
  | _ => none

/-- An object without the items whose key does not pass. -/
def keep (p : List UInt8 → Bool) : Json → Json
  | .obj items => .obj (items.filter fun item => p item.1)
  | root => root

/-- Where no key comes twice, an item that is found after some were left out is the one that
was there. -/
theorem getObjectItem_keep {p : List UInt8 → Bool} {key : List UInt8} {x : Json}
    {items : List (List UInt8 × Json)} (hkeys : (items.map fun item => item.1.map lower).Nodup)
    (h : ((Json.obj items).keep p).getObjectItem key = some x) :
    (Json.obj items).getObjectItem key = some x := by
  obtain ⟨found, hfind, rfl⟩ := Option.map_eq_some_iff.mp h
  have hmem := (List.mem_filter.mp (List.mem_of_find?_eq_some hfind)).1
  have hmatch : found.1.map lower = key.map lower := by simpa using List.find?_some hfind
  -- The first match is the only one.
  have hsome : (items.find? fun item => item.1.map lower == key.map lower).isSome :=
    List.find?_isSome.mpr ⟨found, hmem, by simpa using hmatch⟩
  obtain ⟨first, hfirst⟩ := Option.isSome_iff_exists.mp hsome
  have hkey : first.1.map lower = key.map lower := by simpa using List.find?_some hfirst
  have hone := List.inj_on_of_nodup_map hkeys (List.mem_of_find?_eq_some hfirst) hmem
    (hkey.trans hmatch.symm)
  rw [hone] at hfirst
  exact Option.map_eq_some_iff.mpr ⟨found, hfirst, rfl⟩

/-- `cJSON_IsNumber`, with the number. -/
def number? : Option Json → Option ℚ
  | some (.num x) => some x
  | _ => none

/-- `cJSON_IsString`, with the string. -/
def string? : Option Json → Option (List UInt8)
  | some (.str s) => some s
  | _ => none

theorem number?_eq_some {item : Option Json} {x : ℚ} :
    number? item = some x ↔ item = some (.num x) := by
  unfold number?
  split <;> simp_all

theorem string?_eq_some {item : Option Json} {s : List UInt8} :
    string? item = some s ↔ item = some (.str s) := by
  unfold string?
  split <;> simp_all

/-- `(uint32_t)x` for a double -/
def toUInt32 (x : ℚ) : Nat := if x ≤ 0 then 0 else min ⌊x⌋.toNat (2 ^ 32 - 1)

/-- `(int32_t)x` for a double -/
def toInt32 (x : ℚ) : Int :=
  max (-2 ^ 31) (min (if 0 ≤ x then ⌊x⌋ else -⌊-x⌋) (2 ^ 31 - 1))

/-- The integer nearest to a number that is not negative, ties to even. -/
def roundEven (x : ℚ) : Nat :=
  let n := ⌊x⌋.toNat
  if x - n < 1 / 2 then n
  else if 1 / 2 < x - n then n + 1
  else n + n % 2

/-- `%.0f` -/
def fixed0 (x : ℚ) : List UInt8 :=
  if x < 0 then '-'.toUInt8 :: ascii (toString (roundEven (-x)))
  else ascii (toString (roundEven x))

/-! ### Printing -/

/-- A string between quotes; only for strings in which nothing has to be escaped. -/
def quote (s : List UInt8) : List UInt8 := ascii "\"" ++ s ++ ascii "\""

mutual

/-- `cJSON_PrintUnformatted`, for integers and for strings without escapes. -/
def print : Json → List UInt8
  | .null => ascii "null"
  | .bool b => ascii (toString b)
  | .num x => fixed0 x
  | .str s => quote s
  | .arr items => ascii "[" ++ printItems items ++ ascii "]"
  | .obj items => ascii "\x7b" ++ printFields items ++ ascii "\x7d"

def printItems : List Json → List UInt8
  | [] => []
  | [x] => print x
  | x :: y :: rest => print x ++ ascii "," ++ printItems (y :: rest)

def printFields : List (List UInt8 × Json) → List UInt8
  | [] => []
  | [(k, x)] => quote k ++ ascii ":" ++ print x
  | (k, x) :: kx :: rest =>
      quote k ++ ascii ":" ++ print x ++ ascii "," ++ printFields (kx :: rest)

end

/-- A reader that knows one document. -/
def reads (root : Json) (text : List UInt8) : Option Json :=
  if text = print root then some root else none

theorem reads_print (root : Json) : reads root (print root) = some root := if_pos rfl

example : print (.obj [(ascii "size", .num 80000), (ascii "url", .str (ascii "http://list"))]) =
    ascii "\x7b\"size\":80000,\"url\":\"http://list\"\x7d" := by
  decide +kernel

/-! ### Integers come back -/

theorem toUInt32_natCast {n : Nat} (h : n < 2 ^ 32) : toUInt32 (n : ℚ) = n := by
  unfold toUInt32
  by_cases h0 : (n : ℚ) ≤ 0
  · rw [if_pos h0]
    have : n = 0 := by exact_mod_cast le_antisymm h0 (by positivity)
    exact this.symm
  · rw [if_neg h0, Int.floor_natCast]
    simp
    omega

theorem toUInt32_lt (x : ℚ) : toUInt32 x < 2 ^ 32 := by
  unfold toUInt32
  split
  · norm_num
  · omega

end Json
