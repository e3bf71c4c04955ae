/-
What the sinkhole makes of a manifest: `parse_sha256_hex` and `parse_manifest` of
`main/updater.c`.

The manifest is JSON.  cJSON is not part of the repository, so the parser is an argument
and `readManifest` starts from its tree.  `readManifest_accepted` collects what is known
of a manifest that was taken: the floor, and the size check — which is made in 32 bits,
so it says nothing of the exact product.
-/
import EspHole.Basic
import EspHole.Lib.Json

namespace EspHole.Sinkhole

open Ascii Json

/-- `BLOCKLIST_VERSION_MAX` -/
def blocklistVersionMax : Nat := 32

/-- `MANIFEST_FORMAT` -/
def manifestFormat : Int := 2

/-- `manifest_t`; the two strings without their NUL. -/
structure Manifest where
  version : Bytes
  url : Bytes
  size : Nat
  count : Nat
  sha256 : Digest
  deriving DecidableEq, Repr

/-- `hex_nibble` -/
def hexNibble (c : UInt8) : Option UInt8 :=
  if '0'.toUInt8 ≤ c ∧ c ≤ '9'.toUInt8 then some (c - '0'.toUInt8)
  else if 'a'.toUInt8 ≤ c ∧ c ≤ 'f'.toUInt8 then some (c - 'a'.toUInt8 + 10)
  else if 'A'.toUInt8 ≤ c ∧ c ≤ 'F'.toUInt8 then some (c - 'A'.toUInt8 + 10)
  else none

/-- The loop of `parse_sha256_hex`. -/
def hexPairs : Bytes → Option Bytes
  | hi :: lo :: rest => do
      let hi ← hexNibble hi
      let lo ← hexNibble lo
      let out ← hexPairs rest
      return ((hi <<< 4) ||| lo) :: out
  | [] => some []
  | [_] => none

/-- `parse_sha256_hex`, with `none` for a NULL argument. -/
def parseSha256Hex (hex : Option Bytes) : Option Digest := do
  let hex := cstr (← hex)
  if hex.length ≠ 64 then none
  else
    let out ← hexPairs hex
    if h : out.toArray.size = 32 then return ⟨out.toArray, h⟩ else none

/-- `strlcpy` into a buffer of `sz` bytes: what the buffer then spells. -/
def strlcpy (src : Bytes) (sz : Nat) : Bytes := (cstr src).take (sz - 1)

/-- The version branch of `parse_manifest`: a string as it is, a number as `%.0f`. -/
def readVersion : Option Json → Option Bytes
  | some (.str s) => some (strlcpy s blocklistVersionMax)
  | some (.num x) => some ((fixed0 x).take (blocklistVersionMax - 1))
  | _ => none

/-- `parse_manifest` on the tree that cJSON made. -/
def readManifest (root : Json) : Option Manifest := do
  let format := root.getObjectItem (ascii "format")
  let version := root.getObjectItem (ascii "version")
  let url := root.getObjectItem (ascii "url")
  let size := root.getObjectItem (ascii "size")
  let count := root.getObjectItem (ascii "count")
  let sha := root.getObjectItem (ascii "sha256")
  if toInt32 (← number? format) ≠ manifestFormat then none
  else
    let size ← number? size
    let count ← number? count
    let url ← string? url
    let sha256 ← parseSha256Hex (string? sha)
    let version ← readVersion version
    let m : Manifest := ⟨version, strlcpy url 256, toUInt32 size, toUInt32 count, sha256⟩
    if m.size ≠ sizeT (m.count * 8) then none
    else if m.count < blocklistMinDomains then none
    else some m

/-- `parse_manifest`; `cJSON_Parse` is given. -/
def parseManifest (cjsonParse : Bytes → Option Json) (json : Bytes) : Option Manifest := do
  readManifest (← cjsonParse json)

/-- What is known of a manifest that was accepted. -/
structure Manifest.Accepted (m : Manifest) : Prop where
  size : m.size = sizeT (m.count * 8)
  floor : blocklistMinDomains ≤ m.count
  count_lt : m.count < 2 ^ 32
  version : m.version.length < blocklistVersionMax

theorem strlcpy_length (src : Bytes) {sz : Nat} (h : 0 < sz) : (strlcpy src sz).length < sz := by
  unfold strlcpy
  simp
  omega

theorem readVersion_length {item : Option Json} {v : Bytes} (h : readVersion item = some v) :
    v.length < blocklistVersionMax := by
  unfold readVersion at h
  split at h
  · obtain rfl := Option.some.inj h
    exact strlcpy_length _ (by decide)
  · obtain rfl := Option.some.inj h
    simp [blocklistVersionMax]
  · cases h

/-- A manifest that was taken is made of the fields of its tree. -/
theorem readManifest_some {root : Json} {m : Manifest} (h : readManifest root = some m) :
    ∃ size count url, number? (root.getObjectItem (ascii "size")) = some size ∧
      number? (root.getObjectItem (ascii "count")) = some count ∧
      string? (root.getObjectItem (ascii "url")) = some url ∧
      parseSha256Hex (string? (root.getObjectItem (ascii "sha256"))) = some m.sha256 ∧
      readVersion (root.getObjectItem (ascii "version")) = some m.version ∧
      m.url = strlcpy url 256 ∧ m.size = toUInt32 size ∧ m.count = toUInt32 count ∧
      m.size = sizeT (m.count * 8) ∧ blocklistMinDomains ≤ m.count := by
  unfold readManifest at h
  simp only [Option.bind_eq_bind, Option.bind_eq_some_iff] at h
  obtain ⟨format, -, h⟩ := h
  split at h
  · cases h
  · obtain ⟨size, hsize, h⟩ := Option.bind_eq_some_iff.mp h
    obtain ⟨count, hcount, h⟩ := Option.bind_eq_some_iff.mp h
    obtain ⟨url, hurl, h⟩ := Option.bind_eq_some_iff.mp h
    obtain ⟨sha, hsha, h⟩ := Option.bind_eq_some_iff.mp h
    obtain ⟨version, hversion, h⟩ := Option.bind_eq_some_iff.mp h
    split at h
    · cases h
    · split at h
      · cases h
      · rename_i hproduct hfloor
        obtain rfl := Option.some.inj h
        exact ⟨size, count, url, hsize, hcount, hurl, hsha, hversion, rfl, rfl, rfl,
          by simpa using hproduct, by simpa using hfloor⟩

theorem readManifest_accepted {root : Json} {m : Manifest} (h : readManifest root = some m) :
    m.Accepted := by
  obtain ⟨_, count, _, -, -, -, -, hversion, -, -, hcount, hsize, hfloor⟩ := readManifest_some h
  exact ⟨hsize, hfloor, hcount ▸ toUInt32_lt count, readVersion_length hversion⟩

theorem parseManifest_eq {cjsonParse : Bytes → Option Json} {json : Bytes} {root : Json}
    (h : cjsonParse json = some root) : parseManifest cjsonParse json = readManifest root := by
  unfold parseManifest
  rw [h]
  exact Option.bind_some root readManifest

theorem parseManifest_accepted {cjsonParse : Bytes → Option Json} {json : Bytes} {m : Manifest}
    (h : parseManifest cjsonParse json = some m) : m.Accepted := by
  obtain ⟨root, -, h⟩ := Option.bind_eq_some_iff.mp h
  exact readManifest_accepted h

end EspHole.Sinkhole
