/-
What the generator publishes, and what it serves: `generator-node/main/http_serve.c`.

The manifest is built as a cJSON tree and printed.  `readManifest_manifestTree` is the
other half of the format: the sinkhole reads back exactly what went in, for every
artifact whose numbers fit and every pair of strings that fit the reader's buffers.

Publishing may run out of memory anywhere.  `httpServePublish_cases` says what can come of
it: nothing, or a published artifact whose manifest may lack items, and such a manifest is
either read as what went in or not read at all (`readManifest_keep`).
-/
import EspHole.Pipeline.Generate
import EspHole.Sinkhole.Manifest

namespace EspHole.Generator

open Ascii Json Pipeline Sinkhole

/-- `BLOCKLIST_MANIFEST_FORMAT` -/
def blocklistManifestFormat : ℚ := 2

/-- A digit of `%x`. -/
def hexDigit (n : UInt8) : UInt8 := if n < 10 then '0'.toUInt8 + n else 'a'.toUInt8 + (n - 10)

/-- `%02x` -/
def hexByte (b : UInt8) : Bytes := [hexDigit (b >>> 4), hexDigit (b &&& 15)]

/-- The tree that `build_manifest_json` builds, its items in the order they are added. -/
def manifestTree (art : Artifact) (version url : Bytes) : Json :=
  .obj [
    (ascii "format", .num blocklistManifestFormat),
    (ascii "version", .str version),
    (ascii "size", .num art.blobLen),
    (ascii "sha256", .str (art.sha256.bytes.flatMap hexByte)),
    (ascii "count", .num art.count),
    (ascii "url", .str url)]

/-- `build_manifest_json`; `cJSON_PrintUnformatted` is given, and is NULL when it runs out
of memory. -/
def buildManifestJson (cjsonPrint : Json → Option Bytes) (art : Artifact) (version url : Bytes) :
    Option Bytes :=
  cjsonPrint (manifestTree art version url)

/-- cJSON reads back the tree that it printed. -/
def Rereads (cjsonPrint : Json → Option Bytes) (cjsonParse : Bytes → Option Json) (root : Json) :
    Prop :=
  ∀ text, cjsonPrint root = some text → cjsonParse text = some root

theorem rereads_print (root : Json) : Rereads (fun r => some (print r)) (reads root) root := by
  intro text h
  obtain rfl := Option.some.inj h
  exact reads_print root

/-! ### What it looks like -/

/-- The text of a manifest, for strings that need no escape. -/
def manifestText (art : Artifact) (version url : Bytes) : Bytes :=
  ascii "\x7b\"format\":2,\"version\":\"" ++ (version ++ (ascii "\",\"size\":" ++
    (fixed0 art.blobLen ++ (ascii ",\"sha256\":\"" ++ (art.sha256.bytes.flatMap hexByte ++
      (ascii "\",\"count\":" ++ (fixed0 art.count ++ (ascii ",\"url\":\"" ++
        (url ++ ascii "\"\x7d")))))))))

theorem print_manifestTree (art : Artifact) (version url : Bytes) :
    print (manifestTree art version url) = manifestText art version url := by
  have hformat : fixed0 blocklistManifestFormat = ascii "2" := by decide +kernel
  simp only [manifestTree, print, printFields, quote, List.append_assoc, hformat, manifestText]
  rfl

theorem hexByte_ne_zero (b : UInt8) : 0 ∉ hexByte b := by
  revert b
  exact forall_byte (by decide +kernel)

theorem length_flatMap_hexByte (bs : Bytes) : (bs.flatMap hexByte).length = 2 * bs.length := by
  induction bs with
  | nil => rfl
  | cons b bs ih => simp [hexByte, ih]; omega

theorem zero_not_mem_hex (bs : Bytes) : 0 ∉ bs.flatMap hexByte := by
  intro h
  obtain ⟨b, -, hb⟩ := List.mem_flatMap.mp h
  exact hexByte_ne_zero b hb

/-- It holds no NUL, so the C string is the whole text. -/
theorem cstr_manifestText {art : Artifact} {version url : Bytes} (hsize : 0 ∉ fixed0 art.blobLen)
    (hcount : 0 ∉ fixed0 art.count) (hversion : 0 ∉ version) (hurl : 0 ∉ url) :
    cstr (manifestText art version url) = manifestText art version url := by
  have hsha : 0 ∉ art.sha256.bytes.flatMap hexByte := zero_not_mem_hex _
  refine cstr_eq_self ?_
  unfold manifestText
  simp only [List.mem_append, not_or]
  exact ⟨by decide, hversion, by decide, hsize, by decide, hsha, by decide, hcount, by decide, hurl,
    by decide⟩

theorem manifestText_length (art : Artifact) (version url : Bytes) :
    (manifestText art version url).length =
      127 + version.length + url.length + (fixed0 art.blobLen).length +
        (fixed0 art.count).length := by
  have hsha : (art.sha256.bytes.flatMap hexByte).length = 64 := by
    rw [length_flatMap_hexByte, Digest.bytes_length]
  unfold manifestText
  simp only [List.length_append, hsha]
  rw [show (ascii "\x7b\"format\":2,\"version\":\"").length = 23 from rfl,
    show (ascii "\",\"size\":").length = 9 from rfl,
    show (ascii ",\"sha256\":\"").length = 11 from rfl,
    show (ascii "\",\"count\":").length = 10 from rfl,
    show (ascii ",\"url\":\"").length = 8 from rfl, show (ascii "\"\x7d").length = 2 from rfl]
  omega

/-- Of manifests with different versions of one length, neither text begins the other. -/
theorem version_of_begins {art art' : Artifact} {version version' url url' : Bytes}
    (h : print (manifestTree art version url) <+: print (manifestTree art' version' url'))
    (hlen : version.length = version'.length) : version = version' := by
  rw [print_manifestTree, print_manifestTree] at h
  obtain ⟨rest, hrest⟩ := (List.prefix_append_right_inj _).mp h
  rw [List.append_assoc] at hrest
  exact (List.append_inj hrest hlen).1

theorem version_of_text {art art' : Artifact} {version version' url url' : Bytes}
    (h : print (manifestTree art version url) = print (manifestTree art' version' url'))
    (hlen : version.length = version'.length) : version = version' :=
  version_of_begins (by rw [h]) hlen

/-! ### Reading it back -/

theorem hexNibble_hexDigit (b : UInt8) :
    hexNibble (hexDigit (b >>> 4)) = some (b >>> 4) ∧
      hexNibble (hexDigit (b &&& 15)) = some (b &&& 15) ∧
      ((b >>> 4) <<< 4) ||| (b &&& 15) = b := by
  revert b
  exact forall_byte (by decide +kernel)

/-- Two hexadecimal digits spell their byte. -/
theorem hexPairs_hexByte (bs : Bytes) : hexPairs (bs.flatMap hexByte) = some bs := by
  induction bs with
  | nil => rfl
  | cons b bs ih =>
      obtain ⟨hhi, hlo, hsum⟩ := hexNibble_hexDigit b
      show hexPairs (hexDigit (b >>> 4) :: hexDigit (b &&& 15) :: bs.flatMap hexByte) = _
      rw [hexPairs, hhi, hlo, ih]
      simp [hsum]

/-- The digest survives its hexadecimal form. -/
theorem parseSha256Hex_hexByte (d : Digest) :
    parseSha256Hex (some (d.bytes.flatMap hexByte)) = some d := by
  have hnul : 0 ∉ d.bytes.flatMap hexByte := zero_not_mem_hex d.bytes
  have hlen : (d.bytes.flatMap hexByte).length = 64 := by
    rw [length_flatMap_hexByte, Digest.bytes_length]
  unfold parseSha256Hex
  simp only [Option.bind_eq_bind, Option.bind_some, cstr_eq_self hnul]
  rw [if_neg (by omega), hexPairs_hexByte]
  simp only [Option.bind_some]
  rw [dif_pos (by simp)]
  exact congrArg some (Vector.toArray_inj.mp (Array.toList_inj.mp rfl))

/-- A string that fits its buffer and holds no NUL is copied whole. -/
theorem strlcpy_eq {s : Bytes} {sz : Nat} (h0 : 0 ∉ s) (hlen : s.length < sz) :
    strlcpy s sz = s := by
  unfold strlcpy
  rw [cstr_eq_self h0, List.take_of_length_le (by omega)]

/-- What the sinkhole reads off the generator's tree. -/
theorem readManifest_manifestTree {art : Artifact} {version url : Bytes}
    (hsize : art.blobLen = sizeT (art.count * 8)) (hfloor : blocklistMinDomains ≤ art.count)
    (hcount : art.count < 2 ^ 32) (hversion : version.length < blocklistVersionMax)
    (hversion0 : 0 ∉ version) (hurl : url.length < 256) (hurl0 : 0 ∉ url) :
    readManifest (manifestTree art version url) =
      some ⟨version, url, art.blobLen, art.count, art.sha256⟩ := by
  have hformat : toInt32 blocklistManifestFormat = manifestFormat := by decide +kernel
  have hlen : art.blobLen < 2 ^ 32 := by rw [hsize]; exact Nat.mod_lt _ (by norm_num)
  have h1 : (manifestTree art version url).getObjectItem (ascii "format") =
      some (.num blocklistManifestFormat) := rfl
  have h2 : (manifestTree art version url).getObjectItem (ascii "version") =
      some (.str version) := rfl
  have h3 : (manifestTree art version url).getObjectItem (ascii "url") = some (.str url) := rfl
  have h4 : (manifestTree art version url).getObjectItem (ascii "size") =
      some (.num art.blobLen) := rfl
  have h5 : (manifestTree art version url).getObjectItem (ascii "count") =
      some (.num art.count) := rfl
  have h6 : (manifestTree art version url).getObjectItem (ascii "sha256") =
      some (.str (art.sha256.bytes.flatMap hexByte)) := rfl
  unfold readManifest
  simp only [h1, h2, h3, h4, h5, h6, number?, string?, readVersion, Option.bind_eq_bind,
    Option.bind_some, parseSha256Hex_hexByte, toUInt32_natCast hlen, toUInt32_natCast hcount]
  rw [if_neg (by rw [hformat]; simp), if_neg (by rw [← hsize]; simp), if_neg (by omega),
    strlcpy_eq hversion0 hversion, strlcpy_eq hurl0 hurl]

/-! ### Publishing -/

/-- What memory `http_serve_publish` gets: for its `published_t`, for the cJSON object, for
each item, by its key, and for the printed text. -/
structure PublishAlloc where
  next : Bool
  object : Bool
  item : Bytes → Bool
  text : Bool

/-- `published_t`, with the version, the URL and the tree that its manifest was made of. -/
structure Published where
  art : Artifact
  version : Bytes
  url : Bytes
  root : Json
  manifestJson : Bytes

/-- `s_current`, and every artifact that it ever was. -/
structure HttpServer where
  current : Option Published
  history : List Published
  current_mem : ∀ p, current = some p → p ∈ history

/-- The generator before its first publish. -/
def HttpServer.init : HttpServer := ⟨none, [], nofun⟩

/-- After a reboot `s_current` is NULL again. -/
def HttpServer.rebooted (s : HttpServer) : HttpServer := ⟨none, s.history, nofun⟩

/-- The pointer swap. -/
def HttpServer.swap (s : HttpServer) (next : Published) : HttpServer :=
  ⟨some next, next :: s.history, fun p hp => by
    rw [← Option.some.inj hp]
    exact List.mem_cons_self⟩

/-- `http_serve_publish`.  An item whose allocation fails is missing from the tree, and what
is served of the text is its C string. -/
def httpServePublish (cjsonPrint : Json → Option Bytes) (a : PublishAlloc) (art : Artifact)
    (version url : Bytes) (s : HttpServer) : HttpServer :=
  if !a.next then s
  else if !a.object then s
  else
    let root := (manifestTree art version url).keep a.item
    match if a.text then cjsonPrint root else none with
    | none => s
    | some json => s.swap ⟨art, version, url, root, cstr json⟩

/-- A publish forgets nothing. -/
theorem httpServePublish_history (cjsonPrint : Json → Option Bytes) (a : PublishAlloc)
    (art : Artifact) (version url : Bytes) (s : HttpServer) :
    s.history ⊆ (httpServePublish cjsonPrint a art version url s).history := by
  unfold httpServePublish
  split
  · exact List.Subset.refl _
  split
  · exact List.Subset.refl _
  dsimp only
  split
  · exact List.Subset.refl _
  · exact List.subset_cons_self _ _

/-- `manifest_handler`: the body, or `none` for 503. -/
def manifestHandler (s : HttpServer) : Option Bytes := s.current.map (·.manifestJson)

/-- `blocklist_handler` -/
def blocklistHandler (s : HttpServer) : Option Bytes := s.current.map (·.art.bytes)

/-- An artifact whose digest is its own, its sizes being of type `size_t`. -/
structure Genuine (sha256 : Bytes → Digest) (art : Artifact) : Prop where
  digest : art.sha256 = sha256 art.bytes
  blobLen_lt : art.blobLen < 2 ^ 32
  count_lt : art.count < 2 ^ 32

/-- What `finish` hands out is genuine. -/
theorem Genuine.of_finish {sha256 : Bytes → Digest} {b : Builder} {art : Artifact}
    (h : art.Of sha256 b) (hlen : art.blobLen < 2 ^ 32) : Genuine sha256 art := by
  refine ⟨h.digest, hlen, ?_⟩
  rw [h.blobLen] at hlen
  rw [h.count]
  omega

/-- What is known of an artifact that was published. -/
structure Published.Made (sha256 : Bytes → Digest) (p : Published) : Prop where
  genuine : Genuine sha256 p.art
  root : ∃ granted, p.root = (manifestTree p.art p.version p.url).keep granted
  plain : 0 ∉ p.manifestJson

/-- What a sinkhole makes of the manifest. -/
def Published.manifest (p : Published) : Manifest :=
  ⟨strlcpy p.version blocklistVersionMax, strlcpy p.url 256, p.art.blobLen, p.art.count,
    p.art.sha256⟩

/-- **What a publish can come to**: nothing, or the artifact under its own manifest. -/
theorem httpServePublish_cases {sha256 : Bytes → Digest} (cjsonPrint : Json → Option Bytes)
    (a : PublishAlloc) {art : Artifact} (hart : Genuine sha256 art) (version url : Bytes)
    (s : HttpServer) :
    httpServePublish cjsonPrint a art version url s = s ∨
      ∃ p, httpServePublish cjsonPrint a art version url s = s.swap p ∧ p.Made sha256 ∧
        p.art = art ∧ p.version = version ∧ p.url = url := by
  unfold httpServePublish
  by_cases hnext : (!a.next) = true
  · rw [if_pos hnext]
    exact Or.inl rfl
  rw [if_neg hnext]
  by_cases hobject : (!a.object) = true
  · rw [if_pos hobject]
    exact Or.inl rfl
  rw [if_neg hobject]
  dsimp only
  rcases (if a.text then cjsonPrint ((manifestTree art version url).keep a.item)
      else none)
    with _ | json
  · exact Or.inl rfl
  · exact Or.inr ⟨_, rfl, ⟨hart, ⟨a.item, rfl⟩, not_mem_cstr json⟩, rfl, rfl, rfl⟩

/-- **A manifest that lacks items is not read**: what a sinkhole reads is what went in. -/
theorem readManifest_keep {sha256 : Bytes → Digest} {art : Artifact} (hart : Genuine sha256 art)
    {version url : Bytes} {granted : Bytes → Bool} {m : Manifest}
    (h : readManifest ((manifestTree art version url).keep granted) = some m) :
    m = ⟨strlcpy version blocklistVersionMax, strlcpy url 256, art.blobLen, art.count,
      art.sha256⟩ := by
  have hkeys : ((["format", "version", "size", "sha256", "count", "url"].map ascii).map
      fun key => key.map lower).Nodup := by decide
  have hitem : ∀ {key : Bytes} {x y : Json},
      ((manifestTree art version url).keep granted).getObjectItem key = some x →
        (manifestTree art version url).getObjectItem key = some y → x = y := by
    intro key x y hx hy
    refine Option.some.inj ((getObjectItem_keep ?_ hx).symm.trans hy)
    exact hkeys
  obtain ⟨size, count, link, hsize, hcount, hlink, hsha, hversion, hurl, hmsize, hmcount, -, -⟩ :=
    readManifest_some h
  obtain rfl : size = art.blobLen :=
    Json.num.inj (hitem (number?_eq_some.mp hsize) (y := .num art.blobLen) rfl)
  obtain rfl : count = art.count :=
    Json.num.inj (hitem (number?_eq_some.mp hcount) (y := .num art.count) rfl)
  obtain rfl : link = url := Json.str.inj (hitem (string?_eq_some.mp hlink) (y := .str url) rfl)
  have hmsha : m.sha256 = art.sha256 := by
    rcases hhex : string? (((manifestTree art version link).keep granted).getObjectItem
      (ascii "sha256")) with _ | hex
    · rw [hhex] at hsha
      cases hsha
    · obtain rfl : hex = art.sha256.bytes.flatMap hexByte :=
        Json.str.inj (hitem (string?_eq_some.mp hhex) (y := .str _) rfl)
      rw [hhex, parseSha256Hex_hexByte] at hsha
      exact (Option.some.inj hsha).symm
  have hmversion : m.version = strlcpy version blocklistVersionMax := by
    rcases hfound : ((manifestTree art version link).keep granted).getObjectItem
      (ascii "version") with _ | x
    · rw [hfound] at hversion
      cases hversion
    · obtain rfl : x = .str version := hitem hfound rfl
      rw [hfound] at hversion
      exact (Option.some.inj hversion).symm
  rw [toUInt32_natCast hart.blobLen_lt] at hmsize
  rw [toUInt32_natCast hart.count_lt] at hmcount
  rw [← hmversion, ← hurl, ← hmsize, ← hmcount, ← hmsha]

/-- So is the manifest of whatever was published. -/
theorem Published.Made.reads {sha256 : Bytes → Digest} {p : Published} (hp : p.Made sha256)
    {m : Manifest} (h : readManifest p.root = some m) : m = p.manifest := by
  obtain ⟨granted, hroot⟩ := hp.root
  rw [hroot] at h
  exact readManifest_keep hp.genuine h

end EspHole.Generator
