/-
An update that goes through: what `check_once` computes when the network delivers.

The calls of a transfer are the HTTP client's, the digest's and the flash driver's.  When
none of these fails, a manifest and its blob arrive whole however they are cut up, the
slot holds the blob, and the rest is a commit, in which calls may again fail.
-/
import EspHole.Generator.Serve
import EspHole.Sinkhole.Commit

namespace EspHole.Sinkhole

open Ascii Json Generator Pipeline

variable {sha256 : Bytes → Digest} {fails : Op → Bool}

/-- A call that moves a manifest or a blob. -/
def Op.transfers : Op → Bool
  | .httpInit _ | .httpOpen | .httpStatus | .httpRead _ => true
  | .hashSetup | .hashUpdate _ | .hashCompute _ => true
  | .partitionErase _ _ | .partitionWrite _ _ _ => true
  | _ => false

/-- The network, the digest and the flash driver are up. -/
def Delivers (fails : Op → Bool) : Prop := ∀ o, o.transfers = true → fails o = false

/-- A body on its way: chunks that are not empty and fit the buffer, and then its end. -/
structure Arriving (room : Nat) (chunks : List Bytes) (inbox rest : List Bytes) : Prop where
  fit : ∀ c ∈ chunks, c ≠ [] ∧ c.length ≤ room
  queued : inbox = chunks ++ [] :: rest ∨ inbox = chunks ∧ rest = []

theorem Arriving.done {room : Nat} {inbox rest : List Bytes} (h : Arriving room [] inbox rest)
    (n : Nat) : readInbox n inbox = ([], rest) := by
  rcases h.queued with rfl | ⟨rfl, rfl⟩
  · simp [readInbox]
  · rfl

theorem Arriving.next {room : Nat} {c : Bytes} {chunks inbox rest : List Bytes}
    (h : Arriving room (c :: chunks) inbox rest) :
    ∃ inbox', (∀ n, c.length ≤ n → readInbox n inbox = (c, inbox')) ∧
      Arriving room chunks inbox' rest := by
  have hchunks : ∀ d ∈ chunks, d ≠ [] ∧ d.length ≤ room := fun d hd =>
    h.fit d (List.mem_cons_of_mem c hd)
  rcases h.queued with rfl | ⟨rfl, rfl⟩
  · exact ⟨chunks ++ [] :: rest, fun n hn => if_pos hn, hchunks, Or.inl rfl⟩
  · exact ⟨chunks, fun n hn => if_pos hn, hchunks, Or.inr ⟨rfl, rfl⟩⟩

/-! ### Programming a slot piece by piece -/

theorem and_ones (b : UInt8) : b &&& 0xFF = b := by
  revert b
  exact forall_byte (by decide +kernel)

theorem ones_and (b : UInt8) : 0xFF &&& b = b := by
  revert b
  exact forall_byte (by decide +kernel)

theorem program_nil (s : World) (slot : Int) (off : Nat) : s.program slot off [] = s := by
  unfold World.program
  have hsame : (fun a => if off ≤ a then s.flash slot a &&& ([] : Bytes).getD (a - off) 0xFF
      else s.flash slot a) = s.flash slot := by
    funext a
    simp [and_ones]
  rw [hsame, Function.update_eq_self]

/-- Two pieces in a row are one piece. -/
theorem program_append (s : World) (slot : Int) (off : Nat) (p q : Bytes) :
    (s.program slot off p).program slot (off + p.length) q = s.program slot off (p ++ q) := by
  unfold World.program
  simp only [Function.update_self, Function.update_idem]
  refine congrArg (fun f => { s with flash := Function.update s.flash slot f }) (funext fun a => ?_)
  by_cases hlo : off ≤ a
  · by_cases hhi : off + p.length ≤ a
    · have hp : p.length ≤ a - off := by omega
      simp [hlo, hhi, List.getElem?_eq_none hp, List.getElem?_append_right hp, and_ones,
        Nat.sub_add_eq]
    · have hp : a - off < p.length := by omega
      simp [hlo, hhi, List.getElem?_append_left hp]
  · have hhi : ¬ off + p.length ≤ a := by omega
    simp [hlo, hhi]

/-- A blob programmed into an erased range can be read there. -/
theorem slotBytes_program_erase (s : World) (slot : Int) {n : Nat} {blob : Bytes}
    (h : blob.length ≤ n) :
    ((s.erase slot n).program slot 0 blob).slotBytes slot blob.length = blob := by
  refine List.ext_getElem (by simp) fun i hi hi' => ?_
  have hin : i < n := by omega
  simp [World.slotBytes, World.program, World.erase, hin, List.getElem?_eq_getElem hi', ones_and]

theorem le_eraseRange (size : Nat) : size ≤ eraseRange size := by
  unfold eraseRange eraseSize
  omega

/-! ### The transfer -/

/-- The same device, waiting for this. -/
def World.await (s : World) (inbox : List Bytes) : World := { s with inbox := inbox }

theorem run_httpRead {room : Nat} {s : World} {chunk : Bytes} {inbox : List Bytes}
    (hf : Delivers fails) (h : readInbox room s.inbox = (chunk, inbox)) :
    (httpRead room).run (handle sha256 fails) s = some (some chunk, s.await inbox) := by
  simp [handle, hf (.httpRead room) rfl, h, World.await]

/-- The state a download leaves. -/
def World.downloaded (s : World) (slot : Int) (blob : Bytes) (rest : List Bytes) : World :=
  { ((s.erase slot (eraseRange blob.length)).program slot 0 blob).await rest with
    hashed := blob :: s.hashed }

/-- The loop takes the body in, however it is cut up. -/
theorem downloadLoop_run (hf : Delivers fails) {m : Manifest} {slot : Int} {rest : List Bytes}
    (chunks : List Bytes) :
    ∀ (fed : Bytes) (s : World), Arriving chunkSize chunks s.inbox rest →
      fed.length + chunks.flatten.length ≤ m.size →
      (downloadLoop m slot fed).run (handle sha256 fails) s =
        some (.ok (fed ++ chunks.flatten),
          (s.program slot fed.length chunks.flatten).await rest) := by
  induction chunks with
  | nil =>
      intro fed s harr _
      rw [downloadLoop, Prog.run_bind, run_httpRead hf (harr.done chunkSize), Option.bind_some]
      show some (Except.ok fed, s.await rest) = _
      rw [List.flatten_nil, List.append_nil, program_nil]
  | cons c chunks ih =>
      intro fed s harr hroom
      obtain ⟨inbox', hread, harr'⟩ := harr.next
      obtain ⟨hne, hlen⟩ := harr.fit c List.mem_cons_self
      obtain ⟨b, bs, rfl⟩ := List.exists_cons_of_ne_nil hne
      rw [List.flatten_cons, List.length_append] at hroom
      have hfits : ¬ fed.length + (b :: bs).length > m.size := by omega
      rw [downloadLoop, Prog.run_bind, run_httpRead hf (hread chunkSize hlen), Option.bind_some]
      show Prog.run _ (dite _ _ _) _ = _
      rw [dif_neg hfits]
      have hstep := ih (fed ++ b :: bs) ((s.await inbox').program slot fed.length (b :: bs)) harr'
        (by rw [List.length_append]; omega)
      rw [List.length_append, program_append, List.append_assoc, ← List.flatten_cons] at hstep
      simp only [Prog.run_bind, Prog.run_call, handle, hf (.hashUpdate _) rfl,
        hf (.partitionWrite _ _ _) rfl, Option.bind_some, Bool.not_false, Bool.not_true,
        Bool.false_eq_true, ↓reduceIte]
      exact hstep

/-- **A download of a body of the announced size and digest succeeds**, and leaves it at the
start of the slot. -/
theorem downloadToSlot_run (hf : Delivers fails) {m : Manifest} {slot : Int} {s : World}
    {chunks rest : List Bytes} (hslot : IsSlot slot) (hfits : m.size ≤ slotSize)
    (harr : Arriving chunkSize chunks s.inbox rest) (hsize : chunks.flatten.length = m.size)
    (hdigest : sha256 chunks.flatten = m.sha256) :
    (downloadToSlot m slot).run (handle sha256 fails) s =
      some (.ok, s.downloaded slot chunks.flatten rest) := by
  have hloop : (downloadLoop m slot []).run (handle sha256 fails)
      (s.erase slot (eraseRange m.size)) = _ :=
    downloadLoop_run hf chunks [] (s.erase slot (eraseRange m.size)) harr (by simp [hsize])
  have hbig : ¬ slotSize < m.size := not_lt.mpr hfits
  unfold downloadToSlot
  simp [blocklistSlotPartition_isSlot hslot, hbig, handle, hf (.partitionErase _ _) rfl,
    hf (.httpInit _) rfl, hf .hashSetup rfl, hf .httpOpen rfl, hf .httpStatus rfl, hloop,
    hf (.hashCompute _) rfl, hsize, hdigest]
  rw [World.downloaded, hsize]
  rfl

/-- A manifest that fits the buffer comes back whole. -/
theorem fetchLoop_run (hf : Delivers fails) {n : Nat} {rest : List Bytes} (chunks : List Bytes) :
    ∀ (room : Nat) (body : Bytes) (s : World), Arriving n chunks s.inbox rest →
      chunks.flatten.length < room →
      (fetchLoop room body).run (handle sha256 fails) s =
        some (some (body ++ chunks.flatten), s.await rest) := by
  induction chunks with
  | nil =>
      intro room body s harr hroom
      have h0 : ¬ room = 0 := by omega
      rw [fetchLoop, dif_neg h0, Prog.run_bind, run_httpRead hf (harr.done room), Option.bind_some]
      show some (some body, s.await rest) = _
      rw [List.flatten_nil, List.append_nil]
  | cons c chunks ih =>
      intro room body s harr hroom
      obtain ⟨inbox', hread, harr'⟩ := harr.next
      obtain ⟨b, bs, rfl⟩ := List.exists_cons_of_ne_nil (harr.fit c List.mem_cons_self).1
      rw [List.flatten_cons, List.length_append] at hroom
      have h0 : ¬ room = 0 := by omega
      rw [fetchLoop, dif_neg h0, Prog.run_bind, run_httpRead hf (hread room (by omega)),
        Option.bind_some]
      have hstep := ih (room - (b :: bs).length) (body ++ b :: bs) (s.await inbox') harr' (by omega)
      rw [List.append_assoc, ← List.flatten_cons] at hstep
      exact hstep

theorem fetchManifest_run (hf : Delivers fails) {n : Nat} {s : World} {chunks rest : List Bytes}
    (url : Bytes) (harr : Arriving n chunks s.inbox rest)
    (hroom : chunks.flatten.length < manifestRoom) :
    (fetchManifest url).run (handle sha256 fails) s =
      some (some chunks.flatten, s.await rest) := by
  have hloop : (fetchLoop manifestRoom []).run (handle sha256 fails) s = _ :=
    fetchLoop_run hf chunks manifestRoom [] s harr hroom
  unfold fetchManifest
  simp [handle, hf (.httpInit _) rfl, hf .httpOpen rfl, hf .httpStatus rfl, hloop]

/-- A manifest announced and its blob downloaded. -/
def World.fetched (s : World) (m : Manifest) (blob : Bytes) (rest : List Bytes) : World :=
  World.downloaded { s with log := m :: s.log } (blocklistInactiveSlot s.ram) blob rest

theorem slotBytes_fetched (s : World) (m : Manifest) (blob : Bytes) (rest : List Bytes) :
    (s.fetched m blob rest).slotBytes (blocklistInactiveSlot s.ram) blob.length = blob :=
  slotBytes_program_erase { s with log := m :: s.log } _ (le_eraseRange _)

/-- **An update comes down to its commit**, when the transfer goes through. -/
theorem checkOnce_run (hf : Delivers fails) {cjsonParse : Bytes → Option Json} {m : Manifest}
    {s : World} {text chunks inbox rest : List Bytes} {n : Nat} (manifestUrl : Bytes)
    (htext : Arriving n text s.inbox inbox) (hroom : text.flatten.length < manifestRoom)
    (hparse : parseManifest cjsonParse (cstr text.flatten) = some m) (hne : text.flatten ≠ [])
    (hnew : blocklistActiveVersion s.ram ≠ m.version) (hfits : m.size ≤ slotSize)
    (harr : Arriving chunkSize chunks inbox rest) (hsize : chunks.flatten.length = m.size)
    (hdigest : sha256 chunks.flatten = m.sha256) :
    (checkOnce cjsonParse manifestUrl).run (handle sha256 fails) s =
      ((blocklistCommitSlot (blocklistInactiveSlot s.ram) m.count m.sha256 m.version).run
        (handle sha256 fails) (s.fetched m chunks.flatten rest)).bind fun x => some ((), x.2) := by
  obtain ⟨b, bs, hbody⟩ := List.exists_cons_of_ne_nil hne
  have hdown := downloadToSlot_run hf (s := { s.await inbox with log := m :: s.log })
    (blocklistInactiveSlot_spec s.ram).1 hfits harr hsize hdigest
  rw [hbody] at hparse
  unfold checkOnce
  rw [Prog.run_bind, fetchManifest_run hf manifestUrl htext hroom, Option.bind_some]
  simp only [hbody, hparse]
  unfold applyManifest
  rw [Prog.run_bind, Prog.run_call]
  show Prog.run _ (if blocklistActiveVersion s.ram = m.version then _ else _) _ = _
  rw [if_neg hnew, Prog.run_bind, Prog.run_call]
  show Prog.run _ (downloadToSlot m (blocklistInactiveSlot s.ram) >>= _)
    { s.await inbox with log := m :: s.log } = _
  rw [Prog.run_bind, hdown, Option.bind_some, if_pos rfl, Prog.run_bind]
  rfl

/-! ### Entries on their way -/

/-- Words one by one. -/
def wordChunks (ws : List UInt64) : List Bytes := ws.map Words.encode

theorem flatten_wordChunks (ws : List UInt64) :
    (wordChunks ws).flatten = ws.flatMap Words.encode := by
  rw [wordChunks, List.flatMap_def]

theorem arriving_words (ws : List UInt64) (rest : List Bytes) :
    Arriving chunkSize (wordChunks ws) (wordChunks ws ++ [] :: rest) rest := by
  refine ⟨fun c hc => ?_, Or.inl rfl⟩
  obtain ⟨w, -, rfl⟩ := List.mem_map.mp hc
  exact ⟨List.ne_nil_of_length_pos (by simp), by simp [chunkSize]⟩

/-- Entries one by one. -/
def entryChunks (n : Nat) : List Bytes := wordChunks (entries n)

theorem flatten_entryChunks (n : Nat) : (entryChunks n).flatten = entriesBlob n :=
  flatten_wordChunks (entries n)

theorem arriving_entries (n : Nat) (rest : List Bytes) :
    Arriving chunkSize (entryChunks n) (entryChunks n ++ [] :: rest) rest :=
  arriving_words (entries n) rest

theorem arriving_one {text : Bytes} (hne : text ≠ []) (rest : List Bytes) :
    Arriving text.length [text] (text :: [] :: rest) rest :=
  ⟨fun c hc => by rw [List.mem_singleton.mp hc]; exact ⟨hne, Nat.le_refl _⟩, Or.inl rfl⟩

section Sample

variable (sha256) (n count : Nat) (version : Bytes)

/-- Entries as they are published, under a count that may be another. -/
def sampleArtifact : Artifact := ⟨entriesBlob n, 8 * n, count, sha256 (entriesBlob n)⟩

/-- Their manifest, written, -/
def sampleTree : Json := manifestTree (sampleArtifact sha256 n count) version (ascii "http://list")

/-- and read. -/
def sampleManifest : Manifest :=
  ⟨version, ascii "http://list", 8 * n, count, sha256 (entriesBlob n)⟩

/-- The manifest on its way, and the entries after it. -/
def sampleInbox (rest : List Bytes) : List Bytes :=
  print (sampleTree sha256 n n version) :: [] :: (entryChunks n ++ [] :: rest)

/-- A number that prints in a few digits. -/
def Prints : Prop := 0 ∉ fixed0 (n : ℚ) ∧ (fixed0 (n : ℚ)).length ≤ 10

end Sample

theorem sampleManifest_size (n count : Nat) (version : Bytes) :
    (sampleManifest sha256 n count version).size = 8 * n := rfl

theorem readManifest_sample {n count : Nat} {version : Bytes} (hsize : 8 * n = sizeT (count * 8))
    (hfloor : blocklistMinDomains ≤ count) (hcount : count < 2 ^ 32)
    (hversion : version.length < blocklistVersionMax) (hversion0 : 0 ∉ version) :
    readManifest (sampleTree sha256 n count version) =
      some (sampleManifest sha256 n count version) := by
  show readManifest (manifestTree (sampleArtifact sha256 n count) _ _) = _
  exact readManifest_manifestTree hsize hfloor hcount hversion hversion0 (by decide) (by decide)

/-- What is known of a manifest's text: something, without a NUL, that fits the buffer. -/
structure Fits (text : Bytes) : Prop where
  nonempty : text ≠ []
  plain : cstr text = text
  room : text.length < manifestRoom

theorem sampleTree_fits {n : Nat} {version : Bytes}
    (hversion : version.length < blocklistVersionMax) (hversion0 : 0 ∉ version) (hn : Prints n)
    (hsize : Prints (8 * n)) : Fits (print (sampleTree sha256 n n version)) := by
  have hprint : print (sampleTree sha256 n n version) =
      manifestText (sampleArtifact sha256 n n) version (ascii "http://list") :=
    print_manifestTree _ _ _
  have hlen := manifestText_length (sampleArtifact sha256 n n) version (ascii "http://list")
  have hurl : (ascii "http://list").length = 11 := by decide
  rw [hprint]
  refine ⟨List.ne_nil_of_length_pos (by omega), ?_, ?_⟩
  · exact cstr_manifestText hsize.1 hn.1 hversion0 (by decide)
  · have h1 := hn.2
    have h2 := hsize.2
    rw [hlen, hurl]
    show 127 + version.length + 11 + (fixed0 ((8 * n : Nat) : ℚ)).length +
      (fixed0 (n : ℚ)).length < manifestRoom
    unfold manifestRoom
    unfold blocklistVersionMax at hversion
    omega

/-- The sample, parsed. -/
theorem parse_sample {cjsonParse : Bytes → Option Json} {n : Nat} {version : Bytes}
    (hparse : cjsonParse (print (sampleTree sha256 n n version)) =
      some (sampleTree sha256 n n version))
    (hfloor : blocklistMinDomains ≤ n) (hfits : 8 * n ≤ slotSize)
    (hversion : version.length < blocklistVersionMax) (hversion0 : 0 ∉ version) :
    parseManifest cjsonParse (print (sampleTree sha256 n n version)) =
      some (sampleManifest sha256 n n version) := by
  have hsmall : n < 2 ^ 29 := by unfold slotSize at hfits; omega
  rw [parseManifest_eq hparse]
  exact readManifest_sample (by rw [sizeT_of_lt (by omega), Nat.mul_comm]) hfloor (by omega)
    hversion hversion0

/-- Entries published and delivered come down to their commit. -/
theorem sample_update (hf : Delivers fails) {cjsonParse : Bytes → Option Json}
    {manifestUrl : Bytes} {s : World} {n : Nat} {version : Bytes} {rest : List Bytes}
    (hinbox : s.inbox = sampleInbox sha256 n version rest)
    (hparse : cjsonParse (print (sampleTree sha256 n n version)) =
      some (sampleTree sha256 n n version))
    (hfloor : blocklistMinDomains ≤ n) (hfits : 8 * n ≤ slotSize)
    (hversion : version.length < blocklistVersionMax) (hversion0 : 0 ∉ version)
    (hnew : blocklistActiveVersion s.ram ≠ version) (hn : Prints n) (hsize : Prints (8 * n)) :
    (checkOnce cjsonParse manifestUrl).run (handle sha256 fails) s =
      ((blocklistCommitSlot (blocklistInactiveSlot s.ram) n (sha256 (entriesBlob n)) version).run
        (handle sha256 fails)
        (s.fetched (sampleManifest sha256 n n version) (entriesBlob n) rest)).bind
          fun x => some ((), x.2) := by
  have htext : Fits (print (sampleTree sha256 n n version)) :=
    sampleTree_fits hversion hversion0 hn hsize
  have hmanifest := parse_sample hparse hfloor hfits hversion hversion0
  have htextArr : Arriving (print (sampleTree sha256 n n version)).length
      [print (sampleTree sha256 n n version)] s.inbox (entryChunks n ++ [] :: rest) := by
    rw [hinbox]
    exact arriving_one htext.nonempty _
  have hrun := checkOnce_run hf manifestUrl htextArr
    (by rw [List.flatten_singleton]; exact htext.room)
    (by rw [List.flatten_singleton, htext.plain, hmanifest])
    (by rw [List.flatten_singleton]; exact htext.nonempty) hnew hfits (arriving_entries n rest)
    (by rw [flatten_entryChunks, entriesBlob_length]; rfl) (by rw [flatten_entryChunks]; rfl)
  rw [flatten_entryChunks] at hrun
  exact hrun

end EspHole.Sinkhole
