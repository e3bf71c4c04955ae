/-
The generator's life: `main/generator_main.c`.

`app_main` brings NVS up, which may mean to erase it, and publishes what was persisted;
`refresh_task` then goes round its cycle: fetch and generate, persist, publish.  A failed save
is not fatal, so what is served and what a reboot would restore may differ.  Power may go at
any call.

Whatever fails, and whatever becomes of flash, all that is ever served is the list of one
cycle (`served_generated`): what a boot restores has the digest that a cycle recorded.
-/
import EspHole.Generator.Crash
import EspHole.Generator.Version
import EspHole.Lib.Decimal

namespace EspHole.Generator.Main

open Ascii Ascending Machine Pipeline Store
open Prog (Safe safe_bind safe_call_bind)
open Sinkhole (Key)

/-! ### The program -/

/-- The options of `Kconfig.projbuild` that the cycle reads. -/
structure Kconfig where
  sourceUrls : List Bytes
  minDomains : Nat
  httpPort : Nat
  publicUrlBase : Bytes
  allowlist : Bytes

/-- What one `fetch_and_generate` meets: the answers of the allocator, and of the server of
each source. -/
structure Meeting where
  created : Bool
  granted : Nat → Bool
  finish : FinishAlloc
  response : Nat → Response

/-- What `nvs_flash_init` answers, as far as `app_main` tells it apart. -/
inductive NvsInit
  | ok
  | noFreePages
  | newVersionFound
  | failed
  deriving DecidableEq

/-- The calls of `app_main` and `refresh_task`; `abort` is where `ESP_ERROR_CHECK` ends. -/
inductive Op
  | nvsFlashInit
  | nvsFlashErase
  | abort
  | store (o : Store.Op)
  | netNodeIp
  | fetch
  | publish (art : Artifact) (version url : Bytes)

/-- What each call answers. -/
@[reducible] def Res : Op → Type
  | .nvsFlashInit => NvsInit
  | .nvsFlashErase => Bool
  | .abort => Empty
  | .store o => Store.Res o
  | .netNodeIp => Bytes
  | .fetch => Meeting
  | .publish _ _ _ => Unit

/-- A program of the generator. -/
abbrev Code (α : Type) : Type := Prog Op Res α

/-- A program of the store, run by the generator. -/
abbrev ofStore {α : Type} (p : Store.Code α) : Code α := p.lift Op.store fun _ r => r

abbrev nvsFlashInit : Code NvsInit := Prog.call Op.nvsFlashInit
abbrev nvsFlashErase : Code Bool := Prog.call Op.nvsFlashErase
abbrev netNodeIp : Code Bytes := Prog.call Op.netNodeIp
abbrev fetch : Code Meeting := Prog.call Op.fetch
abbrev publish (art : Artifact) (version url : Bytes) : Code Unit :=
  Prog.call (Op.publish art version url)

/-- `ESP_ERROR_CHECK` -/
def espErrorCheck (ok : Bool) : Code Unit :=
  if ok then return () else do
    let r ← Prog.call Op.abort
    nomatch r

/-- How `app_main` begins: NVS comes up as it is, or is erased and comes up then. -/
def initNvs : Code Unit := do
  let err ← nvsFlashInit
  if err = .noFreePages ∨ err = .newVersionFound then
    espErrorCheck (← nvsFlashErase)
    espErrorCheck ((← nvsFlashInit) = .ok)
  else
    espErrorCheck (err = .ok)

/-- `sizeof(url)` -/
def urlSize : Nat := 64

/-- `build_url`: `snprintf` keeps what fits, and its NUL. -/
def buildUrl (k : Kconfig) : Code Bytes := do
  if k.publicUrlBase ≠ [] then
    return (k.publicUrlBase ++ ascii "/blocklist.bin").take (urlSize - 1)
  else
    return (ascii "http://" ++ ((← netNodeIp) ++ (ascii ":" ++ (decimal k.httpPort ++
      ascii "/blocklist.bin")))).take (urlSize - 1)

section Programs

variable (sha256 : Bytes → Digest) (k : Kconfig)

/-- `SOURCE_URLS`, each with the answer of its server. -/
def Meeting.sources (x : Meeting) : List (Bytes × Response) :=
  k.sourceUrls.zipIdx.map fun source => (source.1, x.response source.2)

/-- `fetch_and_generate`, with the allowlist that `allowlist_init` left. -/
def generate (x : Meeting) : Option (GenerateStatus × Artifact) :=
  fetchAndGenerate sha256 x.created x.granted x.finish (allowlistInit k.allowlist) (x.sources k)
    k.minDomains

/-- The body of `refresh_task`'s loop. -/
def refreshCycle : Code Unit := do
  match generate sha256 k (← fetch) with
  | none => ofStore Store.outOfBounds
  | some (.ok, art) =>
      let version := buildVersion art.sha256
      let url ← buildUrl k
      let _ ← ofStore (artifactStoreSave sha256 art version)
      publish art version url
  | some (_, _) => return ()

/-- The restore of `app_main`. -/
def restore : Code Unit := do
  let (err, restored, version) ← ofStore (artifactStoreLoad sha256)
  if err = .ok then
    let url ← buildUrl k
    publish restored version url
  else
    return ()

/-- `app_main`, as far as it touches what is persisted or published. -/
def appMain : Code Unit := do
  initNvs
  restore sha256 k

end Programs

/-! ### What its calls do -/

/-- Flash, NVS and `s_current`.  `cycles` is for statements only: what each cycle met,
latest first. -/
structure State where
  store : Store.State
  http : HttpServer
  cycles : List Meeting

/-- Keys of NVS are gone, and the others are as they were. -/
def Dropped (s t : Store.State) : Prop := ∀ key, t.nvs key = s.nvs key ∨ t.nvs key = none

/-- What `nvs_flash_erase` leaves: no key, or where it fails some of them. -/
def Erased (ok : Bool) (s t : Store.State) : Prop :=
  t.flash = s.flash ∧ Dropped s t ∧ (ok = true → ∀ key, t.nvs key = none)

/-- What a call may do, where `inits` says which answers `nvs_flash_init` may give, `calls` how
the store's answer, and `allocs` which allocations of a publish may fail. -/
def Answers (inits : NvsInit → Prop) (calls : Prog.StepRel Store.Op Store.Res Store.State)
    (allocs : PublishAlloc → Prop) (cjsonPrint : Json → Option Bytes) (s : State) :
    (o : Op) → Res o → State → Prop
  | .nvsFlashInit, r, s' => inits r ∧ s' = s
  | .nvsFlashErase, ok, s' => ∃ t, Erased ok s.store t ∧ s' = { s with store := t }
  | .abort, _, _ => False
  | .store o, r, s' => ∃ t, calls s.store o r t ∧ s' = { s with store := t }
  | .netNodeIp, _, s' => s' = s
  | .fetch, x, s' => s' = { s with cycles := x :: s.cycles }
  | .publish art version url, _, s' => ∃ a, allocs a ∧
      s' = { s with http := httpServePublish cjsonPrint a art version url s.http }

/-- The generator as a machine. -/
def generator (sha256 : Bytes → Digest) (k : Kconfig) (inits : NvsInit → Prop)
    (calls : Prog.StepRel Store.Op Store.Res Store.State) (allocs : PublishAlloc → Prop)
    (cjsonPrint : Json → Option Bytes) (restart : State → Code Unit → State → Prop) :
    Machine Op Res State where
  boot := appMain sha256 k
  job := refreshCycle sha256 k
  step := fun _ => Answers inits calls allocs cjsonPrint
  restart := restart

/-- Where a run starts: about to boot, and nothing served yet. -/
structure Start (m : Machine Op Res State) (c : Config Op Res State) : Prop where
  phase : c.phase = .boot
  prog : c.prog = m.boot
  served : c.state.http = HttpServer.init

/-- What the store leaves alone. -/
structure State.Beside (s s' : State) : Prop where
  http : s'.http = s.http
  cycles : s'.cycles = s.cycles

section Lifted

variable {inits : NvsInit → Prop} {calls : Prog.StepRel Store.Op Store.Res Store.State}
  {allocs : PublishAlloc → Prop} {cjsonPrint : Json → Option Bytes}

/-- A triple of the store is one of the generator, and the rest is left alone. -/
theorem ofStore_safe {α : Type} {p : Store.Code α} {G : Store.State → Store.Op → Prop}
    {Q : α → Store.State → Prop} {s : State} (h : p.Safe calls G Q s.store) :
    (ofStore p).Safe (Answers inits calls allocs cjsonPrint)
      (fun s' o => s.Beside s' ∧ ∃ o', o = .store o' ∧ G s'.store o')
      (fun a s' => s.Beside s' ∧ Q a s'.store) s := by
  have hlift : (ofStore p).Safe (Answers inits calls allocs cjsonPrint)
      (fun s' o => ∃ o', o = .store o' ∧ G s'.store o') (fun a s' => Q a s'.store) s :=
    Safe.lift (fun s o r s' ⟨t, ht, hs⟩ => hs ▸ ht) h
  refine (hlift.keep (A := s.Beside) ?_ ⟨rfl, rfl⟩).mono (fun s' o h => ⟨h.2, h.1⟩)
    fun a s' h => ⟨h.2, h.1⟩
  rintro s₁ _ r s₂ ⟨hhttp, hcycles⟩ ⟨o, rfl, -⟩ ⟨t, -, rfl⟩
  exact ⟨hhttp, hcycles⟩

/-- `initNvs` makes three calls at most and goes on only if NVS has come up, as it was but for
what an erase has dropped. -/
theorem initNvs_safe {G : State → Op → Prop} {s : State} (hG : ∀ s', s.Beside s' →
      Dropped s.store s'.store → G s' .nvsFlashInit ∧ G s' .nvsFlashErase ∧ G s' .abort) :
    initNvs.Safe (Answers inits calls allocs cjsonPrint) G
      (fun _ s' => s.Beside s' ∧ Dropped s.store s'.store) s := by
  have hcheck : ∀ (ok : Bool) (s' : State), s.Beside s' → Dropped s.store s'.store →
      (espErrorCheck ok).Safe (Answers inits calls allocs cjsonPrint) G
        (fun _ s'' => s'' = s') s' := by
    intro ok s' hbeside hdropped
    cases ok with
    | true => rfl
    | false => exact ⟨(hG s' hbeside hdropped).2.2, fun r => nomatch r⟩
  have hsame : Dropped s.store s.store := fun _ => Or.inl rfl
  unfold initNvs
  refine safe_call_bind.mpr ⟨(hG s ⟨rfl, rfl⟩ hsame).1, fun (err : NvsInit) s₁ h₁ => ?_⟩
  obtain rfl : s₁ = s := h₁.2
  by_cases herase : err = .noFreePages ∨ err = .newVersionFound
  · rw [if_pos herase]
    refine safe_call_bind.mpr ⟨(hG s₁ ⟨rfl, rfl⟩ hsame).2.1, fun (ok : Bool) s₂ h₂ => ?_⟩
    obtain ⟨hbeside, hdropped⟩ : s₁.Beside s₂ ∧ Dropped s₁.store s₂.store := by
      obtain ⟨t, ⟨-, hdropped, -⟩, rfl⟩ := h₂
      exact ⟨⟨rfl, rfl⟩, hdropped⟩
    refine safe_bind.mpr ((hcheck ok s₂ hbeside hdropped).post fun _ s₃ hs₃ => ?_)
    subst hs₃
    refine safe_call_bind.mpr ⟨(hG s₃ hbeside hdropped).1, fun (err' : NvsInit) s₄ h₄ => ?_⟩
    obtain rfl : s₄ = s₃ := h₄.2
    refine (hcheck _ s₄ hbeside hdropped).post fun _ s₅ hs₅ => ?_
    subst hs₅
    exact ⟨hbeside, hdropped⟩
  · rw [if_neg herase]
    refine (hcheck _ _ ⟨rfl, rfl⟩ hsame).post fun _ s₂ hs₂ => ?_
    subst hs₂
    exact ⟨⟨rfl, rfl⟩, hsame⟩

/-- `build_url` leaves everything as it was. -/
theorem buildUrl_safe (k : Kconfig) {G : State → Op → Prop} {s : State}
    (hG : G s .netNodeIp) :
    (buildUrl k).Safe (Answers inits calls allocs cjsonPrint) G (fun _ s' => s' = s) s := by
  unfold buildUrl
  by_cases hbase : k.publicUrlBase ≠ []
  · rw [if_pos hbase]
    rfl
  · rw [if_neg hbase]
    exact ⟨hG, fun _ s' hs => hs⟩

end Lifted

/-! ### What the validation lets through -/

section Verified

variable {sha256 : Bytes → Digest}

/-- A check that passes has read every word it counts. -/
theorem verifyLoop_reads {blob : Bytes} (n : Nat) :
    ∀ (i : Nat) (prev : UInt64), verifyLoop blob i prev n = some true → 0 < n →
      8 * (i + n) ≤ blob.length := by
  induction n with
  | zero => intro i prev _ hpos; omega
  | succ n ih =>
      intro i prev h _
      unfold verifyLoop at h
      rcases hword : blobWord blob i with _ | w
      · rw [hword] at h
        cases h
      have hin : 8 * i + 8 ≤ blob.length := by
        by_contra hout
        rw [blobWord, if_neg hout] at hword
        cases hword
      rw [hword] at h
      dsimp only at h
      split at h
      · cases h
      · by_cases hn : n = 0
        · subst hn
          omega
        · have hrest := ih (i + 1) w h (Nat.pos_of_ne_zero hn)
          omega

/-- What passes the validation is a list under its own digest, and its size did not wrap. -/
theorem encodes_of_verified {blob : Bytes} {count : Nat} {want : Digest}
    (hlen : blob.length = sizeT (count * 8)) (hpos : blob.length ≠ 0)
    (h : blocklistVerifyBlob sha256 blob (sizeT (count * 8)) count want = some true) :
    Encodes sha256 (Words.words blob) ⟨blob, sizeT (count * 8), count, want⟩ ∧
      Genuine sha256 ⟨blob, sizeT (count * 8), count, want⟩ := by
  have htake : blob.take (sizeT (count * 8)) = blob := List.take_of_length_le (by omega)
  unfold blocklistVerifyBlob at h
  rw [if_neg (not_not_intro rfl), htake] at h
  split at h
  · cases h
  rename_i hdigest
  have hdigest : sha256 blob = want := not_not.mp hdigest
  have hwrap : sizeT (count * 8) ≤ count * 8 := Nat.mod_le _ _
  have hcount : 0 < count := by
    rcases Nat.eq_zero_or_pos count with rfl | hc
    · exact absurd hlen hpos
    · exact hc
  have hreads := verifyLoop_reads count 0 0 h hcount
  have hwhole : blob.length = 8 * count := by omega
  have hlt : sizeT (count * 8) < 2 ^ 32 := Nat.mod_lt _ (by norm_num)
  have hbytes : (⟨blob, sizeT (count * 8), count, want⟩ : Artifact).bytes = blob := htake
  have hwords : (Words.words blob).length = count := Words.words_length hwhole
  have hloop : verifyLoop ((Words.words blob).flatMap Words.encode ++ []) 0 0
      (Words.words blob).length = _ := verifyLoop_encoded
  rw [List.append_nil, Words.encode_words hwhole, hwords, h] at hloop
  refine ⟨⟨of_decide_eq_true (Option.some.inj hloop).symm, ?_, ?_, ?_, hwords.symm, ?_⟩,
    ?_, hlt, ?_⟩
  · intro hnil
    rw [hnil] at hwords
    exact hcount.ne hwords
  · rw [hbytes, Words.encode_words hwhole]
  · rw [hwords, ← hlen, hwhole]
  · rw [hbytes]
    exact hdigest.symm
  · rw [hbytes]
    exact hdigest.symm
  · show count < 2 ^ 32
    omega

end Verified

/-! ### The store, whatever fails -/

/-- Any call of the store may fail, and a read may bring anything. -/
def AnyCall (s : Store.State) (o : Store.Op) (r : Store.Res o) (s' : Store.State) : Prop :=
  ∃ p : Faults, handle p o s = some (r, s')

section Store

variable {sha256 : Bytes → Digest}

/-- What one call may do to NVS. -/
theorem AnyCall.nvs {s s' : Store.State} {o : Store.Op} {r : Store.Res o}
    (h : AnyCall s o r s') :
    s'.nvs = s.nvs ∨ ∃ key v, o = .nvsSet key v ∧ s' = s.setNvs key v := by
  obtain ⟨p, h⟩ := h
  unfold handle at h
  cases o with
  | nvsSet key v =>
      dsimp only at h
      split at h
      · obtain ⟨-, rfl⟩ := Prod.mk.inj (Option.some.inj h)
        exact Or.inl rfl
      · obtain ⟨-, rfl⟩ := Prod.mk.inj (Option.some.inj h)
        exact Or.inr ⟨key, v, rfl, rfl⟩
  | partitionErase slot bytes =>
      dsimp only at h
      split at h <;> obtain ⟨-, rfl⟩ := Prod.mk.inj (Option.some.inj h) <;> exact Or.inl rfl
  | partitionWrite slot data =>
      dsimp only at h
      split at h <;> obtain ⟨-, rfl⟩ := Prod.mk.inj (Option.some.inj h) <;> exact Or.inl rfl
  | fault => cases h
  | _ =>
      obtain ⟨-, rfl⟩ := Prod.mk.inj (Option.some.inj h)
      exact Or.inl rfl

/-- A call that does not write NVS. -/
def Reads (o : Store.Op) : Prop := ∀ key v, o ≠ .nvsSet key v

theorem AnyCall.nvs_eq {s s' : Store.State} {o : Store.Op} {r : Store.Res o}
    (h : AnyCall s o r s') (ho : Reads o) : s'.nvs = s.nvs := by
  rcases h.nvs with hsame | ⟨key, v, rfl, -⟩
  · exact hsame
  · exact absurd rfl (ho key v)

/-- A key that is read is what is on record. -/
theorem AnyCall.nvsGet {s s' : Store.State} {key : Key} {v : key.Val}
    (h : AnyCall s (.nvsGet key) (some v) s') : s.nvs key = some v := by
  obtain ⟨p, h⟩ := h
  obtain ⟨hv, -⟩ := Prod.mk.inj (Option.some.inj h)
  split at hv
  · cases hv
  · exact hv

theorem AnyCall.partitionRead {s s' : Store.State} {slot : Int} {bytes : Nat} {blob : Bytes}
    (h : AnyCall s (.partitionRead slot bytes) (some blob) s') : blob.length = bytes := by
  obtain ⟨p, h⟩ := h
  obtain ⟨hv, -⟩ := Prod.mk.inj (Option.some.inj h)
  split at hv
  · cases hv
  · rw [← Option.some.inj hv, p.readBack_length, State.slotBytes_length]

/-- What a load that succeeds hands out: a list under its own digest, which is on record. -/
def Loads (sha256 : Bytes → Digest) (nvs : (key : Key) → Option key.Val)
    (r : EspErr × Artifact × Bytes) : Prop :=
  r.1 = .ok → (∃ ws, Encodes sha256 ws r.2.1) ∧ Genuine sha256 r.2.1 ∧
    ∃ slot, nvs (.sha slot) = some r.2.1.sha256.bytes

theorem loadBlob_traces {nvs : (key : Key) → Option key.Val} {slot : Int} (count : Nat)
    {want : Digest} (hwant : nvs (.sha slot) = some want.bytes) (version : Bytes)
    (s : Store.State) :
    (loadBlob sha256 slot count want version).Safe AnyCall (fun _ o => Reads o)
      (fun r _ => Loads sha256 nvs r) s := by
  unfold loadBlob
  rcases slotPartition slot with _ | partSize
  · exact nofun
  show Safe _ _ _ (if _ then _ else _) s
  by_cases hsize : sizeT (count * 8) = 0 ∨ sizeT (count * 8) > partSize
  · rw [if_pos hsize]
    exact nofun
  rw [if_neg hsize, safe_call_bind]
  refine ⟨nofun, fun (ok : Bool) s₁ _ => ?_⟩
  cases ok with
  | false => exact nofun
  | true =>
      refine safe_call_bind.mpr ⟨nofun, fun (blob : Option Bytes) s₂ h₂ => ?_⟩
      rcases blob with _ | blob
      · exact nofun
      have hlen := h₂.partitionRead
      dsimp only
      rcases hverify : blocklistVerifyBlob sha256 blob (sizeT (count * 8)) count want with
        _ | _ | _
      · exact ⟨nofun, fun r => r.elim⟩
      · exact nofun
      · obtain ⟨hencodes, hgenuine⟩ := encodes_of_verified hlen (by omega) hverify
        exact fun _ => ⟨⟨_, hencodes⟩, hgenuine, slot, hwant⟩

/-- **`artifact_store_load`, whatever fails.** -/
theorem artifactStoreLoad_traces (s : Store.State) :
    (artifactStoreLoad sha256).Safe AnyCall (fun _ o => Reads o)
      (fun r _ => Loads sha256 s.nvs r) s := by
  unfold artifactStoreLoad
  refine safe_call_bind.mpr ⟨nofun, fun (ok : Bool) s₁ h₁ => ?_⟩
  have hnvs₁ := h₁.nvs_eq nofun
  cases ok with
  | false => exact nofun
  | true =>
      refine safe_call_bind.mpr ⟨nofun, fun (active : Option UInt8) s₂ h₂ => ?_⟩
      have hnvs₂ := (h₂.nvs_eq nofun).trans hnvs₁
      generalize active.getD 0xFF = active
      show Safe _ _ _ (if _ then _ else _) s₂
      by_cases hactive : (active.toNat : Int) ≥ artifactSlots
      · rw [if_pos hactive]
        exact nofun
      rw [if_neg hactive]
      refine safe_call_bind.mpr ⟨nofun, fun (count : Option Nat) s₃ h₃ => ?_⟩
      have hnvs₃ := (h₃.nvs_eq nofun).trans hnvs₂
      rcases count with _ | count
      · exact nofun
      refine safe_call_bind.mpr ⟨nofun, fun (sha : Option Bytes) s₄ h₄ => ?_⟩
      rcases sha with _ | sha
      · exact nofun
      have hsha := h₄.nvsGet
      rw [hnvs₃] at hsha
      rcases hwant : storedDigest sha with _ | want
      · simp only [hwant]
        exact nofun
      simp only [hwant]
      refine safe_call_bind.mpr ⟨nofun, fun (ver : Option Bytes) s₅ _ => ?_⟩
      rw [storedDigest_eq_some.mp hwant] at hsha
      exact loadBlob_traces count hsha _ s₅

/-- The only digest that a save records is its artifact's. -/
def Signs (art : Artifact) (o : Store.Op) : Prop :=
  ∀ slot v, o = .nvsSet (.sha slot) v → v = art.sha256.bytes

theorem saveTo_signs (slot : Int) (art : Artifact) (version : Bytes) :
    (saveTo sha256 slot art version).Only (Signs art) := by
  have hwrite : (writeSlot slot art).Only (Signs art) := by
    simp [writeSlot, Prog.only_ite, Signs]
  have hrecord : (recordSlot slot art version).Only (Signs art) := by
    simp [recordSlot, Prog.only_ite, Signs]
  have hcheck : (checkSlot sha256 slot art).Only (Signs art) := by
    simp only [checkSlot, Prog.only_call_bind, Prog.only_ite]
    refine ⟨by simp [Signs], fun ok => ⟨fun _ => trivial, fun _ => ⟨by simp [Signs], ?_⟩⟩⟩
    intro blob
    rcases blob with _ | blob
    · trivial
    cases hverify : blocklistVerifyBlob sha256 blob art.blobLen art.count art.sha256 with
    | none => simp [hverify, Store.outOfBounds, Signs]
    | some ok => simp [hverify]
  have hactivate : (activate slot).Only (Signs art) := by
    simp [activate, Prog.only_ite, Signs]
  unfold saveTo
  refine hwrite.bind fun e₁ => Prog.only_ite.mpr ⟨fun _ => trivial, fun _ => ?_⟩
  refine hrecord.bind fun e₂ => Prog.only_ite.mpr ⟨fun _ => trivial, fun _ => ?_⟩
  exact hcheck.bind fun e₃ => Prog.only_ite.mpr ⟨fun _ => trivial, fun _ => hactivate⟩

/-- **`artifact_store_save`, whatever fails.** -/
theorem artifactStoreSave_signs (art : Artifact) (version : Bytes) :
    (artifactStoreSave sha256 art version).Only (Signs art) := by
  simp only [artifactStoreSave, Prog.only_call_bind, Prog.only_ite]
  refine ⟨by simp [Signs], fun ok => ⟨fun _ => trivial, fun _ => ⟨by simp [Signs], ?_⟩⟩⟩
  intro active
  rcases hpart : slotPartition (targetSlot active) with _ | partSize
  · trivial
  · exact Prog.only_ite.mpr ⟨fun _ => trivial, fun _ => saveTo_signs _ art version⟩

end Store

/-! ### Only what a cycle made is served -/

section Made

variable (sha256 : Bytes → Digest) (k : Kconfig)

/-- The domains that a cycle added to its list. -/
def added (x : Meeting) : List Bytes :=
  addedDomains x.granted (allowlistInit k.allowlist) k.minDomains (sourceLines (x.sources k))

/-- A cycle of the run made this artifact. -/
def CycleMade (s : State) (art : Artifact) : Prop :=
  ∃ x ∈ s.cycles, generate sha256 k x = some (.ok, art)

/-- Every digest on record is that of an artifact that a cycle made. -/
def Recorded (s : State) : Prop :=
  ∀ slot d, s.store.nvs (.sha slot) = some d → ∃ g, CycleMade sha256 k s g ∧ g.sha256.bytes = d

/-- A list under its own digest, which is also that of an artifact that a cycle made. -/
structure Traced (s : State) (art : Artifact) : Prop where
  encodes : ∃ ws, Encodes sha256 ws art
  genuine : Genuine sha256 art
  digest : ∃ g, CycleMade sha256 k s g ∧ g.sha256 = art.sha256

/-- What the generator records and what it publishes comes from a cycle. -/
structure Proper (s : State) (o : Op) : Prop where
  signs : ∀ slot v, o = .store (.nvsSet (.sha slot) v) →
    ∃ g, CycleMade sha256 k s g ∧ g.sha256.bytes = v
  publishes : ∀ art version url, o = .publish art version url → Traced sha256 k s art

end Made

section Wild

variable {sha256 : Bytes → Digest} {k : Kconfig} {inits : NvsInit → Prop}
  {allocs : PublishAlloc → Prop} {cjsonPrint : Json → Option Bytes}

theorem CycleMade.mono {s s' : State} {art : Artifact} (h : CycleMade sha256 k s art)
    (hs : s.cycles ⊆ s'.cycles) : CycleMade sha256 k s' art := by
  obtain ⟨x, hx, hart⟩ := h
  exact ⟨x, hs hx, hart⟩

theorem Traced.mono {s s' : State} {art : Artifact} (h : Traced sha256 k s art)
    (hs : s.cycles ⊆ s'.cycles) : Traced sha256 k s' art := by
  obtain ⟨g, hg, hdigest⟩ := h.digest
  exact ⟨h.encodes, h.genuine, g, hg.mono hs, hdigest⟩

/-- A cycle comes back, and what it made is the list of the domains that were added. -/
theorem generate_made (sha256 : Bytes → Digest) (k : Kconfig) (x : Meeting) :
    ∃ r, generate sha256 k x = some r ∧
    (r.1 = .ok → (∃ ws, Encodes sha256 ws r.2 ∧
        ∀ hash, hash ∈ ws ↔ hash ∈ (added k x).map domainHash) ∧
      Genuine sha256 r.2 ∧ k.minDomains ≤ r.2.count) := by
  obtain ⟨hhashes, hmin, hwell⟩ := sinkLines_spec x.granted (allowlistInit k.allowlist)
    k.minDomains (sourceLines (x.sources k))
  unfold generate
  rw [fetchAndGenerate_eq]
  by_cases hcreated : (!x.created) = true
  · rw [if_pos hcreated]
    exact ⟨_, rfl, nofun⟩
  rw [if_neg hcreated]
  unfold added
  generalize (sinkLines x.granted (allowlistInit k.allowlist) k.minDomains
    (sourceLines (x.sources k))).builder = b at *
  have hfinish := blocklistBuilderFinish_eq sha256 (a := x.finish) hwell
  generalize (if b.count < b.minDomains then _ else _ : GenerateStatus × Artifact × Builder) = r
    at hfinish
  obtain ⟨status, art, left⟩ := r
  refine ⟨(status, art), congrArg (Option.map blocklistBuilderDestroy) hfinish, fun hok => ?_⟩
  obtain rfl : status = .ok := hok
  have hof := blocklistBuilderFinish_ok hwell hfinish
  have henc := finish_encodes hwell hfinish
  refine ⟨⟨b.kept, henc, fun hash => ?_⟩, Genuine.of_finish hof ?_, ?_⟩
  · rw [Builder.mem_kept, hhashes]
  · have hlt := hwell.count_lt
    have hle := b.kept_length_le
    rw [henc.blobLen]
    omega
  · rw [henc.count, ← hmin]
    exact hof.floor

theorem CycleMade.traced {s : State} {art : Artifact} (h : CycleMade sha256 k s art) :
    Traced sha256 k s art := by
  obtain ⟨x, hx, hart⟩ := h
  obtain ⟨r, hr, hmade⟩ := generate_made sha256 k x
  obtain rfl := Option.some.inj (hart.symm.trans hr)
  obtain ⟨⟨ws, henc, -⟩, hgenuine, -⟩ := hmade rfl
  exact ⟨⟨ws, henc⟩, hgenuine, art, ⟨x, hx, hart⟩, rfl⟩

theorem proper_quiet {s : State} {o : Op} (hstore : ∀ o', o = .store o' → Reads o')
    (hpublish : ∀ art version url, o ≠ .publish art version url) : Proper sha256 k s o :=
  ⟨fun _ _ ho => absurd rfl (hstore _ ho _ _), fun _ _ _ ho => absurd ho (hpublish _ _ _)⟩

/-- What is published is traced. -/
theorem publish_proper {s : State} {art : Artifact} (version : Bytes)
    (h : Traced sha256 k s art) :
    (buildUrl k >>= publish art version).Safe (Answers inits AnyCall allocs cjsonPrint)
      (Proper sha256 k) (fun _ _ => True) s := by
  refine safe_bind.mpr ((buildUrl_safe k (proper_quiet nofun nofun)).post fun url s₁ hs => ?_)
  subst hs
  refine ⟨⟨nofun, ?_⟩, fun _ _ _ => trivial⟩
  rintro art' version' url' ⟨⟩
  exact h

/-- What is restored and published was made by a cycle, if that is all that is on record. -/
theorem restore_proper {s : State} (h : Recorded sha256 k s) :
    (restore sha256 k).Safe (Answers inits AnyCall allocs cjsonPrint) (Proper sha256 k)
      (fun _ _ => True) s := by
  unfold restore
  refine safe_bind.mpr ((ofStore_safe (artifactStoreLoad_traces s.store)).mono
    (fun s' o ho => ?_) fun r s' hr => ?_)
  · obtain ⟨-, o', rfl, hreads⟩ := ho
    exact proper_quiet (fun o'' ho => Op.store.inj ho ▸ hreads) nofun
  · obtain ⟨err, art, version⟩ := r
    obtain ⟨hbeside, hloads⟩ := hr
    show Safe _ _ _ (if _ then _ else _) s'
    by_cases herr : err = .ok
    · rw [if_pos herr]
      obtain ⟨hencodes, hgenuine, slot, hslot⟩ := hloads herr
      obtain ⟨g, hg, hdigest⟩ := h slot _ hslot
      refine publish_proper version ⟨hencodes, hgenuine, g, hg.mono ?_, Digest.bytes_inj hdigest⟩
      rw [hbeside.cycles]
      exact List.Subset.refl _
    · rw [if_neg herr]
      trivial

theorem Recorded.mono {s s' : State} (h : Recorded sha256 k s)
    (hnvs : Dropped s.store s'.store) (hcycles : s.cycles ⊆ s'.cycles) :
    Recorded sha256 k s' := by
  intro slot d hd
  rcases hnvs (.sha slot) with hkept | hgone
  · rw [hkept] at hd
    obtain ⟨g, hg, hdigest⟩ := h slot d hd
    exact ⟨g, hg.mono hcycles, hdigest⟩
  · rw [hgone] at hd
    cases hd

/-- **A boot publishes what a cycle made**, if that is all that is on record. -/
theorem appMain_proper {s : State} (h : Recorded sha256 k s) :
    (appMain sha256 k).Safe (Answers inits AnyCall allocs cjsonPrint) (Proper sha256 k)
      (fun _ _ => True) s := by
  have hquiet : ∀ s' : State, s.Beside s' → Dropped s.store s'.store →
      Proper sha256 k s' .nvsFlashInit ∧ Proper sha256 k s' .nvsFlashErase ∧
        Proper sha256 k s' .abort := fun _ _ _ =>
    ⟨proper_quiet nofun nofun, proper_quiet nofun nofun, proper_quiet nofun nofun⟩
  refine safe_bind.mpr ((initNvs_safe hquiet).post fun _ s' hs => restore_proper ?_)
  obtain ⟨hbeside, hdropped⟩ := hs
  refine h.mono hdropped ?_
  rw [hbeside.cycles]
  exact List.Subset.refl _

/-- **A cycle records and publishes what it made.** -/
theorem refreshCycle_proper (s : State) :
    (refreshCycle sha256 k).Safe (Answers inits AnyCall allocs cjsonPrint) (Proper sha256 k)
      (fun _ _ => True) s := by
  unfold refreshCycle
  refine safe_call_bind.mpr ⟨proper_quiet nofun nofun, fun (x : Meeting) s₁ hs₁ => ?_⟩
  obtain ⟨⟨status, art⟩, hgen, -⟩ := generate_made sha256 k x
  rw [hgen]
  cases status with
  | ok =>
      have hmade : CycleMade sha256 k s₁ art := ⟨x, by rw [hs₁]; exact List.mem_cons_self, hgen⟩
      refine safe_bind.mpr ((buildUrl_safe k (proper_quiet nofun nofun)).post fun url s₂ hs => ?_)
      subst hs
      refine safe_bind.mpr ((ofStore_safe (artifactStoreSave_signs art
        (buildVersion art.sha256)).safe).mono (fun s' o ho => ?_) fun e s' he => ?_)
      · obtain ⟨hbeside, o', rfl, hsigns⟩ := ho
        refine ⟨fun slot v ho => ?_, nofun⟩
        refine ⟨art, hmade.mono ?_, (hsigns slot v (Op.store.inj ho)).symm⟩
        rw [hbeside.cycles]
        exact List.Subset.refl _
      · refine ⟨⟨nofun, ?_⟩, fun _ _ _ => trivial⟩
        rintro art' version' url' ⟨⟩
        refine hmade.traced.mono ?_
        rw [he.1.cycles]
        exact List.Subset.refl _
  | _ => trivial

/-- NVS survives a power cut, but for what an erase has dropped till then; flash may hold
anything afterwards. -/
def Loss (s s' : State) : Prop :=
  Dropped s.store s'.store ∧ s'.http = s.http.rebooted ∧ s'.cycles = s.cycles

/-- The generator where any call may fail, and flash keeps nothing reliably. -/
abbrev wildGenerator (sha256 : Bytes → Digest) (k : Kconfig) (cjsonPrint : Json → Option Bytes) :
    Machine Op Res State :=
  generator sha256 k (fun _ => True) AnyCall (fun _ => True) cjsonPrint fun s _ s' => Loss s s'

/-- All that is on record, and all that was ever served, comes from cycles of the run. -/
structure Sound (sha256 : Bytes → Digest) (k : Kconfig) (s : State) : Prop where
  recorded : Recorded sha256 k s
  served : ∀ p ∈ s.http.history, p.Made sha256 ∧ Traced sha256 k s p.art

theorem Sound.mono {s s' : State} (h : Sound sha256 k s) (hnvs : Dropped s.store s'.store)
    (hhistory : s'.http.history ⊆ s.http.history) (hcycles : s.cycles ⊆ s'.cycles) :
    Sound sha256 k s' :=
  ⟨h.recorded.mono hnvs hcycles, fun p hp =>
    ⟨(h.served p (hhistory hp)).1, (h.served p (hhistory hp)).2.mono hcycles⟩⟩

/-- One call keeps this. -/
theorem Sound.step {s s' : State} {o : Op} {r : Res o} (h : Sound sha256 k s)
    (hg : Proper sha256 k s o) (hs : Answers inits AnyCall allocs cjsonPrint s o r s') :
    Sound sha256 k s' := by
  have hkept : Dropped s.store s.store := fun _ => Or.inl rfl
  cases o with
  | nvsFlashInit =>
      obtain ⟨-, rfl⟩ := hs
      exact h
  | nvsFlashErase =>
      obtain ⟨t, ⟨-, hdropped, -⟩, rfl⟩ := hs
      exact h.mono hdropped (List.Subset.refl _) (List.Subset.refl _)
  | abort => exact hs.elim
  | store o =>
      obtain ⟨t, ht, rfl⟩ := hs
      rcases ht.nvs with hsame | ⟨key, v, rfl, rfl⟩
      · exact h.mono (fun key => Or.inl (by rw [hsame])) (List.Subset.refl _) (List.Subset.refl _)
      · refine ⟨fun slot d hd => ?_, fun p hp =>
          ⟨(h.served p hp).1, (h.served p hp).2.mono (List.Subset.refl _)⟩⟩
        by_cases hkey : key = .sha slot
        · subst hkey
          obtain rfl := Option.some.inj ((State.setNvs_same _ _ _).symm.trans hd)
          exact hg.signs slot v rfl
        · refine h.recorded slot d ((State.setNvs_of_ne _ _ ?_).symm.trans hd)
          exact fun heq => hkey heq.symm
  | netNodeIp =>
      obtain rfl : s' = s := hs
      exact h
  | fetch =>
      obtain rfl : s' = { s with cycles := r :: s.cycles } := hs
      exact h.mono hkept (List.Subset.refl _) (List.subset_cons_self _ _)
  | publish art version url =>
      obtain ⟨a, -, rfl⟩ := hs
      have htraced := hg.publishes art version url rfl
      rcases httpServePublish_cases cjsonPrint a htraced.genuine version url s.http with
        hsame | ⟨p, hswap, hmade, rfl, -⟩
      · rw [hsame]
        exact h
      · rw [hswap]
        refine ⟨h.recorded, fun q hq => ?_⟩
        rcases List.mem_cons.mp hq with rfl | hq
        · exact ⟨hmade, htraced.mono (List.Subset.refl _)⟩
        · exact ⟨(h.served q hq).1, (h.served q hq).2.mono (List.Subset.refl _)⟩

theorem Sound.loss {s s' : State} (h : Sound sha256 k s) (hs : Loss s s') : Sound sha256 k s' := by
  obtain ⟨hnvs, hhttp, hcycles⟩ := hs
  refine h.mono hnvs ?_ ?_
  · rw [hhttp]
    exact List.Subset.refl _
  · rw [hcycles]
    exact List.Subset.refl _

/-- All along a run from a device with nothing on record. -/
theorem reach_sound {c₀ c : Config Op Res State} (h₀ : Start (wildGenerator sha256 k cjsonPrint) c₀)
    (hblank : ∀ slot, c₀.state.store.nvs (.sha slot) = none)
    (hr : Reach (wildGenerator sha256 k cjsonPrint) c₀ c) : Sound sha256 k c.state := by
  have hsound : Sound sha256 k c₀.state := by
    refine ⟨fun slot d hd => ?_, fun p hp => ?_⟩
    · rw [hblank slot] at hd
      cases hd
    · rw [h₀.served] at hp
      cases hp
  have hkeep : ∀ s o r s', Sound sha256 k s → Proper sha256 k s o →
      Answers (fun _ => True) AnyCall (fun _ => True) cjsonPrint s o r s' → Sound sha256 k s' :=
    fun _ _ _ _ h hg hs => h.step hg hs
  have hboot : ∀ s, Sound sha256 k s → (appMain sha256 k).Safe
      (Answers (fun _ => True) AnyCall (fun _ => True) cjsonPrint)
      (fun s o => Proper sha256 k s o ∧ Sound sha256 k s) (fun _ s => Sound sha256 k s) s :=
    fun s h => ((appMain_proper h.recorded).keep hkeep h).post fun _ _ h => h.2
  have hjob : ∀ s, Sound sha256 k s → (refreshCycle sha256 k).Safe
      (Answers (fun _ => True) AnyCall (fun _ => True) cjsonPrint)
      (fun s o => Proper sha256 k s o ∧ Sound sha256 k s) (fun _ s => Sound sha256 k s) s :=
    fun s h => ((refreshCycle_proper s).keep hkeep h).post fun _ _ h => h.2
  have hstart : c₀.Good (wildGenerator sha256 k cjsonPrint)
      (fun s o => Proper sha256 k s o ∧ Sound sha256 k s) (Sound sha256 k) := by
    unfold Config.Good
    rw [h₀.phase, h₀.prog]
    exact hboot _ hsound
  have hrestart : ∀ s (p : Code Unit) s', Ready (fun s o => Proper sha256 k s o ∧ Sound sha256 k s)
      (Sound sha256 k) p s → Loss s s' → Sound sha256 k s' := by
    intro s p s' hready hs
    cases p with
    | pure a => exact Sound.loss hready hs
    | op o f => exact hready.2.loss hs
  have hgood := reach_good (fun s p s' hready hs => hboot s' (hrestart s p s' hready hs)) hjob
    hstart hr
  have hready := ready_of_safe hgood
  cases hp : c.prog with
  | pure a =>
      rw [hp] at hready
      exact hready
  | op o f =>
      rw [hp] at hready
      exact hready.2

/-- The list that a cycle made, and it is all of it. -/
structure ListOf (k : Kconfig) (x : Meeting) (art : Artifact) : Prop where
  hashes : ∀ hash, hash ∈ Words.words art.bytes ↔ hash ∈ (added k x).map domainHash
  ascending : Ascending (Words.words art.bytes)
  count : art.count = (Words.words art.bytes).length
  blobLen : art.blobLen = 8 * art.count
  floor : k.minDomains ≤ art.count

/-- An artifact with the bytes of a cycle's is its list. -/
theorem Traced.listOf {s : State} {art : Artifact} (h : Traced sha256 k s art)
    (hinj : Set.InjOn sha256 {b | b = art.bytes ∨ ∃ g, CycleMade sha256 k s g ∧ b = g.bytes}) :
    ∃ x ∈ s.cycles, ListOf k x art := by
  obtain ⟨ws, henc⟩ := h.encodes
  obtain ⟨g, ⟨x, hx, hgen⟩, hdigest⟩ := h.digest
  obtain ⟨r, hr, hmade⟩ := generate_made sha256 k x
  obtain rfl := Option.some.inj (hgen.symm.trans hr)
  obtain ⟨⟨ws', henc', hmem⟩, -, hfloor⟩ := hmade rfl
  have hbytes : art.bytes = g.bytes := by
    refine hinj (Or.inl rfl) (Or.inr ⟨g, ⟨x, hx, hgen⟩, rfl⟩) ?_
    rw [← henc.digest, ← henc'.digest, hdigest]
  have hwords : Words.words art.bytes = ws := by rw [henc.bytes, Words.words_encode]
  have hsame : ws = ws' := by
    rw [← hwords, hbytes, henc'.bytes, Words.words_encode]
  refine ⟨x, hx, ?_, ?_, ?_, ?_, ?_⟩
  · rw [hwords, hsame]
    exact hmem
  · rw [hwords]
    exact henc.ascending
  · rw [hwords]
    exact henc.count
  · rw [henc.blobLen, henc.count]
  · rw [henc.count, hsame, ← henc'.count]
    exact hfloor

/-- **All that is ever served is the list of one cycle**, in every run from a device with
nothing on record, whatever calls fail, wherever the power goes and whatever becomes of
flash. -/
theorem served_generated {c₀ c : Config Op Res State}
    (h₀ : Start (wildGenerator sha256 k cjsonPrint) c₀)
    (hblank : ∀ slot, c₀.state.store.nvs (.sha slot) = none)
    (hr : Reach (wildGenerator sha256 k cjsonPrint) c₀ c)
    (hinj : Set.InjOn sha256 {b | (∃ p ∈ c.state.http.history, b = p.art.bytes) ∨
      ∃ g, CycleMade sha256 k c.state g ∧ b = g.bytes}) :
    ∀ p ∈ c.state.http.history, ∃ x ∈ c.state.cycles, ListOf k x p.art := by
  intro p hp
  refine ((reach_sound h₀ hblank hr).served p hp).2.listOf (hinj.mono ?_)
  rintro b (rfl | hb)
  · exact Or.inl ⟨p, hp, rfl⟩
  · exact Or.inr hb

end Wild

/-! ### A cycle to look at -/

section Computed

variable {sha256 : Bytes → Digest} {k : Kconfig} {inits : NvsInit → Prop}
  {cjsonPrint : Json → Option Bytes}

/-- A publish that gets all its memory. -/
abbrev allocated : PublishAlloc := ⟨true, true, fun _ => true, true⟩

/-- The calls of a cycle that meets `x`, when none fails. -/
def cycleHandle (cjsonPrint : Json → Option Bytes) (x : Meeting) (ip : Bytes) (o : Op) (s : State) :
    Option (Res o × State) :=
  match o with
  | .nvsFlashInit => some (.ok, s)
  | .nvsFlashErase => some (true, { s with store := { s.store with nvs := fun _ => none } })
  | .abort => none
  | .store o => (handle .never o s.store).map fun y => (y.1, { s with store := y.2 })
  | .netNodeIp => some (ip, s)
  | .fetch => some (x, { s with cycles := x :: s.cycles })
  | .publish art version url =>
      some ((), { s with http := httpServePublish cjsonPrint allocated art version url s.http })

/-- What it answers any machine allows whose store may answer so. -/
theorem cycleHandle_answers {calls : Prog.StepRel Store.Op Store.Res Store.State}
    {allocs : PublishAlloc → Prop} (hinits : inits .ok)
    (hcalls : ∀ s o r s', Works s o r s' → calls s o r s') (hallocs : allocs allocated)
    {x : Meeting} {ip : Bytes} {o : Op} {r : Res o} {s s' : State}
    (h : cycleHandle cjsonPrint x ip o s = some (r, s')) :
    Answers inits calls allocs cjsonPrint s o r s' := by
  cases o with
  | nvsFlashInit =>
      obtain ⟨rfl, rfl⟩ := Prod.mk.inj (Option.some.inj h)
      exact ⟨hinits, rfl⟩
  | nvsFlashErase =>
      obtain ⟨-, rfl⟩ := Prod.mk.inj (Option.some.inj h)
      exact ⟨{ s.store with nvs := fun _ => none }, ⟨rfl, fun _ => Or.inr rfl, fun _ _ => rfl⟩, rfl⟩
  | abort => cases h
  | store o =>
      obtain ⟨⟨r', t⟩, hcall, heq⟩ := Option.map_eq_some_iff.mp h
      obtain ⟨rfl, rfl⟩ := Prod.mk.inj heq
      exact ⟨t, hcalls _ _ _ _ hcall, rfl⟩
  | netNodeIp =>
      obtain ⟨-, rfl⟩ := Prod.mk.inj (Option.some.inj h)
      rfl
  | fetch =>
      obtain ⟨rfl, rfl⟩ := Prod.mk.inj (Option.some.inj h)
      rfl
  | publish art version url =>
      obtain ⟨-, rfl⟩ := Prod.mk.inj (Option.some.inj h)
      exact ⟨_, hallocs, rfl⟩

/-- A cycle whose list fits its slot runs to its end, and publishes it. -/
theorem refreshCycle_run (cjsonPrint : Json → Option Bytes) {x : Meeting} (ip : Bytes)
    {art : Artifact} (hgen : generate sha256 k x = some (.ok, art))
    (hfits : art.blobLen ≤ slotSize) (s : State) :
    ∃ s' url, (refreshCycle sha256 k).run (cycleHandle cjsonPrint x ip) s = some ((), s') ∧
      s'.cycles = x :: s.cycles ∧
      s'.http = httpServePublish cjsonPrint allocated art (buildVersion art.sha256) url s.http ∧
      (k.publicUrlBase ≠ [] →
        url = (k.publicUrlBase ++ ascii "/blocklist.bin").take (urlSize - 1)) := by
  obtain ⟨r, hr, hmade⟩ := generate_made sha256 k x
  obtain rfl := Option.some.inj (hgen.symm.trans hr)
  obtain ⟨⟨ws, henc, -⟩, -, -⟩ := hmade rfl
  have henc : Encodes sha256 ws art := henc
  have hversion : (buildVersion art.sha256).length < artifactVersionMax := by
    rw [buildVersion_length]
    decide
  obtain ⟨t, hsave, -⟩ := save_run_moves (s := s.store) henc hversion ⟨rfl, hfits⟩
    (never_reread henc hfits) (henc.restorable hfits).verified rfl
  have hanswers : ∀ s o r s', cycleHandle cjsonPrint x ip o s = some (r, s') →
      Answers (fun _ => True) AnyCall (fun _ => True) cjsonPrint s o r s' := fun _ _ _ _ h =>
    cycleHandle_answers trivial (fun _ _ _ _ h => ⟨_, h⟩) trivial h
  have hstore : ∀ (s : State) o r t, handle Faults.never o s.store = some (r, t) →
      ∃ r' s', cycleHandle cjsonPrint x ip (.store o) s = some (r', s') ∧ r' = r ∧ s'.store = t :=
    fun s o r t h => ⟨r, { s with store := t }, by simp [cycleHandle, h], rfl, rfl⟩
  obtain ⟨s₁, hrun, -⟩ : ∃ s₁, (ofStore (artifactStoreSave sha256 art
      (buildVersion art.sha256))).run (cycleHandle cjsonPrint x ip)
      { s with cycles := x :: s.cycles } = some (.ok, s₁) ∧ s₁.store = t :=
    Prog.run_lift hstore hsave
  have hsafe : (artifactStoreSave sha256 art (buildVersion art.sha256)).Safe AnyCall
      (fun _ => Signs art) (fun _ _ => True) s.store :=
    (artifactStoreSave_signs art (buildVersion art.sha256)).safe
  obtain ⟨hbeside, -⟩ := (ofStore_safe (s := { s with cycles := x :: s.cycles }) hsafe).run
    hanswers hrun
  obtain ⟨url, hurl, hbase⟩ : ∃ url, (buildUrl k).run (cycleHandle cjsonPrint x ip)
      { s with cycles := x :: s.cycles } = some (url, { s with cycles := x :: s.cycles }) ∧
      (k.publicUrlBase ≠ [] →
        url = (k.publicUrlBase ++ ascii "/blocklist.bin").take (urlSize - 1)) := by
    unfold buildUrl
    by_cases hbase : k.publicUrlBase ≠ []
    · rw [if_pos hbase]
      exact ⟨_, rfl, fun _ => rfl⟩
    · rw [if_neg hbase]
      exact ⟨_, rfl, fun h => absurd h hbase⟩
  refine ⟨{ s₁ with
      http := httpServePublish cjsonPrint allocated art (buildVersion art.sha256) url s₁.http },
    url, ?_, hbeside.cycles, by rw [hbeside.http], hbase⟩
  have hfetch : cycleHandle cjsonPrint x ip .fetch s =
      some (x, { s with cycles := x :: s.cycles }) := rfl
  unfold refreshCycle
  rw [Prog.run_bind, Prog.run_call, hfetch, Option.bind_some]
  simp only [hgen]
  rw [Prog.run_bind, hurl, Option.bind_some, Prog.run_bind, hrun, Option.bind_some, Prog.run_call]
  rfl

/-- What a publish with enough memory publishes. -/
def wholly (art : Artifact) (version url : Bytes) : Published :=
  ⟨art, version, url, (manifestTree art version url).keep fun _ => true,
    cstr (Json.print ((manifestTree art version url).keep fun _ => true))⟩

/-- A first boot, and a first cycle. -/
theorem first_cycle {x : Meeting} {art : Artifact}
    (hgen : generate sha256 k x = some (.ok, art)) (hfits : art.blobLen ≤ slotSize) :
    ∃ s url, Reach (wildGenerator sha256 k fun root => some (Json.print root))
        ⟨.boot, ⟨blank, HttpServer.init, []⟩, appMain sha256 k⟩ ⟨.job, s, .pure ()⟩ ∧
      s.cycles = [x] ∧ s.http = HttpServer.init.swap (wholly art (buildVersion art.sha256) url) ∧
      (k.publicUrlBase ≠ [] →
        url = (k.publicUrlBase ++ ascii "/blocklist.bin").take (urlSize - 1)) := by
  let m := wildGenerator sha256 k fun root => some (Json.print root)
  have hwild : ∀ s o r s',
      cycleHandle (fun root => some (Json.print root)) x [] o s = some (r, s') →
        Answers (fun _ => True) AnyCall (fun _ => True) (fun root => some (Json.print root))
          s o r s' :=
    fun _ _ _ _ h => cycleHandle_answers trivial (fun _ _ _ _ h => ⟨_, h⟩) trivial h
  have hboot : (appMain sha256 k).run (cycleHandle (fun root => some (Json.print root)) x [])
      ⟨blank, HttpServer.init, []⟩ = some ((), ⟨blank, HttpServer.init, []⟩) := rfl
  have hrecorded : Recorded sha256 k ⟨blank, HttpServer.init, []⟩ := fun slot d hd => by cases hd
  obtain ⟨s, url, hcycle, hcycles, hhttp, hbase⟩ := refreshCycle_run
    (fun root => some (Json.print root)) [] hgen hfits ⟨blank, HttpServer.init, []⟩
  refine ⟨s, url, ?_, hcycles, hhttp, hbase⟩
  have hfirst : Reach m ⟨.boot, ⟨blank, HttpServer.init, []⟩, appMain sha256 k⟩
      ⟨.boot, ⟨blank, HttpServer.init, []⟩, .pure ()⟩ :=
    reach_of_run_unit hwild (fun s o r s' _ h => hwild s o r s' h) (appMain_proper hrecorded) hboot
  have hsecond : Reach m ⟨.job, ⟨blank, HttpServer.init, []⟩, refreshCycle sha256 k⟩
      ⟨.job, s, .pure ()⟩ :=
    reach_of_run_unit hwild (fun s o r s' _ h => hwild s o r s' h) (refreshCycle_proper _) hcycle
  exact hfirst.trans (.head .next hsecond)

end Computed

/-- One source, and one domain is enough. -/
def oneSource : Kconfig := ⟨[ascii "http://a/"], 1, 80, [], []⟩

/-- It answers with one line. -/
def oneLine : Meeting :=
  ⟨true, fun _ => true, ⟨some fun _ => 0, true⟩,
    fun _ => .answer 200 [.data (ascii "ads.com\n"), .data []]⟩

theorem generate_one : ∃ art, generate Sha256.sha256 oneSource oneLine = some (.ok, art) ∧
    art.blobLen ≤ slotSize := by
  have hoffered : offeredDomains (allowlistInit []) (sourceLines (oneLine.sources oneSource)) =
      [ascii "ads.com"] := by decide +kernel
  obtain ⟨art, left, hfinish, -, hlen⟩ := publishes_distinct Sha256.sha256
    (a := ⟨some fun _ => 0, true⟩) rfl
    (show ([ascii "ads.com"].map domainHash).Nodup from List.nodup_singleton _) (by decide)
    (Nat.le_refl 1) (by decide) (by decide +kernel)
  refine ⟨art, ?_, by rw [hlen]; decide⟩
  unfold generate
  rw [fetchAndGenerate_eq]
  rw [if_neg (show ¬ (!oneLine.created) = true from Bool.false_ne_true), sinkLines_builder]
  show (blocklistBuilderFinish _ _ (addAll _ (withAnswers (fun _ => true) 0 (offeredDomains
    (allowlistInit []) (sourceLines (oneLine.sources oneSource))))).2).map _ = _
  rw [hoffered, withAnswers_granted]
  exact congrArg (Option.map blocklistBuilderDestroy) hfinish

/-- The list that this serves. -/
theorem one_cycle_served : ∃ c p x,
    Reach (wildGenerator Sha256.sha256 oneSource fun root => some (Json.print root))
      ⟨.boot, ⟨blank, HttpServer.init, []⟩, appMain Sha256.sha256 oneSource⟩ c ∧
    p ∈ c.state.http.history ∧ x ∈ c.state.cycles ∧ ListOf oneSource x p.art := by
  obtain ⟨art, hgen, hfits⟩ := generate_one
  obtain ⟨s, url, hreach, hcycles, hhttp, -⟩ := first_cycle hgen hfits
  have hp : wholly art (buildVersion art.sha256) url ∈ s.http.history := by
    rw [hhttp]
    exact List.mem_singleton_self _
  have honly : ∀ b, ((∃ p ∈ s.http.history, b = p.art.bytes) ∨
      ∃ g, CycleMade Sha256.sha256 oneSource s g ∧ b = g.bytes) → b = art.bytes := by
    rintro b (⟨p, hp, rfl⟩ | ⟨g, ⟨x, hx, hg⟩, rfl⟩)
    · rw [hhttp] at hp
      rw [List.mem_singleton.mp hp]
      rfl
    · rw [hcycles] at hx
      rw [List.mem_singleton.mp hx, hgen] at hg
      rw [(Prod.mk.inj (Option.some.inj hg)).2]
  obtain ⟨x, hx, hlist⟩ := served_generated (c := ⟨.job, s, .pure ()⟩) ⟨rfl, rfl, rfl⟩
    (fun _ => rfl) hreach (fun b hb b' hb' _ => by rw [honly b hb, honly b' hb']) _ hp
  exact ⟨_, _, x, hreach, hp, hx, hlist⟩

end EspHole.Generator.Main
