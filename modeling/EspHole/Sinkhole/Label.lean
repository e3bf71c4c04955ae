/-
The version label, and which list it belongs to.

A slot's digest and its version are two NVS keys, written one after the other.  In
between, the slot's new list goes by its old version, and if the second write does not
happen it goes on doing so: a later boot may fall back to the slot, and the updater
compares labels only.

`label_belongs` shows that this is the one way for a label to be wrong.  In any run in
which the second write always follows the first — no power cut between them, and no
failure of either that leaves a new digest by an old version — the served list is the
blob of a manifest that carried the served version, whatever else fails.
`stale_label` is a run in which the second write fails.
-/
import EspHole.Sinkhole.Run
import EspHole.Sinkhole.Transfer

namespace EspHole.Sinkhole

open Machine Ascii Json Generator

section Labels

variable (sha256 : Bytes → Digest)

/-- A manifest that was announced, and whose blob was downloaded, carried this version and
this digest. -/
def Carried (s : World) (version digest : Bytes) : Prop :=
  ∃ m ∈ s.log, m.version = version ∧ m.sha256.bytes = digest ∧
    ∃ b ∈ s.hashed, b.length = m.size ∧ sha256 b = m.sha256

/-- The version on record for a slot, if there is one, came with the digest on record. -/
def Labelled (s : World) (slot : Int) : Prop :=
  ∀ version digest, s.nvs (.ver slot) = some version → version ≠ [] →
    s.nvs (.sha slot) = some digest → Carried sha256 s version digest

/-- Every slot is labelled, but for one whose version is about to be written. -/
def LabelGuard (s : World) (o : Op) : Prop :=
  ∀ slot, Labelled sha256 s slot ∨ ∃ version, o = .nvsSet (.ver slot) version

/-- A failing write of a digest or a version does not leave a new digest by an old
version. -/
def KeepsLabel (s' : World) : (o : Op) → Res o → Prop
  | .nvsSet (.sha slot) _, ok => ok = false → Labelled sha256 s' slot
  | .nvsSet (.ver slot) _, ok => ok = false → Labelled sha256 s' slot
  | _, _ => True

/-- Power does not go between the two writes, while the version on record is another
list's. -/
def KeepsPower (s : World) (p : Code Unit) : Prop :=
  ∀ slot version k, p = .op (.nvsSet (.ver slot) version) k → Labelled sha256 s slot

end Labels

section Steps

variable {sha256 : Bytes → Digest} {F : Faults}

theorem Carried.mono {s s' : World} {version digest : Bytes} (h : Carried sha256 s version digest)
    (hlog : s.log ⊆ s'.log) (hhashed : s.hashed ⊆ s'.hashed) :
    Carried sha256 s' version digest := by
  obtain ⟨m, hm, hver, hdig, b, hb, hlen, hsha⟩ := h
  exact ⟨m, hlog hm, hver, hdig, b, hhashed hb, hlen, hsha⟩

theorem Labelled.mono {s s' : World} {slot : Int} (h : Labelled sha256 s slot)
    (hver : s'.nvs (.ver slot) = s.nvs (.ver slot)) (hsha : s'.nvs (.sha slot) = s.nvs (.sha slot))
    (hlog : s.log ⊆ s'.log) (hhashed : s.hashed ⊆ s'.hashed) : Labelled sha256 s' slot :=
  fun version digest hv hne hd =>
    (h version digest (hver ▸ hv) hne (hsha ▸ hd)).mono hlog hhashed

/-- A call that writes neither key of a slot keeps its label. -/
theorem Labelled.step {s s' : World} {slot : Int} (h : Labelled sha256 s slot) {o : Op} {r : Res o}
    (hsha : ∀ v, o ≠ .nvsSet (.sha slot) v) (hver : ∀ v, o ≠ .nvsSet (.ver slot) v)
    (hs : Answers sha256 F s o r s') : Labelled sha256 s' slot :=
  h.mono (hs.nvs_of_ne hver) (hs.nvs_of_ne hsha) hs.grows.1 hs.grows.2

theorem labelled_quiet {s s' : World} {o : Op} {r : Res o} (h : ∀ slot, Labelled sha256 s slot)
    (ho : o.relabels = false) (hs : Answers sha256 F s o r s') : ∀ slot, Labelled sha256 s' slot :=
  fun slot => (h slot).step (fun v hv => by subst hv; cases ho)
    (fun v hv => by subst hv; cases ho) hs

/-- What a step may be in the runs considered. -/
def LabelStep (sha256 : Bytes → Digest) (s : World) (o : Op) (r : Res o) (s' : World) : Prop :=
  Answers sha256 anyFaults s o r s' ∧ KeepsLabel sha256 s' o r

theorem labelGuard_of_labelled {s : World} {o : Op} (h : ∀ slot, Labelled sha256 s slot) :
    LabelGuard sha256 s o := fun slot => Or.inl (h slot)

/-- A load keeps every label. -/
theorem activateSlot_labelled {s : World} (h : ∀ slot, Labelled sha256 s slot) (slot : Int) :
    (activateSlot slot).Safe (LabelStep sha256) (LabelGuard sha256)
      (fun _ s' => ∀ slot, Labelled sha256 s' slot) s := by
  have hsafe : (activateSlot slot).Safe (Answers sha256 anyFaults) _ _ s := activateSlot_safe s slot
  have hstep : ∀ s o r s', LabelStep sha256 s o r s' → Answers sha256 anyFaults s o r s' :=
    fun _ _ _ _ h => h.1
  have hkeep := (hsafe.anti hstep).keep (A := fun s => ∀ slot, Labelled sha256 s slot)
    (fun s o r s' ha hg hs => labelled_quiet ha (Op.boots_relabels hg.2) (hstep s o r s' hs)) h
  exact hkeep.mono (fun s o h => labelGuard_of_labelled h.2) fun _ _ h => h.2

/-- **A commit keeps the labels**, if its two writes are not torn apart. -/
theorem blocklistCommitSlot_labelled {s : World} {m : Manifest} (hm : Current sha256 s m)
    (h : ∀ slot, Labelled sha256 s slot) (slot : Int) :
    (blocklistCommitSlot slot m.count m.sha256 m.version).Safe (LabelStep sha256)
      (LabelGuard sha256) (fun _ s' => ∀ slot, Labelled sha256 s' slot) s := by
  unfold blocklistCommitSlot
  refine Prog.safe_call_bind.mpr ⟨labelGuard_of_labelled h, fun (ram : Ram) s₁ h₁ => ?_⟩
  have hl₁ := labelled_quiet h rfl h₁.1
  show Prog.Safe _ _ _ (if _ then _ else _) s₁
  by_cases hbad : slot < 0 ∨ slot ≥ blocklistSlots ∨ slot = ram.active
  · rw [if_pos hbad]
    exact hl₁
  rw [if_neg hbad]
  refine Prog.safe_call_bind.mpr ⟨labelGuard_of_labelled hl₁, fun (ok : Bool) s₂ h₂ => ?_⟩
  have hl₂ := labelled_quiet hl₁ rfl h₂.1
  cases ok with
  | false => exact hl₂
  | true =>
      refine Prog.safe_call_bind.mpr ⟨labelGuard_of_labelled hl₂, fun (ok : Bool) s₃ h₃ => ?_⟩
      -- Now the other slots are labelled, and this one is if the write failed.
      have hother₃ : ∀ sl, sl ≠ slot → Labelled sha256 s₃ sl := fun sl hsl =>
        (hl₂ sl).step (by simpa using Ne.symm hsl) (by simp) h₃.1
      cases ok with
      | false =>
          intro sl
          by_cases hsl : sl = slot
          · exact hsl ▸ h₃.2 rfl
          · exact hother₃ sl hsl
      | true =>
          have hm₃ : Current sha256 s₃ m := hm.mono
            (List.Subset.trans h₁.1.grows.1 (List.Subset.trans h₂.1.grows.1 h₃.1.grows.1))
            (List.Subset.trans h₁.1.grows.2 (List.Subset.trans h₂.1.grows.2 h₃.1.grows.2))
          refine Prog.safe_call_bind.mpr ⟨fun sl => ?_, fun (ok : Bool) s₄ h₄ => ?_⟩
          · by_cases hsl : sl = slot
            · exact Or.inr ⟨m.version, by rw [hsl]⟩
            · exact Or.inl (hother₃ sl hsl)
          have hslot₄ : Labelled sha256 s₄ slot := by
            cases ok with
            | false => exact h₄.2 rfl
            | true =>
                have hver : s₄.nvs (.ver slot) = some m.version := by
                  rw [h₄.1.nvsSet_true.nvs, World.setNvs_same]
                have hsha : s₄.nvs (.sha slot) = some m.sha256.bytes := by
                  rw [h₄.1.nvs_of_ne (by simp), h₃.1.nvsSet_true.nvs, World.setNvs_same]
                intro version digest hv _ hd
                rw [hver] at hv
                rw [hsha] at hd
                obtain rfl := Option.some.inj hv
                obtain rfl := Option.some.inj hd
                obtain ⟨b, hb, hlen, hdig⟩ := hm₃.blob
                exact ⟨m, h₄.1.grows.1 hm₃.logged, rfl, rfl, b, h₄.1.grows.2 hb, hlen, hdig⟩
          have hl₄ : ∀ sl, Labelled sha256 s₄ sl := by
            intro sl
            by_cases hsl : sl = slot
            · exact hsl ▸ hslot₄
            · exact (hother₃ sl hsl).step (by simp) (by simpa using Ne.symm hsl) h₄.1
          cases ok with
          | false => exact hl₄
          | true =>
              refine Prog.safe_call_bind.mpr
                ⟨labelGuard_of_labelled hl₄, fun (ok : Bool) s₅ h₅ => ?_⟩
              have hl₅ := labelled_quiet hl₄ rfl h₅.1
              cases ok with
              | false => exact hl₅
              | true => exact activateSlot_labelled hl₅ slot

end Steps

/-! ### Runs -/

/-- The sinkhole where anything may fail and flash may rot, but no label is torn off. -/
def labelDevice (sha256 : Bytes → Digest) (cjsonParse : Bytes → Option Json)
    (manifestUrl : Bytes) : Machine Op Res World :=
  device (fun _ => LabelStep sha256)
    (fun s p s' => PowerCut True s s' ∧ KeepsPower sha256 s p) cjsonParse manifestUrl

section Runs

variable {sha256 : Bytes → Digest} {cjsonParse : Bytes → Option Json} {manifestUrl : Bytes}

/-- The guard of every call: disciplined, and labelled but for the version being written. -/
abbrev RunGuard (sha256 : Bytes → Digest) (s : World) (o : Op) : Prop :=
  Disciplined sha256 True s o ∧ LabelGuard sha256 s o

theorem boot_labelled {s : World} (h : ∀ slot, Labelled sha256 s slot) :
    (labelDevice sha256 cjsonParse manifestUrl).boot.Safe (LabelStep sha256) (RunGuard sha256)
      (fun _ s' => ∀ slot, Labelled sha256 s' slot) s := by
  have hsafe : blocklistInit.Safe (Answers sha256 anyFaults) _ _ s := blocklistInit_safe s
  have hstep : ∀ s o r s', LabelStep sha256 s o r s' → Answers sha256 anyFaults s o r s' :=
    fun _ _ _ _ h => h.1
  have hkeep := (hsafe.anti hstep).keep (A := fun s => ∀ slot, Labelled sha256 s slot)
    (fun s o r s' ha hg hs => labelled_quiet ha (Op.boots_relabels hg.2) (hstep s o r s' hs)) h
  exact Prog.safe_bind.mpr (hkeep.mono (fun s o h => ⟨h.1.1, labelGuard_of_labelled h.2⟩)
    fun _ _ h => h.2)

theorem job_labelled {s : World} (h : ∀ slot, Labelled sha256 s slot) :
    (labelDevice sha256 cjsonParse manifestUrl).job.Safe (LabelStep sha256) (RunGuard sha256)
      (fun _ s' => ∀ slot, Labelled sha256 s' slot) s := by
  have hstep : ∀ s o r s', LabelStep sha256 s o r s' → Answers sha256 anyFaults s o r s' :=
    fun _ _ _ _ h => h.1
  refine checkOnce_safe_of (F := anyFaults) (J := fun s => ∀ slot, Labelled sha256 s slot) hstep
    (fun s o h hq => ⟨hq.1, labelGuard_of_labelled h⟩)
    (fun s o r s' h hq hs => labelled_quiet h hq (hstep s o r s' hs)) ?_ cjsonParse manifestUrl h
  intro s m slot hl hm
  have hdisc : (blocklistCommitSlot slot m.count m.sha256 m.version).Safe
      (Answers sha256 anyFaults) _ _ s := blocklistCommitSlot_safe hm slot
  exact ((hdisc.anti hstep).and (blocklistCommitSlot_labelled hm hl slot)).post fun _ _ h => h.2

/-- A restart finds every slot labelled. -/
theorem labelled_powerCut {s s' : World} {p : Code Unit}
    (hready : Ready (RunGuard sha256) (fun s => ∀ slot, Labelled sha256 s slot) p s)
    (hpower : KeepsPower sha256 s p) (hcut : PowerCut True s s') :
    ∀ slot, Labelled sha256 s' slot := by
  have hnow : ∀ slot, Labelled sha256 s slot := by
    cases p with
    | pure a => exact hready
    | op o k =>
        intro slot
        rcases hready.2 slot with hl | ⟨version, rfl⟩
        · exact hl
        · exact hpower slot version k rfl
  intro slot
  refine (hnow slot).mono (by rw [hcut.nvs]) (by rw [hcut.nvs]) ?_ hcut.hashed
  rw [hcut.log]
  exact List.Subset.refl _

/-- What the served version says is true: it came, in one manifest, with the size and the
digest of the list that is served. -/
def LabelTrue (sha256 : Bytes → Digest) (s : World) : Prop :=
  s.ram.version ≠ [] → ∃ m ∈ s.log, m.version = s.ram.version ∧
    m.size = (s.ram.hashes.flatMap Words.encode).length ∧
    m.sha256 = sha256 (s.ram.hashes.flatMap Words.encode)

theorem LabelTrue.mono {s s' : World} (h : LabelTrue sha256 s) (hram : s'.ram = s.ram)
    (hlog : s.log ⊆ s'.log) : LabelTrue sha256 s' := by
  unfold LabelTrue
  rw [hram]
  intro hne
  obtain ⟨m, hm, hrest⟩ := h hne
  exact ⟨m, hlog hm, hrest⟩

/-- A load installs a true label, if its slot is labelled and the digest tells apart what
was hashed. -/
theorem labelTrue_loaded {s : World} {ram : Ram} {buf : Bytes} (hl : Loaded sha256 True s ram buf)
    (hlabel : Labelled sha256 s ram.active) (hinj : Set.InjOn sha256 {b | b ∈ s.hashed}) :
    LabelTrue sha256 { s with ram := ram } := by
  intro hne
  have hver : s.nvs (.ver ram.active) = some ram.version := hl.version.resolve_left hne
  obtain ⟨m, hm, hmver, hmdig, b, hb, hlen, hsha⟩ := hlabel _ _ hver hne hl.digest
  have hdig : m.sha256 = sha256 buf := Digest.bytes_inj hmdig
  have hbuf : b = buf := hinj hb hl.hashed (hsha.trans hdig)
  refine ⟨m, hm, hmver, ?_, ?_⟩
  · show m.size = (ram.hashes.flatMap Words.encode).length
    rw [hl.hashes, Words.encode_words hl.length, ← hbuf, hlen]
  · show m.sha256 = sha256 (ram.hashes.flatMap Words.encode)
    rw [hl.hashes, Words.encode_words hl.length, hdig]

/-- One call keeps the served label true. -/
theorem LabelTrue.step {F : Faults} {s s' : World} {o : Op} {r : Res o}
    (h : LabelTrue sha256 s) (hg : RunGuard sha256 s o) (hs : Answers sha256 F s o r s')
    (hinj : Set.InjOn sha256 {b | b ∈ s.hashed}) : LabelTrue sha256 s' := by
  by_cases hset : ∃ ram, o = .setRam ram
  · obtain ⟨ram, rfl⟩ := hset
    obtain ⟨⟨buf, hl⟩, hlabel⟩ := hg
    rcases hlabel ram.active with hlabel | ⟨version, hv⟩
    · exact (labelTrue_loaded hl hlabel hinj).mono hs.ram hs.grows.1
    · cases hv
  · exact h.mono (hs.ram_eq fun ram hram => hset ⟨ram, hram⟩) hs.grows.1

/-- **The version label belongs to the served list**, in every run in which no label is torn
off. -/
theorem label_belongs {c₀ c : Config Op Res World}
    (h₀ : Start (labelDevice sha256 cjsonParse manifestUrl) c₀)
    (hfresh : ∀ slot, Labelled sha256 c₀.state slot)
    (hr : Reach (labelDevice sha256 cjsonParse manifestUrl) c₀ c)
    (hinj : Set.InjOn sha256 {b | b ∈ c.state.hashed}) : LabelTrue sha256 c.state := by
  have hgood : c₀.Good (labelDevice sha256 cjsonParse manifestUrl) (RunGuard sha256)
      (fun s => ∀ slot, Labelled sha256 s slot) := by
    unfold Config.Good
    rw [h₀.phase, h₀.prog]
    exact boot_labelled hfresh
  have hinv := reach_invariant (m := labelDevice sha256 cjsonParse manifestUrl)
    (A := fun s => Set.InjOn sha256 {b | b ∈ s.hashed} → LabelTrue sha256 s)
    (fun s p s' hready hcut => boot_labelled (labelled_powerCut hready hcut.2 hcut.1))
    (fun s hs => job_labelled hs) ?_ ?_ hgood ?_ hr
  · exact hinv hinj
  · intro ph s o r s' ha hg hs hinj'
    have hinj₀ := hinj'.mono fun b hb => hs.1.grows.2 hb
    exact (ha hinj₀).step hg hs.1 hinj₀
  · intro s p s' _ hcut _ hne
    exact absurd (congrArg Ram.version hcut.1.ram) hne
  · intro _ hne
    exact absurd (congrArg Ram.version h₀.ram) hne

end Runs

/-! ### A label that is true -/

theorem labelStep_noFailure {sha256 : Bytes → Digest} {s s' : World} {o : Op} {r : Res o}
    (h : handle sha256 noFailure o s = some (r, s')) : LabelStep sha256 s o r s' := by
  refine ⟨handle_answers (fun _ _ => trivial) (fun _ _ => trivial) h, ?_⟩
  cases o with
  | nvsSet k v =>
      obtain ⟨rfl, -⟩ := Prod.mk.inj (Option.some.inj h)
      cases k with
      | sha slot => exact fun hf => by cases hf
      | ver slot => exact fun hf => by cases hf
      | _ => trivial
  | _ => trivial

/-- A boot with nothing on record serves nothing. -/
theorem boot_run_empty {sha256 : Bytes → Digest} {s : World} (hactive : s.nvs .active = none)
    (h0 : s.nvs (.cnt 0) = none) (h1 : s.nvs (.cnt 1) = none) :
    blocklistInit.run (handle sha256 noFailure) s = some (.fail, s) := by
  simp [blocklistInit, tryFallback, loadSlot, handle, noFailure, hactive, h0, h1, blocklistSlots]

theorem noFailure_delivers : Delivers noFailure := fun _ _ => rfl

namespace First

/-- A new device, with the smallest list on its way, -/
def fresh : World := World.blank.await (sampleInbox Sha256.sha256 10000 (ascii "v1") [])

/-- downloaded, -/
def fetched : World :=
  fresh.fetched (sampleManifest Sha256.sha256 10000 10000 (ascii "v1")) (entriesBlob 10000) []

/-- and committed. -/
def served : World :=
  fetched.commitDone noFailure 0 10000 (Sha256.sha256 (entriesBlob 10000)) (ascii "v1")

/-- The sinkhole that hears of this list only. -/
abbrev machine : Machine Op Res World :=
  labelDevice Sha256.sha256 (reads (sampleTree Sha256.sha256 10000 10000 (ascii "v1"))) []

theorem fetched_bytes : fetched.slotBytes 0 (8 * 10000) = entriesBlob 10000 := by
  have h := slotBytes_fetched fresh (sampleManifest Sha256.sha256 10000 10000 (ascii "v1"))
    (entriesBlob 10000) []
  rw [entriesBlob_length] at h
  exact h

theorem prints : Prints 10000 ∧ Prints (8 * 10000) :=
  ⟨⟨by decide +kernel, by decide +kernel⟩, ⟨by decide +kernel, by decide +kernel⟩⟩

theorem job_run :
    machine.job.run (handle Sha256.sha256 noFailure) fresh = some ((), served) := by
  have hloads : CommitLoads Sha256.sha256 noFailure fetched 0 10000
      (Sha256.sha256 (entriesBlob 10000)) (ascii "v1") :=
    commitLoads_entries (by decide) (by decide) fetched_bytes rfl (by decide) (by decide)
      fun _ _ => rfl
  show (checkOnce _ []).run _ fresh = _
  rw [sample_update (n := 10000) noFailure_delivers rfl (reads_print _) (by decide) (by decide)
    (by decide) (by decide) (by decide) prints.1 prints.2]
  exact congrArg (fun x => Option.bind x fun x => some ((), x.2)) (commit_run_loads hloads)

/-- The device about to boot, and after its first update. -/
def start : Config Op Res World := ⟨.boot, fresh, machine.boot⟩

def idle : Config Op Res World := ⟨.job, served, .pure ()⟩

theorem reach : Reach machine start idle := by
  have hboot : Reach machine ⟨.boot, fresh, machine.boot⟩ ⟨.boot, fresh, .pure ()⟩ :=
    boot_reach (fun _ _ _ _ _ h => labelStep_noFailure h) (boot_run_empty rfl rfl rfl)
  have hjob : Reach machine ⟨.job, fresh, machine.job⟩ ⟨.job, served, .pure ()⟩ :=
    job_reach (fun _ _ _ _ h => labelStep_noFailure h) job_run
  exact (hboot.tail .next).trans hjob

theorem served_hashed : served.hashed = [entriesBlob 10000, entriesBlob 10000] := by
  have hinstalled : served.hashed = fetched.slotBytes 0 (8 * sizeT 10000) :: fetched.hashed := rfl
  rw [hinstalled, sizeT_of_lt (by norm_num), fetched_bytes]
  rfl

end First

/-- The label of the first list a device serves is true. -/
theorem first_label : LabelTrue Sha256.sha256 First.idle.state := by
  refine label_belongs ⟨rfl, rfl, rfl, rfl⟩ ?_ First.reach ?_
  · intro slot version digest hver
    cases hver
  · have hhashed : First.idle.state.hashed = [entriesBlob 10000, entriesBlob 10000] :=
      First.served_hashed
    rw [hhashed]
    intro b hb c hc _
    simp only [Set.mem_ofPred_eq, List.mem_cons, List.not_mem_nil, or_false, or_self] at hb hc
    rw [hb, hc]

/-! ### A label that is torn off -/

section Sample

variable {sha256 : Bytes → Digest} {s : World} {n : Nat} {version : Bytes}

/-- A boot without a record falls back to slot 0, and records it. -/
theorem boot_run_fallback {count : Nat} (hactive : s.nvs .active = none)
    (hv : ValidSlot sha256 s 0 count) :
    blocklistInit.run (handle sha256 noFailure) s =
      some (.ok, (s.install 0 count (readBackVersion noFailure s 0)).setNvs .active 0) := by
  have hl : Loadable sha256 noFailure s 0 count := ⟨hv, rfl, rfl, rfl, rfl, rfl⟩
  have hget : (nvsGet .active).run (handle sha256 noFailure) s = some (none, s) := by
    rw [Prog.run_call]
    show some (s.nvs .active, s) = _
    rw [hactive]
  unfold blocklistInit
  rw [Prog.run_bind, hget, Option.bind_some]
  show (tryFallback 255 [0, 1]).run _ s = _
  unfold tryFallback
  rw [if_neg (by decide), Prog.run_bind, loadSlot_run_loadable hl]
  rfl

/-- There is no PSRAM to load into. -/
def mallocFails : Op → Bool
  | .heapCapsMalloc _ => true
  | _ => false

/-- Versions cannot be written. -/
def versionFails : Op → Bool
  | .nvsSet (.ver _) _ => true
  | _ => false

/-- A commit that cannot load its slot has written all three keys. -/
theorem commit_run_noMem {slot : Int} {digest : Digest} (hslot : IsSlot slot)
    (hact : slot ≠ s.ram.active) (hfloor : blocklistMinDomains ≤ n) (hfits : 8 * n ≤ slotSize) :
    (blocklistCommitSlot slot n digest version).run (handle sha256 mallocFails) s =
      some (.noMem, s.record slot n digest version) := by
  have hn : sizeT n = n := sizeT_of_lt (by unfold slotSize at hfits; omega)
  have hrange : ¬ (n < blocklistMinDomains ∨ 8 * n > slotSize) := by omega
  have hcnt := record_cnt s slot n digest version
  have hsha := record_sha s slot n digest version
  rw [hn] at hcnt
  rw [commit_run_record (hslot.range hact) rfl rfl rfl rfl]
  simp [activateSlot, loadSlot, loadBuffer, handle, mallocFails, hcnt, hsha,
    blocklistSlotPartition_isSlot hslot, sizeT_mul_eight hfits, hrange]

/-- A commit that cannot write the version has written the other two. -/
theorem commit_run_torn {slot : Int} {digest : Digest} (hslot : IsSlot slot)
    (hact : slot ≠ s.ram.active) :
    (blocklistCommitSlot slot n digest version).run (handle sha256 versionFails) s =
      some (.driver, (s.setNvs (.cnt slot) (sizeT n)).setNvs (.sha slot) digest.bytes) := by
  simp [blocklistCommitSlot, handle, versionFails, hslot.range hact]

end Sample

/-- A digest that tells lists of different lengths apart. -/
def lengthDigest : Bytes → Digest := fun b =>
  Vector.ofFn fun i => UInt8.ofNat (b.length / 256 ^ i.val)

theorem lengthDigest_ne {b c : Bytes} (h : UInt8.ofNat b.length ≠ UInt8.ofNat c.length) :
    lengthDigest b ≠ lengthDigest c := by
  intro heq
  have hfirst := congrArg (fun d => d[0]) heq
  simp [lengthDigest] at hfirst
  exact h hfirst

namespace Torn

/-- Two manifests, the second with one more entry. -/
def first : Json := sampleTree lengthDigest 10000 10000 (ascii "v1")

def second : Json := sampleTree lengthDigest 10001 10001 (ascii "v2")

/-- A reader that knows both. -/
def cjsonParse (text : Bytes) : Option Json := reads first text <|> reads second text

theorem parse_first : cjsonParse (print first) = some first := by
  unfold cjsonParse
  rw [reads_print]
  rfl

theorem parse_second : cjsonParse (print second) = some second := by
  have hne : print second ≠ print first := by
    intro h
    exact absurd (version_of_text h (by decide)) (by decide)
  unfold cjsonParse
  rw [reads_print, reads, if_neg hne]
  rfl

/-- A new device, with both updates on their way. -/
def fresh : World :=
  World.blank.await
    (sampleInbox lengthDigest 10000 (ascii "v1") (sampleInbox lengthDigest 10001 (ascii "v2") []))

/-- After the first update, which finds no PSRAM. -/
def refused : World :=
  (fresh.fetched (sampleManifest lengthDigest 10000 10000 (ascii "v1")) (entriesBlob 10000)
    (sampleInbox lengthDigest 10001 (ascii "v2") [])).record 0 10000
      (lengthDigest (entriesBlob 10000)) (ascii "v1")

/-- After the second, which cannot write its version. -/
def torn : World :=
  ((refused.fetched (sampleManifest lengthDigest 10001 10001 (ascii "v2")) (entriesBlob 10001)
    []).setNvs (.cnt 0) (sizeT 10001)).setNvs (.sha 0) (lengthDigest (entriesBlob 10001)).bytes

/-- After the next boot. -/
def served : World :=
  (torn.install 0 10001 (readBackVersion noFailure torn 0)).setNvs .active 0

theorem first_run :
    (checkOnce cjsonParse []).run (handle lengthDigest mallocFails) fresh = some ((), refused) := by
  rw [sample_update (n := 10000) (fun o ho => by cases o <;> first | rfl | cases ho) rfl parse_first
    (by decide) (by decide) (by decide) (by decide) (by decide)
    ⟨by decide +kernel, by decide +kernel⟩ ⟨by decide +kernel, by decide +kernel⟩,
    commit_run_noMem (by decide) (by decide) (by decide) (by decide)]
  rfl

theorem second_run :
    (checkOnce cjsonParse []).run (handle lengthDigest versionFails) refused = some ((), torn) := by
  rw [sample_update (n := 10001) (fun o ho => by cases o <;> first | rfl | cases ho) rfl
    parse_second (by decide) (by decide) (by decide) (by decide) (by decide)
    ⟨by decide +kernel, by decide +kernel⟩ ⟨by decide +kernel, by decide +kernel⟩,
    commit_run_torn (by decide) (by decide)]
  rfl

theorem torn_bytes : torn.slotBytes 0 (8 * 10001) = entriesBlob 10001 := by
  have h := slotBytes_fetched refused (sampleManifest lengthDigest 10001 10001 (ascii "v2"))
    (entriesBlob 10001) []
  rw [entriesBlob_length] at h
  rw [torn, World.slotBytes_setNvs, World.slotBytes_setNvs]
  exact h

theorem torn_valid : ValidSlot lengthDigest torn 0 10001 := by
  refine validSlot_entries (by decide) torn_bytes ?_ ?_ (by decide) (by decide)
  · rw [torn, World.setNvs_of_ne _ _ (by simp), World.setNvs_same, sizeT_of_lt (by norm_num)]
  · rw [torn, World.setNvs_same]

theorem served_run :
    blocklistInit.run (handle lengthDigest noFailure) torn = some (.ok, served) :=
  boot_run_fallback rfl torn_valid

theorem served_ram : served.ram = ⟨entries 10001, 10001, 0, ascii "v1"⟩ := by
  have hversion : readBackVersion noFailure torn 0 = ascii "v1" := by
    have hver : torn.nvs (.ver 0) = some (ascii "v1") := by
      rw [torn, World.setNvs_of_ne _ _ (by simp), World.setNvs_of_ne _ _ (by simp)]
      show refused.nvs (.ver 0) = _
      rw [refused, record_ver]
    show storedVersion (torn.nvs (.ver 0)) = _
    rw [hver]
    decide
  show Ram.mk (Words.words (torn.slotBytes 0 (8 * 10001))) 10001 0
    (readBackVersion noFailure torn 0) = _
  rw [torn_bytes, hversion, entriesBlob, Words.words_encode]

theorem served_hashed :
    served.hashed = [entriesBlob 10001, entriesBlob 10001, entriesBlob 10000] := by
  show torn.slotBytes 0 (8 * 10001) :: torn.hashed = _
  rw [torn_bytes]
  rfl

/-- The device, with both manifests known. -/
abbrev machine : Machine Op Res World := wildDevice lengthDigest cjsonParse []

theorem wild_handle {fails : Op → Bool} {s s' : World} {o : Op} {r : Res o}
    (h : handle lengthDigest fails o s = some (r, s')) : Answers lengthDigest anyFaults s o r s' :=
  handle_answers (fun _ _ => trivial) (fun _ _ => trivial) h

/-- Boot, two updates, a power cut and a boot. -/
theorem served_reach :
    Reach machine ⟨.boot, fresh, machine.boot⟩ ⟨.boot, served, .pure ()⟩ := by
  have hboot₁ : Reach machine ⟨.boot, fresh, machine.boot⟩ ⟨.boot, fresh, .pure ()⟩ :=
    boot_reach (fun _ _ _ _ _ h => wild_handle h) (boot_run_empty rfl rfl rfl)
  have hjob₁ : Reach machine ⟨.job, fresh, machine.job⟩ ⟨.job, refused, .pure ()⟩ :=
    job_reach (fun _ _ _ _ h => wild_handle h) first_run
  have hjob₂ : Reach machine ⟨.job, refused, machine.job⟩ ⟨.job, torn, .pure ()⟩ :=
    job_reach (fun _ _ _ _ h => wild_handle h) second_run
  have hcut : Step machine ⟨.job, torn, .pure ()⟩ ⟨.boot, torn, machine.boot⟩ :=
    .power (.refl torn)
  have hboot₂ : Reach machine ⟨.boot, torn, machine.boot⟩ ⟨.boot, served, .pure ()⟩ :=
    boot_reach (fun _ _ _ _ _ h => wild_handle h) served_run
  exact (((hboot₁.tail .next).trans (hjob₁.tail .next)).trans (hjob₂.tail hcut)).trans hboot₂

end Torn

/-- **A label that is not the served list's**: a new device, no flash rot and no collision,
and yet the list of the second manifest is served under the version of the first. -/
theorem stale_label :
    Start (wildDevice lengthDigest Torn.cjsonParse []) ⟨.boot, Torn.fresh, Torn.machine.boot⟩ ∧
    (∀ k, Torn.fresh.nvs k = none) ∧
    Reach (wildDevice lengthDigest Torn.cjsonParse []) ⟨.boot, Torn.fresh, Torn.machine.boot⟩
      ⟨.boot, Torn.served, .pure ()⟩ ∧
    Set.InjOn lengthDigest {b | b ∈ Torn.served.hashed} ∧ ¬ LabelTrue lengthDigest Torn.served := by
  refine ⟨⟨rfl, rfl, rfl, rfl⟩, fun _ => rfl, Torn.served_reach, ?_, ?_⟩
  · have hne : lengthDigest (entriesBlob 10000) ≠ lengthDigest (entriesBlob 10001) := by
      refine lengthDigest_ne ?_
      rw [entriesBlob_length, entriesBlob_length]
      decide
    rw [Torn.served_hashed]
    intro b hb c hc heq
    simp only [Set.mem_ofPred_eq, List.mem_cons, List.not_mem_nil, or_false, or_self_left] at hb hc
    rcases hb with hb | hb <;> rcases hc with hc | hc
    · rw [hb, hc]
    · rw [hb, hc] at heq
      exact absurd heq.symm hne
    · rw [hb, hc] at heq
      exact absurd heq hne
    · rw [hb, hc]
  · intro h
    have hhashes : Torn.served.ram.hashes = entries 10001 := by rw [Torn.served_ram]
    have hversion : Torn.served.ram.version = ascii "v1" := by rw [Torn.served_ram]
    unfold LabelTrue at h
    rw [hhashes, hversion, Words.flatMap_encode_length, entries_length] at h
    obtain ⟨m, hm, hver, hsize, -⟩ := h (by decide)
    have hlog : Torn.served.log = [sampleManifest lengthDigest 10001 10001 (ascii "v2"),
      sampleManifest lengthDigest 10000 10000 (ascii "v1")] := rfl
    rw [hlog] at hm
    simp only [List.mem_cons, List.not_mem_nil, or_false] at hm
    rcases hm with rfl | rfl
    · exact absurd hver (by decide)
    · rw [sampleManifest_size] at hsize
      omega

end EspHole.Sinkhole
