/-
Runs of the sinkhole: boots, updates and power cuts, in any order.

The machine boots with `blocklist_init` and then calls `check_once` again and again.
Power may go between any two calls; what is left is NVS and flash.  Everything a call is
made for is in `Disciplined`, so each invariant here is checked call by call.

Two things are shown.  A list that was once loaded is never lost: some slot stays valid
through every update and every cut, and every boot finds it (`valid_slot_survives`).
And nothing is ever served that was not validated, whatever happens to flash
(`served_validated`).
-/
import EspHole.Sinkhole.Commit

namespace EspHole.Sinkhole

open Ascending Ascii Machine

/-- The sinkhole's update path as a machine; how calls answer and what a power cut leaves
is for each result to say. -/
def device (step : Phase → Prog.StepRel Op Res World) (restart : World → Code Unit → World → Prop)
    (cjsonParse : Bytes → Option Json) (manifestUrl : Bytes) : Machine Op Res World where
  boot := do
    let _ ← blocklistInit
    return ()
  job := checkOnce cjsonParse manifestUrl
  step := step
  restart := restart

/-- A power cut clears the statics and keeps NVS; flash too, unless it rots. -/
def PowerCut (rot : Prop) (s s' : World) : Prop := World.Still rot { s with ram := Ram.init } s'

/-- Where a run starts: about to boot, nothing served and nothing announced. -/
structure Start (m : Machine Op Res World) (c : Config Op Res World) : Prop where
  phase : c.phase = .boot
  prog : c.prog = m.boot
  ram : c.state.ram = Ram.init
  log : c.state.log = []

section Good

variable {sha256 : Bytes → Digest} {F : Phase → Faults} {rot : Prop}
  {step : Phase → Prog.StepRel Op Res World} {restart : World → Code Unit → World → Prop}
  {cjsonParse : Bytes → Option Json} {manifestUrl : Bytes}

theorem boot_disciplined (hstep : ∀ ph s o r s', step ph s o r s' → Answers sha256 (F ph) s o r s')
    (hrot : ∀ ph, (F ph).rot = rot) (s : World) :
    (device step restart cjsonParse manifestUrl).boot.Safe (step .boot) (Disciplined sha256 rot)
      (fun _ _ => True) s := by
  have h : blocklistInit.Safe (Answers sha256 (F .boot)) _ _ s := blocklistInit_safe s
  exact Prog.safe_bind.mpr ((h.anti (hstep .boot)).mono (fun _ _ h => hrot .boot ▸ h.1)
    fun _ _ _ => trivial)

theorem job_disciplined (hstep : ∀ ph s o r s', step ph s o r s' → Answers sha256 (F ph) s o r s')
    (hrot : ∀ ph, (F ph).rot = rot) (s : World) :
    (device step restart cjsonParse manifestUrl).job.Safe (step .job) (Disciplined sha256 rot)
      (fun _ _ => True) s := by
  have h : (checkOnce cjsonParse manifestUrl).Safe (Answers sha256 (F .job)) _ _ s :=
    checkOnce_safe cjsonParse manifestUrl s
  exact (h.anti (hstep .job)).mono (fun _ _ h => hrot .job ▸ h) fun _ _ h => h

/-- **Every call of every run is disciplined.** -/
theorem reach_disciplined
    (hstep : ∀ ph s o r s', step ph s o r s' → Answers sha256 (F ph) s o r s')
    (hrot : ∀ ph, (F ph).rot = rot) {c₀ c : Config Op Res World}
    (h₀ : Start (device step restart cjsonParse manifestUrl) c₀)
    (hr : Reach (device step restart cjsonParse manifestUrl) c₀ c) :
    c.Good (device step restart cjsonParse manifestUrl) (Disciplined sha256 rot)
      (fun _ => True) := by
  refine reach_good (fun s p s' _ _ => boot_disciplined hstep hrot s')
    (fun s _ => job_disciplined hstep hrot s) ?_ hr
  unfold Config.Good
  rw [h₀.phase, h₀.prog]
  exact boot_disciplined hstep hrot _

end Good

/-! ### A run to look at -/

/-- No recorded count exceeds its slot. -/
def CountsFit (s : World) : Prop :=
  ∀ slot, ∀ c : Nat, s.nvs (.cnt slot) = some c → 8 * c ≤ slotSize

section Computed

variable {sha256 : Bytes → Digest} {step : Phase → Prog.StepRel Op Res World}
  {restart : World → Code Unit → World → Prop} {cjsonParse : Bytes → Option Json}
  {manifestUrl : Bytes} {fails : Op → Bool} {s s' : World}

/-- A boot computed by `handle` is a run of the machine. -/
theorem boot_reach
    (hstep : ∀ s o r s', o.boots = true → handle sha256 fails o s = some (r, s') →
      step .boot s o r s') {e : EspErr}
    (hrun : blocklistInit.run (handle sha256 fails) s = some (e, s')) :
    Reach (device step restart cjsonParse manifestUrl)
      ⟨.boot, s, (device step restart cjsonParse manifestUrl).boot⟩ ⟨.boot, s', .pure ()⟩ := by
  have hsafe : blocklistInit.Safe (Answers sha256 anyFailure) _ _ s := blocklistInit_safe s
  exact reach_of_run (m := device step restart cjsonParse manifestUrl) (k := fun _ => .pure ())
    (fun _ _ _ _ h => handle_anyFailure h) (fun s o r s' hg h => hstep s o r s' hg.2 h) hsafe hrun

/-- So is an update. -/
theorem job_reach
    (hstep : ∀ s o r s', handle sha256 fails o s = some (r, s') → step .job s o r s')
    (hrun : (checkOnce cjsonParse manifestUrl).run (handle sha256 fails) s = some ((), s')) :
    Reach (device step restart cjsonParse manifestUrl)
      ⟨.job, s, (device step restart cjsonParse manifestUrl).job⟩ ⟨.job, s', .pure ()⟩ := by
  have hsafe : (checkOnce cjsonParse manifestUrl).Safe (Answers sha256 anyFailure) _ _ s :=
    checkOnce_safe cjsonParse manifestUrl s
  exact reach_of_run_unit (m := device step restart cjsonParse manifestUrl)
    (fun _ _ _ _ h => handle_anyFailure h) (fun s o r s' _ h => hstep s o r s' h) hsafe hrun

end Computed

/-- What `handle` answers at boot, where no call fails, any fault model allows. -/
theorem handle_boots {sha256 : Bytes → Digest} {F : Faults} {s s' : World} {o : Op} {r : Res o}
    (hb : o.boots = true) (h : handle sha256 noFailure o s = some (r, s')) :
    Answers sha256 F s o r s' := by
  refine handle_answers (fun o ho => by cases ho) (fun m hm => ?_) h
  subst hm
  cases hb

/-- A device with the smallest list in slot 0, its keys written and the slot on record. -/
def World.stocked : World :=
  ((World.blank.store 0 (entriesBlob 10000)).record 0 10000
    (Sha256.sha256 (entriesBlob 10000)) (ascii "v1")).setNvs .active (activeRecord 0)

theorem stocked_valid : ValidSlot Sha256.sha256 World.stocked 0 10000 := by
  refine validSlot_entries (by decide) ?_ ?_ ?_ (by decide) (by decide)
  · have h := slotBytes_store World.blank 0 (entriesBlob 10000)
    rw [entriesBlob_length] at h
    simp only [World.stocked, World.record, World.slotBytes_setNvs, h]
  · unfold World.stocked
    rw [World.setNvs_of_ne _ _ (by simp), record_cnt, sizeT_of_lt (by norm_num)]
  · unfold World.stocked
    rw [World.setNvs_of_ne _ _ (by simp), record_sha]

theorem stocked_fits : CountsFit World.stocked := by
  intro slot c hc
  by_cases h0 : slot = 0
  · subst h0
    obtain rfl := Option.some.inj (stocked_valid.stored.symm.trans hc)
    decide
  · unfold World.stocked World.record at hc
    rw [World.setNvs_of_ne _ _ (by simp), World.setNvs_of_ne _ _ (by simp),
      World.setNvs_of_ne _ _ (by simp), World.setNvs_of_ne _ _ (by simpa using h0)] at hc
    cases hc

/-- Its state once it has booted. -/
def World.stockedUp : World :=
  World.stocked.install 0 10000 (readBackVersion noFailure World.stocked 0)

theorem stocked_boot :
    blocklistInit.run (handle Sha256.sha256 noFailure) World.stocked =
      some (.ok, World.stockedUp) := by
  refine boot_run_recorded ?_ stocked_valid
  unfold World.stocked
  rw [World.setNvs_same]

/-! ### A list that was loaded is never lost -/

section Survival

variable {sha256 : Bytes → Digest}

/-- What is served is what its slot holds, and the slot would load again. -/
def Serving (sha256 : Bytes → Digest) (s : World) : Prop :=
  ∃ count, ValidSlot sha256 s s.ram.active count ∧ s.ram.count = count ∧
    s.ram.hashes = Words.words (s.slotBytes s.ram.active (8 * count))

/-- The invariant of every state, while flash does not rot. -/
structure Intact (sha256 : Bytes → Digest) (s : World) : Prop where
  fits : CountsFit s
  offers : ∀ m ∈ s.log, 8 * m.count ≤ slotSize
  serving : s.ram.active ≠ -1 → Serving sha256 s

theorem Serving.congr {s s' : World} (h : Serving sha256 s) (hram : s'.ram = s.ram)
    (hcnt : s'.nvs (.cnt s.ram.active) = s.nvs (.cnt s.ram.active))
    (hsha : s'.nvs (.sha s.ram.active) = s.nvs (.sha s.ram.active))
    (hflash : ∀ a, s'.flash s.ram.active a = s.flash s.ram.active a) : Serving sha256 s' := by
  obtain ⟨count, hv, hcount, hhashes⟩ := h
  refine ⟨count, by rw [hram]; exact hv.congr hcnt hsha hflash, by rw [hram]; exact hcount, ?_⟩
  rw [hram, hhashes]
  exact congrArg Words.words (List.map_congr_left fun a _ => (hflash a).symm)

theorem Serving.of_loaded {s : World} {buf : Bytes}
    (h : Loaded sha256 False s s.ram buf) : Serving sha256 s := by
  have hbuf := h.content not_false
  refine ⟨s.ram.count, ⟨h.isSlot, h.stored, h.floor, h.fits, ?_, ?_⟩, rfl, ?_⟩
  · rw [← hbuf]
    exact h.digest
  · rw [← hbuf, ← h.hashes]
    exact h.ascending
  · rw [← hbuf]
    exact h.hashes

/-- Nothing changes that the invariant looks at. -/
theorem Intact.of_still {s s' : World} (h : Intact sha256 s) (hs : s.Still False s') :
    Intact sha256 s' := by
  refine ⟨?_, ?_, fun hact => ?_⟩
  · intro slot c hc
    rw [hs.nvs] at hc
    exact h.fits slot c hc
  · rw [hs.log]
    exact h.offers
  · have hflash := hs.flash not_false
    rw [hs.ram] at hact
    exact (h.serving hact).congr hs.ram (by rw [hs.nvs]) (by rw [hs.nvs]) fun a => by rw [hflash]

/-- Writing a key of a slot that is not served, or the active-slot record. -/
theorem Intact.setNvs {s : World} (h : Intact sha256 s) {k : Key} {v : k.Val}
    (hd : Disciplined sha256 False s (.nvsSet k v)) : Intact sha256 (s.setNvs k v) := by
  refine ⟨?_, h.offers, fun hact => ?_⟩
  · intro slot c hc
    by_cases hk : Key.cnt slot = k
    · subst hk
      obtain ⟨-, m, hm, rfl⟩ := hd
      rw [World.setNvs_same] at hc
      obtain rfl := Option.some.inj hc
      exact h.offers m hm.logged
    · rw [World.setNvs_of_ne _ _ hk] at hc
      exact h.fits slot c hc
  · have hne : Key.cnt s.ram.active ≠ k ∧ Key.sha s.ram.active ≠ k := by
      cases k with
      | cnt slot => exact ⟨fun he => hd.1 (Key.cnt.inj he).symm, by simp⟩
      | sha slot => exact ⟨by simp, fun he => hd.1 (Key.sha.inj he).symm⟩
      | ver slot => exact ⟨by simp, by simp⟩
      | active => exact ⟨by simp, by simp⟩
    exact (h.serving hact).congr rfl (World.setNvs_of_ne _ _ hne.1) (World.setNvs_of_ne _ _ hne.2)
      fun _ => rfl

/-- A flash operation on a slot that is not served. -/
theorem Intact.of_touches {s s' : World} (h : Intact sha256 s) {slot : Int} {lo hi : Nat}
    (hslot : slot ≠ s.ram.active) (hs : s.Touches False slot lo hi s') : Intact sha256 s' := by
  refine ⟨?_, ?_, fun hact => ?_⟩
  · intro slot c hc
    rw [hs.nvs] at hc
    exact h.fits slot c hc
  · rw [hs.log]
    exact h.offers
  · rw [hs.ram] at hact
    exact (h.serving hact).congr hs.ram (by rw [hs.nvs]) (by rw [hs.nvs])
      fun a => hs.flash not_false _ a (Or.inl hslot.symm)

/-- **One call keeps the invariant.** -/
theorem Intact.step {F : Faults} (hrot : F.rot = False)
    (hoffers : ∀ m, F.offers m → 8 * m.count ≤ slotSize) {s s' : World} {o : Op} {r : Res o}
    (h : Intact sha256 s) (hd : Disciplined sha256 False s o)
    (hs : Answers sha256 F s o r s') : Intact sha256 s' := by
  by_cases hreads : o.reads = true
  · exact h.of_still (hrot ▸ hs.still hreads)
  cases o with
  | nvsSet k v =>
      rcases hs with hs | ⟨-, hs⟩
      · exact (h.setNvs hd).of_still (hrot ▸ hs)
      · exact h.of_still (hrot ▸ hs)
  | partitionErase slot n => exact h.of_touches hd.2 (hrot ▸ hs.1)
  | partitionWrite slot off data => exact h.of_touches hd.2 (hrot ▸ hs.1)
  | setRam ram =>
      obtain ⟨buf, hloaded⟩ := hd
      have hnow : Loaded sha256 False { s with ram := ram } ram buf :=
        hloaded.mono rfl rfl rfl (List.Subset.refl _) fun _ => rfl
      have hset : Intact sha256 { s with ram := ram } :=
        ⟨h.fits, h.offers, fun _ => Serving.of_loaded hnow⟩
      exact hset.of_still (hrot ▸ hs)
  | announce m =>
      have hlog : Intact sha256 { s with log := m :: s.log } := by
        refine ⟨h.fits, ?_, fun hact => (h.serving hact).congr rfl rfl rfl fun _ => rfl⟩
        intro m' hm'
        rcases List.mem_cons.mp hm' with rfl | hm'
        · exact hoffers _ hs.2
        · exact h.offers m' hm'
      exact hlog.of_still (hrot ▸ hs.1)
  | fault => exact hs.elim
  | _ => exact absurd rfl hreads

/-- A power cut keeps it too: nothing is served until boot. -/
theorem Intact.powerCut {s s' : World} (h : Intact sha256 s) (hs : PowerCut False s s') :
    Intact sha256 s' := by
  have hcleared : Intact sha256 { s with ram := Ram.init } :=
    ⟨h.fits, h.offers, fun hact => absurd rfl hact⟩
  exact hcleared.of_still hs

/-- What holds of a sinkhole that has had a list: the invariant, and a slot to boot from. -/
def Secure (sha256 : Bytes → Digest) (s : World) : Prop :=
  Intact sha256 s ∧ ∃ slot count, ValidSlot sha256 s slot count

theorem Secure.of_serving {s : World} (h : Intact sha256 s) (hact : s.ram.active ≠ -1) :
    Secure sha256 s := by
  obtain ⟨count, hv, -⟩ := h.serving hact
  exact ⟨h, s.ram.active, count, hv⟩

theorem Secure.powerCut {s s' : World} (h : Secure sha256 s) (hs : PowerCut False s s') :
    Secure sha256 s' := by
  obtain ⟨hintact, slot, count, hv⟩ := h
  refine ⟨hintact.powerCut hs, slot, count, hv.congr (by rw [hs.nvs]) (by rw [hs.nvs]) ?_⟩
  intro a
  rw [hs.flash not_false]

/-- Boot itself touches no slot. -/
theorem Secure.bootStep {F : Faults} (hrot : F.rot = False)
    (hoffers : ∀ m, F.offers m → 8 * m.count ≤ slotSize) {s s' : World} {o : Op} {r : Res o}
    (h : Secure sha256 s) (hd : Disciplined sha256 False s o) (hb : o.boots = true)
    (hs : Answers sha256 F s o r s') : Secure sha256 s' := by
  obtain ⟨hintact, slot, count, hv⟩ := h
  refine ⟨hintact.step hrot hoffers hd hs, slot, count, ?_⟩
  by_cases hreads : o.reads = true
  · exact hv.of_still (hs.still hreads) (by rw [hrot]; exact not_false)
  cases o with
  | nvsSet k v =>
      cases k with
      | active =>
          rcases hs with hs | ⟨-, hs⟩
          · refine hv.congr ?_ ?_ fun a => by rw [hs.flash (by rw [hrot]; exact not_false)]; rfl
            all_goals rw [hs.nvs, World.setNvs_of_ne _ _ (by simp)]
          · exact hv.of_still hs (by rw [hrot]; exact not_false)
      | _ => cases hb
  | setRam ram =>
      refine hv.congr (by rw [hs.nvs]) (by rw [hs.nvs]) fun a => ?_
      rw [hs.flash (by rw [hrot]; exact not_false)]
  | fault => exact hs.elim
  | partitionErase slot n => cases hb
  | partitionWrite slot off data => cases hb
  | announce m => cases hb
  | _ => exact absurd rfl hreads

/-- **Boot finds the list**: with reliable reads, `blocklist_init` succeeds and serves a
valid slot. -/
theorem boot_serves {F : Faults} (hreads : F.reads = False) (hrot : F.rot = False) {s : World}
    (h : Secure sha256 s) :
    blocklistInit.Safe (Answers sha256 F) (BootGuard sha256 F)
      (fun e s' => e = .ok ∧ Serving sha256 s') s := by
  obtain ⟨-, slot, count, hv⟩ := h
  refine (blocklistInit_safe s).post fun e s' hpost => ?_
  rcases hpost with ⟨-, -, hno⟩ | ⟨he, buf, hloaded⟩
  · exact absurd hv (hno (by simp [hreads]) (by simp [hrot]) slot count hv.isSlot)
  · exact ⟨he, Serving.of_loaded (hrot ▸ hloaded)⟩

/-- It is secure at every call it makes. -/
theorem boot_secure {F : Faults} (hreads : F.reads = False) (hrot : F.rot = False)
    (hoffers : ∀ m, F.offers m → 8 * m.count ≤ slotSize) {s : World} (h : Secure sha256 s) :
    blocklistInit.Safe (Answers sha256 F) (fun s o => BootGuard sha256 F s o ∧ Secure sha256 s)
      (fun e s' => (e = .ok ∧ Serving sha256 s') ∧ Secure sha256 s') s := by
  refine (boot_serves hreads hrot h).keep (fun s o r s' hsec hd hs => ?_) h
  exact hsec.bootStep hrot hoffers (hrot ▸ hd.1) hd.2 hs

/-- A count that fits its slot sends no load past the buffer it was given. -/
theorem Secure.no_fault {s : World} {o : Op} (h : Secure sha256 s)
    (hd : Disciplined sha256 False s o) : o ≠ .fault := by
  rintro rfl
  obtain ⟨slot, c, hc, hwrap⟩ := hd
  have hfit := h.1.fits slot c hc
  unfold slotSize at hfit
  omega

theorem Serving.active_ne {s : World} (h : Serving sha256 s) : s.ram.active ≠ -1 := by
  obtain ⟨count, hv, -⟩ := h
  have := hv.isSlot.1
  omega

end Survival

/-- The faults of a run without flash rot: everything may fail while an update runs,
nothing that boot reads with does, and every manifest's exact size fits a slot. -/
def updateFaults : Phase → Faults
  | .boot => ⟨False, False, fun m => 8 * m.count ≤ slotSize⟩
  | .job => ⟨True, False, fun m => 8 * m.count ≤ slotSize⟩

theorem updateFaults_rot (ph : Phase) : (updateFaults ph).rot = False := by cases ph <;> rfl

theorem updateFaults_offers (ph : Phase) (m : Manifest) (h : (updateFaults ph).offers m) :
    8 * m.count ≤ slotSize := by
  cases ph <;> exact h

/-- The sinkhole under those faults, with power cuts between any two calls. -/
def updateDevice (sha256 : Bytes → Digest) (cjsonParse : Bytes → Option Json)
    (manifestUrl : Bytes) : Machine Op Res World :=
  device (fun ph => Answers sha256 (updateFaults ph)) (fun s _ s' => PowerCut False s s')
    cjsonParse manifestUrl

section Lost

variable {sha256 : Bytes → Digest} {cjsonParse : Bytes → Option Json} {manifestUrl : Bytes}

theorem reach_update {c₀ c : Config Op Res World}
    (h₀ : Start (updateDevice sha256 cjsonParse manifestUrl) c₀)
    (hr : Reach (updateDevice sha256 cjsonParse manifestUrl) c₀ c) :
    c.Good (updateDevice sha256 cjsonParse manifestUrl) (Disciplined sha256 False)
      (fun _ => True) :=
  reach_disciplined (F := updateFaults) (fun _ _ _ _ _ h => h) updateFaults_rot h₀ hr

/-- Every state of a run is intact. -/
theorem reach_intact {c₀ c : Config Op Res World}
    (h₀ : Start (updateDevice sha256 cjsonParse manifestUrl) c₀) (hfits : CountsFit c₀.state)
    (hr : Reach (updateDevice sha256 cjsonParse manifestUrl) c₀ c) : Intact sha256 c.state := by
  have hstart : Intact sha256 c₀.state := by
    refine ⟨hfits, ?_, ?_⟩
    · rw [h₀.log]
      simp
    · rw [h₀.ram]
      exact fun h => absurd rfl h
  exact reach_invariant
    (fun s p s' _ _ => boot_disciplined (F := updateFaults) (fun _ _ _ _ _ h => h)
      updateFaults_rot s')
    (fun s _ => job_disciplined (F := updateFaults) (fun _ _ _ _ _ h => h) updateFaults_rot s)
    (fun ph s o r s' ha hg hs => ha.step (updateFaults_rot ph) (updateFaults_offers ph) hg hs)
    (fun s p s' ha hs => ha.powerCut hs) (reach_update h₀ .refl) hstart hr

/-- From the first load on, every call is made in a secure state and every boot and update
ends with a list being served. -/
theorem reach_secure {c₀ c₁ c : Config Op Res World}
    (h₀ : Start (updateDevice sha256 cjsonParse manifestUrl) c₀) (hfits : CountsFit c₀.state)
    (h₁ : Reach (updateDevice sha256 cjsonParse manifestUrl) c₀ c₁)
    (hloaded : c₁.state.ram.active ≠ -1)
    (hr : Reach (updateDevice sha256 cjsonParse manifestUrl) c₁ c) :
    c.Good (updateDevice sha256 cjsonParse manifestUrl)
      (fun s o => Disciplined sha256 False s o ∧ Secure sha256 s)
      (fun s => Intact sha256 s ∧ s.ram.active ≠ -1) := by
  -- While power stays on, a list that is served stays served.
  have hkeep : ∀ ph s o r s', (Intact sha256 s ∧ s.ram.active ≠ -1) →
      Disciplined sha256 False s o → Answers sha256 (updateFaults ph) s o r s' →
      Intact sha256 s' ∧ s'.ram.active ≠ -1 := by
    intro ph s o r s' ha hd hs
    refine ⟨ha.1.step (updateFaults_rot ph) (updateFaults_offers ph) hd hs, ?_⟩
    by_cases hset : ∃ ram, o = .setRam ram
    · obtain ⟨ram, rfl⟩ := hset
      obtain ⟨buf, hl⟩ := hd
      rw [hs.ram]
      have := hl.isSlot.1
      show ram.active ≠ -1
      omega
    · rw [hs.ram_eq fun ram hram => hset ⟨ram, hram⟩]
      exact ha.2
  refine reach_good ?_ ?_ ?_ hr
  · intro s p s' hready hcut
    have hsec : Secure sha256 s := by
      cases p with
      | pure a => exact .of_serving hready.1 hready.2
      | op o k => exact hready.2
    have hboot := boot_secure (F := updateFaults .boot) rfl rfl (updateFaults_offers .boot)
      (hsec.powerCut hcut)
    exact Prog.safe_bind.mpr (hboot.mono (fun _ _ h => ⟨h.1.1, h.2⟩)
      fun e s'' h => ⟨h.2.1, h.1.2.active_ne⟩)
  · intro s hj
    have hjob : (updateDevice sha256 cjsonParse manifestUrl).job.Safe
        (Answers sha256 (updateFaults .job)) (Disciplined sha256 False) (fun _ _ => True) s :=
      job_disciplined (fun _ _ _ _ _ h => h) updateFaults_rot s
    exact (hjob.keep (hkeep .job) hj).mono (fun _ _ h => ⟨h.1, .of_serving h.2.1 h.2.2⟩)
      fun _ _ h => h.2
  · exact ((reach_update h₀ h₁).keep (hkeep c₁.phase) ⟨reach_intact h₀ hfits h₁, hloaded⟩).mono
      (fun _ _ h => ⟨h.1, .of_serving h.2.1 h.2.2⟩) fun _ _ h => h.2

/-- **A sinkhole that has once had a list never loses it.**  From the first successful load
on, at every moment some slot is valid, every boot runs to its end without a fault, succeeds
and serves a valid slot, and no flash operation is about to touch the slot being served. -/
theorem valid_slot_survives {c₀ c₁ c : Config Op Res World}
    (h₀ : Start (updateDevice sha256 cjsonParse manifestUrl) c₀) (hfits : CountsFit c₀.state)
    (h₁ : Reach (updateDevice sha256 cjsonParse manifestUrl) c₀ c₁)
    (hloaded : c₁.state.ram.active ≠ -1)
    (hr : Reach (updateDevice sha256 cjsonParse manifestUrl) c₁ c) :
    (∃ slot count, ValidSlot sha256 c.state slot count) ∧
      (∀ s, PowerCut False c.state s →
        blocklistInit.Safe (Answers sha256 (updateFaults .boot)) (fun _ o => o ≠ .fault)
          (fun e s' => e = .ok ∧ Serving sha256 s') s) ∧
      (∀ o k, c.prog = .op o k → ∀ slot,
        ((∃ n, o = .partitionErase slot n) ∨ ∃ off data, o = .partitionWrite slot off data) →
          slot ≠ c.state.ram.active) := by
  have hready := ready_of_safe (reach_secure h₀ hfits h₁ hloaded hr)
  have hsec : Secure sha256 c.state := by
    cases hp : c.prog with
    | pure a =>
        rw [hp] at hready
        exact .of_serving hready.1 hready.2
    | op o k =>
        rw [hp] at hready
        exact hready.2
  refine ⟨hsec.2, fun s hcut => ?_, ?_⟩
  · exact (boot_secure rfl rfl (updateFaults_offers .boot) (hsec.powerCut hcut)).mono
      (fun _ _ h => h.2.no_fault h.1.1) fun _ _ h => h.1
  · intro o k hp slot ho
    rw [hp] at hready
    rcases ho with ⟨n, rfl⟩ | ⟨off, data, rfl⟩
    · exact hready.1.2
    · exact hready.1.2

end Lost

/-- The stocked device about to boot, and booted. -/
def stockedBoot : Config Op Res World :=
  ⟨.boot, World.stocked, (updateDevice Sha256.sha256 (fun _ => none) []).boot⟩

def stockedIdle : Config Op Res World := ⟨.boot, World.stockedUp, .pure ()⟩

theorem stocked_start : Start (updateDevice Sha256.sha256 (fun _ => none) []) stockedBoot :=
  ⟨rfl, rfl, rfl, rfl⟩

theorem stocked_reach :
    Reach (updateDevice Sha256.sha256 (fun _ => none) []) stockedBoot stockedIdle :=
  boot_reach (fun _ _ _ _ hb h => handle_boots hb h) stocked_boot

/-- A device that boots with a list keeps it. -/
theorem stocked_survives :
    (∃ slot count, ValidSlot Sha256.sha256 stockedIdle.state slot count) ∧
      (∀ s, PowerCut False stockedIdle.state s →
        blocklistInit.Safe (Answers Sha256.sha256 (updateFaults .boot)) (fun _ o => o ≠ .fault)
          (fun e s' => e = .ok ∧ Serving Sha256.sha256 s') s) ∧
      (∀ o k, stockedIdle.prog = .op o k → ∀ slot,
        ((∃ n, o = .partitionErase slot n) ∨ ∃ off data, o = .partitionWrite slot off data) →
          slot ≠ stockedIdle.state.ram.active) :=
  valid_slot_survives stocked_start stocked_fits stocked_reach (by decide) .refl

/-! ### Only a validated list is ever served -/

/-- The faults of a run on which nothing can be relied but NVS: any call may fail, flash
may change at any time, and any manifest may be offered. -/
def anyFaults : Faults := ⟨True, True, fun _ => True⟩

/-- The sinkhole under those faults, with power cuts between any two calls. -/
def wildDevice (sha256 : Bytes → Digest) (cjsonParse : Bytes → Option Json)
    (manifestUrl : Bytes) : Machine Op Res World :=
  device (fun _ => Answers sha256 anyFaults) (fun s _ s' => PowerCut True s s') cjsonParse
    manifestUrl

section Validated

variable {sha256 : Bytes → Digest} {cjsonParse : Bytes → Option Json} {manifestUrl : Bytes}

/-- The list was checked when it was loaded, at a call of the run: it is long enough, in
strict order, and its bytes had the digest that NVS held for its slot. -/
structure Validated (m : Machine Op Res World) (sha256 : Bytes → Digest)
    (c₀ c : Config Op Res World) (ram : Ram) : Prop where
  count : ram.count = ram.hashes.length
  floor : blocklistMinDomains ≤ ram.count
  ascending : Ascending ram.hashes
  digest : ∃ c₁ k, Reach m c₀ c₁ ∧ Reach m c₁ c ∧ c₁.prog = .op (.setRam ram) k ∧
    c₁.state.nvs (.sha ram.active) = some (sha256 (ram.hashes.flatMap Words.encode)).bytes

theorem reach_wild {c₀ c : Config Op Res World}
    (h₀ : Start (wildDevice sha256 cjsonParse manifestUrl) c₀)
    (hr : Reach (wildDevice sha256 cjsonParse manifestUrl) c₀ c) :
    c.Good (wildDevice sha256 cjsonParse manifestUrl) (Disciplined sha256 True) (fun _ => True) :=
  reach_disciplined (F := fun _ => anyFaults) (fun _ _ _ _ _ h => h) (fun _ => rfl) h₀ hr

/-- What is served is nothing, or it was validated. -/
theorem reach_validated {c₀ c : Config Op Res World}
    (h₀ : Start (wildDevice sha256 cjsonParse manifestUrl) c₀)
    (hr : Reach (wildDevice sha256 cjsonParse manifestUrl) c₀ c) :
    c.state.ram = Ram.init ∨
      Validated (wildDevice sha256 cjsonParse manifestUrl) sha256 c₀ c c.state.ram := by
  rcases reach_origin World.ram hr with hsame | ⟨c₁, c₂, h₁, hs, h₂, heq, hne⟩
  · exact Or.inl (hsame.trans h₀.ram)
  have hgood := reach_wild h₀ h₁
  cases hs with
  | next => exact absurd rfl hne
  | power hcut =>
      left
      rw [← heq]
      exact hcut.ram
  | @call ph s s' o k r h =>
      by_cases hset : ∃ ram, o = .setRam ram
      · obtain ⟨ram, rfl⟩ := hset
        obtain ⟨⟨buf, hl⟩, -⟩ := hgood
        have hram : c.state.ram = ram := heq.symm.trans h.ram
        right
        rw [hram]
        refine ⟨?_, hl.floor, hl.ascending, _, k, h₁, .head (.call h) h₂, rfl, ?_⟩
        · rw [hl.hashes, Words.words_length hl.length]
        · rw [hl.hashes, Words.encode_words hl.length]
          exact hl.digest
      · exact absurd (h.ram_eq fun ram hram => hset ⟨ram, hram⟩).symm hne

/-- **Only a validated list is ever served**, whatever fails and whatever becomes of flash:
in every state of every run the served list is empty or was validated, lookups decide
membership in it, and a load that fails leaves it as it was. -/
theorem served_validated {c₀ c : Config Op Res World}
    (h₀ : Start (wildDevice sha256 cjsonParse manifestUrl) c₀)
    (hr : Reach (wildDevice sha256 cjsonParse manifestUrl) c₀ c) :
    (c.state.ram = Ram.init ∧ (∀ h, blocklistContains true c.state.ram h = some false) ∨
      Validated (wildDevice sha256 cjsonParse manifestUrl) sha256 c₀ c c.state.ram) ∧
    (∀ h, blocklistContains true c.state.ram h = some (decide (h ∈ c.state.ram.hashes))) ∧
    ∀ slot, (loadSlot slot).Safe (Answers sha256 anyFaults) (fun _ _ => True)
      (fun e s' => e ≠ .ok → s'.ram = c.state.ram) c.state := by
  refine ⟨?_, fun h => ?_, fun slot => ?_⟩
  · refine (reach_validated h₀ hr).imp (fun hinit => ⟨hinit, fun h => ?_⟩) id
    rw [hinit]
    exact blocklistContains_init true h
  · rcases reach_validated h₀ hr with hinit | hv
    · rw [hinit, blocklistContains_init]
      rfl
    · exact blocklistContains_eq hv.count.symm hv.ascending h
  · refine (loadSlot_safe c.state slot).mono (fun _ _ _ => trivial) fun e s' hpost hne => ?_
    rcases hpost with ⟨-, hstill, -⟩ | ⟨rfl, -⟩
    · exact hstill.ram
    · exact absurd rfl hne

end Validated

/-- What the stocked device serves was validated. -/
theorem stocked_validated :
    (stockedIdle.state.ram = Ram.init ∧
        (∀ h, blocklistContains true stockedIdle.state.ram h = some false) ∨
      Validated (wildDevice Sha256.sha256 (fun _ => none) []) Sha256.sha256 stockedBoot stockedIdle
        stockedIdle.state.ram) ∧
    (∀ h, blocklistContains true stockedIdle.state.ram h =
      some (decide (h ∈ stockedIdle.state.ram.hashes))) ∧
    ∀ slot, (loadSlot slot).Safe (Answers Sha256.sha256 anyFaults) (fun _ _ => True)
      (fun e s' => e ≠ .ok → s'.ram = stockedIdle.state.ram) stockedIdle.state :=
  served_validated ⟨rfl, rfl, rfl, rfl⟩
    (boot_reach (fun _ _ _ _ hb h => handle_boots hb h) stocked_boot)

end EspHole.Sinkhole
