/-
Power cuts during a save.

Every call of a save before the last two leaves the record and every slot but its own as
they were, in its middle too, so a load after a cut returns what it returned before the
save.  The record is one key, written in one step, and from then on a load returns what
was saved.  `store_crash_atomic` puts this together over any history of saves.
-/
import EspHole.Generator.Save

namespace EspHole.Generator.Store

open Ascii Pipeline
open Prog (Safe Cut safe_bind safe_call_bind)
open Sinkhole (Key CommitSite storedVersion eraseRange)

/-- One call, when none fails. -/
abbrev Works (s : State) (o : Op) (r : Res o) (s' : State) : Prop :=
  handle .never o s = some (r, s')

/-- What a cut in the middle of a call leaves: NVS keeps single keys atomically, flash may
hold anything in the range that was being erased or written. -/
def Torn (s : State) : Op → State → Prop
  | .partitionErase slot bytes, s' => ∃ f, s' = s.overlay slot bytes f
  | .partitionWrite slot data, s' => ∃ f, s' = s.overlay slot data.length f
  | _, _ => False

/-! ### The slot that is written and everything else -/

/-- The record and the other slots are as they were. -/
structure Frame (s₀ : State) (slot : Int) (s : State) : Prop where
  active : s.nvs .active = s₀.nvs .active
  others : ∀ slot', slot' ≠ slot → SameSlot s₀ s slot'

section Frames

variable {sha256 : Bytes → Digest} {s₀ s : State} {slot : Int}

theorem Frame.refl (s₀ : State) (slot : Int) : Frame s₀ slot s₀ :=
  ⟨rfl, fun _ _ => ⟨rfl, rfl, rfl, rfl⟩⟩

theorem Frame.overlay (h : Frame s₀ slot s) (n : Nat) (f : Nat → UInt8) :
    Frame s₀ slot (s.overlay slot n f) := by
  refine ⟨h.active, fun slot' hne => ?_⟩
  obtain ⟨hcnt, hsha, hver, hflash⟩ := h.others slot' hne
  exact ⟨hcnt, hsha, hver, (Function.update_of_ne hne _ _).trans hflash⟩

/-- A key of the slot. -/
def IsKeyOf (slot : Int) (k : Key) : Prop := k = .cnt slot ∨ k = .sha slot ∨ k = .ver slot

theorem Frame.setNvs (h : Frame s₀ slot s) {k : Key} (hk : IsKeyOf slot k) (v : k.Val) :
    Frame s₀ slot (s.setNvs k v) := by
  have hne : Key.active ≠ k ∧ ∀ slot', slot' ≠ slot →
      Key.cnt slot' ≠ k ∧ Key.sha slot' ≠ k ∧ Key.ver slot' ≠ k := by
    rcases hk with rfl | rfl | rfl <;> exact ⟨by simp, fun slot' hs => by simpa using hs⟩
  refine ⟨(State.setNvs_of_ne _ _ hne.1).trans h.active, fun slot' hs => ?_⟩
  obtain ⟨hcnt, hsha, hver, hflash⟩ := h.others slot' hs
  obtain ⟨h₁, h₂, h₃⟩ := hne.2 slot' hs
  exact ⟨(State.setNvs_of_ne _ _ h₁).trans hcnt, (State.setNvs_of_ne _ _ h₂).trans hsha,
    (State.setNvs_of_ne _ _ h₃).trans hver, hflash⟩

/-- As long as the slot is not the one on record, a load returns what it did. -/
theorem Frame.loads_eq (h : Frame s₀ slot s) (hslot : onRecord s₀ ≠ some slot) :
    loads sha256 s = loads sha256 s₀ := by
  refine loads_congr h.active fun slot' hrec => h.others slot' fun hs => hslot ?_
  rw [hrec, hs]

end Frames

/-! ### Every call of a save -/

section Save

variable {sha256 : Bytes → Digest} {s₀ s : State} {slot : Int} {art : Artifact} {version : Bytes}

/-- Before a call and in its middle, nothing but the slot has changed. -/
def Framed (s₀ : State) (slot : Int) (s : State) (o : Op) : Prop :=
  Frame s₀ slot s ∧ ∀ s', Torn s o s' → Frame s₀ slot s'

theorem framed_of_whole {o : Op} (h : Frame s₀ slot s) (ho : ∀ s', ¬ Torn s o s') :
    Framed s₀ slot s o := ⟨h, fun s' hs => absurd hs (ho s')⟩

theorem writeSlot_safe (h : Frame s₀ slot s) :
    (writeSlot slot art).Safe Works (Framed s₀ slot) (fun _ => Frame s₀ slot) s := by
  unfold writeSlot
  rw [safe_call_bind]
  refine ⟨⟨h, fun s' ⟨f, hs⟩ => hs ▸ h.overlay _ f⟩, fun r s₁ hstep => ?_⟩
  obtain ⟨rfl, rfl⟩ := Prod.mk.inj (Option.some.inj hstep)
  refine ⟨⟨h.overlay _ _, fun s' ⟨f, hs⟩ => hs ▸ (h.overlay _ _).overlay _ f⟩,
    fun r s₂ hstep => ?_⟩
  obtain ⟨rfl, rfl⟩ := Prod.mk.inj (Option.some.inj hstep)
  exact (h.overlay _ _).overlay _ _

theorem nvsSet_safe {k : Key} {v : k.Val} (hk : IsKeyOf slot k) (h : Frame s₀ slot s) :
    (nvsSet k v).Safe Works (Framed s₀ slot) (fun ok s' => ok = true ∧ Frame s₀ slot s') s := by
  refine ⟨framed_of_whole h fun _ hs => hs, fun r s₁ hstep => ?_⟩
  obtain ⟨rfl, rfl⟩ := Prod.mk.inj (Option.some.inj hstep)
  exact ⟨rfl, h.setNvs hk v⟩

theorem recordSlot_safe (h : Frame s₀ slot s) :
    (recordSlot slot art version).Safe Works (Framed s₀ slot) (fun _ => Frame s₀ slot) s := by
  unfold recordSlot
  rw [safe_bind]
  refine (nvsSet_safe (.inl rfl) h).post fun ok s₁ ⟨hok, h⟩ => ?_
  subst hok
  rw [Bool.not_true, if_neg Bool.false_ne_true, safe_bind]
  refine (nvsSet_safe (.inr (.inl rfl)) h).post fun ok s₂ ⟨hok, h⟩ => ?_
  subst hok
  rw [Bool.not_true, if_neg Bool.false_ne_true, safe_bind]
  refine (nvsSet_safe (.inr (.inr rfl)) h).post fun ok s₃ ⟨hok, h⟩ => ?_
  subst hok
  rw [Bool.not_true, if_neg Bool.false_ne_true, safe_call_bind]
  refine ⟨framed_of_whole h fun _ hs => hs, fun r s₄ hstep => ?_⟩
  obtain ⟨rfl, rfl⟩ := Prod.mk.inj (Option.some.inj hstep)
  exact h

theorem checkSlot_safe (h : Frame s₀ slot s) :
    (checkSlot sha256 slot art).Safe Works (Framed s₀ slot) (fun _ => Frame s₀ slot) s := by
  unfold checkSlot
  rw [safe_call_bind]
  refine ⟨framed_of_whole h fun _ hs => hs, fun r s₁ hstep => ?_⟩
  obtain ⟨rfl, rfl⟩ := Prod.mk.inj (Option.some.inj hstep)
  by_cases hgrant : (!reallocGrants (!Faults.never.fails (.realloc art.blobLen))
      art.blobLen) = true
  · rw [if_pos hgrant]
    exact h
  · rw [if_neg hgrant, safe_call_bind]
    refine ⟨framed_of_whole h fun _ hs => hs, fun r s₂ hstep => ?_⟩
    obtain ⟨rfl, rfl⟩ := Prod.mk.inj (Option.some.inj hstep)
    have hback : (if Faults.never.fails (.partitionRead slot art.blobLen) = true then none
        else some (Faults.never.readBack (s.slotBytes slot art.blobLen))) =
          some (s.slotBytes slot art.blobLen) := rfl
    rw [hback]
    dsimp only
    cases blocklistVerifyBlob sha256 (s.slotBytes slot art.blobLen) art.blobLen art.count
      art.sha256 with
    | none => exact ⟨framed_of_whole h fun _ hs => hs, fun r => r.elim⟩
    | some ok => exact h

/-- What a load returns is what it returned before the save, or what is being saved. -/
def OldOrNew (sha256 : Bytes → Digest) (s₀ : State) (art : Artifact) (version : Bytes)
    (s : State) : Prop :=
  loads sha256 s = loads sha256 s₀ ∨ loads sha256 s = some (.ok, restored art, version)

/-- The guard of a save: this holds before each call, and in its middle. -/
def Guarded (sha256 : Bytes → Digest) (s₀ : State) (art : Artifact) (version : Bytes) (s : State)
    (o : Op) : Prop :=
  OldOrNew sha256 s₀ art version s ∧ ∀ s', Torn s o s' → OldOrNew sha256 s₀ art version s'

theorem Framed.guarded (hslot : onRecord s₀ ≠ some slot) {o : Op} (h : Framed s₀ slot s o) :
    Guarded sha256 s₀ art version s o :=
  ⟨Or.inl (h.1.loads_eq hslot), fun s' hs => Or.inl ((h.2 s' hs).loads_eq hslot)⟩

theorem guarded_of_whole {o : Op} (h : OldOrNew sha256 s₀ art version s)
    (ho : ∀ s', ¬ Torn s o s') : Guarded sha256 s₀ art version s o :=
  ⟨h, fun s' hs => absurd hs (ho s')⟩

/-- The record is moved in one step, once everything it points to is there. -/
theorem activate_safe {ws : List UInt64} (henc : Encodes sha256 ws art)
    (hfits : art.blobLen ≤ slotSize) (hversion : version.length < artifactVersionMax)
    (hslot : 0 ≤ slot ∧ slot < artifactSlots)
    (h : OldOrNew sha256 s₀ art version (s₀.attempted .never slot art version)) :
    (activate slot).Safe Works (Guarded sha256 s₀ art version)
      (fun e s' => e = .ok ∧ loads sha256 s' = some (.ok, restored art, version))
      (s₀.attempted .never slot art version) := by
  have hnew : loads sha256 ((s₀.attempted .never slot art version).activated slot) =
      some (.ok, restored art, version) := loads_moved henc hfits hversion rfl hslot
  unfold activate
  rw [safe_call_bind]
  refine ⟨guarded_of_whole h fun _ hs => hs, fun r s₁ hstep => ?_⟩
  obtain ⟨rfl, rfl⟩ := Prod.mk.inj (Option.some.inj hstep)
  rw [Bool.not_true, if_neg Bool.false_ne_true, safe_call_bind]
  refine ⟨guarded_of_whole (Or.inr hnew) fun _ hs => hs, fun r s₂ hstep => ?_⟩
  obtain ⟨rfl, rfl⟩ := Prod.mk.inj (Option.some.inj hstep)
  exact ⟨rfl, hnew⟩

theorem never_reread {ws : List UInt64} (henc : Encodes sha256 ws art)
    (hfits : art.blobLen ≤ slotSize) : Faults.never.reread slot art version = true := by
  show (true && reallocGrants true art.blobLen && true) = true
  rw [henc.grants hfits]
  rfl

theorem saveTo_safe {ws : List UInt64} (henc : Encodes sha256 ws art)
    (hfits : art.blobLen ≤ slotSize) (hversion : version.length < artifactVersionMax)
    (hslot : 0 ≤ slot ∧ slot < artifactSlots) (hrec : onRecord s₀ ≠ some slot) :
    (saveTo sha256 slot art version).Safe Works (Guarded sha256 s₀ art version)
      (fun e s' => e = .ok ∧ loads sha256 s' = some (.ok, restored art, version)) s₀ := by
  have hwrite : (writeSlot slot art).run (handle .never) s₀ =
      some (.ok, s₀.overwritten .never slot art) := writeSlot_run henc.blobLen_le
  have hrecord : (recordSlot slot art version).run (handle .never)
      (s₀.overwritten .never slot art) = some (.ok, s₀.attempted .never slot art version) :=
    recordSlot_run rfl
  have hcheck : (checkSlot sha256 slot art).run (handle .never)
      (s₀.attempted .never slot art version) =
        some (.ok, s₀.attempted .never slot art version) := by
    have hverdict : Faults.never.verdict sha256 art = some true := (henc.restorable hfits).verified
    rw [checkSlot_run henc.blobLen_le rfl, if_pos (never_reread henc hfits), hverdict]
    rfl
  have hframed : ∀ s o, Framed s₀ slot s o → Guarded sha256 s₀ art version s o :=
    fun _ _ h => h.guarded hrec
  unfold saveTo
  rw [safe_bind]
  refine ((writeSlot_safe (Frame.refl s₀ slot)).of_run hwrite).mono hframed ?_
  rintro e s₁ ⟨rfl, rfl, h⟩
  rw [if_neg (not_not_intro rfl), safe_bind]
  refine ((recordSlot_safe h).of_run hrecord).mono hframed ?_
  rintro e s₂ ⟨rfl, rfl, h⟩
  rw [if_neg (not_not_intro rfl), safe_bind]
  refine ((checkSlot_safe h).of_run hcheck).mono hframed ?_
  rintro e s₃ ⟨rfl, rfl, h⟩
  rw [if_neg (not_not_intro rfl)]
  exact activate_safe henc hfits hversion hslot (Or.inl (h.loads_eq hrec))

/-- The slot a save chooses is never the one on record. -/
theorem target_not_onRecord (s : State) : onRecord s ≠ some (targetSlot (s.nvs .active)) := by
  unfold onRecord targetSlot artifactSlots
  split
  · simp
  · intro h
    have h := Option.some.inj h
    by_cases hzero : (s.nvs .active).getD 0xFF = 0
    · rw [if_pos hzero, hzero] at h
      cases h
    · rw [if_neg hzero] at h
      exact hzero (UInt8.toNat_inj.mp (by simpa using h))

/-- **What holds at every point of a save**, and at its end. -/
theorem save_safe {ws : List UInt64} (henc : Encodes sha256 ws art)
    (hfits : art.blobLen ≤ slotSize) (hversion : version.length < artifactVersionMax)
    (s₀ : State) :
    (artifactStoreSave sha256 art version).Safe Works (Guarded sha256 s₀ art version)
      (fun e s' => e = .ok ∧ loads sha256 s' = some (.ok, restored art, version)) s₀ := by
  have hslot : 0 ≤ targetSlot (s₀.nvs .active) ∧ targetSlot (s₀.nvs .active) < artifactSlots :=
    target_isSlot (p := .never) s₀
  have hpart : slotPartition (targetSlot (s₀.nvs .active)) = some slotSize := if_neg (by omega)
  have hold : OldOrNew sha256 s₀ art version s₀ := Or.inl rfl
  unfold artifactStoreSave
  rw [safe_call_bind]
  refine ⟨guarded_of_whole hold fun _ hs => hs, fun r s₁ hstep => ?_⟩
  obtain ⟨rfl, rfl⟩ := Prod.mk.inj (Option.some.inj hstep)
  rw [if_neg (show ¬ (!!Faults.never.fails .nvsOpen) = true from Bool.false_ne_true),
    safe_call_bind]
  refine ⟨guarded_of_whole hold fun _ hs => hs, fun r s₂ hstep => ?_⟩
  obtain ⟨rfl, rfl⟩ := Prod.mk.inj (Option.some.inj hstep)
  have htarget : targetSlot (if Faults.never.fails (.nvsGet .active) then none
      else s₀.nvs .active) = targetSlot (s₀.nvs .active) := rfl
  simp only [htarget, hpart]
  rw [if_neg (by omega)]
  exact saveTo_safe henc hfits hversion hslot (target_not_onRecord s₀)

end Save

/-! ### A history of saves -/

section History

variable (sha256 : Bytes → Digest)

/-- What the generator saves: an artifact that `finish` produced and that fits a slot, under
a version that fits its buffer. -/
structure Savable (art : Artifact) (version : Bytes) : Prop where
  produced : ∃ a minDomains adds left, blocklistBuilderFinish sha256 a
    (addAll (blocklistBuilderCreate minDomains) adds).2 = some (.ok, art, left)
  fits : art.blobLen ≤ slotSize
  short : version.length < artifactVersionMax

/-- The flash after some saves, each of which came to its end or was cut by a power loss;
`begun` lists them, latest first, and `done` is whether one has returned `ESP_OK`.  A
reboot changes nothing in flash. -/
inductive Lived (s₀ : State) : List (Artifact × Bytes) → Bool → State → Prop
  | start : Lived s₀ [] false s₀
  | saved {begun : List (Artifact × Bytes)} {done : Bool} {s s' : State} {art : Artifact}
      {version : Bytes} (h : Lived s₀ begun done s) (hsave : Savable sha256 art version)
      (hrun : (artifactStoreSave sha256 art version).run (handle .never) s = some (.ok, s')) :
      Lived s₀ ((art, version) :: begun) true s'
  | cut {begun : List (Artifact × Bytes)} {done : Bool} {s s' : State} {art : Artifact}
      {version : Bytes} (h : Lived s₀ begun done s) (hsave : Savable sha256 art version)
      (hcut : Cut Works Torn (artifactStoreSave sha256 art version) s s') :
      Lived s₀ ((art, version) :: begun) done s'

end History

section CrashAtomic

variable {sha256 : Bytes → Digest}

/-- What `finish` hands out is the list that the builder kept. -/
theorem finish_encodes {a : FinishAlloc} {b left : Builder} {art : Artifact}
    (hb : b.WellFormed) (hfinish : blocklistBuilderFinish sha256 a b = some (.ok, art, left)) :
    Encodes sha256 b.kept art := by
  have hart := blocklistBuilderFinish_ok hb hfinish
  refine ⟨b.kept_ascending, fun hnil => ?_, hart.bytes, hart.blobLen, hart.count, hart.digest⟩
  -- Nothing kept is nothing added, and there is no block of size 0.
  have hempty : b.hashes = [] := List.eq_nil_iff_forall_not_mem.mpr fun x hx => by
    have := Builder.mem_kept.mpr hx
    rw [hnil] at this
    cases this
  have hcount : b.count = 0 := by rw [Builder.count, hempty]; rfl
  unfold blocklistBuilderFinish at hfinish
  by_cases hmin : b.count < b.minDomains
  · rw [if_pos hmin] at hfinish
    cases hfinish
  · rw [if_neg hmin, hcount] at hfinish
    cases hfinish

theorem Savable.encodes {art : Artifact} {version : Bytes} (h : Savable sha256 art version) :
    ∃ ws, Encodes sha256 ws art := by
  obtain ⟨a, minDomains, adds, left, hfinish⟩ := h.produced
  exact ⟨_, finish_encodes
    (addAll_spec adds (blocklistBuilderCreate_wellFormed minDomains)).2.2 hfinish⟩

/-- **Persistence is crash-atomic and round-trips.**  In every history, from any flash: once
a save has returned `ESP_OK` a load succeeds, with one of the saves that were begun, whole.
A save cut at any point leaves a load that returns what it returned before, or what was
being saved; a save that is not cut returns `ESP_OK`, and a load then returns what was
saved. -/
theorem store_crash_atomic {s₀ s : State} {begun : List (Artifact × Bytes)} {done : Bool}
    (h : Lived sha256 s₀ begun done s) :
    (done = true → ∃ x ∈ begun, loads sha256 s = some (.ok, restored x.1, x.2)) ∧
    ∀ art version, Savable sha256 art version →
      (∀ s', Cut Works Torn (artifactStoreSave sha256 art version) s s' →
        loads sha256 s' = loads sha256 s ∨ loads sha256 s' = some (.ok, restored art, version)) ∧
      ∃ s', (artifactStoreSave sha256 art version).run (handle .never) s = some (.ok, s') ∧
        loads sha256 s' = some (.ok, restored art, version) := by
  have hcut : ∀ {art : Artifact} {version : Bytes} {s s' : State}, Savable sha256 art version →
      Cut Works Torn (artifactStoreSave sha256 art version) s s' →
        OldOrNew sha256 s art version s' := by
    intro art version s s' hsave hc
    obtain ⟨ws, henc⟩ := hsave.encodes
    exact (save_safe henc hsave.fits hsave.short s).cut (I := OldOrNew sha256 s art version)
      (fun _ _ hg => hg.1) (fun _ _ s' hg ht => hg.2 s' ht) (fun _ _ hq => Or.inr hq.2) hc
  have hwhole : ∀ {art : Artifact} {version : Bytes} (s : State), Savable sha256 art version →
      ∃ s', (artifactStoreSave sha256 art version).run (handle .never) s = some (.ok, s') ∧
        loads sha256 s' = some (.ok, restored art, version) := by
    intro art version s hsave
    obtain ⟨ws, henc⟩ := hsave.encodes
    exact save_run_moves henc hsave.short ⟨rfl, hsave.fits⟩ (never_reread henc hsave.fits)
      (henc.restorable hsave.fits).verified rfl
  refine ⟨fun hdone => ?_, fun art version hsave => ⟨fun s' => hcut hsave, hwhole s hsave⟩⟩
  induction h with
  | start => cases hdone
  | saved _ hsave hrun _ =>
      obtain ⟨s', hrun', hloads⟩ := hwhole _ hsave
      obtain ⟨-, rfl⟩ := Prod.mk.inj (Option.some.inj (hrun'.symm.trans hrun))
      exact ⟨_, List.mem_cons_self, hloads⟩
  | cut _ hsave hc ih =>
      rcases hcut hsave hc with hold | hnew
      · obtain ⟨x, hx, hloads⟩ := ih hdone
        exact ⟨x, List.mem_cons_of_mem _ hx, hold.trans hloads⟩
      · exact ⟨_, List.mem_cons_self, hnew⟩

end CrashAtomic

/-- The artifact of a few domains. -/
theorem domains_savable (ds : List Bytes) (version : Bytes)
    (hdistinct : (ds.map domainHash).Nodup) (hpos : 0 < ds.length) (hfew : ds.length ≤ 1000)
    (hcan : ∀ name ∈ negativeCanaries, domainHash name ∉ ds.map domainHash)
    (hversion : version.length < artifactVersionMax) :
    ∃ art, Savable Sha256.sha256 art version ∧ art.count = ds.length := by
  obtain ⟨art, left, hfinish, hcount, hlen⟩ := publishes_distinct Sha256.sha256
    (a := ⟨some fun _ => 0, true⟩) rfl hdistinct hpos (Nat.le_refl _) (by omega) hcan
  refine ⟨art, ⟨⟨_, _, _, _, hfinish⟩, ?_, hversion⟩, hcount⟩
  rw [hlen]
  unfold slotSize
  omega

/-- The power can go while the slot is being erased, which leaves anything in it. -/
theorem cut_erasing (sha256 : Bytes → Digest) {art : Artifact} (version : Bytes)
    (hfits : art.blobLen ≤ slotSize) (s : State) (f : Nat → UInt8) :
    Cut Works Torn (artifactStoreSave sha256 art version) s
      (s.overlay (targetSlot (s.nvs .active)) (eraseRange art.blobLen) f) := by
  have hslot : 0 ≤ targetSlot (s.nvs .active) ∧ targetSlot (s.nvs .active) < artifactSlots :=
    target_isSlot (p := .never) s
  have hpart : slotPartition (targetSlot (s.nvs .active)) = some slotSize := if_neg (by omega)
  refine .after (r := true) rfl (.after (r := s.nvs .active) rfl ?_)
  simp only [Prog.bind, hpart]
  rw [if_neg (by omega)]
  exact .during ⟨f, rfl⟩

/-- A first save, and a second, of another list, that loses power while it erases its slot. -/
theorem saved_then_cut : ∃ art art' s, art ≠ art' ∧
    Lived Sha256.sha256 blank [(art', ascii "v2"), (art, ascii "v1")] true s ∧
      ∃ x ∈ [(art', ascii "v2"), (art, ascii "v1")],
        loads Sha256.sha256 s = some (.ok, restored x.1, x.2) := by
  obtain ⟨art, hsave, hcount⟩ := domains_savable [ascii "ads.com"] (ascii "v1")
    (by decide +kernel) (by decide) (by decide) (by decide +kernel) (by decide)
  obtain ⟨art', hsave', hcount'⟩ := domains_savable [ascii "ads.com", ascii "b.com"] (ascii "v2")
    (by decide +kernel) (by decide) (by decide) (by decide +kernel) (by decide)
  obtain ⟨s, hrun, -⟩ := ((store_crash_atomic .start).2 art _ hsave).2
  have hlived := Lived.cut (.saved .start hsave hrun) hsave'
    (cut_erasing Sha256.sha256 _ hsave'.fits s fun _ => 0x5A)
  refine ⟨art, art', _, fun h => ?_, hlived, (store_crash_atomic hlived).1 rfl⟩
  rw [h, hcount'] at hcount
  exact absurd hcount (by decide)

end EspHole.Generator.Store
