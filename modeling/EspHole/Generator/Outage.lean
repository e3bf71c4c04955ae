/-
A generator that loses power: `main/generator_main.c` where calls fail for no other reason.

The cycle persists first and publishes then, so what is served and what is on record part
only where a list does not fit its slot.  `refreshCycle_done` says what a cycle comes to from
any state, and at each of its calls, in the middle of it too, a boot would restore what it
would have restored before, or what is being saved.  So a generator that has once persisted a
list serves one after every boot, and never stops serving in between (`serves_after_cuts`).
That is so while NVS comes up as it is: where `app_main` has to erase it, nothing is on record.
-/
import EspHole.Generator.Main

namespace EspHole.Generator.Main

open Ascii Machine Pipeline Store
open Prog (Safe safe_bind safe_call_bind)

/-! ### After a power cut -/

/-- A call that leaves flash and NVS alone. -/
def Quiet : Store.Op → Prop
  | .nvsSet _ _ | .partitionErase _ _ | .partitionWrite _ _ => False
  | _ => True

/-- NVS comes up as it is. -/
def Up (err : NvsInit) : Prop := err = .ok

/-- A call that is no crash. -/
def Op.Sane : Op → Prop
  | .store .fault => False
  | .abort => False
  | _ => True

/-- A publish that gets all its memory. -/
structure Full (a : PublishAlloc) : Prop where
  next : a.next = true
  object : a.object = true
  item : ∀ key, a.item key = true
  text : a.text = true

/-- Power may go at any call, in the middle of an erase or a write too. -/
def Outage (s : State) (p : Code Unit) (s' : State) : Prop :=
  (s'.store = s.store ∨ ∃ o f, p = .op (.store o) f ∧ Torn s.store o s'.store) ∧
    s'.http = s.http.rebooted ∧ s'.cycles = s.cycles

/-- The generator where calls fail only because the power goes. -/
abbrev steadyGenerator (sha256 : Bytes → Digest) (k : Kconfig)
    (cjsonPrint : Json → Option Bytes) : Machine Op Res State :=
  generator sha256 k Up Works Full cjsonPrint Outage

section Steady

variable {sha256 : Bytes → Digest} {k : Kconfig} {cjsonPrint : Json → Option Bytes}

theorem Quiet.works {s s' : Store.State} {o : Store.Op} {r : Store.Res o} (ho : Quiet o)
    (h : Works s o r s') : s' = s := by
  cases o with
  | nvsSet key v => exact ho.elim
  | partitionErase slot bytes => exact ho.elim
  | partitionWrite slot data => exact ho.elim
  | fault => cases h
  | _ =>
      obtain ⟨-, rfl⟩ := Prod.mk.inj (Option.some.inj h)
      rfl

theorem Quiet.whole {s s' : Store.State} {o : Store.Op} (ho : Quiet o) : ¬ Torn s o s' := by
  cases o with
  | partitionErase slot bytes => exact ho.elim
  | partitionWrite slot data => exact ho.elim
  | _ => exact id

theorem artifactStoreLoad_quiet : (artifactStoreLoad sha256).Only Quiet := by
  have hblob : ∀ slot count want version,
      (loadBlob sha256 slot count want version).Only Quiet := by
    intro slot count want version
    unfold loadBlob
    rcases slotPartition slot with _ | partSize
    · trivial
    refine Prog.only_ite.mpr ⟨fun _ => trivial, fun _ => ⟨trivial, fun ok => ?_⟩⟩
    refine Prog.only_ite.mpr ⟨fun _ => trivial, fun _ => ?_⟩
    refine Prog.only_call_bind.mpr ⟨trivial, fun (blob : Option Bytes) => ?_⟩
    rcases blob with _ | blob
    · trivial
    dsimp only
    rcases blocklistVerifyBlob sha256 blob (sizeT (count * 8)) count want with _ | _ | _
    · exact ⟨trivial, fun r => r.elim⟩
    · trivial
    · trivial
  unfold artifactStoreLoad
  refine Prog.only_call_bind.mpr ⟨trivial, fun ok => ?_⟩
  refine Prog.only_ite.mpr ⟨fun _ => trivial, fun _ => ?_⟩
  refine Prog.only_call_bind.mpr ⟨trivial, fun active => ?_⟩
  refine Prog.only_ite.mpr ⟨fun _ => trivial, fun _ => ?_⟩
  refine Prog.only_call_bind.mpr ⟨trivial, fun (count : Option Nat) => ?_⟩
  rcases count with _ | count
  · trivial
  refine Prog.only_call_bind.mpr ⟨trivial, fun (sha : Option Bytes) => ?_⟩
  rcases sha with _ | sha
  · trivial
  rcases hwant : storedDigest sha with _ | want
  · simp only [hwant]
    trivial
  · simp only [hwant]
    exact ⟨trivial, fun ver => hblob _ _ _ _⟩

theorem Op.sane_store {o : Store.Op} (h : o ≠ .fault) : (Op.store o).Sane := by
  cases o with
  | fault => exact h rfl
  | _ => trivial

/-- A program of the store that runs to its end does not read out of bounds on its way. -/
theorem noFault_of_run {α : Type} {p : Store.Code α} {s : Store.State}
    (h : p.run (handle .never) s ≠ none) :
    p.Safe Works (fun _ o => o ≠ .fault) (fun _ _ => True) s := by
  refine (Safe.of_run_ne_none h).mono (fun s' o hcall ho => ?_) fun _ _ h => h
  subst ho
  exact hcall rfl

/-- A load that runs to its end returns what it does when nothing fails, and leaves all as
it was. -/
theorem artifactStoreLoad_steady {s : Store.State} {r : EspErr × Artifact × Bytes}
    (h : loads sha256 s = some r) :
    (artifactStoreLoad sha256).Safe Works (fun s' o => s' = s ∧ Quiet o ∧ o ≠ .fault)
      (fun r' s' => r' = r ∧ s' = s) s := by
  have hquiet : (artifactStoreLoad sha256).Safe Works (fun _ => Quiet) (fun _ _ => True) s :=
    artifactStoreLoad_quiet.safe
  have hkeep := hquiet.keep (A := fun s' => s' = s)
    (fun s₁ o r s₂ hs ho hstep => (ho.works hstep).trans hs) rfl
  obtain ⟨⟨r₁, s₁⟩, hrun, hr⟩ := Option.map_eq_some_iff.mp h
  have hnoFault := noFault_of_run (show (artifactStoreLoad sha256).run (handle .never) s ≠ none by
    rw [hrun]
    exact Option.some_ne_none _)
  refine ((hkeep.of_run hrun).and hnoFault).mono (fun _ _ h => ⟨h.1.2, h.1.1, h.2⟩) ?_
  rintro r' s' ⟨⟨rfl, -, -, hs⟩, -⟩
  exact ⟨hr, hs⟩

/-- A save that nothing cuts short: of an artifact that fits it leaves it to be loaded, of
one that does not it leaves all as it was. -/
theorem artifactStoreSave_steady {ws : List UInt64} {art : Artifact} {version : Bytes}
    (henc : Encodes sha256 ws art) (hversion : version.length < artifactVersionMax)
    (s : Store.State) :
    (artifactStoreSave sha256 art version).Safe Works
      (fun s' o => Guarded sha256 s art version s' o ∧ o ≠ .fault)
      (fun _ s' => if art.blobLen ≤ slotSize then
        loads sha256 s' = some (.ok, restored art, version) else s' = s) s := by
  by_cases hfits : art.blobLen ≤ slotSize
  · obtain ⟨s₁, hrun, -⟩ := save_run_moves (s := s) henc hversion ⟨rfl, hfits⟩
      (never_reread henc hfits) (henc.restorable hfits).verified rfl
    have hnoFault := noFault_of_run (show (artifactStoreSave sha256 art version).run
        (handle .never) s ≠ none by
      rw [hrun]
      exact Option.some_ne_none _)
    refine ((save_safe henc hfits hversion s).and hnoFault).post fun e s' h => ?_
    rw [if_pos hfits]
    exact h.1.2
  have hold : OldOrNew sha256 s art version s := Or.inl rfl
  unfold artifactStoreSave
  refine safe_call_bind.mpr ⟨⟨guarded_of_whole hold fun _ h => h, nofun⟩, fun r s₁ h₁ => ?_⟩
  obtain ⟨rfl, rfl⟩ := Prod.mk.inj (Option.some.inj h₁)
  refine safe_call_bind.mpr ⟨⟨guarded_of_whole hold fun _ h => h, nofun⟩, fun r s₂ h₂ => ?_⟩
  obtain ⟨rfl, rfl⟩ := Prod.mk.inj (Option.some.inj h₂)
  have hslot := target_isSlot (p := .never) s
  have hpart : slotPartition (targetSlot (if Faults.never.fails (.nvsGet .active) then none
      else s.nvs .active)) = some slotSize := if_neg (by
    show ¬ (targetSlot (s.nvs .active) < 0 ∨ targetSlot (s.nvs .active) ≥ artifactSlots)
    have : targetSlot (s.nvs .active) = Faults.never.target s := rfl
    omega)
  simp only [hpart]
  show Safe _ _ _ (if _ then _ else _) s
  rw [if_pos (by omega : art.blobLen > slotSize)]
  show if _ then _ else _
  rw [if_neg hfits]

/-- With all its memory, a publish replaces what is served. -/
theorem httpServePublish_full (hprint : ∀ root, cjsonPrint root ≠ none) {a : PublishAlloc}
    (ha : Full a) (art : Artifact) (version url : Bytes) (s : HttpServer) :
    ∃ p, httpServePublish cjsonPrint a art version url s = s.swap p ∧ p.art = art ∧
      p.version = version ∧ p.url = url := by
  obtain ⟨json, hjson⟩ := Option.ne_none_iff_exists'.mp
    (hprint ((manifestTree art version url).keep a.item))
  refine ⟨⟨art, version, url, (manifestTree art version url).keep a.item, cstr json⟩, ?_, rfl,
    rfl, rfl⟩
  unfold httpServePublish
  rw [if_neg (by simp [ha.next]), if_neg (by simp [ha.object])]
  simp only [ha.text, if_true, hjson]

/-! ### What a boot and a cycle come to -/

section Done

variable (sha256 : Bytes → Digest) (k : Kconfig)

/-- A list that a cycle of the run made, as it is once saved. -/
def CycleSaved (s : State) (y : Artifact × Bytes) : Prop :=
  ∃ g, CycleMade sha256 k s g ∧ y = (restored g, buildVersion g.sha256)

/-- A load returns what it did, or a list that a cycle made meanwhile. -/
structure LoadsSince (s s' : State) : Prop where
  cycles : s.cycles ⊆ s'.cycles
  loads : loads sha256 s'.store = loads sha256 s.store ∨
    ∃ y, CycleSaved sha256 k s' y ∧ loads sha256 s'.store = some (.ok, y)

/-- So it does before a call, and in its middle; and the call is no crash. -/
structure Steadily (s s' : State) (o : Op) : Prop where
  since : LoadsSince sha256 k s s'
  torn : ∀ o' t, o = .store o' → Torn s'.store o' t →
    LoadsSince sha256 k s { s' with store := t }
  sane : o.Sane

/-- What a cycle that comes to its end has done: it has replaced what is served, and what is
persisted where that fits its slot; or it has made no list, and left all as it was. -/
def CycleDone (s s' : State) : Prop :=
  ∃ x, s'.cycles = x :: s.cycles ∧
    ((∃ g p, generate sha256 k x = some (.ok, g) ∧ s'.http = s.http.swap p ∧ p.art = g ∧
        p.version = buildVersion g.sha256 ∧
        if g.blobLen ≤ slotSize then
          loads sha256 s'.store = some (.ok, restored g, buildVersion g.sha256)
        else s'.store = s.store) ∨
      ((∀ g, generate sha256 k x ≠ some (.ok, g)) ∧ s'.http = s.http ∧ s'.store = s.store))

end Done

theorem steadily_whole {s s' : State} {o : Op} (h : LoadsSince sha256 k s s')
    (ho : ∀ o' t, o = .store o' → ¬ Torn s'.store o' t) (hsane : o.Sane) :
    Steadily sha256 k s s' o :=
  ⟨h, fun o' t heq ht => absurd ht (ho o' t heq), hsane⟩

/-- NVS that comes up leaves all as it was. -/
theorem initNvs_up {calls : Prog.StepRel Store.Op Store.Res Store.State}
    {allocs : PublishAlloc → Prop} (s : State) :
    initNvs.Safe (Answers Up calls allocs cjsonPrint) (fun s' o => s' = s ∧ o = .nvsFlashInit)
      (fun _ s' => s' = s) s := by
  unfold initNvs
  refine safe_call_bind.mpr ⟨⟨rfl, rfl⟩, fun (err : NvsInit) s' h => ?_⟩
  obtain ⟨rfl, rfl⟩ : err = .ok ∧ s' = s := h
  rfl

/-- **What is on record is restored and served.** -/
theorem restore_done (hprint : ∀ root, cjsonPrint root ≠ none) {s : State} {y : Artifact × Bytes}
    (hload : loads sha256 s.store = some (.ok, y)) :
    (restore sha256 k).Safe (Answers Up Works Full cjsonPrint) (Steadily sha256 k s)
      (fun _ s' => s'.store = s.store ∧ s'.cycles = s.cycles ∧
        ∃ p, s'.http = s.http.swap p ∧ (p.art, p.version) = y) s := by
  have hsame : ∀ {s' : State}, s'.store = s.store → s'.cycles = s.cycles →
      LoadsSince sha256 k s s' := fun hstore hcycles =>
    ⟨by rw [hcycles]; exact List.Subset.refl _, Or.inl (by rw [hstore])⟩
  unfold restore
  refine safe_bind.mpr ((ofStore_safe (artifactStoreLoad_steady hload)).mono
    (fun s' o ho => ?_) fun r s' hr => ?_)
  · obtain ⟨hbeside, o', rfl, hstore, hquiet, hnoFault⟩ := ho
    refine steadily_whole (hsame hstore hbeside.cycles) (fun o'' t heq => ?_)
      (Op.sane_store hnoFault)
    obtain rfl := Op.store.inj heq
    exact hquiet.whole
  · obtain ⟨hbeside, rfl, hstore⟩ := hr
    show Safe _ _ _ (if _ then _ else _) s'
    rw [if_pos rfl]
    have hnow := hsame hstore hbeside.cycles
    refine safe_bind.mpr ((buildUrl_safe k (steadily_whole hnow nofun trivial)).post
      fun url s'' hs => ?_)
    subst hs
    refine ⟨steadily_whole hnow nofun trivial, ?_⟩
    rintro _ s₃ ⟨a, ha, rfl⟩
    obtain ⟨p, hswap, hart, hversion, -⟩ := httpServePublish_full hprint ha y.1 y.2 url s''.http
    refine ⟨hstore, hbeside.cycles, p, ?_, by rw [hart, hversion]⟩
    rw [← hbeside.http]
    exact hswap

/-- **A boot with a list on record serves it.** -/
theorem appMain_done (hprint : ∀ root, cjsonPrint root ≠ none) {s : State} {y : Artifact × Bytes}
    (hload : loads sha256 s.store = some (.ok, y)) :
    (appMain sha256 k).Safe (Answers Up Works Full cjsonPrint) (Steadily sha256 k s)
      (fun _ s' => s'.store = s.store ∧ s'.cycles = s.cycles ∧
        ∃ p, s'.http = s.http.swap p ∧ (p.art, p.version) = y) s := by
  refine safe_bind.mpr ((initNvs_up s).mono (fun s' o ho => ?_) fun _ s' hs => ?_)
  · obtain ⟨rfl, rfl⟩ := ho
    exact steadily_whole ⟨List.Subset.refl _, Or.inl rfl⟩ nofun trivial
  · subst hs
    exact restore_done hprint hload

/-- **A cycle, from any state.** -/
theorem refreshCycle_done (hprint : ∀ root, cjsonPrint root ≠ none) (s : State) :
    (refreshCycle sha256 k).Safe (Answers Up Works Full cjsonPrint) (Steadily sha256 k s)
      (fun _ s' => CycleDone sha256 k s s') s := by
  unfold refreshCycle
  refine safe_call_bind.mpr ⟨steadily_whole ⟨List.Subset.refl _, Or.inl rfl⟩ nofun trivial,
    fun (x : Meeting) s₁ hs₁ => ?_⟩
  obtain rfl : s₁ = { s with cycles := x :: s.cycles } := hs₁
  obtain ⟨⟨status, art⟩, hgen, hmade⟩ := generate_made sha256 k x
  rw [hgen]
  have hfailed : status ≠ .ok → CycleDone sha256 k s { s with cycles := x :: s.cycles } := by
    refine fun hne => ⟨x, rfl, Or.inr ⟨fun g hg => hne ?_, rfl, rfl⟩⟩
    rw [hgen] at hg
    exact (Prod.mk.inj (Option.some.inj hg)).1
  cases status with
  | ok =>
      obtain ⟨⟨ws, henc, -⟩, -, -⟩ := hmade rfl
      have henc : Encodes sha256 ws art := henc
      have hcycles : s.cycles ⊆ x :: s.cycles := List.subset_cons_self _ _
      have hsince : ∀ {s' : State}, s'.cycles = x :: s.cycles →
          OldOrNew sha256 s.store art (buildVersion art.sha256) s'.store →
            LoadsSince sha256 k s s' := by
        intro s' heq hold
        refine ⟨by rw [heq]; exact hcycles, hold.imp id fun hnew => ⟨_, ⟨art, ?_, rfl⟩, hnew⟩⟩
        exact ⟨x, by rw [heq]; exact List.mem_cons_self, hgen⟩
      have hstart : LoadsSince sha256 k s { s with cycles := x :: s.cycles } :=
        hsince rfl (Or.inl rfl)
      refine safe_bind.mpr ((buildUrl_safe k (steadily_whole hstart nofun trivial)).post
        fun url s₂ hs₂ => ?_)
      subst hs₂
      have hversion : (buildVersion art.sha256).length < artifactVersionMax := by
        rw [buildVersion_length]
        decide
      refine safe_bind.mpr ((ofStore_safe (s := { s with cycles := x :: s.cycles })
        (artifactStoreSave_steady henc hversion s.store)).mono
        (fun s' o ho => ?_) fun e s' he => ?_)
      · obtain ⟨hbeside, o', rfl, ⟨hold, htorn⟩, hnoFault⟩ := ho
        refine ⟨hsince hbeside.cycles hold, fun o'' t heq ht => ?_, Op.sane_store hnoFault⟩
        obtain rfl := Op.store.inj heq
        exact hsince hbeside.cycles (htorn t ht)
      · obtain ⟨hbeside, hstored⟩ := he
        have hold : OldOrNew sha256 s.store art (buildVersion art.sha256) s'.store := by
          split at hstored
          · exact Or.inr hstored
          · rw [hstored]
            exact Or.inl rfl
        refine ⟨steadily_whole (hsince hbeside.cycles hold) nofun trivial, ?_⟩
        rintro _ s₃ ⟨a, ha, rfl⟩
        obtain ⟨p, hswap, hart, hpversion, -⟩ := httpServePublish_full hprint ha art
          (buildVersion art.sha256) url s'.http
        refine ⟨x, hbeside.cycles, Or.inl ⟨art, p, hgen, ?_, hart, hpversion, hstored⟩⟩
        rw [← show s'.http = s.http from hbeside.http]
        exact hswap
  | _ => exact hfailed nofun

/-! ### Runs -/

/-- A boot would restore this list, or one that a cycle of the run has made. -/
def Restores (sha256 : Bytes → Digest) (k : Kconfig) (x : Artifact × Bytes) (s : State) : Prop :=
  ∃ y, loads sha256 s.store = some (.ok, y) ∧ (y = x ∨ CycleSaved sha256 k s y)

theorem CycleSaved.mono {s s' : State} {y : Artifact × Bytes} (h : CycleSaved sha256 k s y)
    (hs : s.cycles ⊆ s'.cycles) : CycleSaved sha256 k s' y := by
  obtain ⟨g, hg, hy⟩ := h
  exact ⟨g, hg.mono hs, hy⟩

theorem Restores.since {x : Artifact × Bytes} {s s' : State} (h : Restores sha256 k x s)
    (hs : LoadsSince sha256 k s s') : Restores sha256 k x s' := by
  obtain ⟨y, hload, hy⟩ := h
  rcases hs.loads with hsame | ⟨z, hz, hnew⟩
  · exact ⟨y, hsame.trans hload, hy.imp id fun h => h.mono hs.cycles⟩
  · exact ⟨z, hnew, Or.inr hz⟩

theorem Restores.congr {x : Artifact × Bytes} {s s' : State} (h : Restores sha256 k x s)
    (hstore : s'.store = s.store) (hcycles : s'.cycles = s.cycles) : Restores sha256 k x s' :=
  h.since ⟨by rw [hcycles]; exact List.Subset.refl _, Or.inl (by rw [hstore])⟩

/-- What holds before a call of such a run, and in its middle. -/
def Lasting (sha256 : Bytes → Digest) (k : Kconfig) (x : Artifact × Bytes) (s : State) (o : Op) :
    Prop :=
  Restores sha256 k x s ∧
    ∀ o' t, o = .store o' → Torn s.store o' t → Restores sha256 k x { s with store := t }

theorem Steadily.lasting {x : Artifact × Bytes} {s s' : State} {o : Op}
    (h : Steadily sha256 k s s' o) (hx : Restores sha256 k x s) : Lasting sha256 k x s' o :=
  ⟨hx.since h.since, fun o' t ho ht => hx.since (h.torn o' t ho ht)⟩

/-- Between two programs a list is being served. -/
def Serving (sha256 : Bytes → Digest) (k : Kconfig) (x : Artifact × Bytes) (s : State) : Prop :=
  Restores sha256 k x s ∧ s.http.current ≠ none

theorem appMain_serving (hprint : ∀ root, cjsonPrint root ≠ none) {x : Artifact × Bytes}
    {s : State} (h : Restores sha256 k x s) :
    (appMain sha256 k).Safe (Answers Up Works Full cjsonPrint) (Lasting sha256 k x)
      (fun _ s' => Serving sha256 k x s') s := by
  have hx := h
  obtain ⟨y, hload, -⟩ := h
  refine (appMain_done hprint hload).mono (fun s' o hs => hs.lasting hx) fun _ s' hs => ?_
  obtain ⟨hstore, hcycles, p, hswap, -⟩ := hs
  exact ⟨hx.congr hstore hcycles, by rw [hswap]; exact Option.some_ne_none p⟩

theorem refreshCycle_serving (hprint : ∀ root, cjsonPrint root ≠ none) {x : Artifact × Bytes}
    {s : State} (h : Serving sha256 k x s) :
    (refreshCycle sha256 k).Safe (Answers Up Works Full cjsonPrint) (Lasting sha256 k x)
      (fun _ s' => Serving sha256 k x s') s := by
  refine (refreshCycle_done hprint s).mono (fun s' o hs => hs.lasting h.1) fun _ s' hs => ?_
  obtain ⟨m, hcycles, ⟨g, p, hgen, hswap, -, -, hstored⟩ | ⟨-, hhttp, hstore⟩⟩ := hs
  · refine ⟨h.1.since ⟨by rw [hcycles]; exact List.subset_cons_self _ _, ?_⟩,
      by rw [hswap]; exact Option.some_ne_none p⟩
    split at hstored
    · exact Or.inr ⟨_, ⟨g, ⟨m, by rw [hcycles]; exact List.mem_cons_self, hgen⟩, rfl⟩, hstored⟩
    · exact Or.inl (by rw [hstored])
  · refine ⟨h.1.since ⟨by rw [hcycles]; exact List.subset_cons_self _ _, Or.inl ?_⟩, ?_⟩
    · rw [hstore]
    · rw [hhttp]
      exact h.2

/-- A restart finds what a call leaves, whole or cut. -/
theorem Restores.outage {x : Artifact × Bytes} {s s' : State} {p : Code Unit}
    (hready : Ready (Lasting sha256 k x) (Serving sha256 k x) p s) (hs : Outage s p s') :
    Restores sha256 k x s' := by
  obtain ⟨hstore, -, hcycles⟩ := hs
  rcases hstore with hsame | ⟨o, f, rfl, htorn⟩
  · have hnow : Restores sha256 k x s := by
      cases p with
      | pure a => exact hready.1
      | op o f => exact hready.1
    exact hnow.congr hsame hcycles
  · exact (hready.2 o s'.store rfl htorn).congr rfl hcycles

/-- No call stops serving. -/
theorem current_ne_none {s s' : State} {o : Op} {r : Res o} (h : s.http.current ≠ none)
    (hs : Answers Up Works Full cjsonPrint s o r s') : s'.http.current ≠ none := by
  cases o with
  | nvsFlashInit =>
      obtain ⟨-, rfl⟩ := hs
      exact h
  | nvsFlashErase =>
      obtain ⟨t, -, rfl⟩ := hs
      exact h
  | abort => exact hs.elim
  | store o =>
      obtain ⟨t, -, rfl⟩ := hs
      exact h
  | netNodeIp =>
      obtain rfl : s' = s := hs
      exact h
  | fetch =>
      obtain rfl : s' = { s with cycles := r :: s.cycles } := hs
      exact h
  | publish art version url =>
      obtain ⟨a, -, rfl⟩ := hs
      show (httpServePublish cjsonPrint a art version url s.http).current ≠ none
      unfold httpServePublish
      split
      · exact h
      split
      · exact h
      dsimp only
      split
      · exact h
      · exact Option.some_ne_none _

section Run

variable {x : Artifact × Bytes} {c₁ c : Config Op Res State}

/-- Every call of such a run is made, and may be cut, with a list to restore. -/
theorem reach_lasting (hprint : ∀ root, cjsonPrint root ≠ none) (hidle : c₁.prog = .pure ())
    (h₁ : Serving sha256 k x c₁.state)
    (hr : Reach (steadyGenerator sha256 k cjsonPrint) c₁ c) :
    c.Good (steadyGenerator sha256 k cjsonPrint) (Lasting sha256 k x) (Serving sha256 k x) := by
  refine reach_good (fun s p s' hready hs => ?_) (fun s hs => ?_) ?_ hr
  · exact appMain_serving hprint (Restores.outage hready hs)
  · exact refreshCycle_serving hprint hs
  · unfold Config.Good
    rw [hidle]
    exact h₁

/-- From the first publish after a boot on, until the power goes, a list is being served. -/
theorem reach_current (hprint : ∀ root, cjsonPrint root ≠ none) (hidle : c₁.prog = .pure ())
    (h₁ : Serving sha256 k x c₁.state)
    (hr : Reach (steadyGenerator sha256 k cjsonPrint) c₁ c) :
    c.phase = .job ∨ c.prog = .pure () → c.state.http.current ≠ none := by
  have hdone : ∀ {c : Config Op Res State}, Reach (steadyGenerator sha256 k cjsonPrint) c₁ c →
      c.prog = .pure () → c.state.http.current ≠ none := by
    intro c hr hpure
    have hready := ready_of_safe (reach_lasting hprint hidle h₁ hr)
    rw [hpure] at hready
    exact hready.2
  rintro (hjob | hpure)
  · induction hr with
    | refl => exact h₁.2
    | tail hr hs ih =>
        cases hs with
        | call h => exact current_ne_none (ih hjob) h
        | next =>
            have hcurrent := hdone hr rfl
            exact hcurrent
        | power h => cases hjob
  · exact hdone hr hpure

/-- **A generator that has persisted a list goes on serving one.**  In every run from a
moment at which a program has ended and a list is both served and on record, where calls fail
only because the power goes, which may be anywhere: until it does a list is served; after a
cut, at whatever call, the next boot does not crash and serves what was on record, or a list
that a cycle has made since; and a cycle does not crash either, and at its end it has replaced
what is served, and what is on record where it fits a slot, or else has left both. -/
theorem serves_after_cuts (hprint : ∀ root, cjsonPrint root ≠ none) (hidle : c₁.prog = .pure ())
    (hload : loads sha256 c₁.state.store = some (.ok, x)) (hserved : c₁.state.http.current ≠ none)
    (hr : Reach (steadyGenerator sha256 k cjsonPrint) c₁ c) :
    (c.phase = .job ∨ c.prog = .pure () → c.state.http.current ≠ none) ∧
    (∀ s, Outage c.state c.prog s → ∃ y, (y = x ∨ CycleSaved sha256 k c.state y) ∧
      (appMain sha256 k).Safe (Answers Up Works Full cjsonPrint) (fun _ o => o.Sane)
        (fun _ s' => ∃ p, s'.http.current = some p ∧ (p.art, p.version) = y) s) ∧
    (refreshCycle sha256 k).Safe (Answers Up Works Full cjsonPrint) (fun _ o => o.Sane)
      (fun _ s' => CycleDone sha256 k c.state s') c.state := by
  have h₁ : Serving sha256 k x c₁.state := ⟨⟨x, hload, Or.inl rfl⟩, hserved⟩
  refine ⟨reach_current hprint hidle h₁ hr, fun s hcut => ?_, ?_⟩
  · have hready := ready_of_safe (reach_lasting hprint hidle h₁ hr)
    obtain ⟨y, hy, hfrom⟩ := Restores.outage hready hcut
    refine ⟨y, hfrom.imp id fun h => h.mono (by rw [hcut.2.2]; exact List.Subset.refl _), ?_⟩
    refine (appMain_done (k := k) hprint hy).mono (fun _ _ h => h.sane) fun _ s' h => ?_
    obtain ⟨-, -, p, hswap, hp⟩ := h
    exact ⟨p, by rw [hswap]; rfl, hp⟩
  · exact (refreshCycle_done hprint c.state).mono (fun _ _ h => h.sane) fun _ _ h => h

end Run

end Steady

/-! ### A run to look at -/

/-- An idle generator that serves what it has on record. -/
def stockedIdle : Config Op Res State :=
  ⟨.job, ⟨stocked, HttpServer.init.swap ⟨artifactOf (Sinkhole.entries 10000), ascii "v1", [], .null,
    []⟩, []⟩, .pure ()⟩

def stockedConfig : Kconfig := ⟨[ascii "http://list"], 10000, 80, [], []⟩

/-- The same about to fetch. -/
def stockedBusy : Config Op Res State :=
  ⟨.job, stockedIdle.state, refreshCycle Sha256.sha256 stockedConfig⟩

theorem stocked_serves :
    (stockedBusy.phase = .job ∨ stockedBusy.prog = .pure () →
      stockedBusy.state.http.current ≠ none) ∧
    (∀ s, Outage stockedBusy.state stockedBusy.prog s →
      ∃ y, (y = (restored (artifactOf (Sinkhole.entries 10000)), ascii "v1") ∨
          CycleSaved Sha256.sha256 stockedConfig stockedBusy.state y) ∧
        (appMain Sha256.sha256 stockedConfig).Safe
          (Answers Up Works Full fun root => some (Json.print root)) (fun _ o => o.Sane)
          (fun _ s' => ∃ p, s'.http.current = some p ∧ (p.art, p.version) = y) s) ∧
    (refreshCycle Sha256.sha256 stockedConfig).Safe
      (Answers Up Works Full fun root => some (Json.print root)) (fun _ o => o.Sane)
      (fun _ s' => CycleDone Sha256.sha256 stockedConfig stockedBusy.state s')
      stockedBusy.state :=
  serves_after_cuts (fun _ => Option.some_ne_none _) rfl stocked_loads (Option.some_ne_none _)
    (show Reach _ stockedIdle _ from .single .next)

end EspHole.Generator.Main
