/-
One block decision, and swaps of the list while it is taken.

`is_blocked` takes the lock once for each suffix it looks up, so `load_slot` may swap the
list between two of them.  An evaluation is a program of such lookups beside the statics;
`served` records the lists that were served since it began.

Each lookup is right about the list it meets (`decision_under_swaps`).  A hit is therefore
the decision of one list.  A miss is put together from the lists the lookups met, and
`swap_loses_block` shows it need not be the decision of any of them.
-/
import EspHole.Sinkhole.Commit
import EspHole.Sinkhole.Lookup

namespace EspHole.Sinkhole

open Ascending Ascii Dotted

/-! ### Lookups one at a time -/

/-- A program of the DNS task: its calls are the hashes it looks up. -/
abbrev Asking (α : Type) : Type := Prog UInt64 (fun _ => Bool) α

/-- `is_blocked`, each `blocklist_contains` a call. -/
def evaluate (name : Bytes) : Asking (Option Bool) :=
  (isBlocked (m := OptionT (Prog UInt64 fun _ => Bool)) (fun h => OptionT.lift (Prog.call h))
    name).run

/-- Looking up these suffixes in turn. -/
def askInTurn : List Bytes → Asking (Option Bool)
  | [] => .pure (some false)
  | d :: rest => .op (domainHash d) fun found =>
      if found then .pure (some true) else askInTurn rest

theorem evaluate_eq (name : Bytes) : evaluate name = askInTurn (asked name) := by
  have hany : ∀ l : List Bytes, (l.anyM (m := OptionT (Prog UInt64 fun _ => Bool))
      fun d => OptionT.lift (Prog.call (domainHash d))).run = askInTurn l := by
    intro l
    induction l with
    | nil => rfl
    | cons d rest ih =>
        rw [List.anyM, OptionT.run_bind]
        refine congrArg (Prog.op (domainHash d)) (funext fun found => ?_)
        cases found with
        | true => rfl
        | false => exact ih
  unfold evaluate
  rw [isBlocked_eq_anyM, hany]

/-! ### An evaluation beside the updater -/

section Swaps

variable (sha256 : Bytes → Digest)

/-- What the statics may be: as the boot left them, or as a load that succeeded did. -/
inductive Servable : Ram → Prop
  | init : Servable Ram.init
  | loaded {fails : Op → Bool} {s s' : World} {slot : Int}
      (h : (loadSlot slot).run (handle sha256 fails) s = some (.ok, s')) : Servable s'.ram

/-- The statics, what is left of the evaluation, and the lists served since it began. -/
structure Evaluation where
  ram : Ram
  asking : Asking (Option Bool)
  served : List Ram

/-- The DNS task looks up one hash under the lock, or the updater loads a slot. -/
inductive Evaluation.Step : Evaluation → Evaluation → Prop
  | lookup {ram : Ram} {hash : UInt64} {found : Bool} {k : Bool → Asking (Option Bool)}
      {served : List Ram} (h : blocklistContains true ram hash = some found) :
      Step ⟨ram, .op hash k, served⟩ ⟨ram, k found, served⟩
  | swap {fails : Op → Bool} {s s' : World} {slot : Int} {asking : Asking (Option Bool)}
      {served : List Ram}
      (h : (loadSlot slot).run (handle sha256 fails) s = some (.ok, s')) :
      Step ⟨s.ram, asking, served⟩ ⟨s'.ram, asking, served ++ [s'.ram]⟩

/-- Any number of lookups and swaps, from the start of `is_blocked` on this name. -/
def Evaluation.Reach (ram : Ram) (name : Bytes) : Evaluation → Prop :=
  Relation.ReflTransGen (Evaluation.Step sha256) ⟨ram, evaluate name, [ram]⟩

end Swaps

variable {sha256 : Bytes → Digest}

theorem Servable.contains_eq {ram : Ram} (h : Servable sha256 ram) (hash : UInt64) :
    blocklistContains true ram hash = some (decide (hash ∈ ram.hashes)) := by
  cases h with
  | init => rw [blocklistContains_init]; rfl
  | loaded h =>
      rcases loadSlot_run h with ⟨n, hl, -, rfl⟩ | ⟨-, hne, -⟩
      · exact blocklistContains_eq (Words.words_length (World.slotBytes_length _ _ _))
          hl.valid.ascending hash
      · exact absurd rfl hne

/-- The decision against one list that may be served. -/
theorem Servable.isBlocked_eq {ram : Ram} (h : Servable sha256 ram) (name : Bytes) :
    isBlocked (blocklistContains true ram) name =
      some ((asked name).any fun d => decide (domainHash d ∈ ram.hashes)) := by
  rw [isBlocked_eq_anyM]
  exact anyM_some fun d _ => h.contains_eq _

/-- A lookup that does not find its suffix. -/
theorem Evaluation.Step.miss {ram : Ram} {served : List Ram} {d : Bytes} {rest : List Bytes}
    (h : Servable sha256 ram) (hd : domainHash d ∉ ram.hashes) :
    Evaluation.Step sha256 ⟨ram, askInTurn (d :: rest), served⟩ ⟨ram, askInTurn rest, served⟩ :=
  @Evaluation.Step.lookup _ _ _ false
    (fun found => if found then .pure (some true) else askInTurn rest) _
    (by rw [h.contains_eq, decide_eq_false hd])

/-! ### What the lookups have met -/

/-- These suffixes were looked up one after the other and not found; `places` says which of
the lists each of them met. -/
structure Missed (served : List Ram) (suffixes : List Bytes) (places : List Nat) : Prop where
  inOrder : places.Pairwise (· ≤ ·)
  bound : ∀ i ∈ places, i < served.length
  unlisted : List.Forall₂
    (fun d i => ∃ ram, served[i]? = some ram ∧ domainHash d ∉ ram.hashes) suffixes places

theorem Missed.grow {served : List Ram} {suffixes : List Bytes} {places : List Nat}
    (h : Missed served suffixes places) (ram : Ram) :
    Missed (served ++ [ram]) suffixes places := by
  refine ⟨h.inOrder, fun i hi => ?_, h.unlisted.imp fun d i ⟨ram, hi, hd⟩ => ⟨ram, ?_, hd⟩⟩
  · have := h.bound i hi
    rw [List.length_append]
    omega
  · rw [List.getElem?_append_left (List.getElem?_eq_some_iff.mp hi).1]
    exact hi

/-- One more suffix, looked up in the list that is served now. -/
theorem Missed.snoc {served : List Ram} {suffixes : List Bytes} {places : List Nat} {ram : Ram}
    {d : Bytes} (h : Missed served suffixes places) (hram : served.getLast? = some ram)
    (hd : domainHash d ∉ ram.hashes) :
    Missed served (suffixes ++ [d]) (places ++ [served.length - 1]) := by
  rw [List.getLast?_eq_getElem?] at hram
  have hlt := (List.getElem?_eq_some_iff.mp hram).1
  refine ⟨List.pairwise_append.mpr ⟨h.inOrder, List.pairwise_singleton _ _, ?_⟩, ?_, ?_⟩
  · intro i hi j hj
    have := h.bound i hi
    rw [List.mem_singleton.mp hj]
    omega
  · intro i hi
    rcases List.mem_append.mp hi with hi | hi
    · exact h.bound i hi
    · rw [List.mem_singleton.mp hi]
      exact hlt
  · exact List.rel_append h.unlisted (.cons ⟨ram, hram, hd⟩ .nil)

/-- Every suffix that was missed is unlisted in some list. -/
theorem Missed.exists_unlisted {served : List Ram} {suffixes : List Bytes} {places : List Nat}
    (h : Missed served suffixes places) {d : Bytes} (hd : d ∈ suffixes) :
    ∃ ram ∈ served, domainHash d ∉ ram.hashes := by
  obtain ⟨-, -, hun⟩ := h
  induction hun with
  | nil => cases hd
  | cons hmet _ ih =>
      rcases List.mem_cons.mp hd with rfl | hd
      · obtain ⟨ram, hi, hno⟩ := hmet
        exact ⟨ram, List.mem_of_getElem? hi, hno⟩
      · exact ih hd

/-- What holds of an evaluation at every point: some suffixes have been missed, and it goes
on with the others or has met one. -/
structure Evaluation.Sound (sha256 : Bytes → Digest) (name : Bytes) (c : Evaluation) : Prop where
  servable : ∀ ram ∈ c.served, Servable sha256 ram
  current : c.served.getLast? = some c.ram
  progress : ∃ suffixes rest places, asked name = suffixes ++ rest ∧
    Missed c.served suffixes places ∧ (c.asking = askInTurn rest ∨
      c.asking = .pure (some true) ∧ ∃ d ∈ rest, ∃ ram ∈ c.served, domainHash d ∈ ram.hashes)

theorem Evaluation.Sound.step {name : Bytes} {c c' : Evaluation} (h : c.Sound sha256 name)
    (hs : Evaluation.Step sha256 c c') : c'.Sound sha256 name := by
  obtain ⟨hserv, hcur, suffixes, rest, places, hasked, hmissed, hgo⟩ := h
  cases hs with
  | @lookup ram hash found k served hfound =>
      have hram : ram ∈ served := List.mem_of_getLast? hcur
      rcases hgo with hgo | ⟨hgo, -⟩
      · cases rest with
        | nil => cases hgo
        | cons d rest =>
            obtain ⟨rfl, hk⟩ : hash = domainHash d ∧ k = _ := by
              injection hgo with h₁ h₂
              exact ⟨h₁, h₂⟩
            rw [(hserv ram hram).contains_eq] at hfound
            obtain rfl := Option.some.inj hfound
            by_cases hd : domainHash d ∈ ram.hashes
            · refine ⟨hserv, hcur, suffixes, d :: rest, places, hasked, hmissed, Or.inr ⟨?_, d,
                List.mem_cons_self, ram, hram, hd⟩⟩
              simp only [hk, hd, decide_true, if_true]
            · refine ⟨hserv, hcur, suffixes ++ [d], rest, _, by simp [hasked],
                hmissed.snoc hcur hd, Or.inl ?_⟩
              simp [hk, hd]
      · cases hgo
  | @swap fails s s' slot asking served hload =>
      refine ⟨fun ram hram => ?_, by simp, suffixes, rest, places, hasked, hmissed.grow _,
        hgo.imp id fun ⟨hgo, d, hd, ram, hram, hl⟩ =>
          ⟨hgo, d, hd, ram, List.mem_append_left _ hram, hl⟩⟩
      rcases List.mem_append.mp hram with hram | hram
      · exact hserv ram hram
      · rw [List.mem_singleton.mp hram]
        exact .loaded hload

theorem Evaluation.Reach.sound {ram : Ram} {name : Bytes} {c : Evaluation}
    (hram : Servable sha256 ram) (hr : Evaluation.Reach sha256 ram name c) :
    c.Sound sha256 name := by
  induction hr with
  | refl =>
      refine ⟨fun r hr => ?_, rfl, [], asked name, [], rfl, ⟨.nil, by simp, .nil⟩,
        Or.inl (evaluate_eq name)⟩
      rw [List.mem_singleton.mp hr]
      exact hram
  | tail _ hs ih => exact ih.step hs

/-- **What a decision says while lists are swapped.**  A hit is the decision of one list
that was served meanwhile.  A miss says that each suffix was unlisted in the list its own
lookup met, and these are met in the order they were served.  So the decision is that of
one list when no swap fell into it, a name with a suffix that stays listed is not missed,
and every lookup answers. -/
theorem decision_under_swaps {ram : Ram} {name : Bytes} {c : Evaluation}
    (hram : Servable sha256 ram) (hr : Evaluation.Reach sha256 ram name c) :
    (c.asking = .pure (some true) →
      ∃ r ∈ c.served, isBlocked (blocklistContains true r) name = some true) ∧
    (c.asking = .pure (some false) → ∃ places, Missed c.served (asked name) places) ∧
    (∀ b, c.asking = .pure (some b) → c.served = [ram] →
      isBlocked (blocklistContains true ram) name = some b) ∧
    (∀ d ∈ asked name, (∀ r ∈ c.served, domainHash d ∈ r.hashes) →
      c.asking ≠ .pure (some false)) ∧
    ((∃ b, c.asking = .pure (some b)) ∨
      ∃ hash k found, c.asking = .op hash k ∧ blocklistContains true c.ram hash = some found) := by
  obtain ⟨hserv, hcur, suffixes, rest, places, hasked, hmissed, hgo⟩ := hr.sound hram
  have hhit : c.asking = .pure (some true) →
      ∃ r ∈ c.served, isBlocked (blocklistContains true r) name = some true := by
    intro ht
    obtain ⟨d, hd, r, hr, hl⟩ : ∃ d ∈ rest, ∃ r ∈ c.served, domainHash d ∈ r.hashes := by
      rcases hgo with hgo | ⟨-, hmet⟩
      · rw [hgo] at ht
        cases rest with
        | nil => cases ht
        | cons => cases ht
      · exact hmet
    refine ⟨r, hr, ?_⟩
    rw [(hserv r hr).isBlocked_eq, hasked]
    refine congrArg some (List.any_eq_true.mpr ⟨d, List.mem_append_right _ hd, ?_⟩)
    exact decide_eq_true hl
  have hmiss : c.asking = .pure (some false) → Missed c.served (asked name) places := by
    intro hf
    rcases hgo with hgo | ⟨hgo, -⟩
    · rw [hgo] at hf
      cases rest with
      | nil => rwa [hasked, List.append_nil]
      | cons => cases hf
    · rw [hgo] at hf
      cases hf
  refine ⟨hhit, fun hf => ⟨places, hmiss hf⟩, fun b hb hone => ?_, fun d hd hall hf => ?_, ?_⟩
  · have hs := hserv ram (by simp [hone])
    cases b with
    | true =>
        obtain ⟨r, hr, hblocked⟩ := hhit hb
        rw [hone, List.mem_singleton] at hr
        rwa [← hr]
    | false =>
        rw [hs.isBlocked_eq]
        refine congrArg some (List.any_eq_false.mpr fun d hd => ?_)
        obtain ⟨r, hr, hno⟩ := (hmiss hb).exists_unlisted hd
        rw [hone, List.mem_singleton] at hr
        rw [← hr, decide_eq_true_eq]
        exact hno
  · obtain ⟨r, hr, hno⟩ := (hmiss hf).exists_unlisted hd
    exact hno (hall r hr)
  · rcases hgo with hgo | ⟨hgo, -⟩
    · cases rest with
      | nil => exact Or.inl ⟨false, hgo⟩
      | cons d rest =>
          have hs := hserv c.ram (List.mem_of_getLast? hcur)
          exact Or.inr ⟨_, _, _, hgo, hs.contains_eq _⟩
    · exact Or.inl ⟨true, hgo⟩

/-! ### A block that a swap loses -/

/-- A device with these words in a slot, and the keys of the slot written. -/
def World.holding (slot : Int) (ws : List UInt64) : World :=
  (World.blank.store slot (ws.flatMap Words.encode)).record slot ws.length
    (Sha256.sha256 (ws.flatMap Words.encode)) (ascii "v1")

theorem holding_load {slot : Int} {ws : List UInt64} (ram : Ram) (hslot : IsSlot slot)
    (hws : Ascending ws) (hfloor : blocklistMinDomains ≤ ws.length)
    (hfits : 8 * ws.length ≤ slotSize) :
    ∃ s', (loadSlot slot).run (handle Sha256.sha256 noFailure)
        { World.holding slot ws with ram := ram } = some (.ok, s') ∧
      s'.ram = ⟨ws, ws.length, slot, ascii "v1"⟩ := by
  have hn : sizeT ws.length = ws.length := sizeT_of_lt (by unfold slotSize at hfits; omega)
  have hbytes : (World.holding slot ws).slotBytes slot (8 * ws.length) =
      ws.flatMap Words.encode := by
    rw [← Words.flatMap_encode_length]
    exact slotBytes_store _ _ _
  have hv : ValidSlot Sha256.sha256 (World.holding slot ws) slot ws.length := by
    refine validSlot_encoded hslot hws hbytes ?_ (record_sha _ _ _ _ _) hfloor hfits
    rw [World.holding, record_cnt, hn]
  have hl : Loadable Sha256.sha256 noFailure { World.holding slot ws with ram := ram } slot
      ws.length :=
    ⟨hv.congr rfl rfl fun _ => rfl, rfl, rfl, rfl, rfl, rfl⟩
  refine ⟨_, loadSlot_run_loadable hl, ?_⟩
  have hver : readBackVersion noFailure { World.holding slot ws with ram := ram } slot =
      ascii "v1" := by
    show storedVersion ((World.holding slot ws).nvs (.ver slot)) = _
    rw [World.holding, record_ver]
    decide +kernel
  show Ram.mk (Words.words ((World.holding slot ws).slotBytes slot (8 * ws.length))) _ _ _ = _
  rw [hver, hbytes, Words.words_encode]

/-- A long list, with the hash of this name at its end. -/
def listing (name : Bytes) : List UInt64 := entries 10000 ++ [domainHash name]

theorem listing_length (name : Bytes) : (listing name).length = 10001 := by simp [listing]

theorem lt_of_mem_entries {n : Nat} {x : UInt64} (h : x ∈ entries n) : x.toNat < n := by
  obtain ⟨i, hi, rfl⟩ := List.mem_map.mp h
  have hi := List.mem_range.mp hi
  have hle : (UInt64.ofNat i).toNat ≤ i := by
    rw [UInt64.toNat_ofNat']
    exact Nat.mod_le _ _
  omega

theorem listing_ascending {name : Bytes} (h : 10000 ≤ (domainHash name).toNat) :
    Ascending (listing name) := by
  refine List.pairwise_append.mpr
    ⟨entries_ascending (by norm_num), List.pairwise_singleton _ _, fun x hx y hy => ?_⟩
  rw [List.mem_singleton.mp hy, UInt64.lt_iff_toNat_lt]
  have := lt_of_mem_entries hx
  omega

theorem not_mem_listing {name : Bytes} {x : UInt64} (h : 10000 ≤ x.toNat)
    (hne : x ≠ domainHash name) : x ∉ listing name := by
  intro hx
  rcases List.mem_append.mp hx with hx | hx
  · have := lt_of_mem_entries hx
    omega
  · exact hne (List.mem_singleton.mp hx)

theorem asked_www : asked (ascii "www.ads.com") = [ascii "www.ads.com", ascii "ads.com"] := by
  decide +kernel

/-- Statics a load can leave: a listing from this slot. -/
def listingRam (slot : Int) (name : Bytes) : Ram :=
  ⟨listing name, (listing name).length, slot, ascii "v1"⟩

theorem load_listing (slot : Int) {name : Bytes} (ram : Ram) (hslot : IsSlot slot)
    (h : 10000 ≤ (domainHash name).toNat) :
    ∃ s s', s.ram = ram ∧ s'.ram = listingRam slot name ∧
      (loadSlot slot).run (handle Sha256.sha256 noFailure) s = some (.ok, s') := by
  have hlen := listing_length name
  obtain ⟨s', hload, hram⟩ := holding_load ram hslot (listing_ascending h)
    (by rw [hlen]; decide) (by rw [hlen]; decide)
  exact ⟨_, s', rfl, hram, hload⟩

theorem listingRam_servable {slot : Int} {name : Bytes} (hslot : IsSlot slot)
    (h : 10000 ≤ (domainHash name).toNat) : Servable Sha256.sha256 (listingRam slot name) := by
  obtain ⟨s, s', -, hram, hload⟩ := load_listing slot Ram.init hslot h
  exact hram ▸ .loaded hload

/-- A listing of one of the suffixes blocks the name. -/
theorem listing_blocks {slot : Int} {d name : Bytes} (hslot : IsSlot slot)
    (h : 10000 ≤ (domainHash d).toNat) (hd : d ∈ asked name) :
    isBlocked (blocklistContains true (listingRam slot d)) name = some true := by
  rw [(listingRam_servable hslot h).isBlocked_eq]
  refine congrArg some (List.any_eq_true.mpr ⟨d, hd, decide_eq_true ?_⟩)
  exact List.mem_append_right _ (List.mem_singleton_self _)

/-- One list holds `ads.com`, the next `www.ads.com`, and the swap falls between the two
lookups. -/
def betweenLookups : Evaluation :=
  ⟨listingRam 1 (ascii "www.ads.com"), .pure (some false),
    [listingRam 0 (ascii "ads.com"), listingRam 1 (ascii "www.ads.com")]⟩

theorem hashes_ads_www : 10000 ≤ (domainHash (ascii "ads.com")).toNat ∧
    10000 ≤ (domainHash (ascii "www.ads.com")).toNat ∧
    domainHash (ascii "www.ads.com") ≠ domainHash (ascii "ads.com") := by decide +kernel

theorem betweenLookups_reach :
    Evaluation.Reach Sha256.sha256 (listingRam 0 (ascii "ads.com")) (ascii "www.ads.com")
      betweenLookups := by
  obtain ⟨hads, hwww, hne⟩ := hashes_ads_www
  obtain ⟨s, s', hram, hram', hload⟩ :=
    load_listing 1 (listingRam 0 (ascii "ads.com")) (by decide) hwww
  have hswap : ∀ asking, Evaluation.Step Sha256.sha256 ⟨s.ram, asking, [s.ram]⟩
      ⟨s'.ram, asking, [s.ram, s'.ram]⟩ := fun _ => .swap hload
  rw [hram, hram'] at hswap
  unfold Evaluation.Reach
  rw [evaluate_eq, asked_www]
  refine .head (.miss (listingRam_servable (by decide) hads) (not_mem_listing hwww hne)) ?_
  exact .head (hswap _) (.single (.miss (listingRam_servable (by decide) hwww)
    (not_mem_listing hads hne.symm)))

/-- Each lookup missed in the list it met. -/
theorem betweenLookups_missed :
    ∃ places, Missed betweenLookups.served (asked (ascii "www.ads.com")) places :=
  (decision_under_swaps (listingRam_servable (by decide) hashes_ads_www.1)
    betweenLookups_reach).2.1 rfl

/-- **A swap loses a block**: each of the lists served meanwhile blocks the name, and it is
let through. -/
theorem swap_loses_block :
    Evaluation.Reach Sha256.sha256 (listingRam 0 (ascii "ads.com")) (ascii "www.ads.com")
      betweenLookups ∧ betweenLookups.asking = .pure (some false) ∧
    ∀ r ∈ betweenLookups.served,
      isBlocked (blocklistContains true r) (ascii "www.ads.com") = some true := by
  obtain ⟨hads, hwww, -⟩ := hashes_ads_www
  refine ⟨betweenLookups_reach, rfl, fun r hr => ?_⟩
  rcases List.mem_pair.mp hr with rfl | rfl
  · exact listing_blocks (by decide) hads (by rw [asked_www]; simp)
  · exact listing_blocks (by decide) hwww (by rw [asked_www]; simp)

end EspHole.Sinkhole
