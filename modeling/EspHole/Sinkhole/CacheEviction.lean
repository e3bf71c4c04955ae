/-
Which answer a full cache gives up.

Each use of a slot is stamped with a tick, and an insert into a full cache takes the slot
with the lowest one.  The tick has 32 bits and is never reset.  `Usage` runs the cache
together with a count of its uses that does not wrap; `eviction_lru_iff` says when the
slot taken is the one used longest ago, and `wrapped_eviction` is a run after which it is
the one used last.
-/
import Mathlib.Data.Finset.Max
import Mathlib.Logic.Function.Basic
import Mathlib.Logic.Relation
import EspHole.Sinkhole.Cache

namespace EspHole.Sinkhole

open Relation

/-! ### The scan of a full cache -/

/-- Over valid slots the scan keeps the first lowest tick. -/
theorem victimLoop_full (es : List CacheEntry) :
    ∀ (i victim : Nat) (oldest : UInt32), (∀ e ∈ es, e.valid = true) →
      (victimLoop i victim oldest es = victim ∧ ∀ e ∈ es, oldest ≤ e.lastUsed) ∨
      ∃ k e, victimLoop i victim oldest es = i + k ∧ es[k]? = some e ∧ e.lastUsed < oldest ∧
        (∀ e' ∈ es, e.lastUsed ≤ e'.lastUsed) ∧
        ∀ j < k, ∀ e', es[j]? = some e' → e.lastUsed < e'.lastUsed := by
  induction es with
  | nil => intro i victim oldest _; exact Or.inl ⟨rfl, fun e he => by cases he⟩
  | cons e rest ih =>
      intro i victim oldest hvalid
      have hrest : ∀ e ∈ rest, e.valid = true := fun e' he' => hvalid e' (by simp [he'])
      have hinv : ¬ (!e.valid) = true := by simp [hvalid e (by simp)]
      unfold victimLoop
      rw [if_neg hinv]
      by_cases hlt : e.lastUsed < oldest
      · rw [if_pos hlt]
        right
        rcases ih (i + 1) i e.lastUsed hrest with ⟨heq, hle⟩ | ⟨k, e₁, heq, hget, hlt₁, hle, hfirst⟩
        · refine ⟨0, e, heq, by simp, hlt, ?_, fun j hj => absurd hj (Nat.not_lt_zero j)⟩
          exact List.forall_mem_cons.mpr ⟨UInt32.le_refl _, hle⟩
        · refine ⟨k + 1, e₁, by omega, by simpa using hget, UInt32.lt_trans hlt₁ hlt, ?_, ?_⟩
          · exact List.forall_mem_cons.mpr ⟨UInt32.le_of_lt hlt₁, hle⟩
          · intro j hj e' he'
            cases j with
            | zero =>
                obtain rfl : e = e' := by simpa using he'
                exact hlt₁
            | succ j => exact hfirst j (by omega) e' (by simpa using he')
      · rw [if_neg hlt]
        have hge : oldest ≤ e.lastUsed := UInt32.not_lt.mp hlt
        rcases ih (i + 1) victim oldest hrest with
          ⟨heq, hle⟩ | ⟨k, e₁, heq, hget, hlt₁, hle, hfirst⟩
        · exact Or.inl ⟨heq, List.forall_mem_cons.mpr ⟨hge, hle⟩⟩
        · have hlt₂ : e₁.lastUsed < e.lastUsed := UInt32.lt_of_lt_of_le hlt₁ hge
          refine Or.inr ⟨k + 1, e₁, by omega, by simpa using hget, hlt₁, ?_, ?_⟩
          · exact List.forall_mem_cons.mpr ⟨UInt32.le_of_lt hlt₂, hle⟩
          · intro j hj e' he'
            cases j with
            | zero =>
                obtain rfl : e = e' := by simpa using he'
                exact hlt₂
            | succ j => exact hfirst j (by omega) e' (by simpa using he')

/-- **The slot a full cache gives up** has the lowest tick, and is the first that has. -/
theorem Cache.victim_full {c : Cache} (hfull : ∀ e ∈ c.entries, e.valid = true) :
    ∃ e, c.entries[c.victim]? = some e ∧ (∀ e' ∈ c.entries, e.lastUsed ≤ e'.lastUsed) ∧
      ∀ j < c.victim, ∀ e', c.entries[j]? = some e' → e.lastUsed < e'.lastUsed := by
  rcases victimLoop_full c.entries 0 0 0xFFFFFFFF hfull with ⟨heq, hle⟩ | ⟨k, e, heq, h⟩
  · have hv : c.victim = 0 := heq
    obtain ⟨e, he⟩ := c.get_of_lt (i := 0) (by decide)
    refine ⟨e, by rw [hv]; exact he, fun e' he' => ?_, fun j hj => by omega⟩
    exact UInt32.le_trans (UInt32.le_iff_toNat_le.mpr (by
      have := e.lastUsed.toNat_lt
      show e.lastUsed.toNat ≤ 4294967295
      omega)) (hle e' he')
  · have hv : c.victim = k := by rw [Cache.victim, heq, Nat.zero_add]
    rw [hv]
    exact ⟨e, h.1, h.2.2⟩

/-! ### Runs, with a count of the uses -/

/-- A call of one of the two functions. -/
inductive CacheCall
  | find (key : UInt64) (now : Int)
  | insert (key : UInt64) (data : Bytes) (now : Int)

/-- The cache, the number of uses so far, and for each slot the number of its last use. -/
structure Usage where
  cache : Cache
  uses : Nat
  lastUse : Nat → Nat

def Usage.init : Usage := ⟨.init, 0, fun _ => 0⟩

/-- One more use of a slot. -/
def Usage.touch (s : Usage) (c : Cache) (slot : Nat) : Usage :=
  ⟨c, s.uses + 1, Function.update s.lastUse slot (s.uses + 1)⟩

def Usage.call (s : Usage) : CacheCall → Usage
  | .find key now =>
      match dnsCacheFind s.cache key now with
      | (some hit, c) => s.touch c hit
      | (none, c) => { s with cache := c }
  | .insert key data now =>
      if Storable data then s.touch (dnsCacheInsert s.cache key data now) s.cache.victim else s

/-- The states of runs of calls, in any order. -/
abbrev Usage.Reach (s : Usage) : Prop :=
  ReflTransGen (fun s s' => ∃ call, s' = Usage.call s call) .init s

/-- The ticks are the counts, modulo `2 ^ 32`. -/
structure Usage.Inv (s : Usage) : Prop where
  clock : s.cache.clock = UInt32.ofNat s.uses
  tick : ∀ {i : Nat} {e : CacheEntry}, s.cache.entries[i]? = some e → e.valid = true →
    e.lastUsed = UInt32.ofNat (s.lastUse i) ∧ s.lastUse i ≠ 0
  le : ∀ i, s.lastUse i ≤ s.uses
  distinct : ∀ i j, s.lastUse i = s.lastUse j → s.lastUse i ≠ 0 → i = j

theorem Usage.inv_init : Usage.init.Inv := by
  refine ⟨rfl, fun he hvalid => ?_, fun _ => Nat.le_refl _, fun i j _ h => absurd rfl h⟩
  rw [init_not_valid (List.mem_of_getElem? he)] at hvalid
  cases hvalid

/-- A slot that is written with the next tick. -/
theorem Usage.Inv.touch {s : Usage} (hs : s.Inv) {i : Nat} {e : CacheEntry}
    (he : e.lastUsed = s.cache.clock + 1) (hi : i < dnsCacheSize) :
    (s.touch (s.cache.put i e (s.cache.clock + 1)) i).Inv := by
  have hnext : s.cache.clock + 1 = UInt32.ofNat (s.uses + 1) := by
    rw [hs.clock, UInt32.ofNat_add]
    rfl
  have hself : (s.touch (s.cache.put i e (s.cache.clock + 1)) i).lastUse i = s.uses + 1 :=
    Function.update_self ..
  have hother : ∀ {j : Nat}, j ≠ i →
      (s.touch (s.cache.put i e (s.cache.clock + 1)) i).lastUse j = s.lastUse j :=
    fun hj => Function.update_of_ne hj ..
  refine ⟨hnext, ?_, ?_, ?_⟩
  · intro j e' he' hvalid
    by_cases hj : j = i
    · subst hj
      rw [hself]
      obtain rfl := Option.some.inj ((Cache.put_self hi).symm.trans he')
      exact ⟨he.trans hnext, Nat.succ_ne_zero _⟩
    · rw [hother hj]
      exact hs.tick ((Cache.put_other hj).symm.trans he') hvalid
  · intro j
    by_cases hj : j = i
    · rw [hj, hself]
      exact Nat.le_refl _
    · rw [hother hj]
      exact Nat.le_succ_of_le (hs.le j)
  · intro j k heq hne
    have hold : ∀ j, s.lastUse j ≠ s.uses + 1 := fun j => by
      have := hs.le j
      omega
    by_cases hj : j = i
    · by_cases hk : k = i
      · rw [hj, hk]
      · rw [hj, hself, hother hk] at heq
        exact absurd heq.symm (hold k)
    · rw [hother hj] at heq hne
      by_cases hk : k = i
      · rw [hk, hself] at heq
        exact absurd heq (hold j)
      · rw [hother hk] at heq
        exact hs.distinct j k heq hne

theorem Usage.Inv.call {s : Usage} (hs : s.Inv) (c : CacheCall) : (s.call c).Inv := by
  cases c with
  | find key now =>
      have hout := dnsCacheFind_outcome s.cache key now
      simp only [Usage.call]
      generalize dnsCacheFind s.cache key now = r at hout ⊢
      obtain ⟨hit, c⟩ := r
      cases hout with
      | absent => exact hs
      | @expired i e he hvalid hkey hold =>
          refine ⟨hs.clock, fun {j e'} he' hvalid' => ?_, hs.le, hs.distinct⟩
          by_cases hj : j = i
          · subst hj
            obtain rfl := Option.some.inj ((Cache.put_self (Cache.lt_of_get he)).symm.trans he')
            cases hvalid'
          · exact hs.tick ((Cache.put_other hj).symm.trans he') hvalid'
      | hit he => exact hs.touch rfl (Cache.lt_of_get he)
  | insert key data now =>
      unfold Usage.call
      by_cases hdata : Storable data
      · simp only [if_pos hdata, dnsCacheInsert_eq]
        exact hs.touch rfl s.cache.victim_lt
      · simp only [if_neg hdata]
        exact hs

theorem Usage.Reach.inv {s : Usage} (h : s.Reach) : s.Inv := by
  induction h with
  | refl => exact Usage.inv_init
  | tail _ hstep ih =>
      obtain ⟨c, rfl⟩ := hstep
      exact ih.call c

/-! ### When the least recently used slot goes -/

/-- A slot whose last use came before the last use of every other slot. -/
def Usage.Oldest (s : Usage) (slot : Nat) : Prop :=
  ∀ j < dnsCacheSize, j ≠ slot → s.lastUse slot < s.lastUse j

/-- Modulo `2 ^ 32`, the last use of the slot used longest ago is still the lowest, or is
as low as that of a later slot. -/
def Usage.InOrder (s : Usage) : Prop :=
  ∀ slot < dnsCacheSize, s.Oldest slot → ∀ j < dnsCacheSize, j ≠ slot →
    s.lastUse slot % 2 ^ 32 < s.lastUse j % 2 ^ 32 ∨
      s.lastUse slot % 2 ^ 32 = s.lastUse j % 2 ^ 32 ∧ slot < j

/-- As long as the tick has not wrapped, it is in order. -/
theorem Usage.Inv.inOrder {s : Usage} (hs : s.Inv) (h : s.uses < 2 ^ 32) : s.InOrder := by
  intro slot _ hold j hj hne
  have hlt := hold j hj hne
  have hle := hs.le j
  rw [Nat.mod_eq_of_lt (show s.lastUse slot < 2 ^ 32 by omega),
    Nat.mod_eq_of_lt (show s.lastUse j < 2 ^ 32 by omega)]
  exact Or.inl hlt

/-- In a full cache one slot was used longest ago. -/
theorem Usage.Inv.exists_oldest {s : Usage} (hs : s.Inv)
    (hfull : ∀ e ∈ s.cache.entries, e.valid = true) : ∃ slot < dnsCacheSize, s.Oldest slot := by
  obtain ⟨slot, hslot, hmin⟩ := Finset.exists_min_image (Finset.range dnsCacheSize) s.lastUse
    ⟨0, Finset.mem_range.mpr (by decide)⟩
  refine ⟨slot, Finset.mem_range.mp hslot, fun j hj hne => ?_⟩
  have hle := hmin j (Finset.mem_range.mpr hj)
  obtain ⟨e, he⟩ := s.cache.get_of_lt (Finset.mem_range.mp hslot)
  have hused := (hs.tick he (hfull e (List.mem_of_getElem? he))).2
  exact Nat.lt_of_le_of_ne hle fun heq => hne (hs.distinct slot j heq hused).symm

/-- The slot a full cache gives up, in terms of the counts. -/
theorem Usage.Inv.victim_first {s : Usage} (hs : s.Inv)
    (hfull : ∀ e ∈ s.cache.entries, e.valid = true) {j : Nat} (hj : j < dnsCacheSize)
    (hne : j ≠ s.cache.victim) :
    s.lastUse s.cache.victim % 2 ^ 32 < s.lastUse j % 2 ^ 32 ∨
      s.lastUse s.cache.victim % 2 ^ 32 = s.lastUse j % 2 ^ 32 ∧ s.cache.victim < j := by
  obtain ⟨e, he, hle, hfirst⟩ := Cache.victim_full hfull
  obtain ⟨e', he'⟩ := s.cache.get_of_lt hj
  have htick := (hs.tick he (hfull e (List.mem_of_getElem? he))).1
  have htick' := (hs.tick he' (hfull e' (List.mem_of_getElem? he'))).1
  have hle' := UInt32.le_iff_toNat_le.mp (hle e' (List.mem_of_getElem? he'))
  rw [htick, htick', UInt32.toNat_ofNat', UInt32.toNat_ofNat'] at hle'
  rcases Nat.lt_or_ge j s.cache.victim with hlt | hge
  · have hlt' := UInt32.lt_iff_toNat_lt.mp (hfirst j hlt e' he')
    rw [htick, htick', UInt32.toNat_ofNat', UInt32.toNat_ofNat'] at hlt'
    exact Or.inl hlt'
  · rcases Nat.lt_or_eq_of_le hle' with hlt' | heq
    · exact Or.inl hlt'
    · exact Or.inr ⟨heq, Nat.lt_of_le_of_ne hge (Ne.symm hne)⟩

/-- **When eviction is least-recently-used**: in every state of every run, an insert into a
full cache overwrites the slot used longest ago if and only if the ticks are in order. -/
theorem eviction_lru_iff {s : Usage} (h : s.Reach)
    (hfull : ∀ e ∈ s.cache.entries, e.valid = true) (key : UInt64) (now : Int) {data : Bytes}
    (hdata : Storable data) :
    (dnsCacheInsert s.cache key data now).entries =
        s.cache.entries.set s.cache.victim ⟨true, key, now, s.cache.clock + 1, data⟩ ∧
      s.cache.victim < dnsCacheSize ∧ (s.Oldest s.cache.victim ↔ s.InOrder) := by
  have hs := h.inv
  refine ⟨?_, s.cache.victim_lt, ?_, ?_⟩
  · rw [dnsCacheInsert_eq, if_pos hdata]
    rfl
  · intro hold slot hslot hold' j hj hne
    -- The two slots used longest ago are one.
    obtain rfl : slot = s.cache.victim := by
      by_contra hdiff
      have h₁ := hold slot hslot hdiff
      have h₂ := hold' _ s.cache.victim_lt (Ne.symm hdiff)
      omega
    exact hs.victim_first hfull hj hne
  · intro hord
    obtain ⟨slot, hslot, hold⟩ := hs.exists_oldest hfull
    suffices slot = s.cache.victim by rwa [← this]
    by_contra hdiff
    have h₁ := hord slot hslot hold _ s.cache.victim_lt (Ne.symm hdiff)
    have h₂ := hs.victim_first hfull hslot hdiff
    omega

/-! ### A run over which the tick wraps -/

theorem Usage.reach_foldl (calls : List CacheCall) :
    ∀ {s : Usage}, s.Reach → (calls.foldl Usage.call s).Reach := by
  induction calls with
  | nil => intro s h; exact h
  | cons c rest ih => intro s h; exact ih (h.tail ⟨c, rfl⟩)

/-- A hundred answers, stored one after the other. -/
def filled : Usage :=
  ((List.range 100).map fun k => CacheCall.insert k.toUInt64 [0] 0).foldl Usage.call .init

/-- The same, after the last of them has been asked for until the tick is `t`. -/
def worn (t : UInt32) : Cache where
  entries := ((List.range 99).map fun k => ⟨true, k.toUInt64, 0, k.toUInt32 + 1, [0]⟩) ++
    [⟨true, 99, 0, t, [0]⟩]
  clock := t
  size := by simp [dnsCacheSize]

theorem Cache.eq_of {c d : Cache} (hentries : c.entries = d.entries) (hclock : c.clock = d.clock) :
    c = d := by
  cases c
  cases d
  cases hentries
  cases hclock
  rfl

theorem filled_eq : filled.cache = worn 100 ∧ filled.uses = 100 ∧ filled.lastUse 99 = 100 := by
  have h : filled.cache.entries = (worn 100).entries ∧ filled.cache.clock = (worn 100).clock ∧
      filled.uses = 100 ∧ filled.lastUse 99 = 100 := by decide +kernel
  exact ⟨Cache.eq_of h.1 h.2.1, h.2.2⟩

theorem filled_reach : filled.Reach := Usage.reach_foldl _ .refl

theorem worn_full (t : UInt32) : ∀ e ∈ (worn t).entries, e.valid = true := by
  intro e he
  rcases List.mem_append.mp he with he | he
  · obtain ⟨k, -, rfl⟩ := List.mem_map.mp he
    rfl
  · rw [List.mem_singleton.mp he]

/-- With fewer than `2 ^ 32` uses, the slot used longest ago goes. -/
theorem filled_evicts_oldest : filled.Oldest filled.cache.victim := by
  have hfull : ∀ e ∈ filled.cache.entries, e.valid = true := by
    rw [filled_eq.1]
    exact worn_full 100
  have hiff := (eviction_lru_iff filled_reach hfull 0 0 (show Storable [0] by decide)).2.2
  exact hiff.mpr (filled_reach.inv.inOrder (by rw [filled_eq.2.1]; decide))

/-- Asking for the last answer again moves its tick on, and nothing else. -/
theorem worn_find (t : UInt32) : dnsCacheFind (worn t) 99 0 = (some 99, worn (t + 1)) := by
  rfl

theorem worn_reach (n : Nat) :
    ∃ s : Usage, s.Reach ∧ s.cache = worn (UInt32.ofNat (100 + n)) ∧ s.uses = 100 + n ∧
      s.lastUse 99 = 100 + n := by
  induction n with
  | zero => exact ⟨filled, filled_reach, filled_eq⟩
  | succ n ih =>
      obtain ⟨s, hreach, hcache, huses, hlast⟩ := ih
      have hnext : UInt32.ofNat (100 + n) + 1 = UInt32.ofNat (100 + (n + 1)) := by
        rw [← Nat.add_assoc, UInt32.ofNat_add (100 + n) 1]
        rfl
      have hcall : s.call (.find 99 0) = s.touch (worn (UInt32.ofNat (100 + (n + 1)))) 99 := by
        simp only [Usage.call, hcache, worn_find, hnext]
      refine ⟨_, hreach.tail ⟨.find 99 0, hcall.symm⟩, rfl, ?_, ?_⟩
      · show s.uses + 1 = _
        omega
      · show Function.update s.lastUse 99 (s.uses + 1) 99 = _
        rw [Function.update_self]
        omega

/-- **After `2 ^ 32` uses**, the slot an insert overwrites is the one used last. -/
theorem wrapped_eviction :
    ∃ s : Usage, s.Reach ∧ (∀ e ∈ s.cache.entries, e.valid = true) ∧
      (∀ j < dnsCacheSize, j ≠ s.cache.victim → s.lastUse j < s.lastUse s.cache.victim) ∧
      ¬ s.Oldest s.cache.victim := by
  obtain ⟨s, hreach, hcache, huses, hlast⟩ := worn_reach (2 ^ 32 - 100)
  have hvictim : s.cache.victim = 99 := by
    rw [hcache]
    show (worn 0).victim = 99
    decide +kernel
  have hlater : ∀ j < dnsCacheSize, j ≠ s.cache.victim →
      s.lastUse j < s.lastUse s.cache.victim := by
    intro j _ hne
    rw [hvictim] at hne ⊢
    have hle := hreach.inv.le j
    refine Nat.lt_of_le_of_ne (by omega) fun heq => hne ?_
    exact (hreach.inv.distinct 99 j heq.symm (by omega)).symm
  refine ⟨s, hreach, by rw [hcache]; exact worn_full _, hlater, fun hold => ?_⟩
  have h₁ := hold 0 (by decide) (by rw [hvictim]; decide)
  have h₂ := hlater 0 (by decide) (by rw [hvictim]; decide)
  omega

end EspHole.Sinkhole
