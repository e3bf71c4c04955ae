/-
The answer cache as a map.

`dns_cache_insert` never looks for an entry with its key.  That a key is stored once at
most, and that a find meets the latest answer stored for it, rests on the order of use:
`dns_task` inserts only after a find has missed, and a find that misses leaves no valid
entry with the key.  `CacheRun` is that order of use, with a log of the inserts, and
`cache_bounded_map` what holds in every state of it.
-/
import EspHole.Sinkhole.DnsTask

namespace EspHole.Sinkhole

open Relation

/-! ### Runs -/

/-- What one turn of the serve loop asks of the cache: a find, and an insert should it
miss. -/
structure CacheUse where
  key : UInt64
  now : Int
  answer : Option Bytes

/-- A call of `dns_cache_insert`, and the slot it has written, if any. -/
structure Inserted where
  key : UInt64
  now : Int
  data : Bytes
  slot : Option Nat

/-- The cache, with the inserts so far, the latest first, and the last reading of the
clock. -/
structure CacheRun where
  cache : Cache
  log : List Inserted
  time : Int

def CacheRun.init (time : Int) : CacheRun := ⟨.init, [], time⟩

/-- The find of a turn. -/
def CacheRun.find (s : CacheRun) (key : UInt64) (now : Int) : CacheRun :=
  ⟨(dnsCacheFind s.cache key now).2, s.log, now⟩

/-- The insert of a turn. -/
def CacheRun.insert (s : CacheRun) (key : UInt64) (data : Bytes) : CacheRun :=
  ⟨dnsCacheInsert s.cache key data s.time,
    ⟨key, s.time, data, if Storable data then some s.cache.victim else none⟩ :: s.log, s.time⟩

def CacheRun.use (s : CacheRun) (u : CacheUse) : CacheRun :=
  match (dnsCacheFind s.cache u.key u.now).1, u.answer with
  | none, some data => (s.find u.key u.now).insert u.key data
  | _, _ => s.find u.key u.now

@[simp] theorem CacheRun.use_time (s : CacheRun) (u : CacheUse) : (s.use u).time = u.now := by
  unfold CacheRun.use
  split <;> rfl

/-- The states of runs whose clock does not go back. -/
abbrev CacheRun.Reach (s : CacheRun) : Prop :=
  ∃ time, ReflTransGen (fun s s' => ∃ u : CacheUse, s.time ≤ u.now ∧ s' = s.use u) (.init time) s

/-- `x` is the latest insert for `key`, and the slot it has written has not been written
since. -/
def Latest (log : List Inserted) (key : UInt64) (slot : Nat) (x : Inserted) : Prop :=
  ∃ newer older, log = newer ++ x :: older ∧ x.key = key ∧ x.slot = some slot ∧
    ∀ y ∈ newer, y.key ≠ key ∧ y.slot ≠ some slot

theorem latest_cons {log : List Inserted} {key : UInt64} {slot : Nat} {x y : Inserted} :
    Latest (y :: log) key slot x ↔ (x = y ∧ y.key = key ∧ y.slot = some slot) ∨
      ((y.key ≠ key ∧ y.slot ≠ some slot) ∧ Latest log key slot x) := by
  constructor
  · rintro ⟨newer, older, hlog, hkey, hslot, hnewer⟩
    cases newer with
    | nil =>
        obtain ⟨rfl, rfl⟩ := List.cons.inj hlog
        exact Or.inl ⟨rfl, hkey, hslot⟩
    | cons z newer =>
        obtain ⟨rfl, rfl⟩ := List.cons.inj hlog
        exact Or.inr ⟨hnewer y (by simp), newer, older, rfl, hkey, hslot,
          fun z hz => hnewer z (by simp [hz])⟩
  · rintro (⟨rfl, hkey, hslot⟩ | ⟨hy, newer, older, rfl, hkey, hslot, hnewer⟩)
    · exact ⟨[], log, rfl, hkey, hslot, fun y hy => by cases hy⟩
    · exact ⟨y :: newer, older, rfl, hkey, hslot, List.forall_mem_cons.mpr ⟨hy, hnewer⟩⟩

/-! ### The invariant -/

/-- The valid entries are the current inserts, but for some that are too old. -/
structure CacheRun.Inv (s : CacheRun) : Prop where
  unique : ∀ {i j : Nat} {e e' : CacheEntry}, s.cache.entries[i]? = some e →
    s.cache.entries[j]? = some e' → e.valid = true → e'.valid = true → e.key = e'.key → i = j
  valid : ∀ {i : Nat} {e : CacheEntry}, s.cache.entries[i]? = some e → e.valid = true →
    ∃ x, Latest s.log e.key i x
  latest : ∀ {key : UInt64} {i : Nat} {x : Inserted}, Latest s.log key i x →
    ∃ e, s.cache.entries[i]? = some e ∧ e.key = key ∧ e.insertedUs = x.now ∧ e.data = x.data ∧
      (e.valid = true ∨ s.time - x.now > dnsCacheTtlUs)

theorem CacheRun.inv_init (time : Int) : (CacheRun.init time).Inv := by
  have hfree : ∀ {i : Nat} {e : CacheEntry}, Cache.init.entries[i]? = some e → e.valid = true →
      False := by
    intro i e he hvalid
    rw [init_not_valid (List.mem_of_getElem? he)] at hvalid
    cases hvalid
  refine ⟨fun he _ hv _ _ => (hfree he hv).elim, fun he hv => (hfree he hv).elim, ?_⟩
  rintro key i x ⟨newer, older, hlog, -⟩
  simp [init] at hlog

/-- What a find makes of an entry. -/
structure CacheEntry.Kept (now : Int) (e e' : CacheEntry) : Prop where
  same : e'.Same e
  valid : e'.valid = true → e.valid = true
  dropped : e.valid = true → e'.valid = true ∨ now - e.insertedUs > dnsCacheTtlUs

theorem CacheEntry.Kept.refl (now : Int) (e : CacheEntry) : e.Kept now e :=
  ⟨⟨rfl, rfl, rfl⟩, id, Or.inl⟩

/-- A find keeps every entry, but may drop one that is too old. -/
theorem find_kept {c : Cache} (key : UInt64) (now : Int) {j : Nat} {e : CacheEntry}
    (he : c.entries[j]? = some e) :
    ∃ e', (dnsCacheFind c key now).2.entries[j]? = some e' ∧ e.Kept now e' := by
  have hout := dnsCacheFind_outcome c key now
  generalize (dnsCacheFind c key now).1 = hit at hout
  generalize (dnsCacheFind c key now).2 = c' at hout
  have hlt := Cache.lt_of_get he
  cases hout with
  | absent => exact ⟨e, he, .refl now e⟩
  | @expired i e₀ he₀ hvalid hkey hold =>
      by_cases hj : j = i
      · subst hj
        obtain rfl := Option.some.inj (he.symm.trans he₀)
        exact ⟨_, Cache.put_self hlt, ⟨rfl, rfl, rfl⟩, fun h => hvalid, fun _ => Or.inr hold⟩
      · exact ⟨e, by rw [Cache.put_other hj]; exact he, .refl now e⟩
  | @hit i e₀ he₀ hvalid hkey hfresh =>
      by_cases hj : j = i
      · subst hj
        obtain rfl := Option.some.inj (he.symm.trans he₀)
        exact ⟨_, Cache.put_self hlt, ⟨rfl, rfl, rfl⟩, id, Or.inl⟩
      · exact ⟨e, by rw [Cache.put_other hj]; exact he, .refl now e⟩

/-- The same, from what is there after the find. -/
theorem kept_of_find {c : Cache} {key : UInt64} {now : Int} {j : Nat} {e' : CacheEntry}
    (he' : (dnsCacheFind c key now).2.entries[j]? = some e') :
    ∃ e, c.entries[j]? = some e ∧ e.Kept now e' := by
  obtain ⟨e, he⟩ := c.get_of_lt (Cache.lt_of_get he')
  obtain ⟨e'', he'', hkept⟩ := find_kept key now he
  obtain rfl := Option.some.inj (he'.symm.trans he'')
  exact ⟨e, he, hkept⟩

theorem CacheRun.Inv.find {s : CacheRun} (hs : s.Inv) (key : UInt64) {now : Int}
    (hnow : s.time ≤ now) : (s.find key now).Inv := by
  refine ⟨?_, ?_, ?_⟩
  · intro i j e e' he he' hv hv' hkey
    obtain ⟨e₀, he₀, hkept⟩ := kept_of_find he
    obtain ⟨e₀', he₀', hkept'⟩ := kept_of_find he'
    exact hs.unique he₀ he₀' (hkept.valid hv) (hkept'.valid hv')
      (hkept.same.key.symm.trans (hkey.trans hkept'.same.key))
  · intro i e he hv
    obtain ⟨e₀, he₀, hkept⟩ := kept_of_find he
    rw [hkept.same.key]
    exact hs.valid he₀ (hkept.valid hv)
  · intro k i x hx
    obtain ⟨e, he, hkey, hinserted, hdata, hold⟩ := hs.latest hx
    obtain ⟨e', he', hkept⟩ := find_kept key now he
    refine ⟨e', he', hkept.same.key.trans hkey, hkept.same.insertedUs.trans hinserted,
      hkept.same.data.trans hdata, ?_⟩
    have hage : now - x.now > dnsCacheTtlUs ↔ now - e.insertedUs > dnsCacheTtlUs := by
      rw [hinserted]
    rcases hold with hvalid | hold
    · exact (hkept.dropped hvalid).imp_right hage.mpr
    · right
      show now - x.now > dnsCacheTtlUs
      omega

/-- After a miss no valid entry has the key. -/
theorem CacheRun.Inv.no_key_of_miss {s : CacheRun} (hs : s.Inv) {key : UInt64} {now : Int}
    (hmiss : (dnsCacheFind s.cache key now).1 = none) {j : Nat} {e : CacheEntry}
    (he : (dnsCacheFind s.cache key now).2.entries[j]? = some e) (hvalid : e.valid = true) :
    e.key ≠ key := by
  have hout := dnsCacheFind_outcome s.cache key now
  rw [hmiss] at hout
  generalize (dnsCacheFind s.cache key now).2 = c' at hout he
  cases hout with
  | absent h => exact h e (List.mem_of_getElem? he) hvalid
  | @expired i e₀ he₀ hvalid₀ hkey₀ hold =>
      intro hkey
      by_cases hj : j = i
      · subst hj
        rw [Cache.put_self (Cache.lt_of_get he₀)] at he
        obtain rfl := Option.some.inj he
        cases hvalid
      · rw [Cache.put_other hj] at he
        exact hj (hs.unique he he₀ hvalid hvalid₀ (hkey.trans hkey₀.symm))

/-! ### An insert -/

section Insert

variable {s : CacheRun} {key : UInt64} {data : Bytes}

/-- An answer that can be stored is stored in the victim's slot, and logged there. -/
theorem CacheRun.insert_storable (hdata : Storable data) :
    s.insert key data = ⟨s.cache.put s.cache.victim
      ⟨true, key, s.time, s.cache.clock + 1, data⟩ (s.cache.clock + 1),
      ⟨key, s.time, data, some s.cache.victim⟩ :: s.log, s.time⟩ := by
  rw [CacheRun.insert, dnsCacheInsert_eq, if_pos hdata, if_pos hdata]

/-- Any other is logged only. -/
theorem CacheRun.insert_unstorable (hdata : ¬ Storable data) :
    s.insert key data = ⟨s.cache, ⟨key, s.time, data, none⟩ :: s.log, s.time⟩ := by
  rw [CacheRun.insert, dnsCacheInsert_eq, if_neg hdata, if_neg hdata]

theorem CacheRun.insert_victim (hdata : Storable data) :
    (s.insert key data).cache.entries[s.cache.victim]? =
      some ⟨true, key, s.time, s.cache.clock + 1, data⟩ := by
  rw [CacheRun.insert_storable hdata, Cache.put_self s.cache.victim_lt]

theorem CacheRun.insert_other (hdata : Storable data) {j : Nat} (hj : j ≠ s.cache.victim) :
    (s.insert key data).cache.entries[j]? = s.cache.entries[j]? := by
  rw [CacheRun.insert_storable hdata, Cache.put_other hj]

/-- What is valid after an insert is what was inserted, or was valid before. -/
theorem CacheRun.insert_get (hdata : Storable data) {j : Nat} {e : CacheEntry}
    (he : (s.insert key data).cache.entries[j]? = some e) :
    j = s.cache.victim ∧ e = ⟨true, key, s.time, s.cache.clock + 1, data⟩ ∨
      j ≠ s.cache.victim ∧ s.cache.entries[j]? = some e := by
  by_cases hj : j = s.cache.victim
  · subst hj
    rw [CacheRun.insert_victim hdata] at he
    exact Or.inl ⟨rfl, (Option.some.inj he).symm⟩
  · rw [CacheRun.insert_other hdata hj] at he
    exact Or.inr ⟨hj, he⟩

theorem CacheRun.Inv.insert_storable (hs : s.Inv)
    (hnew : ∀ {j : Nat} {e : CacheEntry}, s.cache.entries[j]? = some e → e.valid = true →
      e.key ≠ key) (hdata : Storable data) : (s.insert key data).Inv := by
  have hlog : (s.insert key data).log = ⟨key, s.time, data, some s.cache.victim⟩ :: s.log := by
    rw [CacheRun.insert_storable hdata]
  refine ⟨?_, ?_, ?_⟩
  · intro i j e e' he he' hv hv' hkey
    rcases CacheRun.insert_get hdata he with ⟨rfl, rfl⟩ | ⟨-, he⟩ <;>
      rcases CacheRun.insert_get hdata he' with ⟨rfl, rfl⟩ | ⟨-, he'⟩
    · rfl
    · exact absurd hkey.symm (hnew he' hv')
    · exact absurd hkey (hnew he hv)
    · exact hs.unique he he' hv hv' hkey
  · intro i e he hv
    rw [hlog]
    rcases CacheRun.insert_get hdata he with ⟨rfl, rfl⟩ | ⟨hi, he⟩
    · exact ⟨_, latest_cons.mpr (Or.inl ⟨rfl, rfl, rfl⟩)⟩
    · obtain ⟨x, hx⟩ := hs.valid he hv
      refine ⟨x, latest_cons.mpr (Or.inr ⟨⟨Ne.symm (hnew he hv), ?_⟩, hx⟩)⟩
      simpa using Ne.symm hi
  · intro k i x hx
    rw [hlog] at hx
    rcases latest_cons.mp hx with ⟨rfl, hkey, hslot⟩ | ⟨⟨-, hslot⟩, hx⟩
    · obtain rfl := Option.some.inj hslot
      exact ⟨_, CacheRun.insert_victim hdata, hkey, rfl, rfl, Or.inl rfl⟩
    · obtain ⟨e, he, hrest⟩ := hs.latest hx
      have hi : i ≠ s.cache.victim := fun hi => hslot (by rw [hi])
      refine ⟨e, by rw [CacheRun.insert_other hdata hi]; exact he, ?_⟩
      rw [CacheRun.insert_storable hdata]
      exact hrest

theorem CacheRun.Inv.insert_unstorable (hs : s.Inv)
    (hnew : ∀ {j : Nat} {e : CacheEntry}, s.cache.entries[j]? = some e → e.valid = true →
      e.key ≠ key) (hdata : ¬ Storable data) : (s.insert key data).Inv := by
  rw [CacheRun.insert_unstorable hdata]
  refine ⟨hs.unique, ?_, ?_⟩
  · intro i e he hv
    obtain ⟨x, hx⟩ := hs.valid he hv
    exact ⟨x, latest_cons.mpr (Or.inr ⟨⟨Ne.symm (hnew he hv), by simp⟩, hx⟩)⟩
  · intro k i x hx
    rcases latest_cons.mp hx with ⟨-, -, hslot⟩ | ⟨-, hx⟩
    · cases hslot
    · exact hs.latest hx

theorem CacheRun.Inv.insert (hs : s.Inv)
    (hnew : ∀ {j : Nat} {e : CacheEntry}, s.cache.entries[j]? = some e → e.valid = true →
      e.key ≠ key) (data : Bytes) : (s.insert key data).Inv := by
  by_cases hdata : Storable data
  · exact hs.insert_storable hnew hdata
  · exact hs.insert_unstorable hnew hdata

end Insert

/-! ### Every run -/

theorem CacheRun.Inv.use {s : CacheRun} (hs : s.Inv) {u : CacheUse} (hnow : s.time ≤ u.now) :
    (s.use u).Inv := by
  have hfind := hs.find u.key hnow
  unfold CacheRun.use
  rcases hhit : (dnsCacheFind s.cache u.key u.now).1 with _ | hit
  · cases u.answer with
    | none => exact hfind
    | some data => exact hfind.insert (fun he hv => hs.no_key_of_miss hhit he hv) data
  · exact hfind

theorem CacheRun.Reach.inv {s : CacheRun} (h : s.Reach) : s.Inv := by
  obtain ⟨time, hrun⟩ := h
  induction hrun with
  | refl => exact CacheRun.inv_init time
  | tail _ hstep ih =>
      obtain ⟨u, hnow, rfl⟩ := hstep
      exact ih.use hnow

/-! ### What holds along a run -/

/-- What the cache does as a map that forgets. -/
structure CacheRun.BoundedMap (s : CacheRun) : Prop where
  /-- At most one slot is valid for a key. -/
  unique : ∀ {i j : Nat} {e e' : CacheEntry}, s.cache.entries[i]? = some e →
    s.cache.entries[j]? = some e' → e.valid = true → e'.valid = true → e.key = e'.key → i = j
  /-- A find hits where the latest insert for its key is, while that is fresh and in place. -/
  find_iff : ∀ (key : UInt64) (now : Int), s.time ≤ now → ∀ slot,
    (dnsCacheFind s.cache key now).1 = some slot ↔
      ∃ x, Latest s.log key slot x ∧ now - x.now ≤ dnsCacheTtlUs
  /-- What it hits is what was inserted. -/
  find_data : ∀ (key : UInt64) (now : Int) (slot : Nat) (x : Inserted),
    Latest s.log key slot x → (dnsCacheFind s.cache key now).1 = some slot →
      ∃ e, (dnsCacheFind s.cache key now).2.entries[slot]? = some e ∧ e.data = x.data
  /-- An insert writes one slot, and a valid one only when all are. -/
  insert_one : ∀ (key : UInt64) (data : Bytes), Storable data → ∃ slot < dnsCacheSize,
    (s.insert key data).log = ⟨key, s.time, data, some slot⟩ :: s.log ∧
      (∃ e, (s.insert key data).cache.entries[slot]? = some e ∧ e.valid = true ∧ e.key = key ∧
        e.insertedUs = s.time ∧ e.data = data) ∧
      (∀ j, j ≠ slot → (s.insert key data).cache.entries[j]? = s.cache.entries[j]?) ∧
      ((∃ e, s.cache.entries[slot]? = some e ∧ e.valid = true) →
        ∀ e ∈ s.cache.entries, e.valid = true)
  /-- An answer without bytes, or with too many, is dropped. -/
  insert_dropped : ∀ (key : UInt64) (data : Bytes), ¬ Storable data →
    (s.insert key data).cache = s.cache

theorem CacheRun.Inv.find_iff {s : CacheRun} (hs : s.Inv) (key : UInt64) {now : Int}
    (hnow : s.time ≤ now) (slot : Nat) :
    (dnsCacheFind s.cache key now).1 = some slot ↔
      ∃ x, Latest s.log key slot x ∧ now - x.now ≤ dnsCacheTtlUs := by
  constructor
  · intro hhit
    obtain ⟨e, he, hvalid, hkey, hfresh, -⟩ := dnsCacheFind_hit hhit
    obtain ⟨x, hx⟩ := hs.valid he hvalid
    obtain ⟨e', he', -, hinserted, -⟩ := hs.latest hx
    obtain rfl := Option.some.inj (he.symm.trans he')
    rw [hkey] at hx
    exact ⟨x, hx, by rw [← hinserted]; exact hfresh⟩
  · rintro ⟨x, hx, hfresh⟩
    obtain ⟨e, he, hkey, hinserted, -, hold⟩ := hs.latest hx
    have hvalid : e.valid = true := hold.resolve_right (by omega)
    have hout := dnsCacheFind_outcome s.cache key now
    generalize (dnsCacheFind s.cache key now).1 = hit at hout ⊢
    generalize (dnsCacheFind s.cache key now).2 = c' at hout
    cases hout with
    | absent h => exact absurd hkey (h e (List.mem_of_getElem? he) hvalid)
    | @expired i e₀ he₀ hvalid₀ hkey₀ hexpired =>
        obtain rfl := hs.unique he he₀ hvalid hvalid₀ (hkey.trans hkey₀.symm)
        obtain rfl := Option.some.inj (he.symm.trans he₀)
        omega
    | @hit i e₀ he₀ hvalid₀ hkey₀ hfresh₀ =>
        rw [hs.unique he he₀ hvalid hvalid₀ (hkey.trans hkey₀.symm)]

/-- **The cache is a bounded map** in every state of a run: any keys, any answers, any
number of turns. -/
theorem cache_bounded_map {s : CacheRun} (h : s.Reach) : s.BoundedMap := by
  have hs := h.inv
  refine ⟨hs.unique, fun key now hnow => hs.find_iff key hnow, ?_, ?_, ?_⟩
  · intro key now slot x hx hhit
    obtain ⟨e, he, -, -, hdata, -⟩ := hs.latest hx
    exact ⟨_, dnsCacheFind_get hhit he, hdata⟩
  · intro key data hdata
    refine ⟨s.cache.victim, s.cache.victim_lt, by rw [CacheRun.insert_storable hdata], ?_,
      fun j hj => CacheRun.insert_other hdata hj, ?_⟩
    · exact ⟨_, CacheRun.insert_victim hdata, rfl, rfl, rfl, rfl⟩
    · rintro ⟨e, he, hvalid⟩
      exact Cache.full_of_victim_valid he hvalid
  · intro key data hdata
    rw [CacheRun.insert_unstorable hdata]

theorem one_answer_map :
    (((CacheRun.init 0).use ⟨5, 0, some [1, 2]⟩).use ⟨5, 1, none⟩).BoundedMap := by
  refine cache_bounded_map ⟨0, .tail (.tail .refl ⟨⟨5, 0, some [1, 2]⟩, ?_, rfl⟩)
    ⟨⟨5, 1, none⟩, ?_, rfl⟩⟩
  · exact Int.le_refl 0
  · rw [CacheRun.use_time]
    decide

/-! ### The serve loop uses the cache this way -/

/-- What a turn does to the cache is one use of it, or nothing. -/
theorem Outcome.cache_use {w w' : Server} {t : Turn} {fx : List Effect} (h : Outcome w t w' fx)
    {s : CacheRun} (hs : s.cache = w.cache) :
    w' = w ∨ (w'.time = t.now ∨ w'.time = t.done) ∧
      ∃ u : CacheUse, u.now = t.now ∧ w'.cache = (s.use u).cache := by
  cases h with
  | idle => exact Or.inl rfl
  | blocked => exact Or.inl rfl
  | @hit client pkt name type hit cache e h hfind he =>
      refine Or.inr ⟨Or.inl rfl, ⟨cacheKey name type, t.now, none⟩, rfl, ?_⟩
      simp [CacheRun.use, CacheRun.find, hs, hfind]
  | @relay client pkt name type cache ans h hfind hsent hans =>
      refine Or.inr ⟨Or.inr rfl, ⟨cacheKey name type, t.now, some ans⟩, rfl, ?_⟩
      simp [CacheRun.use, CacheRun.find, CacheRun.insert, hs, hfind]
  | @timeout client pkt name type cache h hfind hnone =>
      refine Or.inr ⟨Or.inl rfl, ⟨cacheKey name type, t.now, none⟩, rfl, ?_⟩
      simp [CacheRun.use, CacheRun.find, hs, hfind]

/-- **The serve loop uses its cache this way**, all along its runs. -/
theorem Server.Reach.cacheRun {w : Server} (h : w.Reach) :
    ∃ s : CacheRun, s.Reach ∧ s.cache = w.cache ∧ s.time ≤ w.time := by
  obtain ⟨time, hrun⟩ := h
  induction hrun with
  | refl => exact ⟨.init time, ⟨time, .refl⟩, rfl, Int.le_refl time⟩
  | tail _ hstep ih =>
      obtain ⟨t, fx, hnow, hdone, hturn⟩ := hstep
      obtain ⟨s, ⟨start, hs⟩, hcache, htime⟩ := ih
      rcases (dnsTurn_outcome hturn).cache_use hcache with rfl | ⟨hw', u, hu, huse⟩
      · exact ⟨s, ⟨start, hs⟩, hcache, htime⟩
      · refine ⟨s.use u, ⟨start, hs.tail ⟨u, by omega, rfl⟩⟩, huse.symm, ?_⟩
        rw [CacheRun.use_time]
        omega

end EspHole.Sinkhole
