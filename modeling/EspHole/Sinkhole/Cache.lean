/-
The answer cache: `dns_cache_find` and `dns_cache_insert` of `main/dns_sinkhole.c`.

A hundred slots, scanned from the first.  A find takes the first valid slot with the key
and drops it if it is too old; an insert takes the first free slot, or the one that was
used longest ago.  What is known of a slot's key, age and bytes only changes by an insert:
`mem_find` and `mem_insert` say so, and invariants of the stored answers rest on them.
-/
import EspHole.Basic
import Mathlib.Data.List.Basic

namespace EspHole.Sinkhole

/-- `DNS_CACHE_SIZE` -/
def dnsCacheSize : Nat := 100

/-- `DNS_CACHE_TTL_US` -/
def dnsCacheTtlUs : Int := 5 * 60 * 1000000

/-- `DNS_MAX_PKT` -/
def dnsMaxPkt : Nat := 1500

/-- `dns_cache_entry_t`; `data` is the part of the array that `len` counts. -/
structure CacheEntry where
  valid : Bool
  key : UInt64
  insertedUs : Int
  lastUsed : UInt32
  data : Bytes
  deriving DecidableEq, Repr

/-- A slot as the statics start out. -/
def CacheEntry.zero : CacheEntry := ⟨false, 0, 0, 0, []⟩

/-- `s_cache` and `s_cache_clock` -/
structure Cache where
  entries : List CacheEntry
  clock : UInt32
  size : entries.length = dnsCacheSize

namespace Cache

/-- The cache as the statics start out. -/
def init : Cache := ⟨List.replicate dnsCacheSize .zero, 0, by simp⟩

/-- One slot written, the clock read or moved on. -/
def put (c : Cache) (i : Nat) (e : CacheEntry) (clock : UInt32) : Cache :=
  ⟨c.entries.set i e, clock, by simp [c.size]⟩

theorem mem_put {c : Cache} {i : Nat} {e x : CacheEntry} {clock : UInt32}
    (h : x ∈ (c.put i e clock).entries) : x = e ∨ x ∈ c.entries :=
  (List.mem_or_eq_of_mem_set h).symm

theorem lt_of_get {c : Cache} {i : Nat} {e : CacheEntry} (h : c.entries[i]? = some e) :
    i < dnsCacheSize := by
  rw [← c.size]
  exact (List.getElem?_eq_some_iff.mp h).1

theorem get_of_lt (c : Cache) {i : Nat} (h : i < dnsCacheSize) :
    ∃ e, c.entries[i]? = some e := by
  rw [← c.size] at h
  exact ⟨_, List.getElem?_eq_getElem h⟩

theorem put_self {c : Cache} {i : Nat} {e : CacheEntry} {clock : UInt32} (h : i < dnsCacheSize) :
    (c.put i e clock).entries[i]? = some e :=
  List.getElem?_set_self (by rw [c.size]; exact h)

theorem put_other {c : Cache} {i j : Nat} {e : CacheEntry} {clock : UInt32} (h : j ≠ i) :
    (c.put i e clock).entries[j]? = c.entries[j]? :=
  List.getElem?_set_ne (Ne.symm h)

end Cache

/-- The loop of `dns_cache_find`, at slot `i`: the first valid slot with the key. -/
def findLoop (key : UInt64) : Nat → List CacheEntry → Option (Nat × CacheEntry)
  | _, [] => none
  | i, e :: rest => if e.valid ∧ e.key = key then some (i, e) else findLoop key (i + 1) rest

/-- `dns_cache_find`; `none` is the -1 of a miss. -/
def dnsCacheFind (c : Cache) (key : UInt64) (now : Int) : Option Nat × Cache :=
  match findLoop key 0 c.entries with
  | none => (none, c)
  | some (i, e) =>
      if now - e.insertedUs > dnsCacheTtlUs then (none, c.put i { e with valid := false } c.clock)
      else (some i, c.put i { e with lastUsed := c.clock + 1 } (c.clock + 1))

/-- The loop of `dns_cache_insert`, at slot `i`. -/
def victimLoop : Nat → Nat → UInt32 → List CacheEntry → Nat
  | _, victim, _, [] => victim
  | i, victim, oldest, e :: rest =>
      if !e.valid then i
      else if e.lastUsed < oldest then victimLoop (i + 1) i e.lastUsed rest
      else victimLoop (i + 1) victim oldest rest

/-- `dns_cache_insert` -/
def dnsCacheInsert (c : Cache) (key : UInt64) (data : Bytes) (now : Int) : Cache :=
  if data.length = 0 ∨ data.length > dnsMaxPkt then c
  else
    let victim := victimLoop 0 0 0xFFFFFFFF c.entries
    c.put victim ⟨true, key, now, c.clock + 1, data⟩ (c.clock + 1)

/-- The slot `dns_cache_insert` writes. -/
def Cache.victim (c : Cache) : Nat := victimLoop 0 0 0xFFFFFFFF c.entries

/-- An answer `dns_cache_insert` does not drop. -/
def Storable (data : Bytes) : Prop := 1 ≤ data.length ∧ data.length ≤ dnsMaxPkt

instance (data : Bytes) : Decidable (Storable data) :=
  inferInstanceAs (Decidable (1 ≤ data.length ∧ data.length ≤ dnsMaxPkt))

theorem dnsCacheInsert_eq (c : Cache) (key : UInt64) (data : Bytes) (now : Int) :
    dnsCacheInsert c key data now =
      if Storable data then c.put c.victim ⟨true, key, now, c.clock + 1, data⟩ (c.clock + 1)
      else c := by
  unfold dnsCacheInsert
  by_cases h : Storable data
  · rw [if_pos h, if_neg (by obtain ⟨h₁, h₂⟩ := h; omega)]
    rfl
  · rw [if_neg h, if_pos]
    by_contra hn
    exact h ⟨by omega, by omega⟩

/-! ### What a find sees, and what it leaves -/

theorem findLoop_some {key : UInt64} (es : List CacheEntry) :
    ∀ {i k : Nat} {e : CacheEntry}, findLoop key i es = some (k, e) →
      i ≤ k ∧ es[k - i]? = some e ∧ e.valid = true ∧ e.key = key := by
  induction es with
  | nil => intro i k e h; cases h
  | cons e₀ rest ih =>
      intro i k e h
      unfold findLoop at h
      by_cases hc : e₀.valid ∧ e₀.key = key
      · rw [if_pos hc] at h
        obtain ⟨rfl, rfl⟩ := Prod.mk.inj (Option.some.inj h)
        exact ⟨Nat.le_refl _, by simp, hc.1, hc.2⟩
      · rw [if_neg hc] at h
        obtain ⟨hle, hget, hvalid, hkey⟩ := ih h
        refine ⟨by omega, ?_, hvalid, hkey⟩
        obtain ⟨j, rfl⟩ : ∃ j, k = i + 1 + j := ⟨k - (i + 1), by omega⟩
        rw [show i + 1 + j - i = j + 1 by omega, List.getElem?_cons_succ]
        rwa [Nat.add_sub_cancel_left] at hget

theorem findLoop_none {key : UInt64} (es : List CacheEntry) :
    ∀ {i : Nat}, findLoop key i es = none → ∀ e ∈ es, e.valid = true → e.key ≠ key := by
  induction es with
  | nil => intro i _ e he; cases he
  | cons e₀ rest ih =>
      intro i h e he hvalid hkey
      unfold findLoop at h
      by_cases hc : e₀.valid ∧ e₀.key = key
      · rw [if_pos hc] at h
        cases h
      · rw [if_neg hc] at h
        rcases List.mem_cons.mp he with rfl | he
        · exact hc ⟨hvalid, hkey⟩
        · exact ih h e he hvalid hkey

/-- The outcomes of a find. -/
inductive FindOutcome (c : Cache) (key : UInt64) (now : Int) : Option Nat → Cache → Prop
  | absent (h : ∀ e ∈ c.entries, e.valid = true → e.key ≠ key) : FindOutcome c key now none c
  | expired {i : Nat} {e : CacheEntry} (he : c.entries[i]? = some e) (hvalid : e.valid = true)
      (hkey : e.key = key) (hold : now - e.insertedUs > dnsCacheTtlUs) :
      FindOutcome c key now none (c.put i { e with valid := false } c.clock)
  | hit {i : Nat} {e : CacheEntry} (he : c.entries[i]? = some e) (hvalid : e.valid = true)
      (hkey : e.key = key) (hfresh : now - e.insertedUs ≤ dnsCacheTtlUs) :
      FindOutcome c key now (some i) (c.put i { e with lastUsed := c.clock + 1 } (c.clock + 1))

/-- **What a find does**, all of it. -/
theorem dnsCacheFind_outcome (c : Cache) (key : UInt64) (now : Int) :
    FindOutcome c key now (dnsCacheFind c key now).1 (dnsCacheFind c key now).2 := by
  unfold dnsCacheFind
  rcases hf : findLoop key 0 c.entries with _ | ⟨i, e⟩
  · exact .absent (findLoop_none _ hf)
  · obtain ⟨-, he, hvalid, hkey⟩ := findLoop_some _ hf
    rw [Nat.sub_zero] at he
    simp only
    by_cases hold : now - e.insertedUs > dnsCacheTtlUs
    · rw [if_pos hold]
      exact .expired he hvalid hkey hold
    · rw [if_neg hold]
      exact .hit he hvalid hkey (by omega)

/-- A hit is on a valid slot with the key, and not too old. -/
theorem dnsCacheFind_hit {c : Cache} {key : UInt64} {now : Int} {hit : Nat}
    (h : (dnsCacheFind c key now).1 = some hit) :
    ∃ e, c.entries[hit]? = some e ∧ e.valid = true ∧ e.key = key ∧
      now - e.insertedUs ≤ dnsCacheTtlUs ∧
      (dnsCacheFind c key now).2 = c.put hit { e with lastUsed := c.clock + 1 } (c.clock + 1) := by
  have hout := dnsCacheFind_outcome c key now
  rw [h] at hout
  generalize (dnsCacheFind c key now).2 = c' at hout
  cases hout with
  | hit he hvalid hkey hfresh => exact ⟨_, he, hvalid, hkey, hfresh, rfl⟩

/-- What was stored where a hit is, is still there after the find. -/
theorem dnsCacheFind_get {c : Cache} {key : UInt64} {now : Int} {hit : Nat} {e : CacheEntry}
    (h : (dnsCacheFind c key now).1 = some hit) (he : c.entries[hit]? = some e) :
    (dnsCacheFind c key now).2.entries[hit]? = some { e with lastUsed := c.clock + 1 } := by
  obtain ⟨e', he', -, -, -, hput⟩ := dnsCacheFind_hit h
  obtain rfl : e = e' := Option.some.inj (he.symm.trans he')
  have hlt := (List.getElem?_eq_some_iff.mp he).1
  rw [hput]
  exact List.getElem?_set_self hlt

/-- Two entries that hold the same answer. -/
structure CacheEntry.Same (e e' : CacheEntry) : Prop where
  key : e.key = e'.key
  insertedUs : e.insertedUs = e'.insertedUs
  data : e.data = e'.data

/-- **A find changes no answer**: what is valid after it was there before. -/
theorem mem_find {c : Cache} {key : UInt64} {now : Int} {x : CacheEntry}
    (h : x ∈ (dnsCacheFind c key now).2.entries) (hvalid : x.valid = true) :
    ∃ e ∈ c.entries, e.valid = true ∧ x.Same e := by
  have hout := dnsCacheFind_outcome c key now
  generalize (dnsCacheFind c key now).1 = hit at hout
  generalize (dnsCacheFind c key now).2 = c' at hout h
  cases hout with
  | absent => exact ⟨x, h, hvalid, rfl, rfl, rfl⟩
  | expired =>
      rcases Cache.mem_put h with rfl | h
      · cases hvalid
      · exact ⟨x, h, hvalid, rfl, rfl, rfl⟩
  | @hit i e he hvalid₀ =>
      rcases Cache.mem_put h with rfl | h
      · exact ⟨e, List.mem_of_getElem? he, hvalid₀, rfl, rfl, rfl⟩
      · exact ⟨x, h, hvalid, rfl, rfl, rfl⟩

/-- **An insert adds one answer** and changes no other. -/
theorem mem_insert {c : Cache} {key : UInt64} {data : Bytes} {now : Int} {x : CacheEntry}
    (h : x ∈ (dnsCacheInsert c key data now).entries) :
    x ∈ c.entries ∨ x.key = key ∧ x.insertedUs = now ∧ x.data = data := by
  rw [dnsCacheInsert_eq] at h
  by_cases hlen : Storable data
  · rw [if_pos hlen] at h
    rcases Cache.mem_put h with rfl | h
    · exact Or.inr ⟨rfl, rfl, rfl⟩
    · exact Or.inl h
  · rw [if_neg hlen] at h
    exact Or.inl h

/-! ### The slot an insert takes -/

theorem victimLoop_lt (es : List CacheEntry) :
    ∀ {i victim n : Nat} {oldest : UInt32}, victim < n → i + es.length ≤ n →
      victimLoop i victim oldest es < n := by
  induction es with
  | nil => intro i victim n oldest hv _; exact hv
  | cons e rest ih =>
      intro i victim n oldest hv hn
      simp only [List.length_cons] at hn
      unfold victimLoop
      by_cases hinv : (!e.valid) = true
      · rw [if_pos hinv]
        omega
      · rw [if_neg hinv]
        by_cases hlt : e.lastUsed < oldest
        · rw [if_pos hlt]
          exact ih (by omega) (by omega)
        · rw [if_neg hlt]
          exact ih hv (by omega)

theorem Cache.victim_lt (c : Cache) : c.victim < dnsCacheSize :=
  victimLoop_lt _ (by decide) (by rw [c.size, Nat.zero_add])

/-- As long as one slot is free, a free one is taken. -/
theorem victimLoop_free (es : List CacheEntry) :
    ∀ (i victim : Nat) (oldest : UInt32), (∃ e ∈ es, e.valid = false) →
      ∃ e, i ≤ victimLoop i victim oldest es ∧ es[victimLoop i victim oldest es - i]? = some e ∧
        e.valid = false := by
  induction es with
  | nil =>
      rintro i victim oldest ⟨e, he, -⟩
      cases he
  | cons e rest ih =>
      intro i victim oldest hfree
      unfold victimLoop
      by_cases hinv : (!e.valid) = true
      · rw [if_pos hinv]
        exact ⟨e, Nat.le_refl _, by simp, by simpa using hinv⟩
      · rw [if_neg hinv]
        have hrest : ∃ e ∈ rest, e.valid = false := by
          obtain ⟨e', he', hfalse⟩ := hfree
          rcases List.mem_cons.mp he' with rfl | he'
          · simp [hfalse] at hinv
          · exact ⟨e', he', hfalse⟩
        have hnext : ∀ v o, ∃ e', i ≤ victimLoop (i + 1) v o rest ∧
            (e :: rest)[victimLoop (i + 1) v o rest - i]? = some e' ∧ e'.valid = false := by
          intro v o
          obtain ⟨e', hle, hget, hfalse⟩ := ih (i + 1) v o hrest
          refine ⟨e', by omega, ?_, hfalse⟩
          rw [show victimLoop (i + 1) v o rest - i = victimLoop (i + 1) v o rest - (i + 1) + 1 by
            omega, List.getElem?_cons_succ]
          exact hget
        by_cases hlt : e.lastUsed < oldest
        · rw [if_pos hlt]
          exact hnext _ _
        · rw [if_neg hlt]
          exact hnext _ _

/-- A valid answer is displaced only from a full cache. -/
theorem Cache.full_of_victim_valid {c : Cache} {e : CacheEntry}
    (he : c.entries[c.victim]? = some e) (hvalid : e.valid = true) :
    ∀ x ∈ c.entries, x.valid = true := by
  intro x hx
  by_contra hfalse
  obtain ⟨e', -, hget, hfree⟩ :=
    victimLoop_free c.entries 0 0 0xFFFFFFFF ⟨x, hx, by simpa using hfalse⟩
  obtain rfl : e = e' := Option.some.inj (he.symm.trans hget)
  rw [hvalid] at hfree
  cases hfree

theorem init_not_valid {x : CacheEntry} (h : x ∈ Cache.init.entries) : x.valid = false := by
  rw [List.eq_of_mem_replicate h]
  rfl

end EspHole.Sinkhole
