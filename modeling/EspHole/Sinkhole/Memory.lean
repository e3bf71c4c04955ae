/-
The lock of `blocklist.c`, word by word.

Elsewhere a lookup is one step and so is the swap of a list.  Here they are what the code does:
`blocklist_contains` takes the lock, or gives up after 20 ms, reads `s_count` and then one word
of the buffer after another; `load_slot` fills and checks a buffer of its own, takes the lock to
write `s_hashes` and `s_count`, and frees the old buffer when it has given the lock back.  Calls
of any tasks may come between any two of these.

That the old buffer is then nobody's is the comment beside the `free`.  `swaps_are_safe` is the
proof, and it says what a decision is worth: a name is blocked by one list that was served
meanwhile, and passed only if each suffix was missing from one, or the lock was refused.  It
asks for counts on record whose blobs have a size of 32 bits; with any other, the order check
of `load_slot` reads past its buffer (`large_count_overruns`).
-/
import EspHole.Lib.Mutex
import EspHole.Sinkhole.Swap

namespace EspHole.Sinkhole.Memory

open Ascending Ascii Dotted Mutex

/-! ### What the lock guards -/

/-- `s_hashes` and `s_count`. -/
structure Statics where
  hashes : Option Nat
  count : Nat
  deriving DecidableEq, Repr

/-- As they are before the first load. -/
def Statics.init : Statics := ⟨none, 0⟩

/-- The list that is served: the `s_count` words at `s_hashes`, or none at all. -/
def served (r : Statics) (h : Heap UInt64) : Option (List UInt64 × List Nat) :=
  match r.hashes with
  | none => if r.count = 0 then some ([], []) else none
  | some p => (h p).bind fun ws => if ws.length = r.count then some (ws, [p]) else none

theorem served_some {r : Statics} {h : Heap UInt64} {l : List UInt64} {f : List Nat}
    (hs : served r h = some (l, f)) : l.length = r.count ∧
      (r.hashes = none ∧ l = [] ∧ f = [] ∨ ∃ p, r.hashes = some p ∧ h p = some l ∧ f = [p]) := by
  unfold served at hs
  rcases hp : r.hashes with _ | p
  · rw [hp] at hs
    simp only at hs
    split at hs
    · obtain ⟨rfl, rfl⟩ := Prod.mk.inj (Option.some.inj hs)
      exact ⟨by simp [*], Or.inl ⟨rfl, rfl, rfl⟩⟩
    · cases hs
  · rw [hp] at hs
    obtain ⟨ws, hws, hs⟩ := Option.bind_eq_some_iff.mp hs
    split at hs
    · rename_i hlen
      obtain ⟨rfl, rfl⟩ := Prod.mk.inj (Option.some.inj hs)
      exact ⟨hlen, Or.inr ⟨p, rfl, hws, rfl⟩⟩
    · cases hs

theorem served_block {r : Statics} {h : Heap UInt64} {p : Nat} {l : List UInt64}
    (hp : r.hashes = some p) (hh : h p = some l) (hlen : l.length = r.count) :
    served r h = some (l, [p]) := by
  simp [served, hp, hh, hlen]

/-- It lies in the one block that `s_hashes` points to, in strict order. -/
def layout : Layout UInt64 Statics (List UInt64) where
  object := served
  valid := Ascending
  live hs p hp := by
    rcases served_some hs with ⟨-, ⟨-, -, rfl⟩ | ⟨q, -, hq, rfl⟩⟩
    · cases hp
    · rw [List.mem_singleton.mp hp, hq]
      exact nofun
  reads {r h h' l f} hs heq := by
    rcases served_some hs with ⟨hlen, ⟨hr, rfl, rfl⟩ | ⟨q, hr, hq, rfl⟩⟩
    · simp [served, hr, ← hlen]
    · exact served_block hr ((heq q (List.mem_singleton_self q)).trans hq) hlen

/-! ### The programs -/

/-- A count whose product with 8 does not wrap.  `blocklist_commit_slot` does not ask for it. -/
def Small (count : Nat) : Prop := count * 8 < 2 ^ 32

/-- What the flash driver and NVS are taken to answer: as many bytes as were asked for, and
counts among these. -/
def Answered (counts : Nat → Prop) : (o : Op) → Res o → Prop
  | .nvsGet (.cnt _), c => ∀ n ∈ (c : Option Nat), counts n
  | .partitionRead _ n, b => ∀ buf ∈ (b : Option Bytes), buf.length = n
  | _, _ => True

/-- A program of the firmware that shares this memory: it answers whether names are blocked. -/
abbrev Task : Type → Type := Prog (Call UInt64 Statics (Bytes × Option Bool) Op) (Mutex.Res Res)

abbrev other (o : Op) : Task (Res o) := Prog.call (Call.other o)

/-- The loop of `blocklist_contains`. -/
def searchWords (hash : UInt64) (lo hi : Nat) : Task Bool :=
  if _h : lo < hi then do
    let mid := lo + (hi - lo) / 2
    let r : Statics ← Prog.call Call.get
    let v : UInt64 ← Prog.call (Call.load r.hashes mid)
    if v = hash then return true
    if v < hash then searchWords hash (mid + 1) hi else searchWords hash lo mid
  else return false
termination_by hi - lo
decreasing_by all_goals omega

/-- `blocklist_contains` -/
def blocklistContains (hash : UInt64) : Task Bool := do
  let taken : Bool ← Prog.call Call.tryTake
  if !taken then return false
  let r : Statics ← Prog.call Call.get
  let found ← searchWords hash 0 r.count
  Prog.call Call.give
  return found

/-- `is_blocked` -/
def isBlocked (name : Bytes) : Task (Option Bool) :=
  (Sinkhole.isBlocked (m := OptionT Task) (fun hash => OptionT.lift (blocklistContains hash))
    name).run

/-- What the hash reads: `n` words from the `k`-th on. -/
def readWords (p : Option Nat) : Nat → Nat → Task (List UInt64)
  | _, 0 => return []
  | k, n + 1 => do
      let w : UInt64 ← Prog.call (Call.load p k)
      return w :: (← readWords p (k + 1) n)

/-- The order check of `load_slot`: `n` neighbouring pairs, the first being words `i - 1`
and `i`. -/
def checkWords (p : Option Nat) : Nat → Nat → Task Bool
  | _, 0 => return true
  | i, n + 1 => do
      let a : UInt64 ← Prog.call (Call.load p (i - 1))
      let b : UInt64 ← Prog.call (Call.load p i)
      if b ≤ a then return false
      checkWords p (i + 1) n

/-- `fail:` -/
def giveUp (buf : Nat) (err : EspErr) : Task EspErr := do
  Prog.call (Call.free (some buf))
  return err

/-- The end of `load_slot`. -/
def swapIn (buf count : Nat) : Task EspErr := do
  Prog.call Call.take
  let r : Statics ← Prog.call Call.get
  Prog.call (Call.put fun r => { r with hashes := some buf })
  Prog.call (Call.put fun r => { r with count := count })
  Prog.call Call.give
  Prog.call (Call.free r.hashes)
  return .ok

/-- `load_slot` from the buffer on. -/
def loadBuffer (slot : Int) (count : Nat) (shaWant : Bytes) : Task EspErr := do
  let bytes := sizeT (count * 8)
  let buf? : Option Nat ← Prog.call (Call.malloc (bytes / 8))
  let some buf := buf? | return .noMem
  let some data ← other (.partitionRead slot bytes) | giveUp buf .driver
  Prog.call (Call.write (some buf) 0 (Words.words data))
  let words ← readWords (some buf) 0 (bytes / 8)
  let some shaGot ← other (.hashCompute (words.flatMap Words.encode)) | giveUp buf .fail
  if shaGot.bytes ≠ shaWant then giveUp buf .invalidCrc
  else if !(← checkWords (some buf) 1 (count - 1)) then giveUp buf .invalidState
  else swapIn buf count

/-- `load_slot` -/
def loadSlot (slot : Int) : Task EspErr := do
  let some count ← (other (.nvsGet (.cnt slot)) : Task (Option Nat)) | return .notFound
  let some shaWant ← (other (.nvsGet (.sha slot)) : Task (Option Bytes)) | return .notFound
  if shaWant.length ≠ 32 then return .notFound
  let _ ← other (.nvsGet (.ver slot))
  let some partSize := blocklistSlotPartition slot | return .notFound
  if count < blocklistMinDomains ∨ sizeT (count * 8) > partSize then return .invalidSize
  loadBuffer slot count shaWant

/-- The DNS task on one name. -/
def decide (name : Bytes) : Task Unit := do
  let since : Nat × Nat ← Prog.call Call.mark
  let blocked ← isBlocked name
  Prog.call (Call.answer since (name, blocked))

/-- The updater, or the boot, on one slot. -/
def load (slot : Int) : Task Unit := do
  let _ ← loadSlot slot

/-- The jobs of the firmware, for any task. -/
def Job (p : Task Unit) : Prop := (∃ name, p = decide name) ∨ ∃ slot, p = load slot

/-- What a decision is worth, given the lists served meanwhile and how often the lock was
refused. -/
def Right (a : Bytes × Option Bool) (lists : List (List UInt64)) (refused : Nat) : Prop :=
  match a.2 with
  | none => False
  | some true => ∃ l ∈ lists,
      Sinkhole.isBlocked (fun hash => some (Decidable.decide (hash ∈ l))) a.1 = some true
  | some false => ∀ d ∈ asked a.1, 0 < refused ∨ ∃ l ∈ lists, domainHash d ∉ l

/-! ### A lookup -/

section Triples

variable {ι : Type} [DecidableEq ι] {i : ι} {s s' : Shared UInt64 Statics (List UInt64) ι}
  {α : Type} {h : Heap UInt64}

/-- The triple of a task. -/
abbrev Does (i : ι) (Q : α → Shared UInt64 Statics (List UInt64) ι → Prop) (p : Task α)
    (s : Shared UInt64 Statics (List UInt64) ι) : Prop :=
  Mutex.Does layout (Answered Small) Right i Q p s

/-- Under the lock the search is the search of the list that is served. -/
theorem searchWords_does (hash : UInt64) {r : Statics} {l : List UInt64} {f : List Nat}
    (hl : served r h = some (l, f)) (n : Nat) :
    ∀ lo hi s, hi - lo ≤ n → hi ≤ l.length → At layout i h (some r) s →
      Does i (fun b s' => At layout i h (some r) s' ∧ Later i s s' ∧
        search (fun k => l[k]?) hash lo hi = some b) (searchWords hash lo hi) s := by
  have hnil : ∀ lo hi s, ¬ lo < hi → At layout i h (some r) s →
      Does i (fun b s' => At layout i h (some r) s' ∧ Later i s s' ∧
        search (fun k => l[k]?) hash lo hi = some b) (searchWords hash lo hi) s := by
    intro lo hi s hlt hx
    rw [searchWords, dif_neg hlt]
    refine does_pure hx fun s' hx' hlate => ⟨hx', hlate, ?_⟩
    rw [search, if_neg hlt]
  induction n with
  | zero => exact fun lo hi s hn _ hx => hnil lo hi s (by omega) hx
  | succ n ih =>
      intro lo hi s hn hhi hx
      by_cases hlt : lo < hi
      swap
      · exact hnil lo hi s hlt hx
      obtain ⟨-, ⟨-, rfl, -⟩ | ⟨p, hp, hblock, -⟩⟩ := served_some hl
      · exact absurd hhi (by simp; omega)
      have hmid : lo + (hi - lo) / 2 < l.length := by omega
      rw [searchWords, dif_pos hlt]
      refine does_get hx fun s₁ hx₁ hlate₁ => does_load hx₁ hp hblock
        (List.getElem?_eq_getElem hmid) fun s₂ hx₂ hlate₂ => ?_
      have hlate := hlate₁.trans hlate₂
      rw [search, if_pos hlt]
      simp only [List.getElem?_eq_getElem hmid]
      generalize hm : lo + (hi - lo) / 2 = mid at hmid ⊢
      have hnext : ∀ lo' hi', hi' - lo' ≤ n → hi' ≤ l.length →
          Does i (fun b s' => At layout i h (some r) s' ∧ Later i s s' ∧
            search (fun k => l[k]?) hash lo' hi' = some b) (searchWords hash lo' hi') s₂ :=
        fun lo' hi' hn' hhi' => (ih lo' hi' s₂ hn' hhi' hx₂).mono
          fun _ _ hb => ⟨hb.1, hlate.trans hb.2.1, hb.2.2⟩
      by_cases heq : l[mid] = hash
      · rw [if_pos heq, if_pos heq]
        exact does_pure hx₂ fun s' hx' hlate' => ⟨hx', hlate.trans hlate', rfl⟩
      · rw [if_neg heq, if_neg heq]
        by_cases hless : l[mid] < hash
        · rw [if_pos hless, if_pos hless]
          exact hnext (mid + 1) hi (by omega) hhi
        · rw [if_neg hless, if_neg hless]
          exact hnext lo mid (by omega) (by omega)

/-- **A lookup is one moment's**: whatever comes between its calls, it answers for one list
that was served since it began, or the lock was refused. -/
theorem blocklistContains_does (hash : UInt64) (hx : At layout i Heap.empty none s) :
    Does i (fun b s' => At layout i Heap.empty none s' ∧ Later i s s' ∧
      (b = false ∧ s.refused i < s'.refused i ∨
        ∃ l ∈ s'.served.drop (s.served.length - 1), b = Decidable.decide (hash ∈ l)))
      (blocklistContains hash) s := by
  refine does_tryTake hx (fun s₁ href hx₁ hlate₁ => ?_)
    fun s₁ r g l f hfound hlast hx₁ hlate₁ => ?_
  · refine does_pure hx₁ fun s' hx' hlate' => ⟨hx', hlate₁.trans hlate', Or.inl ⟨rfl, ?_⟩⟩
    exact Nat.lt_of_lt_of_le href hlate'.refused
  -- The list that is served when the lock is taken.
  have hmem : l ∈ s₁.served.drop (s.served.length - 1) := hlate₁.last hlast
  have hlen := (served_some hfound.object).1
  rw [Heap.empty_or] at hx₁
  refine does_get hx₁ fun s₂ hx₂ hlate₂ => does_bind ?_
  refine (searchWords_does hash hfound.object r.count 0 r.count s₂ (Nat.sub_le _ _)
    (Nat.le_of_eq hlen.symm) hx₂).mono fun b s₃ ⟨hx₃, hlate₃, hb⟩ => ?_
  refine does_give hx₃ hfound.object hfound.valid fun s₄ hx₄ hlate₄ => ?_
  rw [Heap.without_of_subset hfound.within] at hx₄
  refine does_pure hx₄ fun s₅ hx₅ hlate₅ => ?_
  have hlate := hlate₂.trans (hlate₃.trans (hlate₄.trans hlate₅))
  refine ⟨hx₅, hlate₁.trans hlate, Or.inr ⟨l, hlate.mem hmem, ?_⟩⟩
  rw [← hlen, search_spec hfound.valid fun _ _ => rfl] at hb
  exact (Option.some.inj hb).symm.trans (by congr)

/-! ### A decision -/

/-- Looking up these suffixes in turn. -/
def ask : List Bytes → Task (Option Bool)
  | [] => return some false
  | d :: rest => do
      if ← blocklistContains (domainHash d) then return some true
      ask rest

theorem isBlocked_eq (name : Bytes) : isBlocked name = ask (asked name) := by
  have hany : ∀ l : List Bytes, (l.anyM (m := OptionT Task)
      fun d => OptionT.lift (blocklistContains (domainHash d))).run = ask l := by
    intro l
    induction l with
    | nil => rfl
    | cons d rest ih =>
        rw [List.anyM, OptionT.run_bind, ask, OptionT.run_lift, Option.elimM,
          LawfulMonad.bind_assoc]
        refine bind_congr fun found => ?_
        rw [LawfulMonad.pure_bind]
        cases found with
        | true => rfl
        | false => exact ih
  unfold isBlocked
  rw [isBlocked_eq_anyM, hany]

/-- The suffix was not in some list served since, or the lock was refused. -/
def Missed (i : ι) (since : Nat × Nat) (s : Shared UInt64 Statics (List UInt64) ι) (d : Bytes) :
    Prop :=
  since.2 < s.refused i ∨ ∃ l ∈ s.served.drop (since.1 - 1), domainHash d ∉ l

omit [DecidableEq ι] in
theorem Missed.later {since : Nat × Nat} {d : Bytes} (hm : Missed i since s d)
    (hlate : Later i s s') : Missed i since s' d :=
  hm.imp (fun href => Nat.lt_of_lt_of_le href hlate.refused)
    fun ⟨l, hl, hd⟩ => ⟨l, hlate.mem hl, hd⟩

/-- One list's decision. -/
theorem isBlocked_list (l : List UInt64) (name : Bytes) :
    Sinkhole.isBlocked (fun hash => some (Decidable.decide (hash ∈ l))) name =
      some ((asked name).any fun d => Decidable.decide (domainHash d ∈ l)) := by
  rw [isBlocked_eq_anyM]
  exact anyM_some fun d _ => rfl

theorem ask_does {name : Bytes} (since : Nat × Nat) (rest : List Bytes) :
    ∀ (before : List Bytes) {s : Shared UInt64 Statics (List UInt64) ι},
      asked name = before ++ rest → At layout i Heap.empty none s →
      since.1 ≤ s.served.length → since.2 ≤ s.refused i → (∀ d ∈ before, Missed i since s d) →
      Does i (fun b s' => At layout i Heap.empty none s' ∧ ∀ s'', Later i s' s'' →
        Right (name, b) (s''.served.drop (since.1 - 1)) (s''.refused i - since.2))
        (ask rest) s := by
  induction rest with
  | nil =>
      intro before s hasked hx hlen href hmiss
      refine does_pure hx fun s' hx' hlate => ⟨hx', fun s'' hlate' d hd => ?_⟩
      rw [hasked, List.append_nil] at hd
      refine ((hmiss d hd).later (hlate.trans hlate')).imp (fun h => ?_) id
      omega
  | cons d rest ih =>
      intro before s hasked hx hlen href hmiss
      refine does_bind ?_
      refine (blocklistContains_does (domainHash d) hx).mono fun b s₁ ⟨hx₁, hlate₁, hb⟩ => ?_
      have hsub : ∀ l ∈ s₁.served.drop (s.served.length - 1),
          l ∈ s₁.served.drop (since.1 - 1) := fun l hl =>
        (List.drop_sublist_drop_left _ (by omega)).subset hl
      cases b with
      | true =>
          obtain ⟨l, hl, hd⟩ : ∃ l ∈ s₁.served.drop (s.served.length - 1), domainHash d ∈ l := by
            rcases hb with ⟨hb, -⟩ | ⟨l, hl, hb⟩
            · cases hb
            · exact ⟨l, hl, of_decide_eq_true hb.symm⟩
          refine does_pure hx₁ fun s' hx' hlate => ⟨hx', fun s'' hlate' => ?_⟩
          refine ⟨l, (hlate.trans hlate').mem (hsub l hl), ?_⟩
          rw [isBlocked_list, hasked]
          refine congrArg some (List.any_eq_true.mpr ⟨d, by simp, decide_eq_true hd⟩)
      | false =>
          refine ih (before ++ [d]) (by simp [hasked]) hx₁
            (Nat.le_trans hlen hlate₁.served.length_le) (Nat.le_trans href hlate₁.refused) ?_
          intro d' hd'
          rcases List.mem_append.mp hd' with hd' | hd'
          · exact (hmiss d' hd').later hlate₁
          · obtain rfl := List.mem_singleton.mp hd'
            rcases hb with ⟨-, hmore⟩ | ⟨l, hl, hb⟩
            · exact Or.inl (Nat.lt_of_le_of_lt href hmore)
            · exact Or.inr ⟨l, hsub l hl, of_decide_eq_false hb.symm⟩

/-- The DNS task's job fits. -/
theorem decide_fit (i : ι) (name : Bytes) : Fit layout (Answered Small) Right i (decide name) := by
  intro s hx
  unfold decide
  refine does_mark hx fun s₁ hx₁ hlate₁ => does_bind ?_
  rw [isBlocked_eq]
  refine (ask_does (s₁.served.length, s₁.refused i) (asked name) [] rfl hx₁ (Nat.le_refl _)
    (Nat.le_refl _) nofun).mono fun b s₂ ⟨hx₂, hright⟩ => ?_
  rw [← Prog.bind_pure (Prog.call _)]
  exact does_answer hx₂ hright fun s₃ hx₃ _ => does_pure hx₃ fun _ hx' _ => hx'

/-! ### A load -/

/-- One block. -/
abbrev single (p : Nat) (ws : List UInt64) : Heap UInt64 := Function.update Heap.empty p (some ws)

theorem mem_single {p q : Nat} {ws : List UInt64} (hq : single p ws q ≠ none) : q ∈ [p] := by
  by_contra hne
  exact hq (Function.update_of_ne (by simpa using hne) _ _)

theorem readWords_does {p : Nat} {ws : List UInt64} {held : Option Statics} (hp : h p = some ws)
    (n : Nat) : ∀ k s, k + n ≤ ws.length → At layout i h held s →
      Does i (fun _ s' => At layout i h held s') (readWords (some p) k n) s := by
  induction n with
  | zero => exact fun k s _ hx => does_pure hx fun _ hx' _ => hx'
  | succ n ih =>
      intro k s hk hx
      refine does_load hx rfl hp (List.getElem?_eq_getElem (by omega)) fun s₁ hx₁ _ =>
        does_bind ?_
      refine (ih (k + 1) s₁ (by omega) hx₁).mono fun _ s₂ hx₂ => ?_
      exact does_pure hx₂ fun _ hx' _ => hx'

theorem checkWords_does {p : Nat} {ws : List UInt64} {held : Option Statics} (hp : h p = some ws)
    (n : Nat) : ∀ k s, k + n ≤ max k ws.length → 1 ≤ k → At layout i h held s →
      Does i (fun b s' => At layout i h held s' ∧ check (fun j => ws[j]?) k n = some b)
        (checkWords (some p) k n) s := by
  induction n with
  | zero => exact fun k s _ _ hx => does_pure hx fun _ hx' _ => ⟨hx', rfl⟩
  | succ n ih =>
      intro k s hk hpos hx
      have hk₁ : k < ws.length := by omega
      have hk₀ : k - 1 < ws.length := by omega
      refine does_load hx rfl hp (List.getElem?_eq_getElem hk₀) fun s₁ hx₁ _ =>
        does_load hx₁ rfl hp (List.getElem?_eq_getElem hk₁) fun s₂ hx₂ _ => ?_
      rw [check]
      simp only [List.getElem?_eq_getElem hk₁, List.getElem?_eq_getElem hk₀]
      by_cases hle : ws[k] ≤ ws[k - 1]
      · rw [if_pos hle, if_pos hle]
        exact does_pure hx₂ fun _ hx' _ => ⟨hx', rfl⟩
      · rw [if_neg hle, if_neg hle]
        exact ih (k + 1) s₂ (by omega) (by omega) hx₂

theorem giveUp_does {p : Nat} {ws : List UInt64} (err : EspErr)
    (hx : At layout i (single p ws) none s) :
    Does i (fun _ s' => At layout i Heap.empty none s') (giveUp p err) s := by
  refine does_free hx (fun q hq => ?_) fun s₁ hx₁ _ => does_pure ?_ fun _ hx' _ => hx'
  · obtain rfl := Option.some.inj hq
    simp
  · rw [← Heap.without_of_subset fun q => mem_single (q := q) (p := p)]
    exact hx₁

/-- **The swap**: the list that was served is nobody else's when it is freed. -/
theorem swapIn_does {p : Nat} {ws : List UInt64} (hasc : Ascending ws)
    (hx : At layout i (single p ws) none s) :
    Does i (fun _ s' => At layout i Heap.empty none s') (swapIn p ws.length) s := by
  refine does_take hx fun s₁ r g l f hfound _ hx₁ _ => ?_
  refine does_get hx₁ fun s₂ hx₂ _ => does_put hx₂ fun s₃ hx₃ _ => does_put hx₃ fun s₄ hx₄ _ => ?_
  -- The new list is in place, beside the old one.
  have hobj : served ⟨some p, ws.length⟩ ((single p ws).or g) = some (ws, [p]) := by
    refine served_block rfl ?_ rfl
    simp [Heap.or]
  refine does_give hx₄ hobj hasc fun s₅ hx₅ _ => ?_
  rw [Heap.or_without (fun _ => mem_single) fun q hq => hfound.apart q ?_] at hx₅
  swap
  · rw [List.mem_singleton.mp hq]
    simp
  have hf : f = r.hashes.toList := by
    rcases (served_some hfound.object).2 with ⟨hr, -, rfl⟩ | ⟨q, hr, -, rfl⟩
    · rw [hr]
      rfl
    · rw [hr]
      rfl
  refine does_free hx₅ (fun q hq => ?_) fun s₆ hx₆ _ => ?_
  · refine layout.live hfound.object q ?_
    rw [hf]
    exact Option.mem_toList.mpr hq
  · rw [← hf, Heap.without_of_subset hfound.within] at hx₆
    exact does_pure hx₆ fun _ hx' _ => hx'

theorem loadBuffer_does {slot : Int} {count : Nat} {shaWant : Bytes}
    (hfloor : blocklistMinDomains ≤ count) (hsmall : count * 8 < 2 ^ 32)
    (hx : At layout i Heap.empty none s) :
    Does i (fun _ s' => At layout i Heap.empty none s') (loadBuffer slot count shaWant) s := by
  have hbytes : sizeT (count * 8) = 8 * count := by rw [sizeT_of_lt hsmall, Nat.mul_comm]
  unfold loadBuffer
  rw [hbytes]
  refine does_malloc hx (fun s₁ hx₁ _ => does_pure hx₁ fun _ hx' _ => hx')
    fun s₁ p ws _ hws hx₁ _ => ?_
  refine does_other hx₁ ⟨none, nofun⟩ fun data hdata s₂ hx₂ _ => ?_
  rcases data with _ | data
  · exact giveUp_does _ hx₂
  have hlen : (Words.words data).length = count := Words.words_length (hdata data rfl)
  refine does_write hx₂ rfl (show single p ws p = some ws from Function.update_self _ _ _) ?_
    fun s₃ hx₃ _ => ?_
  · rw [hlen, hws]
    omega
  -- The buffer now holds what was read.
  have hfill : Function.update (single p ws) p (some (ws.take 0 ++ Words.words data ++
      ws.drop (0 + (Words.words data).length))) = single p (Words.words data) := by
    rw [Function.update_idem, List.drop_eq_nil_of_le (by omega)]
    simp
  rw [hfill] at hx₃
  have hbuf : single p (Words.words data) p = some (Words.words data) := by simp
  refine does_bind ((readWords_does hbuf (8 * count / 8) 0 s₃ (by omega) hx₃).mono
    fun words s₄ hx₄ => ?_)
  refine does_other hx₄ ⟨none, trivial⟩ fun got _ s₅ hx₅ _ => ?_
  rcases got with _ | got
  · exact giveUp_does _ hx₅
  show Does i _ (if _ then _ else _) s₅
  by_cases hsha : got.bytes ≠ shaWant
  · rw [if_pos hsha]
    exact giveUp_does _ hx₅
  rw [if_neg hsha]
  unfold blocklistMinDomains at hfloor
  refine does_bind ((checkWords_does hbuf (count - 1) 1 s₅ (by omega) (Nat.le_refl 1) hx₅).mono
    fun ok s₆ ⟨hx₆, hok⟩ => ?_)
  cases ok with
  | false => exact giveUp_does _ hx₆
  | true =>
      rw [← hlen, check_spec fun _ _ => rfl] at hok
      rw [← hlen]
      exact swapIn_does (of_decide_eq_true (Option.some.inj hok)) hx₆

/-- The updater's job fits. -/
theorem load_fit (i : ι) (slot : Int) : Fit layout (Answered Small) Right i (load slot) := by
  intro s hx
  have hend : ∀ {err : EspErr} {s : Shared UInt64 Statics (List UInt64) ι},
      At layout i Heap.empty none s →
        Does i (fun _ s' => At layout i Heap.empty none s') (pure err : Task EspErr) s :=
    fun hx => does_pure hx fun _ hx' _ => hx'
  unfold load
  refine does_bind (Prog.Stable.mono ?_ fun _ s' hx' => does_pure hx' fun _ hx'' _ => hx'')
  unfold loadSlot
  refine does_other hx ⟨none, nofun⟩ fun (count : Option Nat) hcount s₁ hx₁ _ => ?_
  rcases count with _ | count
  · exact hend hx₁
  refine does_other hx₁ ⟨none, trivial⟩ fun (sha : Option Bytes) _ s₂ hx₂ _ => ?_
  rcases sha with _ | shaWant
  · exact hend hx₂
  show Does i _ (if _ then _ else _) s₂
  by_cases hsha : shaWant.length ≠ 32
  · rw [if_pos hsha]
    exact hend hx₂
  rw [if_neg hsha]
  refine does_other hx₂ ⟨none, trivial⟩ fun _ _ s₃ hx₃ _ => ?_
  rcases blocklistSlotPartition slot with _ | partSize
  · exact hend hx₃
  show Does i _ (if _ then _ else _) s₃
  by_cases hsize : count < blocklistMinDomains ∨ sizeT (count * 8) > partSize
  · rw [if_pos hsize]
    exact hend hx₃
  · rw [if_neg hsize]
    exact loadBuffer_does (not_lt.mp fun h => hsize (Or.inl h)) (hcount count rfl) hx₃

end Triples

/-! ### All of it together -/

theorem job_fit {ι : Type} [DecidableEq ι] (i : ι) {p : Task Unit} (hp : Job p) :
    Fit layout (Answered Small) Right i p := by
  rcases hp with ⟨name, rfl⟩ | ⟨slot, rfl⟩
  · exact decide_fit i name
  · exact load_fit i slot

/-- Any tasks, each taking up one job after another, with counts among these on record. -/
abbrev Reach (counts : Nat → Prop) {ι : Type} [DecidableEq ι] :
    Tasks.Config (Call UInt64 Statics (Bytes × Option Bool) Op) (Mutex.Res Res)
      (Shared UInt64 Statics (List UInt64) ι) ι → Prop :=
  (tasks layout (Answered counts) fun _ => Job).Reach (start Statics.init [])

/-- **Lists are swapped and freed under running lookups, and nothing goes wrong**, in any
interleaving of any tasks, while the counts on record are small: no word is read or written
outside a buffer that is allocated, nothing is freed twice, no two tasks are about to touch one
buffer.  Every decision is right about the lists served meanwhile.  When all are idle the list
that is served is the only buffer there is, and until then some task can go on. -/
theorem swaps_are_safe {ι : Type} [DecidableEq ι] {c : Tasks.Config
    (Call UInt64 Statics (Bytes × Option Bool) Op) (Mutex.Res Res)
    (Shared UInt64 Statics (List UInt64) ι) ι} (hr : Reach Small c) :
    Sound layout (Answered Small) Right c :=
  reach_sound (fun i _ hp => job_fit i hp) rfl List.Pairwise.nil hr

/-! ### A load that goes through, and one that runs over -/

section Runs

variable {ι : Type} [DecidableEq ι] {K : Nat → Prop} {i : ι}
  {s : Shared UInt64 Statics (List UInt64) ι} {p : Nat} {ws : List UInt64}

/-- What a call of a task does. -/
abbrev Moves (K : Nat → Prop) (i : ι) : Prog.StepRel
    (Call UInt64 Statics (Bytes × Option Bool) Op) (Mutex.Res Res)
      (Shared UInt64 Statics (List UInt64) ι) :=
  Mutex.Step layout (Answered K) i

theorem readWords_leads (hp : s.block p = some ws) (n : Nat) : ∀ k, k + n ≤ ws.length →
    (readWords (some p) k n).Leads (Moves K i) s ((ws.drop k).take n) s := by
  induction n with
  | zero => exact fun k _ => Prog.leads_pure _ s
  | succ n ih =>
      intro k hk
      have hlt : k < ws.length := by omega
      have hback := Prog.leads_backwards (Moves K i) ((ws.drop k).take (n + 1)) s
      refine hback.call_bind (.load hp (List.getElem?_eq_getElem hlt))
        (hback.bind ?_ (ih (k + 1) (by omega)))
      rw [List.drop_eq_getElem_cons hlt, List.take_succ_cons]
      exact Prog.leads_pure _ s

theorem checkWords_leads (hp : s.block p = some ws) (n : Nat) : ∀ k b,
    check (fun j => ws[j]?) k n = some b →
      (checkWords (some p) k n).Leads (Moves K i) s b s := by
  induction n with
  | zero =>
      intro k b hb
      obtain rfl := Option.some.inj hb
      exact Prog.leads_pure _ s
  | succ n ih =>
      intro k b hb
      rw [check] at hb
      rcases ha : ws[k - 1]? with _ | v
      · simp [ha] at hb
      rcases hc : ws[k]? with _ | w
      · simp [ha, hc] at hb
      simp only [ha, hc] at hb
      have hback := Prog.leads_backwards (Moves K i) b s
      refine hback.call_bind (.load hp ha) (hback.call_bind (.load hp hc) ?_)
      by_cases hle : w ≤ v
      · rw [if_pos hle] at hb ⊢
        obtain rfl := Option.some.inj hb
        exact Prog.leads_pure _ s
      · rw [if_neg hle] at hb ⊢
        exact ih (k + 1) b hb

/-- Asked about more words than there are, the check of an ordered list reads past them. -/
theorem checkWords_overruns (hp : s.block p = some ws) (hasc : Ascending ws) (n : Nat) : ∀ k,
    1 ≤ k → 0 < n → ws.length < k + n → ∃ j, ws.length ≤ j ∧
      (checkWords (some p) k n).Gets (Moves K i) s (.load (some p) j) s := by
  induction n with
  | zero => exact fun _ _ hn => absurd hn (Nat.lt_irrefl 0)
  | succ n ih =>
      intro k hk _ hlen
      by_cases hprev : ws.length ≤ k - 1
      · exact ⟨k - 1, hprev, .here⟩
      have ha := List.getElem?_eq_getElem (by omega : k - 1 < ws.length)
      by_cases hnext : ws.length ≤ k
      · exact ⟨k, hnext, .there (.load hp ha) .here⟩
      have hb := List.getElem?_eq_getElem (by omega : k < ws.length)
      obtain ⟨j, hj, hgets⟩ := ih (k + 1) (by omega) (by omega) (by omega)
      refine ⟨j, hj, .there (.load hp ha) (.there (.load hp hb) ?_)⟩
      have hlt : ws[k - 1] < ws[k] := List.pairwise_iff_getElem.mp hasc _ _ _ _ (by omega)
      show Prog.Gets _ (if _ then _ else _) s _ s
      rwa [if_neg (not_le.mpr hlt)]

omit [DecidableEq ι] in
theorem alloc_block (s : Shared UInt64 Statics (List UInt64) ι) :
    (s.alloc i p ws).block p = some ws := Function.update_self ..

/-- A buffer is allocated, and filled. -/
theorem fill_steps (ws : List UInt64) (hp : s.block p = none) :
    Moves K i s (.malloc ws.length) (some p) (s.alloc i p (List.replicate ws.length 0)) ∧
    Moves K i (s.alloc i p (List.replicate ws.length 0)) (.write (some p) 0 ws) ()
      (s.alloc i p ws) := by
  refine ⟨?_, ?_⟩
  · have hstep : Moves K i s (.malloc (List.replicate ws.length (0 : UInt64)).length) (some p)
        (s.alloc i p (List.replicate ws.length 0)) := .malloc hp
    rwa [List.length_replicate] at hstep
  · have hstep : Moves K i (s.alloc i p (List.replicate ws.length 0)) (.write (some p) 0 ws) ()
        ((s.alloc i p (List.replicate ws.length 0)).setBlock p (some
          ((List.replicate ws.length (0 : UInt64)).take 0 ++ ws ++
            (List.replicate ws.length 0).drop (0 + ws.length)))) := .write (alloc_block s)
    have hfill : (s.alloc i p (List.replicate ws.length 0)).setBlock p (some
        ((List.replicate ws.length (0 : UInt64)).take 0 ++ ws ++
          (List.replicate ws.length 0).drop (0 + ws.length))) = s.alloc i p ws := by
      rw [List.drop_eq_nil_of_le (by simp)]
      simp [Shared.setBlock, Shared.alloc]
    rwa [hfill] at hstep

/-- What `load_slot` goes on with once its buffer has the right digest. -/
def checkIn (buf count : Nat) : Task EspErr := do
  if !(← checkWords (some buf) 1 (count - 1)) then giveUp buf .invalidState
  else swapIn buf count

/-- With the words of the blob in a new buffer, a load is at its order check. -/
theorem loadSlot_fills {R : Task EspErr → Shared UInt64 Statics (List UInt64) ι → Prop}
    (hR : Prog.Backwards (Moves K i) R) {slot : Int} {count : Nat} (hcount : K count)
    (hslot : blocklistSlotPartition slot = some slotSize) (hfloor : blocklistMinDomains ≤ count)
    (hsize : sizeT (count * 8) = 8 * ws.length) (hfits : 8 * ws.length ≤ slotSize)
    (hp : s.block p = none) (h : R (checkIn p count) (s.alloc i p ws)) :
    R (loadSlot slot) s := by
  have hwords : Words.words (ws.flatMap Words.encode) = ws := Words.words_encode ws
  have hblock : (s.alloc i p ws).block p = some ws := alloc_block s
  let digest : Digest := Vector.replicate 32 0
  unfold loadSlot
  refine hR.call_bind (.other (a := some count) fun n hn => Option.some.inj hn ▸ hcount) ?_
  refine hR.call_bind (.other (a := some digest.bytes) trivial) ?_
  have hlen : ¬ digest.bytes.length ≠ 32 := by simp
  show R (if digest.bytes.length ≠ 32 then _ else _) s
  rw [if_neg hlen]
  refine hR.call_bind (.other (a := none) trivial) ?_
  simp only [hslot]
  have hroom : ¬ (count < blocklistMinDomains ∨ sizeT (count * 8) > slotSize) := by
    rw [hsize]
    omega
  show R (if count < blocklistMinDomains ∨ sizeT (count * 8) > slotSize then _ else _) s
  rw [if_neg hroom]
  unfold loadBuffer
  dsimp only
  rw [hsize, Nat.mul_div_cancel_left _ (by decide)]
  obtain ⟨hmalloc, hwrite⟩ := fill_steps (K := K) (i := i) ws hp
  refine hR.call_bind hmalloc (hR.call_bind (.other (a := some (ws.flatMap Words.encode)) ?_) ?_)
  · rintro buf ⟨⟩
    exact Words.flatMap_encode_length ws
  dsimp only
  rw [hwords]
  refine hR.call_bind hwrite (hR.bind ?_ (readWords_leads hblock ws.length 0 (by omega)))
  refine hR.call_bind (.other (a := some digest) trivial) ?_
  show R (if digest.bytes ≠ digest.bytes then _ else _) _
  rw [if_neg (not_not_intro rfl)]
  exact h

/-- A load has put this list into this block, in place of what was served. -/
structure Replaced (s : Shared UInt64 Statics (List UInt64) ι) (p : Nat) (ws : List UInt64)
    (s' : Shared UInt64 Statics (List UInt64) ι) : Prop where
  holder : s'.holder = none
  statics : s'.statics = ⟨some p, ws.length⟩
  block : s'.block p = some ws
  freed : ∀ q ∈ s.statics.hashes, s'.block q = none
  others : ∀ q, q ≠ p → s.block q = none → s'.block q = none
  served : s'.served = s.served ++ [ws]
  refused : s'.refused = s.refused

/-- The order check of an ordered list passes, and the swap puts it in place. -/
theorem checkIn_leads (hfree : s.holder = none) (hp : s.block p = none)
    (hold : ∀ q ∈ s.statics.hashes, s.block q ≠ none) (hasc : Ascending ws) :
    ∃ s', (checkIn p ws.length).Leads (Moves K i) (s.alloc i p ws) .ok s' ∧
      Replaced s p ws s' := by
  have hblock : (s.alloc i p ws).block p = some ws := alloc_block s
  have hcheck := checkWords_leads (K := K) (i := i) hblock (ws.length - 1) 1 _
    (check_spec fun _ _ => rfl)
  rw [decide_eq_true hasc] at hcheck
  let s₁ : Shared UInt64 Statics (List UInt64) ι :=
    { s.alloc i p ws with holder := some i, statics := ⟨some p, ws.length⟩ }
  have hsees : s₁.sees i p = some ws :=
    (if_pos (Or.inl (Function.update_self ..))).trans hblock
  have hgive : Moves K i s₁ .give () (s₁.given i ws [p]) :=
    .give (served_block (r := ⟨some p, ws.length⟩) rfl hsees rfl)
  have hrest : ∀ (s' : Shared UInt64 Statics (List UInt64) ι),
      Moves K i (s₁.given i ws [p]) (.free s.statics.hashes) () s' →
        (checkIn p ws.length).Leads (Moves K i) (s.alloc i p ws) .ok s' := by
    intro s' hs'
    have hback := Prog.leads_backwards (Moves K i) EspErr.ok s'
    unfold checkIn
    refine hback.bind ?_ hcheck
    show (swapIn p ws.length).Leads _ _ _ _
    refine hback.call_bind (.take hfree) (hback.call_bind .get (hback.call_bind .put
      (hback.call_bind .put (hback.call_bind hgive (hback.call_bind hs' ?_)))))
    exact Prog.leads_pure _ s'
  rcases hq : s.statics.hashes with _ | q
  · rw [hq] at hrest
    refine ⟨_, hrest _ .freeNull, ⟨rfl, rfl, hblock, by simp [hq], fun q hqp hnone => ?_, rfl, rfl⟩⟩
    exact (Function.update_of_ne hqp ..).trans hnone
  · rw [hq] at hrest
    have hne : p ≠ q := by
      rintro rfl
      exact hold p hq hp
    refine ⟨_, hrest _ .free, ⟨rfl, rfl, (Function.update_of_ne hne ..).trans hblock, ?_, ?_, rfl,
      rfl⟩⟩
    · intro q' hq'
      obtain rfl := Option.some.inj (hq.symm.trans hq')
      exact Function.update_self ..
    · intro q' hqp hnone
      by_cases hqq : q' = q
      · subst hqq
        exact Function.update_self ..
      · exact (Function.update_of_ne hqq ..).trans ((Function.update_of_ne hqp ..).trans hnone)

/-- **A load that meets no failure serves its list**, and frees what was served before. -/
theorem load_leads (slot : Int) (ws : List UInt64)
    (hslot : blocklistSlotPartition slot = some slotSize) (hcount : K ws.length)
    (hfloor : blocklistMinDomains ≤ ws.length) (hfits : 8 * ws.length ≤ slotSize)
    (hasc : Ascending ws) (hfree : s.holder = none) (hp : s.block p = none)
    (hold : ∀ q ∈ s.statics.hashes, s.block q ≠ none) :
    ∃ s', (load slot).Leads (Moves K i) s () s' ∧ Replaced s p ws s' := by
  obtain ⟨s', hleads, hdone⟩ := checkIn_leads (K := K) (i := i) hfree hp hold hasc
  have hsize : sizeT (ws.length * 8) = 8 * ws.length := by
    unfold slotSize at hfits
    rw [sizeT_of_lt (by omega), Nat.mul_comm]
  have hload := loadSlot_fills (Prog.leads_backwards _ EspErr.ok s') hcount hslot hfloor hsize hfits
    hp hleads
  refine ⟨s', ?_, hdone⟩
  show (loadSlot slot >>= fun _ => pure ()).Leads _ s () s'
  exact (Prog.leads_backwards _ () s').bind (f := fun _ => pure ()) (Prog.leads_pure () s') hload

/-- A lookup that gets the lock comes to read a word of the list. -/
theorem blocklistContains_gets (hash : UInt64) (hfree : s.holder = none)
    (hpos : 0 < s.statics.count) : (blocklistContains hash).Gets (Moves K i) s
      (.load s.statics.hashes (0 + (s.statics.count - 0) / 2)) { s with holder := some i } := by
  have hsearch : (searchWords hash 0 s.statics.count).Gets (Moves K i)
      { s with holder := some i } (.load s.statics.hashes (0 + (s.statics.count - 0) / 2))
      { s with holder := some i } := by
    rw [searchWords, dif_pos hpos]
    exact .there .get .here
  exact .there (.taken hfree) (.there .get hsearch.bind)

end Runs

/-- **A count that is not small breaks this**: where its product with 8 wraps to a size that a
slot has, a load of that slot reads past its buffer, and nothing has kept such a count from
being recorded. -/
theorem large_count_overruns {count : Nat} (hcount : count < 2 ^ 32) (hlarge : ¬ Small count)
    (hfits : sizeT (count * 8) ≤ slotSize) : ∃ c, Reach (ι := Unit) (· = count) c ∧
      ¬ Sound layout (Answered (· = count)) Right c := by
  have hlarge : 2 ^ 32 ≤ count * 8 := Nat.not_lt.mp hlarge
  have hsize : sizeT (count * 8) = 8 * (entries (count % 2 ^ 29)).length := by
    rw [entries_length]
    unfold sizeT
    omega
  have hlen : (entries (count % 2 ^ 29)).length < count := by
    rw [entries_length]
    omega
  have hfloor : blocklistMinDomains ≤ count := by
    unfold blocklistMinDomains
    omega
  have hasc : Ascending (entries (count % 2 ^ 29)) := entries_ascending (by omega)
  let s : Shared UInt64 Statics (List UInt64) Unit := Shared.init Statics.init []
  have hblock : (s.alloc () 0 (entries (count % 2 ^ 29))).block 0 =
      some (entries (count % 2 ^ 29)) := alloc_block s
  obtain ⟨j, hj, hgets⟩ := checkWords_overruns (K := (· = count)) (i := ()) hblock hasc
    (count - 1) 1 (Nat.le_refl 1) (by omega) (by omega)
  have hload : (loadSlot 0).Gets (Moves (· = count) ()) s (.load (some 0) j)
      (s.alloc () 0 (entries (count % 2 ^ 29))) :=
    loadSlot_fills (Prog.gets_backwards _ _) rfl rfl hfloor hsize (hsize ▸ hfits) rfl hgets.bind
  have hnext := Relation.ReflTransGen.single
    (r := Tasks.Step (tasks layout (Answered (· = count)) fun _ => Job))
    (.next (c := start Statics.init []) (i := ()) rfl (Or.inr ⟨0, rfl⟩))
  have hjob : (load 0).Gets (Moves (· = count) ()) s (.load (some 0) j)
      (s.alloc () 0 (entries (count % 2 ^ 29))) := hload.bind
  obtain ⟨c, hr, hstate, hcalls⟩ := Tasks.reach_gets (i := ())
    (t := tasks layout (Answered (· = count)) fun _ => Job) hjob
    (c := ⟨s, Function.update (fun _ => pure ()) () (load 0)⟩) rfl rfl
  refine ⟨c, hnext.trans hr, fun hsound => ?_⟩
  obtain ⟨q, ws, hq, hws, hlt⟩ := hsound.loads hcalls
  obtain rfl := Option.some.inj hq
  rw [hstate, hblock] at hws
  obtain rfl := Option.some.inj hws
  omega

/-- A decision is under way while a load replaces the list: it was refused the lock over the
first, which is freed, and now reads the second. -/
theorem lookup_beside_load : ∃ c, Reach Small (ι := Bool) c ∧ c.state.holder = some true ∧
    c.state.served = [[], entries 10000, entries 10001] ∧ c.state.block 0 = none ∧
    c.Calls true (.load (some 1) 5000) ∧ Sound layout (Answered Small) Right c := by
  have hask : decide (ascii "www.a.b") = Prog.call Call.mark >>= fun since =>
      ask [ascii "www.a.b", ascii "a.b"] >>= fun blocked =>
        Prog.call (Call.answer since (ascii "www.a.b", blocked)) := by
    unfold decide
    rw [isBlocked_eq, show asked (ascii "www.a.b") = [ascii "www.a.b", ascii "a.b"] by
      decide +kernel]
  -- The first list is loaded, with nothing beside.
  obtain ⟨s₁, hload₁, hdone₁⟩ := load_leads (K := Small) (i := false)
    (s := Shared.init Statics.init []) (p := 0) 0 (entries 10000) rfl
    (by simp [Small]) (by simp [blocklistMinDomains]) (by simp [slotSize])
    (entries_ascending (by decide)) rfl rfl nofun
  have h₁ := Relation.ReflTransGen.single
    (r := Tasks.Step (tasks layout (Answered Small) fun _ => Job))
    (.next (c := start Statics.init []) (i := false) rfl (Or.inr ⟨0, rfl⟩))
  have h₂ := h₁.trans (Tasks.reach_leads (i := false) hload₁ rfl)
  -- A decision begins, and is refused the lock.
  have h₃ := h₂.tail (.next (i := true) rfl (Or.inl ⟨ascii "www.a.b", rfl⟩))
  rw [hask] at h₃
  have h₄ := (h₃.tail (.call (i := true) rfl .mark)).tail (.call (i := true) rfl .refused)
  -- Meanwhile the second list takes the first one's place.
  have h₅ := h₄.tail (.next (i := false) rfl (Or.inr ⟨1, rfl⟩))
  obtain ⟨s₂, hload₂, hdone₂⟩ := load_leads (K := Small) (i := false)
    (s := { s₁ with refused := Function.update s₁.refused true (s₁.refused true + 1) })
    (p := 1) 1 (entries 10001) rfl
    (by simp [Small]) (by simp [blocklistMinDomains]) (by simp [slotSize])
    (entries_ascending (by decide)) hdone₁.holder (hdone₁.others 1 (by decide) rfl)
    (fun q hq => by
      obtain rfl : 0 = q := Option.some.inj (by simpa [hdone₁.statics] using hq)
      simp [hdone₁.block])
  have h₆ := h₅.trans (Tasks.reach_leads (i := false) hload₂ rfl)
  -- The decision goes on over the second.
  have hcount : 0 < s₂.statics.count := by
    rw [hdone₂.statics]
    simp
  have hgets : (ask [ascii "a.b"]).Gets (Moves Small true) s₂
      (.load s₂.statics.hashes (0 + (s₂.statics.count - 0) / 2))
      { s₂ with holder := some true } :=
    (blocklistContains_gets _ hdone₂.holder hcount).bind
  have hgo : ∀ {c₂}, Reach Small c₂ → c₂.state = s₂ → c₂.prog true = (ask [ascii "a.b"] >>=
      fun blocked => Prog.call (Call.answer (s₁.served.length, s₁.refused true)
        (ascii "www.a.b", blocked))) → ∃ c, Reach Small c ∧
          c.state = { s₂ with holder := some true } ∧
            c.Calls true (.load s₂.statics.hashes (0 + (s₂.statics.count - 0) / 2)) := by
    intro c₂ hr₂ hstate hprog
    obtain ⟨c, hr, hdone⟩ := Tasks.reach_gets (t := tasks layout (Answered Small) fun _ => Job)
      (hgets.bind (f := fun blocked => Prog.call (Call.answer (s₁.served.length, s₁.refused true)
        (ascii "www.a.b", blocked)))) hstate hprog
    exact ⟨c, hr₂.trans hr, hdone⟩
  obtain ⟨c, h₇, hstate, hcalls⟩ := hgo h₆ rfl rfl
  refine ⟨c, h₇, by rw [hstate], ?_, ?_, ?_, swaps_are_safe h₇⟩
  · rw [hstate]
    show s₂.served = _
    rw [hdone₂.served]
    show s₁.served ++ _ = _
    rw [hdone₁.served]
    rfl
  · rw [hstate]
    exact hdone₂.freed 0 (by simp [hdone₁.statics])
  · rw [hdone₂.statics] at hcalls
    rw [entries_length] at hcalls
    exact hcalls

end EspHole.Sinkhole.Memory
