/-
What a download accepts, and where it writes.

The body of an answer comes in chunks and ends, or breaks off; `download_to_slot` programs
each chunk before it knows whether the whole is what was announced.  `download_exact` is
about any such answer and any failing calls: the download succeeds on the announced body
and on nothing else, and wherever it stops, it has written inside the range it erased, and
nowhere twice.

The partition driver says how large a sector is.  `downloadInto` has the sector size as an
argument and rounds the erased range with the source's mask; at the size of this device it
is `downloadToSlot`.
-/
import EspHole.Sinkhole.Poll

namespace EspHole.Sinkhole

/-! ### The erased range -/

/-- `erase_sz` as the source has it, in 32 bits: `(size + sector - 1) & ~(sector - 1)`. -/
def eraseSz (sector size : Nat) : Nat :=
  (UInt32.ofNat (size + sector - 1) &&& ~~~UInt32.ofNat (sector - 1)).toNat

/-- A mask of ones above bit `k` rounds down to a multiple of `2 ^ k`. -/
theorem and_mask {x k n : Nat} (hx : x < 2 ^ n) (hk : k ≤ n) :
    x &&& (2 ^ n - 1 - (2 ^ k - 1)) = x / 2 ^ k * 2 ^ k := by
  have hmask : 2 ^ n - 1 - (2 ^ k - 1) = 2 ^ n - ((2 ^ k - 1) + 1) := by omega
  have hpos := Nat.two_pow_pos k
  have hle : 2 ^ k ≤ 2 ^ n := Nat.pow_le_pow_right (by decide) hk
  rw [hmask, ← Nat.shiftRight_eq_div_pow, ← Nat.shiftLeft_eq]
  refine Nat.eq_of_testBit_eq fun i => ?_
  rw [Nat.testBit_and, Nat.testBit_two_pow_sub_succ (by omega), Nat.testBit_two_pow_sub_one,
    Nat.testBit_shiftLeft, Nat.testBit_shiftRight]
  by_cases hi : i < k
  · simp [hi]
  · have hsum : k + (i - k) = i := by omega
    by_cases hin : i < n
    · have hki : k ≤ i := by omega
      simp [hi, hin, hsum, hki]
    · have hhigh : x.testBit i = false :=
        Nat.testBit_lt_two_pow (lt_of_lt_of_le hx (Nat.pow_le_pow_right (by decide) (by omega)))
      simp [hi, hhigh, hsum]

/-- On a sector size that is a power of two, the mask rounds the size up to whole sectors. -/
theorem eraseSz_eq {k size : Nat} (hk : k ≤ 32) (h : size + 2 ^ k - 1 < 2 ^ 32) :
    eraseSz (2 ^ k) size = (size + 2 ^ k - 1) / 2 ^ k * 2 ^ k := by
  have hle : 2 ^ k ≤ 2 ^ 32 := Nat.pow_le_pow_right (by decide) hk
  have hpos := Nat.two_pow_pos k
  have hsmall : 2 ^ k - 1 < 2 ^ 32 := by omega
  have hsize : UInt32.size = 2 ^ 32 := rfl
  unfold eraseSz
  rw [UInt32.toNat_and, UInt32.toNat_not, UInt32.toNat_ofNat_of_lt' h,
    UInt32.toNat_ofNat_of_lt' hsmall, hsize]
  exact and_mask h hk

theorem slotSize_sector {k : Nat} (hdvd : 2 ^ k ∣ slotSize) : k ≤ 21 := by
  by_contra hk
  have h22 : 2 ^ 22 ∣ slotSize := (pow_dvd_pow 2 (by omega)).trans hdvd
  exact absurd h22 (by decide)

/-- Where the sectors divide the partition, what is erased for a size that fits the partition
covers the size and stays in the partition. -/
theorem eraseSz_bounds {k size : Nat} (hdvd : 2 ^ k ∣ slotSize) (hsize : size ≤ slotSize) :
    size ≤ eraseSz (2 ^ k) size ∧ eraseSz (2 ^ k) size ≤ slotSize := by
  have hk := slotSize_sector hdvd
  have hle : 2 ^ k ≤ 2 ^ 21 := Nat.pow_le_pow_right (by decide) hk
  have hpos := Nat.two_pow_pos k
  have hslot : slotSize = 14680064 := rfl
  rw [eraseSz_eq (by omega) (by omega)]
  constructor
  · have hmod := Nat.mod_lt (size + 2 ^ k - 1) hpos
    have hdiv := Nat.div_add_mod' (size + 2 ^ k - 1) (2 ^ k)
    omega
  · obtain ⟨q, hq⟩ := hdvd
    have hdiv : (size + 2 ^ k - 1) / 2 ^ k ≤ q := by
      refine Nat.lt_succ_iff.mp ((Nat.div_lt_iff_lt_mul hpos).mpr ?_)
      rw [Nat.succ_mul, Nat.mul_comm q]
      omega
    calc (size + 2 ^ k - 1) / 2 ^ k * 2 ^ k ≤ q * 2 ^ k := Nat.mul_le_mul_right _ hdiv
      _ = slotSize := by rw [hq, Nat.mul_comm]

/-- `download_to_slot` on a partition with sectors of this size. -/
def downloadInto (sector : Nat) (m : Manifest) (slot : Int) : Code EspErr := do
  let some partSize := blocklistSlotPartition slot | return .notFound
  if m.size > partSize then return .invalidSize
  if !(← partitionErase slot (eraseSz sector m.size)) then return .driver
  if !(← httpInit m.url) then return .noMem
  if !(← hashSetup) then return .fail
  if !(← httpOpen) then return .driver
  if (← httpStatus) ≠ 200 then return .fail
  match ← downloadLoop m slot [] with
  | .error e => return e
  | .ok fed =>
      if fed.length ≠ m.size then return .invalidSize
      let some shaGot ← hashCompute fed | return .fail
      if shaGot ≠ m.sha256 then return .invalidCrc
      return .ok

/-- The sectors of this device. -/
theorem downloadInto_eraseSize : downloadInto eraseSize = downloadToSlot := by
  funext m slot
  unfold downloadInto downloadToSlot
  rcases hpart : blocklistSlotPartition slot with _ | partSize
  · rfl
  obtain ⟨-, rfl⟩ := blocklistSlotPartition_some hpart
  show (if _ then _ else _) = (if _ then _ else _)
  by_cases hbig : m.size > slotSize
  · rw [if_pos hbig, if_pos hbig]
  have hslot : slotSize = 14680064 := rfl
  have hrange : eraseSz eraseSize m.size = eraseRange m.size :=
    eraseSz_eq (k := 12) (by decide) (by omega)
  rewrite [if_neg hbig, if_neg hbig, hrange]
  rfl

/-! ### An answer that comes in chunks -/

/-- The reads of an answer: one chunk after another, and then its end, or an error where the
answer breaks off. -/
def Feeds (broken : Bool) (s : World) : (o : Op) → Res o → World → Prop
  | .httpRead room, r, s' => s'.inbox = (readInbox room s.inbox).2 ∧
      r = if broken = true ∧ s.inbox = [] then none else some (readInbox room s.inbox).1
  | _, _, s' => s'.inbox = s.inbox

/-- How a call may answer while this answer is read: any call may fail, but flash keeps what
was written. -/
def Streams (sha256 : Bytes → Digest) (broken : Bool) (s : World) (o : Op) (r : Res o)
    (s' : World) : Prop :=
  Answers sha256 anyRead s o r s' ∧ Feeds broken s o r s'

/-- A call did what it was made for: a flash or hash call did not fail, and a request was
granted. -/
def Op.Succeeded : (o : Op) → Res o → Prop
  | .partitionErase _ _, ok | .partitionWrite _ _ _, ok => ok = true
  | .hashSetup, ok | .hashUpdate _, ok => ok = true
  | .hashCompute _, digest => digest ≠ none
  | .httpInit _, ok | .httpOpen, ok => ok = true
  | .httpStatus, status => status = 200
  | _, _ => True

/-- The calls of a download, with their answers. -/
abbrev Calls : Type := List (Σ o, Res o)

/-- Every call did. -/
def AllSucceeded (calls : Calls) : Prop := ∀ c ∈ calls, c.1.Succeeded c.2

@[simp] theorem allSucceeded_nil : AllSucceeded [] := nofun

@[simp] theorem allSucceeded_cons {c : Σ o, Res o} {calls : Calls} :
    AllSucceeded (c :: calls) ↔ c.1.Succeeded c.2 ∧ AllSucceeded calls :=
  List.forall_mem_cons

@[simp] theorem allSucceeded_append {calls calls' : Calls} :
    AllSucceeded (calls ++ calls') ↔ AllSucceeded calls ∧ AllSucceeded calls' :=
  List.forall_mem_append

/-- A write as it was asked for: its slot, and from where to where. -/
structure Span where
  slot : Int
  lo : Nat
  hi : Nat

/-- The range a call programs. -/
def Op.span : Op → Option Span
  | .partitionWrite slot off data => some ⟨slot, off, off + data.length⟩
  | _ => none

/-- The writes among some calls, in order. -/
def spans (calls : Calls) : List Span := calls.filterMap fun c => c.1.span

/-- A call that erases. -/
def Op.erases : Op → Bool
  | .partitionErase _ _ => true
  | _ => false

/-- Calls that erase nothing, and write one range after another in `[lo, hi)` of a slot. -/
structure Laid (slot : Int) (lo hi : Nat) (calls : Calls) : Prop where
  unerased : ∀ c ∈ calls, c.1.erases = false
  inside : ∀ w ∈ spans calls, w.slot = slot ∧ lo ≤ w.lo ∧ w.hi ≤ hi
  apart : (spans calls).Pairwise fun w w' => w.hi ≤ w'.lo

theorem Laid.nil {slot : Int} {lo hi : Nat} : Laid slot lo hi [] := ⟨nofun, nofun, .nil⟩

/-- A call that is neither. -/
theorem Laid.cons {slot : Int} {lo hi : Nat} {o : Op} {r : Res o} {calls : Calls}
    (h : Laid slot lo hi calls) (he : o.erases = false) (hw : o.span = none) :
    Laid slot lo hi (⟨o, r⟩ :: calls) := by
  have hspans : spans (⟨o, r⟩ :: calls) = spans calls := List.filterMap_cons_none hw
  refine ⟨List.forall_mem_cons.mpr ⟨he, h.unerased⟩, ?_, ?_⟩
  · rw [hspans]
    exact h.inside
  · rw [hspans]
    exact h.apart

/-- A write, and what comes after it. -/
theorem Laid.write {slot : Int} {lo hi : Nat} {data : Bytes} {ok : Bool} {calls : Calls}
    (h : Laid slot (lo + data.length) hi calls) (hfits : lo + data.length ≤ hi) :
    Laid slot lo hi (⟨.partitionWrite slot lo data, ok⟩ :: calls) := by
  have hspans : spans (⟨.partitionWrite slot lo data, ok⟩ :: calls) =
      ⟨slot, lo, lo + data.length⟩ :: spans calls := List.filterMap_cons_some rfl
  refine ⟨List.forall_mem_cons.mpr ⟨rfl, h.unerased⟩, ?_, ?_⟩
  · rw [hspans]
    refine List.forall_mem_cons.mpr ⟨⟨rfl, Nat.le_refl _, hfits⟩, fun w hw => ?_⟩
    obtain ⟨hslot, hlo, hhi⟩ := h.inside w hw
    exact ⟨hslot, by omega, hhi⟩
  · rw [hspans]
    exact List.pairwise_cons.mpr ⟨fun w hw => (h.inside w hw).2.1, h.apart⟩

/-- The request that a download makes before it reads. -/
theorem Laid.request {slot : Int} {lo hi : Nat} {url : Bytes} {inits hashes opens : Bool}
    {status : Nat} {calls : Calls} (h : Laid slot lo hi calls) :
    Laid slot lo hi (⟨.httpInit url, inits⟩ :: ⟨.hashSetup, hashes⟩ :: ⟨.httpOpen, opens⟩ ::
      ⟨.httpStatus, status⟩ :: calls) :=
  (((h.cons rfl rfl).cons rfl rfl).cons rfl rfl).cons rfl rfl

/-- Such a call at the end. -/
theorem Laid.snoc {slot : Int} {lo hi : Nat} {o : Op} {r : Res o} {calls : Calls}
    (h : Laid slot lo hi calls) (he : o.erases = false) (hw : o.span = none) :
    Laid slot lo hi (calls ++ [⟨o, r⟩]) := by
  have hlast : spans [⟨o, r⟩] = [] := List.filterMap_cons_none hw
  have hspans : spans (calls ++ [⟨o, r⟩]) = spans calls := by
    rw [spans, List.filterMap_append]
    exact (congrArg (spans calls ++ ·) hlast).trans (List.append_nil _)
  refine ⟨List.forall_mem_append.mpr ⟨h.unerased, List.forall_mem_singleton.mpr he⟩, ?_, ?_⟩
  · rw [hspans]
    exact h.inside
  · rw [hspans]
    exact h.apart

/-- A wider range. -/
theorem Laid.mono {slot : Int} {lo hi hi' : Nat} {calls : Calls} (h : Laid slot lo hi calls)
    (hle : hi ≤ hi') : Laid slot lo hi' calls :=
  ⟨h.unerased, fun w hw => ⟨(h.inside w hw).1, (h.inside w hw).2.1, (h.inside w hw).2.2.trans hle⟩,
    h.apart⟩

/-- Nothing changed but a range of a slot from its start. -/
structure World.Within (slot : Int) (range : Nat) (s s' : World) : Prop where
  nvs : s'.nvs = s.nvs
  ram : s'.ram = s.ram
  flash : ∀ sl a, sl ≠ slot ∨ range ≤ a → s'.flash sl a = s.flash sl a

theorem World.Within.trans {slot : Int} {range : Nat} {s s' s'' : World}
    (h : s.Within slot range s') (h' : s'.Within slot range s'') : s.Within slot range s'' :=
  ⟨h'.nvs.trans h.nvs, h'.ram.trans h.ram,
    fun sl a ha => (h'.flash sl a ha).trans (h.flash sl a ha)⟩

theorem World.Within.mono {slot : Int} {range range' : Nat} {s s' : World}
    (h : s.Within slot range s') (hle : range ≤ range') : s.Within slot range' s' :=
  ⟨h.nvs, h.ram, fun sl a ha => h.flash sl a (ha.imp_right fun hlo => hle.trans hlo)⟩

theorem World.Still.within {s s' : World} (h : s.Still False s') (slot : Int) (range : Nat) :
    s.Within slot range s' :=
  ⟨h.nvs, h.ram, fun sl a _ => by rw [h.flash not_false]⟩

theorem World.Touches.within {slot : Int} {lo hi range : Nat} {s s' : World}
    (h : s.Touches False slot lo hi s') (hhi : hi ≤ range) : s.Within slot range s' := by
  refine ⟨h.nvs, h.ram, fun sl a ha => h.flash not_false sl a ?_⟩
  rcases ha with hsl | ha
  · exact Or.inl hsl
  · exact Or.inr (Or.inr (by omega))

section Verdict

variable {sha256 : Bytes → Digest} {broken : Bool} {m : Manifest} {slot : Int} {s s' : World}

/-- A call outside flash, while the answer is not read. -/
theorem Streams.still {o : Op} {r : Res o} (h : Streams sha256 broken s o r s')
    (ho : o.reads = true) : s.Still False s' := h.1.still ho

/-- How the read loop can end, after `fed` was taken in. -/
structure LoopEnds (broken : Bool) (m : Manifest) (slot : Int) (fed : Bytes) (s : World)
    (calls : Calls) (r : Except EspErr Bytes) (s' : World) : Prop where
  laid : Laid slot fed.length m.size calls
  within : s.Within slot m.size s'
  verdict : (∃ fed', r = .ok fed') ↔
    AllSucceeded calls ∧ broken = false ∧ (fed ++ s.inbox.flatten).length ≤ m.size
  content : ∀ fed', r = .ok fed' → fed' = fed ++ s.inbox.flatten ∧ Filled s' slot fed' m.size
  error : ∀ e, r = .error e → e ≠ .ok

/-- The loop gave up after these calls. -/
theorem LoopEnds.stop {fed : Bytes} {calls : Calls} {e : EspErr}
    (hlaid : Laid slot fed.length m.size calls) (hwithin : s.Within slot m.size s') (he : e ≠ .ok)
    (hbad : ¬ (AllSucceeded calls ∧ broken = false ∧
      (fed ++ s.inbox.flatten).length ≤ m.size)) :
    LoopEnds broken m slot fed s calls (.error e) s' :=
  ⟨hlaid, hwithin, ⟨(by rintro ⟨_, ⟨⟩⟩), fun h => absurd h hbad⟩, (by rintro _ ⟨⟩),
    by rintro _ ⟨⟩; exact he⟩

/-- **The read loop on any answer**: one chunk is one step, whatever its length. -/
theorem downloadLoop_ends (chunks : List Bytes) :
    ∀ (fed : Bytes) (s : World), s.inbox = chunks → (∀ c ∈ chunks, c ≠ []) →
      (∀ c ∈ chunks, c.length ≤ chunkSize) → fed.length ≤ m.size → Filled s slot fed m.size →
      ∀ calls r s', (downloadLoop m slot fed).Exec (Streams sha256 broken) s calls r s' →
        LoopEnds broken m slot fed s calls r s' := by
  induction chunks with
  | nil =>
      intro fed s hinbox _ _ hroom hfill
      rw [downloadLoop]
      refine Prog.exec_call_bind.mpr fun (r : Option Bytes) s₁ h₁ => ?_
      have hw₁ := (h₁.still rfl).within slot m.size
      have hfill₁ := hfill.congr ((h₁.still rfl).flash not_false)
      have hr := h₁.2.2
      rw [hinbox] at hr
      cases broken with
      | true =>
          obtain rfl := hr.trans (if_pos ⟨rfl, rfl⟩)
          refine Prog.exec_pure.mpr ?_
          exact .stop (Laid.nil.cons rfl rfl) hw₁ (by decide) (fun h => by cases h.2.1)
      | false =>
          obtain rfl := hr.trans (if_neg (by simp))
          refine Prog.exec_pure.mpr ?_
          refine ⟨Laid.nil.cons rfl rfl, hw₁, ?_, ?_, by rintro _ ⟨⟩⟩
          · simp [Op.Succeeded, hinbox, hroom]
          · rintro fed' ⟨⟩
            exact ⟨by simp [hinbox], hfill₁⟩
  | cons c chunks ih =>
      intro fed s hinbox hne hlen hroom hfill
      obtain ⟨b, bs, rfl⟩ := List.exists_cons_of_ne_nil (hne c List.mem_cons_self)
      rw [downloadLoop]
      refine Prog.exec_call_bind.mpr fun (r : Option Bytes) s₁ h₁ => ?_
      have hw₁ := (h₁.still rfl).within slot m.size
      have hfill₁ := hfill.congr ((h₁.still rfl).flash not_false)
      have hread : readInbox chunkSize s.inbox = (b :: bs, chunks) := by
        rw [hinbox]
        exact if_pos (hlen _ List.mem_cons_self)
      have hinbox₁ : s₁.inbox = chunks := h₁.2.1.trans (congrArg Prod.snd hread)
      have hr : r = some (readInbox chunkSize s.inbox).1 :=
        h₁.2.2.trans (if_neg (by simp [hinbox]))
      rw [hread] at hr
      subst hr
      have hall : (fed ++ s.inbox.flatten).length =
          fed.length + (b :: bs).length + chunks.flatten.length := by
        rw [hinbox, List.flatten_cons, List.length_append, List.length_append, Nat.add_assoc]
      dsimp only
      by_cases hbig : fed.length + (b :: bs).length > m.size
      · rw [dif_pos hbig]
        refine Prog.exec_pure.mpr ?_
        exact .stop (Laid.nil.cons rfl rfl) hw₁ (by decide) (fun h => by omega)
      rw [dif_neg hbig]
      refine Prog.exec_call_bind.mpr fun (ok : Bool) s₂ h₂ => ?_
      have hw₂ := hw₁.trans ((h₂.still rfl).within slot m.size)
      have hfill₂ := hfill₁.congr ((h₂.still rfl).flash not_false)
      cases ok with
      | false =>
          refine Prog.exec_pure.mpr ?_
          refine .stop ((Laid.nil.cons rfl rfl).cons rfl rfl) hw₂ (by decide) fun h => ?_
          simp [Op.Succeeded] at h
      | true =>
      refine Prog.exec_call_bind.mpr fun (ok : Bool) s₃ h₃ => ?_
      have hw₃ := hw₂.trans (h₃.1.1.within (by omega))
      cases ok with
      | false =>
          refine Prog.exec_pure.mpr ?_
          refine .stop (((Laid.nil.write (by omega)).cons rfl rfl).cons rfl rfl) hw₃ (by decide)
            fun h => ?_
          simp [Op.Succeeded] at h
      | true =>
      have hinbox₃ : s₃.inbox = chunks := h₃.2.trans (h₂.2.trans hinbox₁)
      have hfill₃ : Filled s₃ slot (fed ++ b :: bs) m.size :=
        (hfill₂.program (b :: bs)).congr (h₃.1.2 rfl not_false)
      intro calls r s' hx
      have hrest := ih (fed ++ b :: bs) s₃ hinbox₃ (fun d hd => hne d (List.mem_cons_of_mem _ hd))
        (fun d hd => hlen d (List.mem_cons_of_mem _ hd))
        (by rw [List.length_append]; omega) hfill₃ calls r s' hx
      have hbody : fed ++ b :: bs ++ s₃.inbox.flatten = fed ++ s.inbox.flatten := by
        rw [hinbox₃, hinbox, List.flatten_cons, List.append_assoc]
      have hlaid := hrest.laid
      rw [List.length_append] at hlaid
      refine ⟨((hlaid.write (by omega)).cons rfl rfl).cons rfl rfl, hw₃.trans hrest.within, ?_, ?_,
        hrest.error⟩
      · rw [hrest.verdict, hbody]
        simp [Op.Succeeded]
      · rw [← hbody]
        exact hrest.content

/-- The checks at the end, of what was taken in. -/
def checkFed (m : Manifest) (fed : Bytes) : Code EspErr := do
  if fed.length ≠ m.size then return .invalidSize
  let some shaGot ← hashCompute fed | return .fail
  if shaGot ≠ m.sha256 then return .invalidCrc
  return .ok

/-- How they can end. -/
structure CheckEnds (sha256 : Bytes → Digest) (m : Manifest) (fed : Bytes) (s : World)
    (calls : Calls) (e : EspErr) (s' : World) : Prop where
  verdict : e = .ok ↔ AllSucceeded calls ∧ fed.length = m.size ∧ sha256 fed = m.sha256
  laid : ∀ slot lo hi before, Laid slot lo hi before → Laid slot lo hi (before ++ calls)
  still : s.Still False s'

/-- They pass what has the announced size and digest, if the digest can be computed. -/
theorem checkFed_ends (fed : Bytes) :
    ∀ calls e s', (checkFed m fed).Exec (Streams sha256 broken) s calls e s' →
      CheckEnds sha256 m fed s calls e s' := by
  have hnone : ∀ slot lo hi before, Laid slot lo hi before → Laid slot lo hi (before ++ []) := by
    intro slot lo hi before h
    rwa [List.append_nil]
  unfold checkFed
  by_cases hshort : fed.length ≠ m.size
  · rw [if_pos hshort]
    refine Prog.exec_pure.mpr ⟨⟨(by rintro ⟨⟩), fun h => absurd h.2.1 hshort⟩, hnone, .refl s⟩
  rw [if_neg hshort]
  refine Prog.exec_call_bind.mpr fun (got : Option Digest) s₁ h₁ => ?_
  have hlaid : ∀ slot lo hi before, Laid slot lo hi before →
      Laid slot lo hi (before ++ [⟨.hashCompute fed, got⟩]) :=
    fun _ _ _ _ h => h.snoc rfl rfl
  rcases got with _ | got
  · refine Prog.exec_pure.mpr ⟨⟨(by rintro ⟨⟩), fun h => ?_⟩, hlaid, h₁.still rfl⟩
    simp [Op.Succeeded] at h
  have hgot : got = sha256 fed := by
    rcases h₁.1.2.2 with heq | hf
    · exact Option.some.inj heq
    · cases hf.2
  subst hgot
  dsimp only
  by_cases hdig : sha256 fed ≠ m.sha256
  · rw [if_pos hdig]
    exact Prog.exec_pure.mpr ⟨⟨(by rintro ⟨⟩), fun h => absurd h.2.2 hdig⟩, hlaid, h₁.still rfl⟩
  rw [if_neg hdig]
  refine Prog.exec_pure.mpr ⟨⟨fun _ => ⟨?_, not_not.mp hshort, not_not.mp hdig⟩, fun _ => rfl⟩,
    hlaid, h₁.still rfl⟩
  simp [Op.Succeeded]

/-- How a download can end, from a state where the answer waits in the inbox. -/
structure DownloadEnds (sha256 : Bytes → Digest) (sector : Nat) (broken : Bool) (m : Manifest)
    (slot : Int) (s : World) (calls : Calls) (e : EspErr) (s' : World) : Prop where
  verdict : e = .ok ↔ AllSucceeded calls ∧ broken = false ∧ s.inbox.flatten.length = m.size ∧
    sha256 s.inbox.flatten = m.sha256
  content : e = .ok → s'.slotBytes slot m.size = s.inbox.flatten
  erased : ∃ ok rest, calls = ⟨.partitionErase slot (eraseSz sector m.size), ok⟩ :: rest ∧
    Laid slot 0 (eraseSz sector m.size) rest
  range : eraseSz sector m.size ≤ slotSize
  within : s.Within slot (eraseSz sector m.size) s'

/-- The download gave up after these calls. -/
theorem DownloadEnds.stop {sector : Nat} {ok : Bool} {rest : Calls} {e : EspErr}
    (hrange : eraseSz sector m.size ≤ slotSize) (hwithin : s.Within slot (eraseSz sector m.size) s')
    (hlaid : Laid slot 0 (eraseSz sector m.size) rest) (he : e ≠ .ok)
    (hbad : AllSucceeded (⟨.partitionErase slot (eraseSz sector m.size), ok⟩ :: rest) →
      broken = false → s.inbox.flatten.length = m.size → sha256 s.inbox.flatten ≠ m.sha256) :
    DownloadEnds sha256 sector broken m slot s
      (⟨.partitionErase slot (eraseSz sector m.size), ok⟩ :: rest) e s' :=
  ⟨⟨fun h => absurd h he, fun h => absurd h.2.2.2 (hbad h.1 h.2.1 h.2.2.1)⟩,
    fun h => absurd h he, ⟨ok, rest, rfl, hlaid⟩, hrange, hwithin⟩

/-- **`download_to_slot` accepts exactly the announced blob**, from any answer in any chunks
and with any calls failing, and it writes only where it has erased, once. -/
theorem download_exact {k : Nat} (hdvd : 2 ^ k ∣ slotSize) (hslot : IsSlot slot)
    (hsize : m.size ≤ slotSize) (hchunks : ∀ c ∈ s.inbox, c ≠ [] ∧ c.length ≤ chunkSize) :
    ∀ calls e s', (downloadInto (2 ^ k) m slot).Exec (Streams sha256 broken) s calls e s' →
      DownloadEnds sha256 (2 ^ k) broken m slot s calls e s' := by
  obtain ⟨hcover, hrange⟩ := eraseSz_bounds hdvd hsize
  have hbig : ¬ m.size > slotSize := by omega
  unfold downloadInto
  rw [blocklistSlotPartition_isSlot hslot]
  dsimp only
  rw [if_neg hbig]
  refine Prog.exec_call_bind.mpr fun (ok : Bool) s₁ h₁ => ?_
  have hw₁ := h₁.1.1.within (Nat.le_refl (eraseSz (2 ^ k) m.size))
  have hlaid : Laid slot 0 (eraseSz (2 ^ k) m.size) [] := .nil
  cases ok with
  | false =>
      refine Prog.exec_pure.mpr ?_
      exact .stop hrange hw₁ hlaid (by decide) (fun h => by simp [Op.Succeeded] at h)
  | true =>
  have hfill₁ : Filled s₁ slot [] m.size := fun a ha =>
    h₁.1.2 rfl not_false a (lt_of_lt_of_le ha hcover)
  refine Prog.exec_call_bind.mpr fun (ok : Bool) s₂ h₂ => ?_
  have hw₂ := hw₁.trans ((h₂.still rfl).within slot _)
  cases ok with
  | false =>
      refine Prog.exec_pure.mpr ?_
      refine .stop hrange hw₂ (hlaid.cons rfl rfl) (by decide) fun h => ?_
      simp [Op.Succeeded] at h
  | true =>
  refine Prog.exec_call_bind.mpr fun (ok : Bool) s₃ h₃ => ?_
  have hw₃ := hw₂.trans ((h₃.still rfl).within slot _)
  cases ok with
  | false =>
      refine Prog.exec_pure.mpr ?_
      refine .stop hrange hw₃ ((hlaid.cons rfl rfl).cons rfl rfl) (by decide) fun h => ?_
      simp [Op.Succeeded] at h
  | true =>
  refine Prog.exec_call_bind.mpr fun (ok : Bool) s₄ h₄ => ?_
  have hw₄ := hw₃.trans ((h₄.still rfl).within slot _)
  cases ok with
  | false =>
      refine Prog.exec_pure.mpr ?_
      refine .stop hrange hw₄ (((hlaid.cons rfl rfl).cons rfl rfl).cons rfl rfl) (by decide)
        fun h => ?_
      simp [Op.Succeeded] at h
  | true =>
  refine Prog.exec_call_bind.mpr fun (status : Nat) s₅ h₅ => ?_
  have hw₅ := hw₄.trans ((h₅.still rfl).within slot _)
  by_cases hst : status ≠ 200
  · rw [if_pos hst]
    refine Prog.exec_pure.mpr ?_
    refine .stop hrange hw₅ hlaid.request
      (by decide) fun h => ?_
    simp [Op.Succeeded, hst] at h
  rw [if_neg hst]
  have hinbox : s₅.inbox = s.inbox :=
    h₅.2.trans (h₄.2.trans (h₃.2.trans (h₂.2.trans h₁.2)))
  have hfill₅ : Filled s₅ slot [] m.size :=
    (((hfill₁.congr ((h₂.still rfl).flash not_false)).congr ((h₃.still rfl).flash not_false)).congr
      ((h₄.still rfl).flash not_false)).congr ((h₅.still rfl).flash not_false)
  refine Prog.exec_bind fun calls r s₆ h₆ => ?_
  have hend := downloadLoop_ends s.inbox [] s₅ hinbox (fun c hc => (hchunks c hc).1)
    (fun c hc => (hchunks c hc).2) (Nat.zero_le _) hfill₅ calls r s₆ h₆
  have hverdict := hend.verdict
  rw [List.nil_append, hinbox] at hverdict
  have hw₆ := hw₅.trans (hend.within.mono hcover)
  have hlaid₆ := hend.laid.mono hcover
  rcases r with e | fed
  · refine Prog.exec_pure.mpr ?_
    rw [List.append_nil]
    refine .stop hrange hw₆ hlaid₆.request
      (hend.error e rfl) fun hall hb hlen => ?_
    simp only [allSucceeded_cons] at hall
    obtain ⟨fed', h⟩ := hverdict.mpr ⟨hall.2.2.2.2.2, hb, hlen.le⟩
    cases h
  obtain ⟨rfl, hfill₆⟩ := hend.content fed rfl
  obtain ⟨hall₆, hb, -⟩ := hverdict.mp ⟨_, rfl⟩
  rw [List.nil_append, hinbox] at hfill₆ ⊢
  intro calls' e s₇ hx
  have hcheck := checkFed_ends s.inbox.flatten calls' e s₇ hx
  refine ⟨?_, fun he => ?_, ⟨_, _, rfl, (hcheck.laid _ _ _ _ hlaid₆).request⟩, hrange,
    hw₆.trans (hcheck.still.within slot _)⟩
  · rw [hcheck.verdict]
    simp [Op.Succeeded, hall₆, hb, not_not.mp hst]
  · exact (hfill₆.congr (hcheck.still.flash not_false)).slotBytes (hcheck.verdict.mp he).2.1

/-- An answer that `handle` computes where nothing fails is one of a whole answer. -/
theorem handle_streams {o : Op} {r : Res o} (h : handle sha256 noFailure o s = some (r, s')) :
    Streams sha256 false s o r s' := by
  refine ⟨handle_anyFailure h, ?_⟩
  cases o with
  | httpRead room =>
      obtain ⟨rfl, rfl⟩ := Prod.mk.inj (Option.some.inj h)
      exact ⟨rfl, (if_neg (by simp)).symm⟩
  | fault => cases h
  | _ =>
      obtain ⟨rfl, rfl⟩ := Prod.mk.inj (Option.some.inj h)
      rfl

/-- It differs from `downloadToSlot` in what it erases, not in the calls it can make. -/
theorem downloadInto_only {P : Op → Prop} (hP : ∀ o, Op.downloads o = true → P o) (sector : Nat) :
    (downloadInto sector m slot).Only P := by
  have h := downloadToSlot_only hP m slot
  unfold downloadToSlot at h
  unfold downloadInto
  rcases hpart : blocklistSlotPartition slot with _ | partSize
  · trivial
  · rw [hpart] at h
    dsimp only at h ⊢
    by_cases hbig : m.size > partSize
    · rw [if_pos hbig]
      trivial
    · rw [if_neg hbig] at h ⊢
      exact ⟨hP _ rfl, h.2⟩

/-- Each of its calls comes back, also where the answer has broken off. -/
theorem streams_back {o : Op} (ho : o.downloads = true) :
    ∃ r s', Streams sha256 broken s o r s' := by
  have hwhole : ∃ r s', Streams sha256 false s o r s' := by
    cases o with
    | fault => cases ho
    | _ => exact ⟨_, _, handle_streams rfl⟩
  obtain ⟨r, s', hanswers, hfeeds⟩ := hwhole
  cases o with
  | httpRead room =>
      by_cases hend : broken = true ∧ s.inbox = []
      · refine ⟨none, s, ⟨.refl s, nofun⟩, ?_, (if_pos hend).symm⟩
        rw [hend.2]
        rfl
      · refine ⟨r, s', hanswers, hfeeds.1, hfeeds.2.trans ?_⟩
        rw [if_neg (by simp), if_neg hend]
  | _ => exact ⟨r, s', hanswers, hfeeds⟩

/-- Every execution of a download returns, whatever the answer is and whatever fails. -/
theorem download_returns (sector : Nat) : (downloadInto sector m slot).Comes
    (Streams sha256 broken) (fun p _ => ∃ e, p = Pure.pure e) s :=
  (downloadInto_only (fun _ ho => ho) sector).comes fun _ _ => streams_back

/-- A whole answer of the announced size and digest can be taken. -/
theorem download_runs (hslot : IsSlot slot) (hfits : m.size ≤ slotSize)
    (hchunks : ∀ c ∈ s.inbox, c ≠ [] ∧ c.length ≤ chunkSize)
    (hsize : s.inbox.flatten.length = m.size) (hdigest : sha256 s.inbox.flatten = m.sha256) :
    ∃ calls s', (downloadInto eraseSize m slot).Exec (Streams sha256 false) s calls .ok s' := by
  have hdelivers : Delivers noFailure := fun _ _ => rfl
  have hrun := downloadToSlot_run hdelivers hslot hfits ⟨hchunks, Or.inr ⟨rfl, rfl⟩⟩ hsize hdigest
  rw [← downloadInto_eraseSize] at hrun
  obtain ⟨calls, hx⟩ := Prog.exec_of_run (h := handle sha256 noFailure)
    (fun _ _ _ _ h => handle_streams h) hrun
  exact ⟨calls, _, hx⟩

/-- Three bytes in two chunks. -/
theorem download_exact_three : ∃ calls s', DownloadEnds (fun _ => Vector.replicate 32 0) (2 ^ 12)
    false ⟨[], [], 3, 0, Vector.replicate 32 0⟩ 1
    ⟨fun _ _ => 0, fun _ => none, Ram.init, [[1, 2], [3]], [], []⟩ calls .ok s' := by
  have hslot : IsSlot 1 := by decide
  have hruns : ∃ calls s', (downloadInto eraseSize ⟨[], [], 3, 0, Vector.replicate 32 0⟩ 1).Exec
      (Streams (fun _ => Vector.replicate 32 0) false)
      ⟨fun _ _ => 0, fun _ => none, Ram.init, [[1, 2], [3]], [], []⟩ calls .ok s' :=
    download_runs hslot (by decide) (by decide) (by decide) rfl
  obtain ⟨calls, s', hx⟩ := hruns
  exact ⟨calls, s', download_exact (k := 12) (by decide) hslot (by decide) (by decide) calls _ _ hx⟩

end Verdict

end EspHole.Sinkhole
