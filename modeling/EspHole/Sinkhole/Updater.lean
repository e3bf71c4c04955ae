/-
The updater: `fetch_manifest`, `download_to_slot` and `check_once` of `main/updater.c`.

One update is a manifest, a download into the slot that is not served, and a commit.
The download is verified twice, here as it streams and again by `load_slot` from flash.
`checkOnce_safe` says that every call of an update, on every path and under any fault
model, is one that `Disciplined` allows.
-/
import EspHole.Sinkhole.Blocklist

namespace EspHole.Sinkhole

open Ascii

/-- `sizeof(s_manifest) - 1` -/
def manifestRoom : Nat := 2047

/-- `sizeof(s_chunk)` -/
def chunkSize : Nat := 4096

/-- `part->erase_size` -/
def eraseSize : Nat := 4096

/-- The read loop of `fetch_manifest`, with `room` bytes of the buffer left. -/
def fetchLoop (room : Nat) (body : Bytes) : Code (Option Bytes) :=
  if _h : room = 0 then return some body
  else do
    match ← (httpRead room : Code (Option Bytes)) with
    | none => return none
    | some [] => return some body
    | some (c :: cs) => fetchLoop (room - (c :: cs).length) (body ++ c :: cs)
termination_by room
decreasing_by simp; omega

/-- `fetch_manifest`: the body, or `none` for -1. -/
def fetchManifest (url : Bytes) : Code (Option Bytes) := do
  if !(← httpInit url) then return none
  if !(← httpOpen) then return none
  if (← httpStatus) ≠ 200 then return none
  fetchLoop manifestRoom []

/-- The loop of `download_to_slot`.  `fed` is what the hash has seen, and its length is
`written`, which stays below the slot size, so the sum does not wrap. -/
def downloadLoop (m : Manifest) (slot : Int) (fed : Bytes) : Code (Except EspErr Bytes) := do
  match ← (httpRead chunkSize : Code (Option Bytes)) with
  | none => return .error .fail
  | some [] => return .ok fed
  | some (c :: cs) =>
      if _h : fed.length + (c :: cs).length > m.size then return .error .invalidSize
      else
        if !(← hashUpdate (c :: cs)) then return .error .fail
        if !(← partitionWrite slot fed.length (c :: cs)) then return .error .driver
        downloadLoop m slot (fed ++ c :: cs)
termination_by m.size - fed.length
decreasing_by simp at _h ⊢; omega

/-- The range `download_to_slot` erases: the size, rounded up to whole sectors. -/
def eraseRange (size : Nat) : Nat := (size + eraseSize - 1) / eraseSize * eraseSize

/-- `download_to_slot` -/
def downloadToSlot (m : Manifest) (slot : Int) : Code EspErr := do
  let some partSize := blocklistSlotPartition slot | return .notFound
  if m.size > partSize then return .invalidSize
  if !(← partitionErase slot (eraseRange m.size)) then return .driver
  if !(← httpInit m.url) then return .noMem
  if !(← hashSetup) then return .fail
  if !(← httpOpen) then return .driver
  if (← httpStatus) ≠ 200 then return .fail
  match ← downloadLoop m slot [] with
  | .error e => return e
  | .ok fed =>
      if fed.length ≠ m.size then return .invalidSize
      let some shaGot ← hashCompute fed | return .fail
      if shaGot ≠ m.sha256 then return .invalidCrc
      return .ok

/-- The part of `check_once` after the manifest was accepted. -/
def applyManifest (m : Manifest) : Code Unit := do
  let ram ← getRam
  if blocklistActiveVersion ram = m.version then return ()
  let slot := blocklistInactiveSlot ram
  announce m
  let err ← downloadToSlot m slot
  if err = .ok then
    let _ ← blocklistCommitSlot slot m.count m.sha256 m.version
    return ()
  return ()

/-- `check_once` -/
def checkOnce (cjsonParse : Bytes → Option Json) (manifestUrl : Bytes) : Code Unit := do
  match ← fetchManifest manifestUrl with
  | none => return ()
  | some [] => return ()
  | some (c :: cs) =>
      match parseManifest cjsonParse (cstr (c :: cs)) with
      | none => return ()
      | some m => applyManifest m

/-! ### What an update does -/

section Triples

variable {sha256 : Bytes → Digest} {F : Faults}

/-- Everything but flash is as it was. -/
structure World.Kept (s s' : World) : Prop where
  nvs : s'.nvs = s.nvs
  ram : s'.ram = s.ram
  log : s'.log = s.log
  hashed : s.hashed ⊆ s'.hashed

theorem World.Kept.refl (s : World) : s.Kept s := ⟨rfl, rfl, rfl, List.Subset.refl _⟩

theorem World.Kept.trans {s s' s'' : World} (h : s.Kept s') (h' : s'.Kept s'') : s.Kept s'' :=
  ⟨h'.nvs.trans h.nvs, h'.ram.trans h.ram, h'.log.trans h.log,
    List.Subset.trans h.hashed h'.hashed⟩

theorem World.Still.kept {rot : Prop} {s s' : World} (h : s.Still rot s') : s.Kept s' :=
  ⟨h.nvs, h.ram, h.log, h.hashed⟩

theorem World.Touches.kept {rot : Prop} {slot : Int} {lo hi : Nat} {s s' : World}
    (h : s.Touches rot slot lo hi s') : s.Kept s' := ⟨h.nvs, h.ram, h.log, h.hashed⟩

/-- A call that only reads keeps everything but rotting flash. -/
theorem Answers.kept {s s' : World} {o : Op} {r : Res o} (h : Answers sha256 F s o r s')
    (ho : o.reads = true) : s.Kept s' := (h.still ho).kept

/-- The calls of an update outside its commit. -/
abbrev QuietGuard (sha256 : Bytes → Digest) (F : Faults) (s : World) (o : Op) : Prop :=
  Disciplined sha256 F.rot s o ∧ o.relabels = false

theorem fetchLoop_safe (room : Nat) : ∀ (body : Bytes) (s : World),
    (fetchLoop room body).Safe (Answers sha256 F) (QuietGuard sha256 F)
      (fun _ s' => s.Kept s') s := by
  induction room using Nat.strong_induction_on with
  | _ room ih =>
      intro body s
      rw [fetchLoop]
      by_cases h0 : room = 0
      · rw [dif_pos h0]
        exact .refl s
      · rw [dif_neg h0]
        refine Prog.safe_call_bind.mpr ⟨⟨trivial, rfl⟩, fun (r : Option Bytes) s₁ h₁ => ?_⟩
        have hs₁ := h₁.kept rfl
        match r with
        | none => exact hs₁
        | some [] => exact hs₁
        | some (c :: cs) =>
            exact (ih _ (by simp; omega) _ s₁).post fun _ _ h => hs₁.trans h

theorem fetchManifest_safe (url : Bytes) (s : World) :
    (fetchManifest url).Safe (Answers sha256 F) (QuietGuard sha256 F)
      (fun _ s' => s.Kept s') s := by
  unfold fetchManifest
  refine Prog.safe_call_bind.mpr ⟨⟨trivial, rfl⟩, fun (ok : Bool) s₁ h₁ => ?_⟩
  have hs₁ := h₁.kept rfl
  cases ok with
  | false => exact hs₁
  | true =>
      refine Prog.safe_call_bind.mpr ⟨⟨trivial, rfl⟩, fun (ok : Bool) s₂ h₂ => ?_⟩
      have hs₂ := hs₁.trans (h₂.kept rfl)
      cases ok with
      | false => exact hs₂
      | true =>
          refine Prog.safe_call_bind.mpr ⟨⟨trivial, rfl⟩, fun (status : Nat) s₃ h₃ => ?_⟩
          have hs₃ := hs₂.trans (h₃.kept rfl)
          show Prog.Safe _ _ _ (if _ then _ else _) s₃
          by_cases hst : status ≠ 200
          · rw [if_pos hst]
            exact hs₃
          · rw [if_neg hst]
            exact (fetchLoop_safe _ _ s₃).post fun _ _ h => hs₃.trans h

/-- The download loop writes only to its slot, which is not the one being served. -/
theorem downloadLoop_safe {m : Manifest} {slot : Int} (hslot : IsSlot slot) (left : Nat) :
    ∀ (fed : Bytes) (s : World), m.size - fed.length = left → slot ≠ s.ram.active →
      (downloadLoop m slot fed).Safe (Answers sha256 F) (QuietGuard sha256 F)
        (fun r s' => s.Kept s' ∧ ∀ e, r = .error e → e ≠ .ok) s := by
  induction left using Nat.strong_induction_on with
  | _ left ih =>
      intro fed s hleft hact
      rw [downloadLoop]
      refine Prog.safe_call_bind.mpr ⟨⟨trivial, rfl⟩, fun (r : Option Bytes) s₁ h₁ => ?_⟩
      have hs₁ := h₁.kept rfl
      match r with
      | none => exact ⟨hs₁, by rintro e ⟨⟩; decide⟩
      | some [] => exact ⟨hs₁, by rintro e ⟨⟩⟩
      | some (c :: cs) =>
          show Prog.Safe _ _ _ (if _ : _ then _ else _) s₁
          by_cases hbig : fed.length + (c :: cs).length > m.size
          · rw [dif_pos hbig]
            exact ⟨hs₁, by rintro e ⟨⟩; decide⟩
          rw [dif_neg hbig]
          refine Prog.safe_call_bind.mpr ⟨⟨trivial, rfl⟩, fun (ok : Bool) s₂ h₂ => ?_⟩
          have hs₂ := hs₁.trans (h₂.kept rfl)
          cases ok with
          | false => exact ⟨hs₂, by rintro e ⟨⟩; decide⟩
          | true =>
              refine Prog.safe_call_bind.mpr ⟨⟨⟨hslot, by rw [hs₂.ram]; exact hact⟩, rfl⟩,
                fun (ok : Bool) s₃ h₃ => ?_⟩
              have hs₃ := hs₂.trans h₃.1.kept
              cases ok with
              | false => exact ⟨hs₃, by rintro e ⟨⟩; decide⟩
              | true =>
                  have hact₃ : slot ≠ s₃.ram.active := by rw [hs₃.ram]; exact hact
                  exact (ih _ (by simp at hbig ⊢; omega) _ s₃ rfl hact₃).post
                    fun _ _ h => ⟨hs₃.trans h.1, h.2⟩

/-- **`download_to_slot` on every path**: it succeeds only on a blob of the announced size
and digest. -/
theorem downloadToSlot_safe {m : Manifest} {slot : Int} {s : World} (hact : slot ≠ s.ram.active) :
    (downloadToSlot m slot).Safe (Answers sha256 F) (QuietGuard sha256 F)
      (fun e s' => s.Kept s' ∧
        (e = .ok → ∃ b ∈ s'.hashed, b.length = m.size ∧ sha256 b = m.sha256)) s := by
  unfold downloadToSlot
  rcases hpart : blocklistSlotPartition slot with _ | partSize
  · exact ⟨.refl s, fun h => by cases h⟩
  obtain ⟨hslot, rfl⟩ := blocklistSlotPartition_some hpart
  show Prog.Safe _ _ _ (if _ then _ else _) s
  by_cases hbig : m.size > slotSize
  · rw [if_pos hbig]
    exact ⟨.refl s, fun h => by cases h⟩
  rw [if_neg hbig]
  refine Prog.safe_call_bind.mpr ⟨⟨⟨hslot, hact⟩, rfl⟩, fun (ok : Bool) s₁ h₁ => ?_⟩
  have hs₁ := h₁.1.kept
  cases ok with
  | false => exact ⟨hs₁, fun h => by cases h⟩
  | true =>
  refine Prog.safe_call_bind.mpr ⟨⟨trivial, rfl⟩, fun (ok : Bool) s₂ h₂ => ?_⟩
  have hs₂ := hs₁.trans (h₂.kept rfl)
  cases ok with
  | false => exact ⟨hs₂, fun h => by cases h⟩
  | true =>
  refine Prog.safe_call_bind.mpr ⟨⟨trivial, rfl⟩, fun (ok : Bool) s₃ h₃ => ?_⟩
  have hs₃ := hs₂.trans (h₃.kept rfl)
  cases ok with
  | false => exact ⟨hs₃, fun h => by cases h⟩
  | true =>
  refine Prog.safe_call_bind.mpr ⟨⟨trivial, rfl⟩, fun (ok : Bool) s₄ h₄ => ?_⟩
  have hs₄ := hs₃.trans (h₄.kept rfl)
  cases ok with
  | false => exact ⟨hs₄, fun h => by cases h⟩
  | true =>
  refine Prog.safe_call_bind.mpr ⟨⟨trivial, rfl⟩, fun (status : Nat) s₅ h₅ => ?_⟩
  have hs₅ := hs₄.trans (h₅.kept rfl)
  show Prog.Safe _ _ _ (if _ then _ else _) s₅
  by_cases hst : status ≠ 200
  · rw [if_pos hst]
    exact ⟨hs₅, fun h => by cases h⟩
  rw [if_neg hst]
  have hact₅ : slot ≠ s₅.ram.active := by rw [hs₅.ram]; exact hact
  refine Prog.safe_bind.mpr ((downloadLoop_safe hslot _ [] s₅ rfl hact₅).post fun r s₆ h₆ => ?_)
  have hs₆ := hs₅.trans h₆.1
  rcases r with e | fed
  · exact ⟨hs₆, fun h => absurd h (h₆.2 e rfl)⟩
  show Prog.Safe _ _ _ (if _ then _ else _) s₆
  by_cases hshort : fed.length ≠ m.size
  · rw [if_pos hshort]
    exact ⟨hs₆, fun h => by cases h⟩
  rw [if_neg hshort]
  refine Prog.safe_call_bind.mpr ⟨⟨trivial, rfl⟩, fun (got : Option Digest) s₇ h₇ => ?_⟩
  have hs₇ := hs₆.trans (h₇.kept rfl)
  rcases got with _ | got
  · exact ⟨hs₇, fun h => by cases h⟩
  show Prog.Safe _ _ _ (if _ then _ else _) s₇
  by_cases hdig : got ≠ m.sha256
  · rw [if_pos hdig]
    exact ⟨hs₇, fun h => by cases h⟩
  rw [if_neg hdig]
  refine ⟨hs₇, fun _ => ⟨fed, h₇.2.1, not_not.mp hshort, ?_⟩⟩
  rcases h₇.2.2 with heq | hf
  · rw [← not_not.mp hdig]
    exact (Option.some.inj heq).symm
  · cases hf.2

/-! ### The update around its commit

What an update does outside `blocklist_commit_slot` is the same for every guard `G` and
every invariant `J` of the state between commits, so it is shown once for all of them. -/

section Around

variable {step : Prog.StepRel Op Res World} {G : World → Op → Prop} {J : World → Prop}

/-- What an accepted manifest sets off. -/
theorem applyManifest_safe (hstep : ∀ s o r s', step s o r s' → Answers sha256 F s o r s')
    (hG : ∀ s o, J s → QuietGuard sha256 F s o → G s o)
    (hJ : ∀ s o r s', J s → o.relabels = false → step s o r s' → J s')
    (hcommit : ∀ s m slot, J s → Current sha256 s m →
      (blocklistCommitSlot slot m.count m.sha256 m.version).Safe step G (fun _ => J) s)
    {m : Manifest} (hm : m.Accepted) {s : World} (hs : J s) :
    (applyManifest m).Safe step G (fun _ => J) s := by
  unfold applyManifest
  refine Prog.safe_call_bind.mpr ⟨hG s _ hs ⟨trivial, rfl⟩, fun (ram : Ram) s₁ h₁ => ?_⟩
  have hj₁ := hJ s _ _ s₁ hs rfl h₁
  obtain ⟨hs₁, rfl⟩ := hstep _ _ _ _ h₁
  show Prog.Safe _ _ _ (if _ then _ else _) s₁
  by_cases hsame : blocklistActiveVersion s.ram = m.version
  · rw [if_pos hsame]
    exact hj₁
  rw [if_neg hsame]
  refine Prog.safe_call_bind.mpr ⟨hG s₁ _ hj₁ ⟨trivial, rfl⟩, fun _ s₂ h₂ => ?_⟩
  have hj₂ := hJ s₁ _ _ s₂ hj₁ rfl h₂
  have hs₂ := hstep _ _ _ _ h₂
  have hact : blocklistInactiveSlot s.ram ≠ s₂.ram.active := by
    rw [hs₂.1.ram]
    show _ ≠ s₁.ram.active
    rw [hs₁.ram]
    exact (blocklistInactiveSlot_spec s.ram).2
  have hdown := ((downloadToSlot_safe (m := m) hact).anti hstep).keep
    (A := J) (fun s o r s' hj hg h => hJ s o r s' hj hg.2 h) hj₂
  refine Prog.safe_bind.mpr (hdown.mono (fun s o h => hG s o h.2 h.1) fun e s₃ h₃ => ?_)
  obtain ⟨⟨hkept, hblob⟩, hj₃⟩ := h₃
  show Prog.Safe _ _ _ (if _ then _ else _) s₃
  by_cases he : e = .ok
  · rw [if_pos he]
    have hcur : Current sha256 s₃ m := by
      refine ⟨?_, hm, hblob he⟩
      rw [hkept.log, hs₂.1.log]
      exact List.mem_cons_self
    exact Prog.safe_bind.mpr ((hcommit s₃ m _ hj₃ hcur).post fun _ _ h => h)
  · rw [if_neg he]
    exact hj₃

/-- **`check_once` on every path**, as far as its commit allows. -/
theorem checkOnce_safe_of (hstep : ∀ s o r s', step s o r s' → Answers sha256 F s o r s')
    (hG : ∀ s o, J s → QuietGuard sha256 F s o → G s o)
    (hJ : ∀ s o r s', J s → o.relabels = false → step s o r s' → J s')
    (hcommit : ∀ s m slot, J s → Current sha256 s m →
      (blocklistCommitSlot slot m.count m.sha256 m.version).Safe step G (fun _ => J) s)
    (cjsonParse : Bytes → Option Json) (manifestUrl : Bytes) {s : World} (hs : J s) :
    (checkOnce cjsonParse manifestUrl).Safe step G (fun _ => J) s := by
  have hfetch := ((fetchManifest_safe manifestUrl s).anti hstep).keep
    (A := J) (fun s o r s' hj hg h => hJ s o r s' hj hg.2 h) hs
  unfold checkOnce
  refine Prog.safe_bind.mpr (hfetch.mono (fun s o h => hG s o h.2 h.1) fun r s₁ h₁ => ?_)
  have hj₁ := h₁.2
  match r with
  | none => exact hj₁
  | some [] => exact hj₁
  | some (c :: cs) =>
      show Prog.Safe _ _ _ (match parseManifest cjsonParse (cstr (c :: cs)) with
        | none => _
        | some m => _) s₁
      rcases hm : parseManifest cjsonParse (cstr (c :: cs)) with _ | m
      · exact hj₁
      · exact applyManifest_safe hstep hG hJ hcommit (parseManifest_accepted hm) hj₁

end Around

/-- **Every call of an update is a disciplined one**, on every path and under any fault
model. -/
theorem checkOnce_safe (cjsonParse : Bytes → Option Json) (manifestUrl : Bytes) (s : World) :
    (checkOnce cjsonParse manifestUrl).Safe (Answers sha256 F) (Disciplined sha256 F.rot)
      (fun _ _ => True) s :=
  checkOnce_safe_of (J := fun _ => True) (fun _ _ _ _ h => h) (fun _ _ _ h => h.1)
    (fun _ _ _ _ _ _ _ => trivial) (fun _ _ slot _ hm => blocklistCommitSlot_safe hm slot)
    cjsonParse manifestUrl trivial

end Triples

end EspHole.Sinkhole
