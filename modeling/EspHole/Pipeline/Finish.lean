/-
The contract of `blocklist_builder_finish`.

`blocklistBuilderFinish_eq` says what `finish` computes; here it is put in terms of the
set of hashes that were added.  Only that set matters: `finish_kept` says when an
artifact comes out, and what is in it, and `finish_spec` is the whole contract for any
sequence of adds and any pattern of failing allocations.
-/
import Mathlib.Data.Finset.Card
import EspHole.Pipeline.Generate

namespace EspHole.Pipeline

open Ascii Ascending

/-- Sorting loses no hash and repeats none. -/
theorem Builder.sort_perm (b : Builder) : b.sort.hashes.Perm b.hashes :=
  List.mergeSort_perm _ _

/-- As many hashes are kept as different ones were added. -/
theorem Builder.kept_card (b : Builder) : b.kept.length = b.hashes.toFinset.card := by
  have hsame : b.kept.toFinset = b.hashes.toFinset := by
    ext h
    simp
  rw [← hsame, List.toFinset_card_of_nodup b.kept_ascending.nodup]

/-- What `finish` returns for a set of hashes. -/
structure FinishSpec (sha256 : Bytes → Digest) (minDomains : Nat) (allocated : Bool)
    (H : Finset UInt64) (status : GenerateStatus) (out : Artifact) : Prop where
  ok_iff : status = .ok ↔ minDomains ≤ H.card ∧ allocated = true ∧
    ∀ name ∈ negativeCanaries, domainHash name ∉ H
  bytes : status = .ok → ∃ ws, Ascending ws ∧ (∀ x, x ∈ ws ↔ x ∈ H) ∧
    out.bytes = ws.flatMap Words.encode
  count : status = .ok → out.count = H.card
  blobLen : status = .ok → out.blobLen = 8 * H.card
  digest : status = .ok → out.sha256 = sha256 out.bytes
  contains : status = .ok → ∀ x, blobContains out.blob out.count x = some (decide (x ∈ H))
  selftest : status = .errSelftest → ∃ name ∈ negativeCanaries, domainHash name ∈ H
  zero : status ≠ .ok → out = .zero

/-- The artifact of a builder, in terms of its set of hashes. -/
theorem artifact_spec (sha256 : Bytes → Digest) (shrink : Bool) (block : Bytes) (b : Builder) :
    (b.artifact sha256 shrink block).bytes = b.kept.flatMap Words.encode ∧
      ∀ x, blobContains (b.artifact sha256 shrink block).blob b.kept.length x =
        some (decide (x ∈ b.hashes)) := by
  have hlen := Words.flatMap_encode_length b.kept
  have hmem : ∀ x, decide (x ∈ b.kept) = decide (x ∈ b.hashes) := fun x =>
    decide_eq_decide.mpr Builder.mem_kept
  cases shrink with
  | true =>
      refine ⟨List.take_of_length_le (Nat.le_of_eq hlen), fun x => ?_⟩
      have hcontains : blobContains (b.kept.flatMap Words.encode ++ []) b.kept.length x = _ :=
        blobContains_encoded b.kept_ascending x
      rw [List.append_nil, hmem] at hcontains
      exact hcontains
  | false =>
      refine ⟨List.take_left' hlen, fun x => ?_⟩
      rw [← hmem]
      exact blobContains_encoded b.kept_ascending x

/-- An exit without an artifact. -/
theorem FinishSpec.failed {sha256 : Bytes → Digest} {minDomains : Nat} {allocated : Bool}
    {H : Finset UInt64} {status : GenerateStatus} (hstatus : status ≠ .ok)
    (hno : ¬ (minDomains ≤ H.card ∧ allocated = true ∧
      ∀ name ∈ negativeCanaries, domainHash name ∉ H))
    (hself : status = .errSelftest → ∃ name ∈ negativeCanaries, domainHash name ∈ H) :
    FinishSpec sha256 minDomains allocated H status .zero where
  ok_iff := iff_of_false hstatus hno
  bytes h := absurd h hstatus
  count h := absurd h hstatus
  blobLen h := absurd h hstatus
  digest h := absurd h hstatus
  contains h := absurd h hstatus
  selftest := hself
  zero _ := rfl

/-- **`finish`, for a set of hashes**: it returns, what it returns depends on the set, on the
floor and on the allocation of the blob, and the builder still holds what was added. -/
theorem finish_kept (sha256 : Bytes → Digest) (a : FinishAlloc) {b : Builder}
    (hb : b.WellFormed) (hmin : 1 ≤ b.minDomains) :
    ∃ status out left, blocklistBuilderFinish sha256 a b = some (status, out, left) ∧
      FinishSpec sha256 b.minDomains a.blob.isSome b.hashes.toFinset status out ∧
      left.hashes.Perm b.hashes := by
  have hcard := b.kept_card
  have hle := b.kept_length_le
  have hcan : b.NoCanary ↔ ∀ name ∈ negativeCanaries, domainHash name ∉ b.hashes.toFinset := by
    simp [Builder.NoCanary]
  rw [blocklistBuilderFinish_eq sha256 hb]
  by_cases hlow : b.count < b.minDomains
  · rw [if_pos hlow]
    exact ⟨_, _, _, rfl, .failed (by decide) (fun h => by omega) (by rintro ⟨⟩), .refl _⟩
  rw [if_neg hlow, ← a.block_isSome (show 0 < b.count * 8 by omega)]
  rcases a.block (b.count * 8) with _ | block
  · exact ⟨_, _, _, rfl, .failed (by decide) (by simp) (by rintro ⟨⟩), b.sort_perm⟩
  simp only
  by_cases hfloor : b.kept.length < b.minDomains
  · rw [if_pos hfloor]
    exact ⟨_, _, _, rfl, .failed (by decide) (fun h => by omega) (by rintro ⟨⟩), b.sort_perm⟩
  rw [if_neg hfloor]
  by_cases hno : b.NoCanary
  · rw [if_pos hno]
    obtain ⟨hbytes, hcontains⟩ := artifact_spec sha256 a.shrink block b
    refine ⟨_, _, _, rfl, ⟨iff_of_true rfl ⟨by omega, rfl, hcan.mp hno⟩, fun _ => ?_,
      fun _ => hcard, fun _ => congrArg (8 * ·) hcard, fun _ => ?_, fun _ x => ?_, by rintro ⟨⟩,
      fun h => absurd rfl h⟩, b.sort_perm⟩
    · exact ⟨b.kept, b.kept_ascending, fun x => by simp, hbytes⟩
    · rw [hbytes]
      rfl
    · rw [show (b.artifact sha256 a.shrink block).count = b.kept.length from rfl, hcontains]
      simp
  · rw [if_neg hno]
    refine ⟨_, _, _, rfl, .failed (by decide) (fun h => hno (hcan.mpr h.2.2)) fun _ => ?_,
      b.sort_perm⟩
    by_contra hnone
    exact hno (hcan.mpr fun name hname hmem => hnone ⟨name, hname, hmem⟩)

/-- **The contract of `blocklist_builder_finish`**, after any adds with any of their
allocations failing: what it returns is settled by the hashes of the adds that returned
true, and the builder it leaves still holds these, each as often as it was added. -/
theorem finish_spec (sha256 : Bytes → Digest) (a : FinishAlloc) {minDomains : Nat}
    (hmin : 1 ≤ minDomains) (adds : List (Bool × Bytes)) :
    ∃ status out left,
      blocklistBuilderFinish sha256 a (addAll (blocklistBuilderCreate minDomains) adds).2 =
        some (status, out, left) ∧
      FinishSpec sha256 minDomains a.blob.isSome
        ((addAll (blocklistBuilderCreate minDomains) adds).1.map domainHash).toFinset status out ∧
      left.hashes.Perm ((addAll (blocklistBuilderCreate minDomains) adds).1.map domainHash) := by
  obtain ⟨hhashes, hfloor, hwell⟩ := addAll_spec adds (blocklistBuilderCreate_wellFormed minDomains)
  generalize addAll (blocklistBuilderCreate minDomains) adds = r at hhashes hfloor hwell ⊢
  have hb : r.2.hashes = r.1.map domainHash := hhashes
  have hm : r.2.minDomains = minDomains := hfloor
  obtain ⟨status, out, left, hfinish, hspec, hleft⟩ :=
    finish_kept sha256 a hwell (by rw [hm]; exact hmin)
  rw [hb, hm] at hspec
  rw [hb] at hleft
  exact ⟨status, out, left, hfinish, hspec, hleft⟩

/-- Four adds: the first finds no memory, and the last repeats the second. -/
def fourAdds : List (Bool × Bytes) :=
  [(false, ascii "ads.example"), (true, ascii "ads.example"), (true, ascii "b.example"),
    (true, ascii "ads.example")]

theorem fourAdds_finish :
    ∃ out left, blocklistBuilderFinish (fun _ => Vector.replicate 32 0) ⟨some fun _ => 90, false⟩
        (addAll (blocklistBuilderCreate 2) fourAdds).2 = some (.ok, out, left) ∧
      out.count = 2 ∧
      blobContains out.blob out.count (domainHash (ascii "b.example")) = some true ∧
      left.hashes.Perm
        ([ascii "ads.example", ascii "b.example", ascii "ads.example"].map domainHash) := by
  obtain ⟨status, out, left, hfinish, hspec, hleft⟩ := finish_spec
    (fun _ => Vector.replicate 32 0) ⟨some fun _ => 90, false⟩ (show 1 ≤ 2 by decide) fourAdds
  have hadded : (addAll (blocklistBuilderCreate 2) fourAdds).1 =
      [ascii "ads.example", ascii "b.example", ascii "ads.example"] := by decide +kernel
  rw [hadded] at hspec hleft
  obtain ⟨hcard, hcan⟩ : (([ascii "ads.example", ascii "b.example", ascii "ads.example"].map
      domainHash).toFinset.card = 2) ∧ ∀ name ∈ negativeCanaries,
        domainHash name ∉ ([ascii "ads.example", ascii "b.example", ascii "ads.example"].map
          domainHash).toFinset := by
    decide +kernel
  obtain rfl : status = .ok := hspec.ok_iff.mpr ⟨by rw [hcard], rfl, hcan⟩
  refine ⟨out, left, hfinish, by rw [hspec.count rfl, hcard], ?_, hleft⟩
  rw [hspec.contains rfl]
  simp

end EspHole.Pipeline
