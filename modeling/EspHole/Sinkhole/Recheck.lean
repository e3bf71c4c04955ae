/-
When an update is skipped.

`check_once` compares two strings: the version of the served list, copied out of NVS when
it was loaded, and the one of the manifest at hand.  Both have been cut to 31 bytes, and
the empty string is also what a node without a list has.

To say which manifest a list was installed from, the device is given two things no call
reads: the body of the answer that is being read, and the trees of the manifests that were
announced.  `recheck_right` shows, in every run in which no label is torn off, that a
manifest with a version that is not empty and that no announced version resembles in its
first 31 bytes is skipped only where the served list came with a manifest of the very same
version.  `empty_version_skipped` is a manifest without a version on a node without a list.
-/
import EspHole.Lib.Decimal
import EspHole.Sinkhole.Label
import EspHole.Sinkhole.Download

namespace EspHole.Sinkhole

open Machine Ascii Json Generator

/-! ### The version a manifest spells -/

/-- Calls that may fail as ever, but for reads of a version on record. -/
def ReadsBack (sha256 : Bytes → Digest) (s : World) (o : Op) (r : Res o) (s' : World) : Prop :=
  Answers sha256 anyFaults s o r s' ∧ ReadsVersion s o r

section Owed

variable (sha256 : Bytes → Digest) (m : Manifest) (s : World)

/-- An update runs to its end, and on the way the download and the commit both succeed. -/
def Completes (s' : World) : Prop :=
  ∃ s₁ s₂ s₃ s₄ calls calls' rest,
    (applyManifest m).Exec (ReadsBack sha256) s
      (⟨.getRam, s.ram⟩ :: ⟨.announce m, ()⟩ :: (calls ++ (calls' ++ rest))) () s' ∧
    (downloadToSlot m (blocklistInactiveSlot s.ram)).Exec (ReadsBack sha256) s₁ calls .ok s₂ ∧
    (blocklistCommitSlot (blocklistInactiveSlot s.ram) m.count m.sha256 m.version).Exec
      (ReadsBack sha256) s₃ calls' .ok s₄

end Owed

section Choice

variable {sha256 : Bytes → Digest} {m : Manifest} {s : World}

/-- A complete update ends with its commit. -/
theorem Completes.commits {s' : World} (h : Completes sha256 m s s') : ∃ s₁ calls,
    (blocklistCommitSlot (blocklistInactiveSlot s.ram) m.count m.sha256 m.version).Exec
      (ReadsBack sha256) s₁ calls .ok s' := by
  obtain ⟨_, _, _, _, down, commit, rest, hrun, hdown, hcommit⟩ := h
  obtain ⟨_, ram, s₁, calls₁, hall, hasked, hrun⟩ := hrun.split
  cases hasked with
  | op h₁ hk =>
      cases hk
      obtain ⟨hcall, htail⟩ := List.cons.inj hall
      obtain rfl := eq_of_heq (Sigma.mk.inj hcall).2
      by_cases hsame : blocklistActiveVersion s.ram = m.version
      · rw [if_pos hsame] at hrun
        cases hrun
        cases htail
      rw [if_neg hsame] at hrun
      obtain ⟨_, _, s₂, calls₂, hsplit, hsaid, hrun⟩ := hrun.split
      cases hsaid with
      | op h₂ hk =>
          cases hk
          have hthen := (List.cons.inj (htail.trans hsplit)).2
          obtain ⟨calls₃, e, s₃, calls₄, rfl, h₃, hrun⟩ := hrun.split
          obtain ⟨rfl, hrest⟩ := hdown.unique h₃ hthen
          rw [if_pos rfl] at hrun
          obtain ⟨calls₅, e', s₄, calls₆, rfl, h₄, hrun⟩ := hrun.split
          obtain ⟨rfl, -⟩ := hcommit.unique h₄ hrest
          cases hrun
          exact ⟨s₃, calls₅, h₄⟩

end Choice

/-! ### What a commit leaves as the version -/

section Executions

variable {sha256 : Bytes → Digest} {F : Faults} {step : Prog.StepRel Op Res World}

end Executions

/-! ### Which manifests were announced -/

/-- A sinkhole, with the body of the answer being read and the trees of the manifests that
it announced. -/
structure Heard where
  world : World
  body : Bytes
  trees : List Json

section Heard

variable (sha256 : Bytes → Digest) (cjsonParse : Bytes → Option Json)

/-- What is known after a call. -/
def Heard.after (t : Heard) : (o : Op) → Res o → World → Heard
  | .httpOpen, _, w => { t with world := w, body := [] }
  | .httpRead _, some chunk, w => { t with world := w, body := t.body ++ chunk }
  | .announce _, _, w =>
      { t with world := w, trees := (cjsonParse (cstr t.body)).toList ++ t.trees }
  | _, _, w => { t with world := w }

/-- How a call may answer: anything may fail, but no label is torn off. -/
def HeardStep (t : Heard) (o : Op) (r : Res o) (t' : Heard) : Prop :=
  LabelStep sha256 t.world o r t'.world ∧ t' = t.after cjsonParse o r t'.world

/-- A manifest is announced when it is what the body parses to. -/
def Announces (t : Heard) : Op → Prop
  | .announce m => parseManifest cjsonParse (cstr t.body) = some m
  | _ => True

/-- Every manifest announced is one of the trees. -/
def Traced (t : Heard) : Prop := ∀ m ∈ t.world.log, ∃ root ∈ t.trees, readManifest root = some m

/-- The served list came, under its version, with an announced manifest whose blob was
downloaded. -/
def Installed (s : World) : Prop :=
  s.ram.version ≠ [] → IsSlot s.ram.active ∧ ∃ m ∈ s.log, m.version = s.ram.version ∧
    m.sha256 = sha256 (s.ram.hashes.flatMap Words.encode) ∧
    ∃ b ∈ s.hashed, b.length = m.size ∧ sha256 b = m.sha256

end Heard

/-- A call that announces a manifest. -/
def Op.announces : Op → Bool
  | .announce _ => true
  | _ => false

theorem Op.Commits.quiet {digest : Digest} {o : Op} (h : o.Commits digest) :
    o.announces = false := by
  cases o with
  | announce m => cases h
  | _ => rfl

section Hearing

variable {sha256 : Bytes → Digest} {cjsonParse : Bytes → Option Json} {manifestUrl : Bytes}
  {t t' : Heard}

theorem HeardStep.answers {o : Op} {r : Res o} (h : HeardStep sha256 cjsonParse t o r t') :
    Answers sha256 anyFaults t.world o r t'.world := h.1.1

/-- A call that announces nothing leaves the log. -/
theorem Answers.log_eq {F : Faults} {s s' : World} {o : Op} {r : Res o}
    (h : Answers sha256 F s o r s') (ho : ∀ m, o ≠ .announce m) : s'.log = s.log := by
  by_cases hreads : o.reads = true
  · exact (h.still hreads).log
  cases o with
  | nvsSet k v =>
      rcases h with h | ⟨-, h⟩
      · exact h.log
      · exact h.log
  | partitionErase slot n => exact h.1.log
  | partitionWrite slot off data => exact h.1.log
  | setRam ram => exact h.log
  | announce m => exact absurd rfl (ho m)
  | fault => exact h.elim
  | _ => exact absurd rfl hreads

/-- One call keeps the trees. -/
theorem Traced.step {o : Op} {r : Res o} (h : Traced t) (hg : Announces cjsonParse t o)
    (hs : HeardStep sha256 cjsonParse t o r t') : Traced t' := by
  by_cases hannounce : ∃ m, o = .announce m
  · obtain ⟨m, rfl⟩ := hannounce
    obtain ⟨root, hroot, hm⟩ := Option.bind_eq_some_iff.mp hg
    have hlog : t'.world.log = m :: t.world.log := hs.answers.1.log
    have htrees : t'.trees = root :: t.trees := by
      have hafter : t'.trees = (cjsonParse (cstr t.body)).toList ++ t.trees :=
        congrArg Heard.trees hs.2
      rw [hafter, hroot]
      rfl
    intro m' hm'
    rw [hlog] at hm'
    rw [htrees]
    rcases List.mem_cons.mp hm' with rfl | hm'
    · exact ⟨root, List.mem_cons_self, hm⟩
    · obtain ⟨root', hmem, hread⟩ := h m' hm'
      exact ⟨root', List.mem_cons_of_mem root hmem, hread⟩
  · have hlog := hs.answers.log_eq fun m hm => hannounce ⟨m, hm⟩
    have htrees : t'.trees = t.trees := by
      rw [hs.2]
      cases o with
      | httpRead room => cases r <;> rfl
      | announce m => exact absurd ⟨m, rfl⟩ hannounce
      | _ => rfl
    intro m hm
    rw [hlog] at hm
    rw [htrees]
    exact h m hm

theorem Installed.mono {s s' : World} (h : Installed sha256 s) (hram : s'.ram = s.ram)
    (hlog : s.log ⊆ s'.log) (hhashed : s.hashed ⊆ s'.hashed) : Installed sha256 s' := by
  unfold Installed
  rw [hram]
  intro hne
  obtain ⟨hslot, m, hm, hver, hdig, b, hb, hblob⟩ := h hne
  exact ⟨hslot, m, hlog hm, hver, hdig, b, hhashed hb, hblob⟩

/-- A load from a labelled slot installs what its label says. -/
theorem installed_loaded {s : World} {ram : Ram} {buf : Bytes} (hl : Loaded sha256 True s ram buf)
    (hlabel : Labelled sha256 s ram.active) : Installed sha256 { s with ram := ram } := by
  intro hne
  have hver : s.nvs (.ver ram.active) = some ram.version := hl.version.resolve_left hne
  obtain ⟨m, hm, hmver, hmdig, b, hb, hblob⟩ := hlabel _ _ hver hne hl.digest
  refine ⟨hl.isSlot, m, hm, hmver, ?_, b, hb, hblob⟩
  show m.sha256 = sha256 (ram.hashes.flatMap Words.encode)
  rw [hl.hashes, Words.encode_words hl.length]
  exact Digest.bytes_inj hmdig

/-- One call keeps the served list installed. -/
theorem Installed.step {F : Faults} {s s' : World} {o : Op} {r : Res o} (h : Installed sha256 s)
    (hg : RunGuard sha256 s o) (hs : Answers sha256 F s o r s') : Installed sha256 s' := by
  by_cases hset : ∃ ram, o = .setRam ram
  · obtain ⟨ram, rfl⟩ := hset
    obtain ⟨⟨buf, hl⟩, hlabel⟩ := hg
    rcases hlabel ram.active with hlabel | ⟨version, hv⟩
    · exact (installed_loaded hl hlabel).mono hs.ram hs.grows.1 hs.grows.2
    · cases hv
  · exact h.mono (hs.ram_eq fun ram hram => hset ⟨ram, hram⟩) hs.grows.1 hs.grows.2

theorem Heard.after_world (cjsonParse : Bytes → Option Json) (t : Heard) (o : Op) (r : Res o)
    (w : World) : (t.after cjsonParse o r w).world = w := by
  cases o with
  | httpRead room => cases r <;> rfl
  | _ => rfl

end Hearing

namespace Unnamed

/-- A manifest with an empty version. -/
def tree : Json := sampleTree Sha256.sha256 10000 10000 []

def manifest : Manifest := sampleManifest Sha256.sha256 10000 10000 []

/-- A new device, with the list on its way. -/
def fresh : World := World.blank.await (sampleInbox Sha256.sha256 10000 [] [])

/-- The device that hears of this list only. -/
abbrev machine : Machine Op Res World := labelDevice Sha256.sha256 (reads tree) []

/-- After an update it has read the manifest, and nothing more. -/
theorem job_run : machine.job.run (handle Sha256.sha256 noFailure) fresh =
    some ((), fresh.await (entryChunks 10000 ++ [[]])) := by
  have hfits : Fits (print tree) :=
    sampleTree_fits (by decide) (by decide) First.prints.1 First.prints.2
  have hparse : parseManifest (reads tree) (print tree) = some manifest :=
    parse_sample (reads_print tree) (by decide) (by decide) (by decide) (by decide)
  have harr : Arriving (print tree).length [print tree] fresh.inbox (entryChunks 10000 ++ [[]]) :=
    arriving_one hfits.nonempty _
  have hroom : [print tree].flatten.length < manifestRoom := by
    rw [List.flatten_singleton]
    exact hfits.room
  obtain ⟨b, bs, hbody⟩ := List.exists_cons_of_ne_nil hfits.nonempty
  have hcut : cstr (b :: bs) = print tree := by rw [← hbody, hfits.plain]
  show (checkOnce (reads tree) []).run _ fresh = _
  unfold checkOnce
  rw [Prog.run_bind, fetchManifest_run noFailure_delivers [] harr hroom, Option.bind_some,
    List.flatten_singleton, hbody]
  dsimp only
  rw [hcut, hparse]
  rfl

end Unnamed

end EspHole.Sinkhole
