/-
What the sinkhole's update path calls, and what those calls do.

`load_slot`, `blocklist_commit_slot` and `check_once` are straight-line programs over
four kinds of state: NVS, which keeps single keys atomically; two flash partitions; the
statics of `blocklist.c`, which a reboot clears; and an HTTP client.  `Op` lists the
calls, `World` the state.

Two semantics are given.  `handle` runs a program against a fixed pattern of failing
calls.  `Answers` is the relation a run is made of: which calls may fail, and whether
flash may change on its own, is a `Faults` record, so that each statement about runs
says which of these it allows.

Two fields of `World` are for statements only and no call reads them: `log`, the
manifests `check_once` has announced, and `hashed`, the byte strings given to SHA-256.
-/
import Mathlib.Logic.Function.Basic
import EspHole.Lib.Prog
import EspHole.Lib.Words
import EspHole.Sinkhole.Manifest

namespace EspHole.Sinkhole

/-! ### State -/

/-- The NVS keys, by the slot number printed into them. -/
inductive Key
  | cnt (slot : Int)
  | sha (slot : Int)
  | ver (slot : Int)
  | active
  deriving DecidableEq, Repr

/-- What each key holds: a `u32`, a blob, a string and a `u8`. -/
@[reducible] def Key.Val : Key → Type
  | .cnt _ => Nat
  | .sha _ => Bytes
  | .ver _ => Bytes
  | .active => UInt8

/-- The statics of `blocklist.c`: `s_hashes`, `s_count`, `s_active` and `s_version`. -/
structure Ram where
  hashes : List UInt64
  count : Nat
  active : Int
  version : Bytes
  deriving DecidableEq, Repr

/-- The statics as a reboot leaves them. -/
def Ram.init : Ram := ⟨[], 0, -1, []⟩

structure World where
  flash : Int → Nat → UInt8
  nvs : (k : Key) → Option k.Val
  ram : Ram
  inbox : List Bytes
  log : List Manifest
  hashed : List Bytes

namespace World

/-- The first `n` bytes of a slot. -/
def slotBytes (s : World) (slot : Int) (n : Nat) : Bytes := (List.range n).map (s.flash slot)

@[simp] theorem slotBytes_length (s : World) (slot : Int) (n : Nat) :
    (s.slotBytes slot n).length = n := by simp [slotBytes]

/-- One NVS key written. -/
def setNvs (s : World) (k : Key) (v : k.Val) : World :=
  { s with nvs := Function.update s.nvs k (some v) }

@[simp] theorem setNvs_same (s : World) (k : Key) (v : k.Val) : (s.setNvs k v).nvs k = some v := by
  simp [setNvs]

theorem setNvs_of_ne (s : World) {k k' : Key} (v : k.Val) (h : k' ≠ k) :
    (s.setNvs k v).nvs k' = s.nvs k' := by
  simp [setNvs, h]

@[simp] theorem slotBytes_setNvs (s : World) (k : Key) (v : k.Val) (slot : Int) (n : Nat) :
    (s.setNvs k v).slotBytes slot n = s.slotBytes slot n := rfl

/-- A slot erased from its start. -/
def erase (s : World) (slot : Int) (n : Nat) : World :=
  { s with flash := Function.update s.flash slot fun a => if a < n then 0xFF else s.flash slot a }

/-- A slot programmed: NOR flash can only clear bits. -/
def program (s : World) (slot : Int) (off : Nat) (data : Bytes) : World :=
  { s with flash := Function.update s.flash slot fun a =>
      if off ≤ a then s.flash slot a &&& data.getD (a - off) 0xFF else s.flash slot a }

end World

/-! ### Calls -/

/-- Which `nvs_commit` of the source a call is. -/
inductive CommitSite
  | metadata
  | active
  | fallback
  deriving DecidableEq, Repr

/-- The calls of the update path. -/
inductive Op
  | nvsGet (k : Key)
  | nvsSet (k : Key) (v : k.Val)
  | nvsCommit (site : CommitSite)
  | heapCapsMalloc (bytes : Nat)
  | partitionRead (slot : Int) (bytes : Nat)
  | partitionErase (slot : Int) (bytes : Nat)
  | partitionWrite (slot : Int) (off : Nat) (data : Bytes)
  | hashCompute (data : Bytes)
  | hashSetup
  | hashUpdate (data : Bytes)
  | httpInit (url : Bytes)
  | httpOpen
  | httpStatus
  | httpRead (room : Nat)
  | getRam
  | setRam (ram : Ram)
  | announce (m : Manifest)
  | fault

/-- What each call answers.  A call that can fail answers a `Bool` or an `Option`; `fault`
is a load outside any buffer and does not come back. -/
@[reducible] def Res : Op → Type
  | .nvsGet k => Option k.Val
  | .nvsSet _ _ => Bool
  | .nvsCommit _ => Bool
  | .heapCapsMalloc _ => Bool
  | .partitionRead _ _ => Option Bytes
  | .partitionErase _ _ => Bool
  | .partitionWrite _ _ _ => Bool
  | .hashCompute _ => Option Digest
  | .hashSetup => Bool
  | .hashUpdate _ => Bool
  | .httpInit _ => Bool
  | .httpOpen => Bool
  | .httpStatus => Nat
  | .httpRead _ => Option Bytes
  | .getRam => Ram
  | .setRam _ => Unit
  | .announce _ => Unit
  | .fault => Empty

/-- A program of the update path. -/
abbrev Code (α : Type) : Type := Prog Op Res α

abbrev nvsGet (k : Key) : Code (Option k.Val) := Prog.call (Op.nvsGet k)
abbrev nvsSet (k : Key) (v : k.Val) : Code Bool := Prog.call (Op.nvsSet k v)
abbrev nvsCommit (site : CommitSite) : Code Bool := Prog.call (Op.nvsCommit site)
abbrev heapCapsMalloc (bytes : Nat) : Code Bool := Prog.call (Op.heapCapsMalloc bytes)
abbrev partitionRead (slot : Int) (bytes : Nat) : Code (Option Bytes) :=
  Prog.call (Op.partitionRead slot bytes)
abbrev partitionErase (slot : Int) (bytes : Nat) : Code Bool :=
  Prog.call (Op.partitionErase slot bytes)
abbrev partitionWrite (slot : Int) (off : Nat) (data : Bytes) : Code Bool :=
  Prog.call (Op.partitionWrite slot off data)
abbrev hashCompute (data : Bytes) : Code (Option Digest) := Prog.call (Op.hashCompute data)
abbrev hashSetup : Code Bool := Prog.call Op.hashSetup
abbrev hashUpdate (data : Bytes) : Code Bool := Prog.call (Op.hashUpdate data)
abbrev httpInit (url : Bytes) : Code Bool := Prog.call (Op.httpInit url)
abbrev httpOpen : Code Bool := Prog.call Op.httpOpen
abbrev httpStatus : Code Nat := Prog.call Op.httpStatus
abbrev httpRead (room : Nat) : Code (Option Bytes) := Prog.call (Op.httpRead room)
abbrev getRam : Code Ram := Prog.call Op.getRam
abbrev setRam (ram : Ram) : Code Unit := Prog.call (Op.setRam ram)
abbrev announce (m : Manifest) : Code Unit := Prog.call (Op.announce m)

/-- A load outside any buffer. -/
def outOfBounds {α : Type} : Code α := .op .fault fun e => e.elim

/-! ### Running against a fixed pattern of failures -/

/-- One `esp_http_client_read` from a body that arrives in chunks. -/
def readInbox (room : Nat) : List Bytes → Bytes × List Bytes
  | [] => ([], [])
  | chunk :: rest =>
      if chunk.length ≤ room then (chunk, rest) else (chunk.take room, chunk.drop room :: rest)

/-- What a call does when `fails` says which calls fail.  A failing call changes nothing. -/
def handle (sha256 : Bytes → Digest) (fails : Op → Bool) (o : Op) (s : World) :
    Option (Res o × World) :=
  match o with
  | .nvsGet k => some (if fails (.nvsGet k) then none else s.nvs k, s)
  | .nvsSet k v => if fails (.nvsSet k v) then some (false, s) else some (true, s.setNvs k v)
  | .nvsCommit site => some (!fails (.nvsCommit site), s)
  | .heapCapsMalloc bytes => some (!fails (.heapCapsMalloc bytes), s)
  | .partitionRead slot bytes =>
      some (if fails (.partitionRead slot bytes) then none else some (s.slotBytes slot bytes), s)
  | .partitionErase slot bytes =>
      if fails (.partitionErase slot bytes) then some (false, s)
      else some (true, s.erase slot bytes)
  | .partitionWrite slot off data =>
      if fails (.partitionWrite slot off data) then some (false, s)
      else some (true, s.program slot off data)
  | .hashCompute data =>
      some (if fails (.hashCompute data) then none else some (sha256 data),
        { s with hashed := data :: s.hashed })
  | .hashSetup => some (!fails .hashSetup, s)
  | .hashUpdate data => some (!fails (.hashUpdate data), s)
  | .httpInit url => some (!fails (.httpInit url), s)
  | .httpOpen => some (!fails .httpOpen, s)
  | .httpStatus => some (if fails .httpStatus then 404 else 200, s)
  | .httpRead room =>
      if fails (.httpRead room) then some (none, s)
      else some (some (readInbox room s.inbox).1, { s with inbox := (readInbox room s.inbox).2 })
  | .getRam => some (s.ram, s)
  | .setRam ram => some ((), { s with ram := ram })
  | .announce m => some ((), { s with log := m :: s.log })
  | .fault => none

/-- No call fails. -/
def noFailure : Op → Bool := fun _ => false

/-! ### Running in any of the ways a fault model allows -/

/-- What may go wrong: whether reads, allocations and hash calls may fail, whether flash
may change on its own, and which manifests may be offered. -/
structure Faults where
  reads : Prop
  rot : Prop
  offers : Manifest → Prop

/-- Nothing that outlives the call has changed, but for flash that changes on its own. -/
structure World.Still (rot : Prop) (s s' : World) : Prop where
  nvs : s'.nvs = s.nvs
  ram : s'.ram = s.ram
  log : s'.log = s.log
  hashed : s.hashed ⊆ s'.hashed
  flash : ¬ rot → s'.flash = s.flash

theorem World.Still.refl {rot : Prop} (s : World) : s.Still rot s :=
  ⟨rfl, rfl, rfl, List.Subset.refl _, fun _ => rfl⟩

theorem World.Still.trans {rot : Prop} {s s' s'' : World} (h : s.Still rot s')
    (h' : s'.Still rot s'') : s.Still rot s'' :=
  ⟨h'.nvs.trans h.nvs, h'.ram.trans h.ram, h'.log.trans h.log,
    List.Subset.trans h.hashed h'.hashed, fun hr => (h'.flash hr).trans (h.flash hr)⟩

/-- A flash operation on `[lo, hi)` of a slot leaves every other byte, and RAM and NVS. -/
structure World.Touches (rot : Prop) (slot : Int) (lo hi : Nat) (s s' : World) : Prop where
  nvs : s'.nvs = s.nvs
  ram : s'.ram = s.ram
  log : s'.log = s.log
  hashed : s.hashed ⊆ s'.hashed
  flash : ¬ rot → ∀ sl a, (sl ≠ slot ∨ a < lo ∨ hi ≤ a) → s'.flash sl a = s.flash sl a

/-- How a call made in `s` may answer, and what it may leave.  A failing NVS write takes
effect or does not; a failing flash operation leaves anything in its range. -/
def Answers (sha256 : Bytes → Digest) (F : Faults) (s : World) :
    (o : Op) → Res o → World → Prop
  | .nvsGet k, r, s' => s.Still F.rot s' ∧ (r = s.nvs k ∨ F.reads ∧ r = none)
  | .nvsSet k v, ok, s' => (s.setNvs k v).Still F.rot s' ∨ (ok = false ∧ s.Still F.rot s')
  | .nvsCommit _, _, s' => s.Still F.rot s'
  | .heapCapsMalloc _, ok, s' => s.Still F.rot s' ∧ (ok = true ∨ F.reads)
  | .partitionRead slot n, r, s' => s.Still F.rot s' ∧
      ((∃ buf, r = some buf ∧ buf.length = n ∧ (¬ F.rot → buf = s.slotBytes slot n)) ∨
        F.reads ∧ r = none)
  | .partitionErase slot n, ok, s' => s.Touches F.rot slot 0 n s' ∧
      (ok = true → ¬ F.rot → ∀ a < n, s'.flash slot a = 0xFF)
  | .partitionWrite slot off data, ok, s' =>
      s.Touches F.rot slot off (off + data.length) s' ∧
        (ok = true → ¬ F.rot → s'.flash = (s.program slot off data).flash)
  | .hashCompute data, r, s' => s.Still F.rot s' ∧ data ∈ s'.hashed ∧
      (r = some (sha256 data) ∨ F.reads ∧ r = none)
  | .hashSetup, _, s' => s.Still F.rot s'
  | .hashUpdate _, _, s' => s.Still F.rot s'
  | .httpInit _, _, s' => s.Still F.rot s'
  | .httpOpen, _, s' => s.Still F.rot s'
  | .httpStatus, _, s' => s.Still F.rot s'
  | .httpRead room, r, s' => s.Still F.rot s' ∧ ∀ chunk, r = some chunk → chunk.length ≤ room
  | .getRam, r, s' => s.Still F.rot s' ∧ r = s.ram
  | .setRam ram, _, s' => World.Still F.rot { s with ram := ram } s'
  | .announce m, _, s' => World.Still F.rot { s with log := m :: s.log } s' ∧ F.offers m
  | .fault, _, _ => False

end EspHole.Sinkhole
