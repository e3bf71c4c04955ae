/-
The lock of `http_serve.c`, byte by byte.

Both handlers hold the lock while the whole body goes out, and `http_serve_publish` frees what
was published before once it has given the lock back.  A published artifact is three blocks: the
`published_t`, the blob it took over, and the text that cJSON printed.  Each is reached through
the first, so they have to be freed in the right order and by nobody else.

`publishes_are_safe` is what the header says of it: the artifact is replaced atomically, and
every blob that was handed over is freed in the end.  It is about a generator whose
`http_serve_register` has created the lock; `http_serve_publish` would create a missing one
without a check, and two of them could create two.
-/
import EspHole.Lib.Mutex
import EspHole.Generator.Serve

namespace EspHole.Generator.Memory

open Ascii Json Mutex Pipeline

/-! ### What the lock guards -/

/-- What a block is made of. -/
inductive Word
  | byte (b : UInt8)
  | ptr (p : Option Nat)
  | size (n : Nat)
  deriving DecidableEq, Repr

@[simp] def Word.toByte : Word → UInt8
  | .byte b => b
  | _ => 0

@[simp] def Word.toPtr : Word → Option Nat
  | .ptr p => p
  | _ => none

@[simp] def Word.toSize : Word → Nat
  | .size n => n
  | _ => 0

/-- The routes. -/
inductive Route
  | manifest
  | blocklist
  deriving DecidableEq, Repr

/-- What is served: the manifest and the blob. -/
structure Bodies where
  manifest : Bytes
  blob : Bytes
  deriving DecidableEq, Repr

def Bodies.on (p : Bodies) : Route → Bytes
  | .manifest => p.manifest
  | .blocklist => p.blob

/-- The words of a `published_t`: `blob`, `blob_len`, `manifest_json` and `manifest_json_len`.
The function that frees the blob is left out. -/
def publishedT (blob : Nat) (blobLen : Nat) (json : Nat) (jsonLen : Nat) : List Word :=
  [.ptr (some blob), .size blobLen, .ptr (some json), .size jsonLen]

/-- What lies at `s_current`: three blocks, with at least as many bytes as their lengths say. -/
structure Lies (h : Heap Word) (p b n j m : Nat) (bs js : List Word) : Prop where
  struct : h p = some (publishedT b n j m)
  blob : h b = some bs
  json : h j = some js
  blobFits : n ≤ bs.length
  jsonFits : m ≤ js.length
  apart : [p, b, j].Nodup

/-- What is served of them. -/
def bodies (n m : Nat) (bs js : List Word) : Bodies :=
  ⟨(js.take m).map Word.toByte, (bs.take n).map Word.toByte⟩

/-- The artifact at `s_current`, or none. -/
def published (r : Option Nat) (h : Heap Word) : Option (Option Bodies × List Nat) :=
  match r with
  | none => some (none, [])
  | some p =>
    match h p with
    | some [.ptr (some b), .size n, .ptr (some j), .size m] =>
        match h b, h j with
        | some bs, some js =>
            if n ≤ bs.length ∧ m ≤ js.length ∧ [p, b, j].Nodup
            then some (some (bodies n m bs js), [p, b, j]) else none
        | _, _ => none
    | _ => none

theorem Lies.live {h : Heap Word} {p b n j m : Nat} {bs js : List Word}
    (hl : Lies h p b n j m bs js) : ∀ q ∈ [p, b, j], h q ≠ none := by
  intro q hq
  have hmem : q = p ∨ q = b ∨ q = j := by simpa using hq
  rcases hmem with rfl | rfl | rfl
  · rw [hl.struct]
    exact nofun
  · rw [hl.blob]
    exact nofun
  · rw [hl.json]
    exact nofun

theorem Lies.published {h : Heap Word} {p b n j m : Nat} {bs js : List Word}
    (hl : Lies h p b n j m bs js) :
    published (some p) h = some (some (bodies n m bs js), [p, b, j]) := by
  simp only [Memory.published, hl.struct, publishedT, hl.blob, hl.json]
  exact if_pos ⟨hl.blobFits, hl.jsonFits, hl.apart⟩

theorem published_some {r : Option Nat} {h : Heap Word} {v : Option Bodies} {f : List Nat}
    (hp : published r h = some (v, f)) : r = none ∧ v = none ∧ f = [] ∨
      ∃ p b n j m bs js, r = some p ∧ Lies h p b n j m bs js ∧ v = some (bodies n m bs js) ∧
        f = [p, b, j] := by
  rcases r with _ | p
  · obtain ⟨rfl, rfl⟩ := Prod.mk.inj (Option.some.inj hp)
    exact Or.inl ⟨rfl, rfl, rfl⟩
  simp only [published] at hp
  split at hp
  · rename_i b n j m hstruct
    split at hp
    · rename_i bs js hblob hjson
      split at hp
      · rename_i hok
        obtain ⟨rfl, rfl⟩ := Prod.mk.inj (Option.some.inj hp)
        exact Or.inr ⟨p, b, n, j, m, bs, js, rfl,
          ⟨hstruct, hblob, hjson, hok.1, hok.2.1, hok.2.2⟩, rfl, rfl⟩
      · cases hp
    · cases hp
  · cases hp

section Layout

variable (cjsonPrint : Json → Option Bytes)

/-- These bodies were made of one artifact: its bytes, and the text that cJSON printed of its
manifest, which may lack items. -/
def Bodies.Made (p : Bodies) : Prop :=
  ∃ (art : Artifact) (version url : Bytes) (granted : Bytes → Bool) (text : Bytes),
    cjsonPrint ((manifestTree art version url).keep granted) = some text ∧
      p = ⟨cstr text, art.bytes⟩

/-- What is published, in its three blocks. -/
def layout : Layout Word (Option Nat) (Option Bodies) where
  object := published
  valid v := ∀ p ∈ v, p.Made cjsonPrint
  live hp q hq := by
    rcases published_some hp with ⟨-, -, rfl⟩ | ⟨p, b, n, j, m, bs, js, -, hl, -, rfl⟩
    · cases hq
    · exact hl.live q hq
  reads {r h h' v f} hp heq := by
    rcases published_some hp with ⟨rfl, rfl, rfl⟩ | ⟨p, b, n, j, m, bs, js, rfl, hl, rfl, rfl⟩
    · rfl
    · exact Lies.published ⟨(heq p (by simp)).trans hl.struct, (heq b (by simp)).trans hl.blob,
        (heq j (by simp)).trans hl.json, hl.blobFits, hl.jsonFits, hl.apart⟩

end Layout

/-! ### The programs -/

/-- Calls outside this memory: a look at `s_lock`, `xSemaphoreCreateMutex`,
`cJSON_PrintUnformatted` on the tree of a manifest, and a byte that goes out on a connection. -/
inductive Outside
  | sLock
  | createMutex
  | print (art : Artifact) (version url : Bytes)
  | send (b : UInt8)

/-- What they answer: whether there is a lock, and whether there is one now; the text, or NULL;
and whether the byte went out. -/
@[reducible] def Outside.Ans : Outside → Type
  | .sLock | .createMutex => Bool
  | .print _ _ _ => Option Bytes
  | .send _ => Bool

/-- There is a lock since `http_serve_register`, which `app_main` calls before all requests and
publishes; and an item whose allocation fails is missing from the tree. -/
def Answered (cjsonPrint : Json → Option Bytes) : (o : Outside) → o.Ans → Prop
  | .sLock, there => there = true
  | .createMutex, _ => True
  | .print art version url, text => ∀ t ∈ (text : Option Bytes),
      ∃ granted, cjsonPrint ((manifestTree art version url).keep granted) = some t
  | .send _, _ => True

/-- A response: the route, and its body with whether all of it went out, or `none` for 503. -/
abbrev Response : Type := Route × Option (Bytes × Bool)

/-- A program of the generator that shares this memory. -/
abbrev Task : Type → Type :=
  Prog (Call Word (Option Nat) Response Outside) (Mutex.Res Outside.Ans)

/-- `httpd_resp_send`: `n` bytes from the `k`-th on, until one does not go out. -/
def httpdRespSend (p : Option Nat) : Nat → Nat → Task (Bytes × Bool)
  | _, 0 => return ([], true)
  | k, n + 1 => do
      let w : Word ← Prog.call (Call.load p k)
      let ok : Bool ← Prog.call (Call.other (Outside.send w.toByte))
      if !ok then return ([], false)
      let (sent, ok) ← httpdRespSend p (k + 1) n
      return (w.toByte :: sent, ok)

/-- `manifest_handler` and `blocklist_handler`, with the place of the pointer and of the length
in `published_t`. -/
def handler (ptrAt lenAt : Nat) : Task (Option (Bytes × Bool)) := do
  Prog.call Call.take
  let current : Option Nat ← Prog.call Call.get
  if current.isNone then
    Prog.call Call.give
    return none
  let body : Word ← Prog.call (Call.load current ptrAt)
  let len : Word ← Prog.call (Call.load current lenAt)
  let sent ← httpdRespSend body.toPtr 0 len.toSize
  Prog.call Call.give
  return some sent

/-- `manifest_handler` -/
def manifestHandler : Task (Option (Bytes × Bool)) := handler 2 3

/-- `blocklist_handler` -/
def blocklistHandler : Task (Option (Bytes × Bool)) := handler 0 1

/-- `build_manifest_json`: the string and its length. -/
def buildManifestJson (art : Artifact) (version url : Bytes) : Task (Option (Nat × Nat)) := do
  let text? : Option Bytes ← Prog.call (Call.other (Outside.print art version url))
  let some text := text? | return none
  let json? : Option Nat ← Prog.call (Call.malloc (text.length + 1))
  let some json := json? | return none
  Prog.call (Call.write (some json) 0 ((text ++ [0]).map Word.byte))
  return some (json, (cstr text).length)

/-- `published_free` -/
def publishedFree (p : Option Nat) : Task Unit := do
  if p.isNone then return ()
  let blob : Word ← Prog.call (Call.load p 0)
  if blob.toPtr.isSome then Prog.call (Call.free blob.toPtr)
  let json : Word ← Prog.call (Call.load p 2)
  Prog.call (Call.free json.toPtr)
  Prog.call (Call.free p)

/-- `if (!s_lock) s_lock = xSemaphoreCreateMutex()`, which nobody checks. -/
def makeLock : Task Unit := do
  let there : Bool ← Prog.call (Call.other Outside.sLock)
  if there then return () else do
    let _created : Bool ← Prog.call (Call.other Outside.createMutex)
    return ()

/-- `http_serve_publish`, the blob of the artifact lying at `blob`. -/
def httpServePublish (blob : Nat) (art : Artifact) (version url : Bytes) : Task Unit := do
  makeLock
  let next? : Option Nat ← Prog.call (Call.malloc 4)
  let some next := next? | Prog.call (Call.free (some blob))
  Prog.call (Call.write (some next) 0 [Word.ptr (some blob)])
  Prog.call (Call.write (some next) 1 [Word.size art.blobLen])
  let built ← buildManifestJson art version url
  match built with
  | none => do
      Prog.call (Call.free (some blob))
      Prog.call (Call.free (some next))
  | some (json, len) => do
      Prog.call (Call.write (some next) 3 [Word.size len])
      Prog.call (Call.write (some next) 2 [Word.ptr (some json)])
      Prog.call Call.take
      let old : Option Nat ← Prog.call Call.get
      Prog.call (Call.put fun _ => some next)
      Prog.call Call.give
      publishedFree old

/-- `http_serve_register` -/
def Route.handler : Route → Task (Option (Bytes × Bool))
  | .manifest => manifestHandler
  | .blocklist => blocklistHandler

/-- Where in a `published_t` its handler finds the pointer and the length. -/
def Route.place : Route → Nat × Nat
  | .manifest => (2, 3)
  | .blocklist => (0, 1)

theorem Route.handler_eq (route : Route) :
    route.handler = Memory.handler route.place.1 route.place.2 := by
  cases route <;> rfl

theorem Lies.on {h : Heap Word} {p b n j m : Nat} {bs js : List Word}
    (hl : Lies h p b n j m bs js) (route : Route) : ∃ q k ws,
      (publishedT b n j m)[route.place.1]? = some (.ptr (some q)) ∧
      (publishedT b n j m)[route.place.2]? = some (.size k) ∧ h q = some ws ∧ k ≤ ws.length ∧
      (bodies n m bs js).on route = (ws.take k).map Word.toByte := by
  cases route with
  | manifest => exact ⟨j, m, js, rfl, rfl, hl.json, hl.jsonFits, rfl⟩
  | blocklist => exact ⟨b, n, bs, rfl, rfl, hl.blob, hl.blobFits, rfl⟩

/-- A request. -/
def answer (route : Route) : Task Unit := do
  let since : Nat × Nat ← Prog.call Call.mark
  let body ← route.handler
  Prog.call (Call.answer since (route, body))

/-- A publish, of a blob in a buffer of its own. -/
def publish (art : Artifact) (version url : Bytes) : Task Unit := do
  let blob? : Option Nat ← Prog.call (Call.malloc art.blob.length)
  let some blob := blob? | return ()
  Prog.call (Call.write (some blob) 0 (art.blob.map Word.byte))
  httpServePublish blob art version url

/-- The jobs of the generator, for any task.  A blob's buffer is as long as it says. -/
def Job (p : Task Unit) : Prop :=
  (∃ route, p = answer route) ∨
    ∃ art version url, art.blobLen ≤ art.blob.length ∧ p = publish art version url

/-- What a response is: of one artifact that was published meanwhile, all of it unless the
connection broke; or 503, and nothing was published at some point meanwhile. -/
def Right (cjsonPrint : Json → Option Bytes) (a : Response) (lists : List (Option Bodies))
    (_refused : Nat) : Prop :=
  match a.2 with
  | none => none ∈ lists
  | some (sent, ok) => ∃ p, some p ∈ lists ∧ p.Made cjsonPrint ∧ sent <+: p.on a.1 ∧
      (ok = true → sent = p.on a.1)

/-! ### Requests -/

section Triples

variable {ι : Type} [DecidableEq ι] {i : ι} {s s' : Shared Word (Option Nat) (Option Bodies) ι}
  {α : Type} {h : Heap Word} {cjsonPrint : Json → Option Bytes}

/-- The triple of a task. -/
abbrev Does (cjsonPrint : Json → Option Bytes) (i : ι)
    (Q : α → Shared Word (Option Nat) (Option Bodies) ι → Prop) (p : Task α)
    (s : Shared Word (Option Nat) (Option Bodies) ι) : Prop :=
  Mutex.Does (layout cjsonPrint) (Answered cjsonPrint) (Right cjsonPrint) i Q p s

theorem httpdRespSend_does {q : Nat} {ws : List Word} {held : Option (Option Nat)}
    (hq : h q = some ws) (n : Nat) : ∀ k s, k + n ≤ ws.length →
      At (layout cjsonPrint) i h held s →
      Does cjsonPrint i (fun r s' => At (layout cjsonPrint) i h held s' ∧ Later i s s' ∧
        r.1 <+: ((ws.drop k).take n).map Word.toByte ∧
        (r.2 = true → r.1 = ((ws.drop k).take n).map Word.toByte))
        (httpdRespSend (some q) k n) s := by
  induction n with
  | zero =>
      intro k s _ hx
      exact does_pure hx fun s' hx' hlate => ⟨hx', hlate, List.nil_prefix, fun _ => rfl⟩
  | succ n ih =>
      intro k s hk hx
      have hlt : k < ws.length := by omega
      have hcons : ((ws.drop k).take (n + 1)).map Word.toByte =
          ws[k].toByte :: ((ws.drop (k + 1)).take n).map Word.toByte := by
        rw [List.drop_eq_getElem_cons hlt, List.take_succ_cons, List.map_cons]
      rw [hcons]
      refine does_load hx rfl hq (List.getElem?_eq_getElem hlt) fun s₁ hx₁ hlate₁ => ?_
      refine does_other hx₁ ⟨true, trivial⟩ fun (ok : Bool) _ s₂ hx₂ hlate₂ => ?_
      have hlate := hlate₁.trans hlate₂
      cases ok with
      | false =>
          exact does_pure hx₂ fun s' hx' hlate' =>
            ⟨hx', hlate.trans hlate', List.nil_prefix, nofun⟩
      | true =>
          refine does_bind ((ih (k + 1) s₂ (by omega) hx₂).mono
            fun ⟨sent, ok⟩ s₃ ⟨hx₃, hlate₃, hpre, hall⟩ => ?_)
          refine does_pure hx₃ fun s' hx' hlate' => ⟨hx', hlate.trans (hlate₃.trans hlate'),
            (List.cons_prefix_cons).mpr ⟨rfl, hpre⟩, fun hok => ?_⟩
          exact congrArg (List.cons _) (hall hok)

/-- The body goes out under the lock. -/
theorem respond_does {route : Route} {r : Option Nat} {p : Bodies} {f : List Nat} {q k since : Nat}
    {ws : List Word} {refused : Nat}
    (hfound : Mutex.Found (layout cjsonPrint) Heap.empty r h (some p) f) (hq : h q = some ws)
    (hk : k ≤ ws.length) (hbody : p.on route = (ws.take k).map Word.toByte)
    (hmem : some p ∈ s.served.drop since) (hx : At (layout cjsonPrint) i h (some r) s) :
    Does cjsonPrint i (fun b s' => At (layout cjsonPrint) i Heap.empty none s' ∧
      ∀ s'', Later i s' s'' → Right cjsonPrint (route, b) (s''.served.drop since)
        (s''.refused i - refused))
      (do
        let sent ← httpdRespSend (some q) 0 k
        Prog.call Call.give
        return some sent) s := by
  refine does_bind ((httpdRespSend_does hq k 0 s (by omega) hx).mono
    fun ⟨sent, ok⟩ s₁ ⟨hx₁, hlate₁, hpre, hall⟩ => ?_)
  rw [List.drop_zero, ← hbody] at hpre hall
  refine does_give hx₁ hfound.object hfound.valid fun s₂ hx₂ hlate₂ => ?_
  rw [Heap.without_of_subset hfound.within] at hx₂
  refine does_pure hx₂ fun s₃ hx₃ hlate₃ => ⟨hx₃, fun s'' hlate'' => ?_⟩
  have hlate := hlate₁.trans (hlate₂.trans (hlate₃.trans hlate''))
  exact ⟨p, hlate.mem hmem, hfound.valid p rfl, hpre, hall⟩

/-- **A response is one artifact's**: the one that was published when the lock was taken. -/
theorem handler_does (route : Route) (hx : At (layout cjsonPrint) i Heap.empty none s) :
    Does cjsonPrint i (fun b s' => At (layout cjsonPrint) i Heap.empty none s' ∧
      ∀ s'', Later i s' s'' → Right cjsonPrint (route, b)
        (s''.served.drop (s.served.length - 1)) (s''.refused i - s.refused i))
      route.handler s := by
  have hnone : ∀ {s₁ : Shared Word (Option Nat) (Option Bodies) ι} {g : Heap Word} {f : List Nat},
      Mutex.Found (layout cjsonPrint) Heap.empty none g none f →
      At (layout cjsonPrint) i g (some none) s₁ →
        none ∈ s₁.served.drop (s.served.length - 1) →
        Does cjsonPrint i (fun b s' => At (layout cjsonPrint) i Heap.empty none s' ∧
          ∀ s'', Later i s' s'' → Right cjsonPrint (route, b)
            (s''.served.drop (s.served.length - 1)) (s''.refused i - s.refused i))
          (do
            Prog.call Call.give
            return none) s₁ := by
    intro s₁ g f hfound hx₁ hmem
    refine does_give hx₁ hfound.object hfound.valid fun s₂ hx₂ hlate₂ => ?_
    rw [Heap.without_of_subset hfound.within] at hx₂
    refine does_pure hx₂ fun s₃ hx₃ hlate₃ => ⟨hx₃, fun s'' hlate'' => ?_⟩
    exact (hlate₂.trans (hlate₃.trans hlate'')).mem hmem
  rw [route.handler_eq]
  refine does_take hx fun s₁ r g v f hfound hlast hx₁ hlate₁ => ?_
  refine does_get hx₁ fun s₂ hx₂ hlate₂ => ?_
  have hmem := hlate₂.mem (hlate₁.last hlast)
  rw [Heap.empty_or] at hx₂
  rcases published_some hfound.object with
    ⟨rfl, rfl, -⟩ | ⟨p, b, n, j, m, bs, js, rfl, hl, rfl, -⟩
  · exact hnone hfound hx₂ hmem
  · obtain ⟨q, k, ws, hptr, hlen, hq, hk, hbody⟩ := hl.on route
    refine does_load hx₂ rfl hl.struct hptr fun s₃ hx₃ hlate₃ => ?_
    refine does_load hx₃ rfl hl.struct hlen fun s₄ hx₄ hlate₄ => ?_
    exact respond_does hfound hq hk hbody ((hlate₃.trans hlate₄).mem hmem) hx₄

/-- The job of a request fits. -/
theorem answer_fit (i : ι) (route : Route) :
    Fit (layout cjsonPrint) (Answered cjsonPrint) (Right cjsonPrint) i (answer route) := by
  intro s hx
  refine does_mark hx fun s₁ hx₁ hlate₁ => does_bind ?_
  refine (handler_does route hx₁).mono fun b s₂ ⟨hx₂, hright⟩ => ?_
  rw [← Prog.bind_pure (Prog.call _)]
  exact does_answer hx₂ hright fun s₃ hx₃ _ => does_pure hx₃ fun _ hx' _ => hx'

/-! ### Publishing -/

/-- What was published before is freed, each block once. -/
theorem publishedFree_does {r : Option Nat} {v : Option Bodies} {f : List Nat}
    (hfound : Mutex.Found (layout cjsonPrint) Heap.empty r h v f)
    (hx : At (layout cjsonPrint) i h none s) :
    Does cjsonPrint i (fun _ s' => At (layout cjsonPrint) i Heap.empty none s')
      (publishedFree r) s := by
  rcases published_some hfound.object with
    ⟨rfl, rfl, rfl⟩ | ⟨p, b, n, j, m, bs, js, rfl, hl, rfl, rfl⟩
  · rw [← Heap.without_of_subset hfound.within]
    refine does_pure hx fun s' hx' _ => ?_
    have hnil : h.without [] = h := funext fun p => if_neg nofun
    rw [hnil]
    exact hx'
  obtain ⟨hpb, hpj, hbj⟩ : p ≠ b ∧ p ≠ j ∧ b ≠ j := by
    have := hl.apart
    simp at this
    tauto
  refine does_load hx rfl hl.struct rfl fun s₁ hx₁ _ => ?_
  refine does_free hx₁ (fun q hq => ?_) fun s₂ hx₂ _ => ?_
  · obtain rfl := Option.some.inj hq
    rw [hl.blob]
    exact nofun
  refine does_load hx₂ rfl ((if_neg (by simp [hpb])).trans hl.struct) rfl fun s₃ hx₃ _ => ?_
  refine does_free hx₃ (fun q hq => ?_) fun s₄ hx₄ _ => ?_
  · obtain rfl := Option.some.inj hq
    rw [show h.without _ j = h j from if_neg (by simp [Ne.symm hbj]), hl.json]
    exact nofun
  rw [← Prog.bind_pure (Prog.call _)]
  refine does_free hx₄ (fun q hq => ?_) fun s₅ hx₅ _ => ?_
  · obtain rfl := Option.some.inj hq
    rw [Heap.without_without, show h.without _ p = h p from if_neg ?_, hl.struct]
    · exact nofun
    · simp [hpb, hpj]
  rw [Heap.without_without, Heap.without_without, Heap.without_of_subset fun q hq => ?_] at hx₅
  · exact does_pure hx₅ fun _ hx' _ => hx'
  · have := hfound.within q hq
    simp at this
    simp
    tauto

theorem buildManifestJson_does (art : Artifact) (version url : Bytes)
    (hx : At (layout cjsonPrint) i h none s) :
    Does cjsonPrint i (fun r s' => r = none ∧ At (layout cjsonPrint) i h none s' ∨
      ∃ json text granted, r = some (json, (cstr text).length) ∧ h json = none ∧
        cjsonPrint ((manifestTree art version url).keep granted) = some text ∧
        At (layout cjsonPrint) i
          (Function.update h json (some ((text ++ [0]).map Word.byte))) none s')
      (buildManifestJson art version url) s := by
  refine does_other hx ⟨none, nofun⟩ fun text htext s₁ hx₁ _ => ?_
  rcases text with _ | text
  · exact does_pure hx₁ fun _ hx' _ => Or.inl ⟨rfl, hx'⟩
  obtain ⟨granted, hgranted⟩ := htext text rfl
  refine does_malloc hx₁ (fun s₂ hx₂ _ => does_pure hx₂ fun _ hx' _ => Or.inl ⟨rfl, hx'⟩)
    fun s₂ json ws hjson hws hx₂ _ => ?_
  refine does_write hx₂ rfl (Function.update_self _ _ _) (by simp [hws]) fun s₃ hx₃ _ => ?_
  have hfill : ws.take 0 ++ (text ++ [0]).map Word.byte ++
      ws.drop (0 + ((text ++ [0]).map Word.byte).length) = (text ++ [0]).map Word.byte := by
    rw [List.drop_eq_nil_of_le (by simp [hws])]
    simp
  rw [Function.update_idem, hfill] at hx₃
  exact does_pure hx₃ fun s' hx' _ => Or.inr ⟨json, text, granted, rfl, hjson, hgranted, hx'⟩

/-- A `published_t` just allocated. -/
theorem length_four {st : List Word} (h : st.length = 4) : ∃ a b c d, st = [a, b, c, d] := by
  rcases st with _ | ⟨a, _ | ⟨b, _ | ⟨c, _ | ⟨d, _ | ⟨e, st⟩⟩⟩⟩⟩
  · simp at h
  · simp at h
  · simp at h
  · simp at h
  · exact ⟨a, b, c, d, rfl⟩
  · simp at h

/-- What a publish has built before it takes the lock. -/
def built (blob next json : Nat) (art : Artifact) (text : Bytes) : Heap Word :=
  Function.update (Function.update (Function.update Heap.empty blob
    (some (art.blob.map Word.byte))) next (some (publishedT blob art.blobLen json
      (cstr text).length))) json (some ((text ++ [0]).map Word.byte))

theorem mem_update {h : Heap Word} {q : Nat} {ws : List Word} {f : List Nat}
    (hf : ∀ p, h p ≠ none → p ∈ f) (p : Nat) (hp : Function.update h q (some ws) p ≠ none) :
    p ∈ q :: f := by
  by_cases hpq : p = q
  · exact hpq ▸ List.mem_cons_self
  · rw [Function.update_of_ne hpq] at hp
    exact List.mem_cons_of_mem _ (hf p hp)

theorem mem_blob {blob p : Nat} {ws : List Word}
    (hp : Function.update Heap.empty blob (some ws) p ≠ none) : p ∈ [blob] :=
  mem_update (f := []) (fun _ hq => absurd rfl hq) p hp

theorem mem_built {blob next json p : Nat} {art : Artifact} {text : Bytes}
    (hp : built blob next json art text p ≠ none) : p ∈ [next, blob, json] := by
  have := mem_update (mem_update fun _ => mem_blob) p hp
  simp at this ⊢
  tauto

theorem cstr_begins (s : Bytes) : cstr s <+: s := List.takeWhile_prefix _

theorem built_lies {blob next json : Nat} {art : Artifact} (text : Bytes)
    (hlen : art.blobLen ≤ art.blob.length) (hne : blob ≠ next) (hjnext : json ≠ next)
    (hjblob : json ≠ blob) (g : Heap Word) :
    Lies ((built blob next json art text).or g) next blob art.blobLen json (cstr text).length
      (art.blob.map Word.byte) ((text ++ [0]).map Word.byte) := by
  refine ⟨?_, ?_, ?_, by simpa using hlen, ?_, ?_⟩
  · simp [built, Heap.or, Ne.symm hjnext]
  · simp [built, Heap.or, Ne.symm hjblob, hne]
  · simp [built, Heap.or]
  · have hle := (cstr_begins text).length_le
    rw [List.length_map, List.length_append]
    omega
  · simp [Ne.symm hne, Ne.symm hjnext, Ne.symm hjblob]

theorem bodies_built {art : Artifact} {text : Bytes} :
    bodies art.blobLen (cstr text).length (art.blob.map Word.byte)
      ((text ++ [0]).map Word.byte) = ⟨cstr text, art.bytes⟩ := by
  have hbyte : ∀ l : Bytes, (l.map Word.byte).map Word.toByte = l := fun l => by
    simp [Function.comp_def]
  have hpre : cstr text <+: text ++ [0] := (cstr_begins text).trans (List.prefix_append _ _)
  unfold bodies
  rw [← List.map_take, ← List.map_take, hbyte, hbyte, ← List.prefix_iff_eq_take.mp hpre]
  rfl

/-- The lock that is there is kept. -/
theorem makeLock_does (hx : At (layout cjsonPrint) i h none s) :
    Does cjsonPrint i (fun _ s' => At (layout cjsonPrint) i h none s') makeLock s := by
  refine does_other hx ⟨true, rfl⟩ fun (there : Bool) hthere s₁ hx₁ _ => ?_
  obtain rfl : there = true := hthere
  exact does_pure hx₁ fun _ hx' _ => hx'

/-- **A publish** leaves no block behind, whatever runs out of memory. -/
theorem httpServePublish_does {blob : Nat} {art : Artifact} {version url : Bytes}
    (hlen : art.blobLen ≤ art.blob.length)
    (hx : At (layout cjsonPrint) i
      (Function.update Heap.empty blob (some (art.blob.map Word.byte))) none s) :
    Does cjsonPrint i (fun _ s' => At (layout cjsonPrint) i Heap.empty none s')
      (httpServePublish blob art version url) s := by
  refine does_bind ((makeLock_does hx).mono fun _ s₀ hx₀ => ?_)
  refine does_malloc hx₀ (fun s₁ hx₁ _ => ?_) fun s₁ next st hnext hst hx₁ _ => ?_
  · rw [← Prog.bind_pure (Prog.call _)]
    refine does_free hx₁ (fun q hq => ?_) fun s₂ hx₂ _ => ?_
    · obtain rfl := Option.some.inj hq
      simp
    · rw [Option.toList_some, Heap.without_of_subset fun _ => mem_blob] at hx₂
      exact does_pure hx₂ fun _ hx' _ => hx'
  have hne : blob ≠ next := by
    rintro rfl
    simp at hnext
  obtain ⟨a, b, c, d, rfl⟩ := length_four hst
  refine does_write hx₁ rfl (Function.update_self _ _ _) (by simp) fun s₂ hx₂ _ => ?_
  rw [Function.update_idem] at hx₂
  refine does_write hx₂ rfl (Function.update_self _ _ _) (by simp) fun s₃ hx₃ _ => ?_
  rw [Function.update_idem] at hx₃
  refine does_bind ((buildManifestJson_does art version url hx₃).mono fun built s₄ hbuilt => ?_)
  rcases hbuilt with ⟨rfl, hx₄⟩ | ⟨json, text, granted, rfl, hjson, hprint, hx₄⟩
  · refine does_free hx₄ (fun q hq => ?_) fun s₅ hx₅ _ => ?_
    · obtain rfl := Option.some.inj hq
      rw [Function.update_of_ne hne]
      simp
    rw [← Prog.bind_pure (Prog.call _)]
    refine does_free hx₅ (fun q hq => ?_) fun s₆ hx₆ _ => ?_
    · obtain rfl := Option.some.inj hq
      rw [show Heap.without _ _ _ = _ from if_neg (by simp [Ne.symm hne])]
      simp
    · rw [Heap.without_without, Heap.without_of_subset fun p hp => ?_] at hx₆
      · exact does_pure hx₆ fun _ hx' _ => hx'
      · have := mem_update (fun _ => mem_blob) p hp
        simp at this ⊢
        tauto
  have hjnext : json ≠ next := by
    rintro rfl
    simp at hjson
  have hjblob : json ≠ blob := by
    rintro rfl
    rw [Function.update_of_ne hne] at hjson
    simp at hjson
  -- The two fields that `build_manifest_json` gave.
  refine does_write hx₄ rfl ((Function.update_of_ne (Ne.symm hjnext) _ _).trans
    (Function.update_self _ _ _)) (by simp) fun s₅ hx₅ _ => ?_
  rw [Function.update_comm hjnext, Function.update_idem] at hx₅
  refine does_write hx₅ rfl ((Function.update_of_ne (Ne.symm hjnext) _ _).trans
    (Function.update_self _ _ _)) (by simp) fun s₆ hx₆ _ => ?_
  rw [Function.update_comm hjnext, Function.update_idem] at hx₆
  replace hx₆ : At (layout cjsonPrint) i (built blob next json art text) none s₆ := hx₆
  refine does_take hx₆ fun s₇ r g v f hfound _ hx₇ _ => ?_
  refine does_get hx₇ fun s₈ hx₈ _ => does_put hx₈ fun s₉ hx₉ _ => ?_
  -- The new artifact is in place, beside the old one.
  have hobj := (built_lies text hlen hne hjnext hjblob g).published
  rw [bodies_built] at hobj
  refine does_give hx₉ hobj (fun p hp => ?_) fun s₁₀ hx₁₀ _ => ?_
  · obtain rfl := Option.some.inj hp
    exact ⟨art, version, url, granted, text, hprint, rfl⟩
  rw [Heap.or_without (fun _ => mem_built) fun p hp => hfound.apart p ?_] at hx₁₀
  swap
  · have hbuilt := (built_lies text hlen hne hjnext hjblob Heap.empty).live p hp
    rwa [Heap.or_empty] at hbuilt
  exact publishedFree_does ⟨hfound.object, hfound.valid, hfound.within, fun p hp => absurd rfl hp⟩
    hx₁₀

theorem publish_fit (i : ι) {art : Artifact} (version url : Bytes)
    (hlen : art.blobLen ≤ art.blob.length) :
    Fit (layout cjsonPrint) (Answered cjsonPrint) (Right cjsonPrint) i
      (publish art version url) := by
  intro s hx
  refine does_malloc hx (fun s₁ hx₁ _ => does_pure hx₁ fun _ hx' _ => hx')
    fun s₁ blob ws _ hws hx₁ _ => ?_
  refine does_write hx₁ rfl (Function.update_self _ _ _) (by simp [hws]) fun s₂ hx₂ _ => ?_
  have hfill : ws.take 0 ++ art.blob.map Word.byte ++
      ws.drop (0 + (art.blob.map Word.byte).length) = art.blob.map Word.byte := by
    rw [List.drop_eq_nil_of_le (by simp [hws])]
    simp
  rw [Function.update_idem, hfill] at hx₂
  exact httpServePublish_does hlen hx₂

end Triples

/-! ### All of it together -/

theorem job_fit {ι : Type} [DecidableEq ι] {cjsonPrint : Json → Option Bytes} (i : ι)
    {p : Task Unit} (hp : Job p) :
    Fit (layout cjsonPrint) (Answered cjsonPrint) (Right cjsonPrint) i p := by
  rcases hp with ⟨route, rfl⟩ | ⟨art, version, url, hlen, rfl⟩
  · exact answer_fit i route
  · exact publish_fit i version url hlen

/-- Any tasks, each taking up one job after another. -/
abbrev Reach (cjsonPrint : Json → Option Bytes) {ι : Type} [DecidableEq ι] :
    Tasks.Config (Call Word (Option Nat) Response Outside) (Mutex.Res Outside.Ans)
      (Shared Word (Option Nat) (Option Bodies) ι) ι → Prop :=
  (tasks (layout cjsonPrint) (Answered cjsonPrint) fun _ => Job).Reach (start none none)

/-- **Artifacts are published and freed under running downloads, and nothing goes wrong**, in
any interleaving of any tasks: every byte that goes out is one of an allocated block, nothing is
freed twice, and no two tasks are about to touch one block.  Every response is of one artifact
that was published meanwhile.  When all are idle, what is allocated is what is published, so
every blob that was handed over before has been freed, and until then some task can go on. -/
theorem publishes_are_safe {ι : Type} [DecidableEq ι] (cjsonPrint : Json → Option Bytes)
    {c : Tasks.Config (Call Word (Option Nat) Response Outside) (Mutex.Res Outside.Ans)
      (Shared Word (Option Nat) (Option Bodies) ι) ι} (hr : Reach cjsonPrint c) :
    Sound (layout cjsonPrint) (Answered cjsonPrint) (Right cjsonPrint) c :=
  reach_sound (fun i _ hp => job_fit i hp) rfl (fun p hp => absurd hp (Option.not_mem_none p)) hr

/-- A download has begun while an artifact is being made. -/
theorem download_beside_publish : ∃ c, Reach (fun r => some (print r)) (ι := Bool) c ∧
    c.state.holder = some true ∧ c.Calls false (.malloc 8) ∧
    Sound (layout fun r => some (print r)) (Answered fun r => some (print r))
      (Right fun r => some (print r)) c := by
  have h₁ := Relation.ReflTransGen.single (r := Tasks.Step (tasks
    (layout fun r => some (print r)) (Answered fun r => some (print r)) fun _ => Job))
    (.next (c := start none none) (i := false) rfl (Or.inr ⟨⟨List.replicate 8 1, 8, 1,
      Vector.replicate 32 0⟩, ascii "v1", ascii "u", Nat.le_refl 8, rfl⟩))
  have h₂ := h₁.tail (.next (i := true) rfl (Or.inl ⟨.manifest, rfl⟩))
  have h₃ := h₂.tail (.call (i := true) rfl .mark)
  have h₄ := h₃.tail (.call (i := true) rfl (.take rfl))
  exact ⟨_, h₄, rfl, ⟨_, rfl⟩, publishes_are_safe _ h₄⟩

end EspHole.Generator.Memory
