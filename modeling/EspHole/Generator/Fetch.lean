/-
Fetching the sources and building the list: `generator-node/main/fetch.c`.

A response arrives in chunks that have nothing to do with its lines.  The byte loop
keeps one partial line between chunks, drops a line that outgrows its buffer, and hands
every complete line to `parse_line` with `add_sink` as the sink.

The loop is written for any context and any line handler, so that one argument serves
twice: `scanReads_eq` says the handler is run over a list of lines that depends on the
response only, and the sink's effect on the builder is then a fold over the domains
those lines emit.
-/
import EspHole.Generator.Allowlist
import EspHole.Pipeline.Generate
import EspHole.Pipeline.Parse

namespace EspHole.Generator

open Ascii Pipeline

/-! ### The sink -/

/-- `sink_ctx_t`.  `tries` numbers the calls of `blocklist_builder_add`, so that each
has an answer of the allocator of its own. -/
structure SinkCtx where
  builder : Builder
  tries : Nat

/-- `add_sink` -/
def addSink (granted : Nat → Bool) (allow : List UInt64) (ctx : SinkCtx) (domain : Bytes) :
    SinkCtx :=
  if allowlistContains allow (domainHash domain) then ctx
  else ⟨(blocklistBuilderAdd (granted ctx.tries) ctx.builder domain).2, ctx.tries + 1⟩

/-- `parse_line` with `add_sink`. -/
def sinkLine (granted : Nat → Bool) (allow : List UInt64) (ctx : SinkCtx) (line : Bytes) :
    SinkCtx :=
  (parseLine line).foldl (addSink granted allow) ctx

/-! ### One source -/

/-- `LINE_MAX` -/
def lineMax : Nat := 2048

/-- One `esp_http_client_read`: some bytes, none at the end of the body, or an error. -/
inductive HttpRead
  | data (bytes : Bytes)
  | error
  deriving DecidableEq, Repr

/-- What a source's server makes of the request. -/
inductive Response
  | noClient
  | noConnect
  | answer (status : Nat) (reads : List HttpRead)
  deriving DecidableEq, Repr

section Scan

variable {σ : Type} (onLine : σ → Bytes → σ)

/-- The locals of the byte loop: `s_line`, `line_overflowed` and the caller's context. -/
structure LineScan (σ : Type) where
  ctx : σ
  line : Bytes
  overflowed : Bool

/-- One byte of the loop in `fetch_one_source`. -/
def scanByte (st : LineScan σ) (c : UInt8) : LineScan σ :=
  if c = '\n'.toUInt8 then
    ⟨if st.overflowed then st.ctx else onLine st.ctx st.line, [], false⟩
  else if st.line.length < lineMax then { st with line := st.line ++ [c] }
  else { st with overflowed := true }

/-- The read loop, and the last line without a newline after it.  Returns whether the
body was read to its end. -/
def scanReads : List HttpRead → LineScan σ → Bool × σ
  | .error :: _, st => (false, st.ctx)
  | .data (b :: bs) :: reads, st => scanReads reads ((b :: bs).foldl (scanByte onLine) st)
  | .data [] :: _, st =>
      (true, if st.line.length > 0 ∧ !st.overflowed then onLine st.ctx st.line else st.ctx)
  | [], st =>
      (true, if st.line.length > 0 ∧ !st.overflowed then onLine st.ctx st.line else st.ctx)

/-- `fetch_one_source` -/
def fetchOneSource (response : Response) (ctx : σ) : Bool × σ :=
  match response with
  | .noClient => (false, ctx)
  | .noConnect => (false, ctx)
  | .answer status reads =>
      if status ≠ 200 then (false, ctx) else scanReads onLine reads ⟨ctx, [], false⟩

end Scan

/-- The lines a response makes `fetch_one_source` parse, in order. -/
def parsedLines (response : Response) : List Bytes :=
  (fetchOneSource (fun lines line => lines ++ [line]) response []).2

/-! ### All sources -/

/-- The loop of `fetch_and_generate` over `SOURCE_URLS`; an empty URL is a disabled slot. -/
def fetchSources {σ : Type} (onLine : σ → Bytes → σ) : List (Bytes × Response) → σ → σ
  | [], ctx => ctx
  | (url, response) :: rest, ctx =>
      if url = [] then fetchSources onLine rest ctx
      else fetchSources onLine rest (fetchOneSource onLine response ctx).2

/-- `fetch_and_generate`, which destroys the builder that `finish` leaves.  `created` is the
allocator's answer to `blocklist_builder_create`. -/
def fetchAndGenerate (sha256 : Bytes → Digest) (created : Bool) (granted : Nat → Bool)
    (a : FinishAlloc) (allow : List UInt64) (sources : List (Bytes × Response))
    (minDomains : Nat) : Option (GenerateStatus × Artifact) :=
  if !created then some (.errAlloc, .zero)
  else
    let ctx : SinkCtx := ⟨blocklistBuilderCreate minDomains, 0⟩
    (blocklistBuilderFinish sha256 a
      (fetchSources (sinkLine granted allow) sources ctx).builder).map blocklistBuilderDestroy

/-- The lines parsed over all sources. -/
def sourceLines (sources : List (Bytes × Response)) : List Bytes :=
  fetchSources (fun lines line => lines ++ [line]) sources []

/-- The domains those lines hand to the sink that no exception stops. -/
def offeredDomains (allow : List UInt64) (lines : List Bytes) : List Bytes :=
  (lines.flatMap parseLine).filter fun d => !allowlistContains allow (domainHash d)

/-! ### The handler is run over the parsed lines -/

section Natural

variable {σ : Type} {onLine : σ → Bytes → σ}

/-- A scan whose context is the fold over the lines a recording scan has seen. -/
structure Follows (onLine : σ → Bytes → σ) (ctx : σ) (st : LineScan σ)
    (rec : LineScan (List Bytes)) : Prop where
  ctx : st.ctx = rec.ctx.foldl onLine ctx
  line : st.line = rec.line
  overflowed : st.overflowed = rec.overflowed

theorem Follows.byte {ctx : σ} {st : LineScan σ} {rec : LineScan (List Bytes)}
    (h : Follows onLine ctx st rec) (c : UInt8) :
    Follows onLine ctx (scanByte onLine st c)
      (scanByte (fun lines line => lines ++ [line]) rec c) := by
  obtain ⟨hctx, hline, hover⟩ := h
  unfold scanByte
  by_cases hc : c = '\n'.toUInt8
  · rw [if_pos hc, if_pos hc]
    refine ⟨?_, rfl, rfl⟩
    cases ho : rec.overflowed <;> simp [hover, ho, hctx, hline]
  · rw [if_neg hc, if_neg hc, hline]
    by_cases hl : rec.line.length < lineMax
    · rw [if_pos hl, if_pos hl]
      exact ⟨hctx, by simp, hover⟩
    · rw [if_neg hl, if_neg hl]
      exact ⟨hctx, by simp, rfl⟩

theorem Follows.bytes {ctx : σ} (bs : Bytes) :
    ∀ {st : LineScan σ} {rec : LineScan (List Bytes)}, Follows onLine ctx st rec →
      Follows onLine ctx (bs.foldl (scanByte onLine) st)
        (bs.foldl (scanByte fun lines line => lines ++ [line]) rec) := by
  induction bs with
  | nil => intro st rec h; exact h
  | cons b bs ih => intro st rec h; exact ih (h.byte b)

theorem Follows.reads {ctx : σ} (reads : List HttpRead) :
    ∀ {st : LineScan σ} {rec : LineScan (List Bytes)}, Follows onLine ctx st rec →
      (scanReads onLine reads st).2 =
        (scanReads (fun lines line => lines ++ [line]) reads rec).2.foldl onLine ctx := by
  have hend : ∀ {st : LineScan σ} {rec : LineScan (List Bytes)}, Follows onLine ctx st rec →
      (if st.line.length > 0 ∧ !st.overflowed then onLine st.ctx st.line else st.ctx) =
        (if rec.line.length > 0 ∧ !rec.overflowed then rec.ctx ++ [rec.line]
          else rec.ctx).foldl onLine ctx := by
    intro st rec h
    rw [h.line, h.overflowed, h.ctx]
    split <;> simp
  induction reads with
  | nil => intro st rec h; exact hend h
  | cons r reads ih =>
      intro st rec h
      match r with
      | .error => exact h.ctx
      | .data [] => exact hend h
      | .data (b :: bs) => exact ih (h.bytes (b :: bs))

/-- **Whatever the handler does, it does it to the parsed lines**, in their order. -/
theorem fetchOneSource_eq (response : Response) (ctx : σ) :
    (fetchOneSource onLine response ctx).2 = (parsedLines response).foldl onLine ctx := by
  unfold parsedLines fetchOneSource
  match response with
  | .noClient => rfl
  | .noConnect => rfl
  | .answer status reads =>
      by_cases hs : status ≠ 200
      · simp [hs]
      · simp only [hs, if_false]
        exact Follows.reads reads ⟨rfl, rfl, rfl⟩

theorem fetchSources_eq (sources : List (Bytes × Response)) :
    ∀ (ctx : σ) (lines : List Bytes),
      fetchSources onLine sources (lines.foldl onLine ctx) =
        (fetchSources (fun lines line => lines ++ [line]) sources lines).foldl onLine ctx := by
  induction sources with
  | nil => intro ctx lines; rfl
  | cons s rest ih =>
      intro ctx lines
      obtain ⟨url, response⟩ := s
      unfold fetchSources
      by_cases hu : url = []
      · rw [if_pos hu, if_pos hu]
        exact ih ctx lines
      · rw [if_neg hu, if_neg hu, fetchOneSource_eq, fetchOneSource_eq, ← List.foldl_append, ih]
        congr 2
        generalize parsedLines response = ls
        induction ls generalizing lines with
        | nil => simp
        | cons l ls ihl => simpa using ihl (lines ++ [l])

end Natural

/-! ### A body that arrives a line at a time -/

section Lines

variable {σ : Type} {onLine : σ → Bytes → σ}

theorem scanByte_line (l : Bytes) :
    ∀ (ctx : σ) (line : Bytes), '\n'.toUInt8 ∉ l → line.length + l.length ≤ lineMax →
      l.foldl (scanByte onLine) ⟨ctx, line, false⟩ = ⟨ctx, line ++ l, false⟩ := by
  induction l with
  | nil => intro ctx line _ _; simp
  | cons c l ih =>
      intro ctx line hnl hroom
      simp only [List.length_cons] at hroom
      obtain ⟨hc, hl⟩ : c ≠ '\n'.toUInt8 ∧ '\n'.toUInt8 ∉ l := by
        constructor
        · rintro rfl
          exact hnl List.mem_cons_self
        · exact fun hm => hnl (List.mem_cons_of_mem _ hm)
      rw [List.foldl_cons, scanByte, if_neg hc, if_pos (by simp only; omega),
        ih ctx (line ++ [c]) hl (by simp; omega)]
      simp

/-- Lines that fit the buffer are handed on as they come in. -/
theorem scanReads_lines (lines : List Bytes) :
    ∀ ctx : σ, (∀ l ∈ lines, '\n'.toUInt8 ∉ l ∧ l.length ≤ lineMax) →
      scanReads onLine (lines.map fun l => .data (l ++ ['\n'.toUInt8])) ⟨ctx, [], false⟩ =
        (true, lines.foldl onLine ctx) := by
  induction lines with
  | nil => intro ctx _; rfl
  | cons l lines ih =>
      intro ctx hlines
      obtain ⟨hnl, hlen⟩ := hlines l List.mem_cons_self
      obtain ⟨b, bs, hcons⟩ := List.exists_cons_of_ne_nil
        (show l ++ ['\n'.toUInt8] ≠ [] by simp)
      have hline : (l ++ ['\n'.toUInt8]).foldl (scanByte onLine) ⟨ctx, [], false⟩ =
          ⟨onLine ctx l, [], false⟩ := by
        rw [List.foldl_append, scanByte_line l ctx [] hnl (by simpa using hlen)]
        rfl
      rw [List.map_cons, hcons, scanReads, ← hcons, hline,
        ih _ fun l' hl' => hlines l' (List.mem_cons_of_mem _ hl')]
      rfl

end Lines

/-! ### What the builder holds after a fetch -/

/-- Each domain with the allocator's answer to its add, counting from `n`. -/
def withAnswers (granted : Nat → Bool) : Nat → List Bytes → List (Bool × Bytes)
  | _, [] => []
  | n, d :: ds => (granted n, d) :: withAnswers granted (n + 1) ds

theorem withAnswers_granted (ds : List Bytes) :
    ∀ n, withAnswers (fun _ => true) n ds = ds.map fun d => (true, d) := by
  induction ds with
  | nil => intro n; rfl
  | cons d ds ih => intro n; simp [withAnswers, ih]

theorem withAnswers_map_snd (granted : Nat → Bool) (ds : List Bytes) :
    ∀ n, (withAnswers granted n ds).map Prod.snd = ds := by
  induction ds with
  | nil => intro n; rfl
  | cons d ds ih => intro n; simp [withAnswers, ih]

/-- The sink adds what no exception stops. -/
theorem foldl_addSink (granted : Nat → Bool) (allow : List UInt64) (ds : List Bytes) :
    ∀ ctx : SinkCtx, (ds.foldl (addSink granted allow) ctx).builder =
      (addAll ctx.builder (withAnswers granted ctx.tries
        (ds.filter fun d => !allowlistContains allow (domainHash d)))).2 := by
  induction ds with
  | nil => intro ctx; rfl
  | cons d ds ih =>
      intro ctx
      rw [List.foldl_cons, ih]
      unfold addSink
      by_cases hd : allowlistContains allow (domainHash d) = true
      · rw [if_pos hd, List.filter_cons_of_neg (by simpa using hd)]
      · rw [if_neg hd, List.filter_cons_of_pos (by simp [hd])]
        rfl

/-- The domains whose add returned true, over the parsed lines. -/
def addedDomains (granted : Nat → Bool) (allow : List UInt64) (minDomains : Nat)
    (lines : List Bytes) : List Bytes :=
  (addAll (blocklistBuilderCreate minDomains)
    (withAnswers granted 0 (offeredDomains allow lines))).1

theorem addAll_sublist (xs : List (Bool × Bytes)) :
    ∀ b : Builder, (addAll b xs).1.Sublist (xs.map Prod.snd) := by
  induction xs with
  | nil => intro b; exact List.Sublist.refl _
  | cons x xs ih =>
      intro b
      have hrest := ih (blocklistBuilderAdd x.1 b x.2).2
      simp only [addAll, List.map_cons]
      cases (blocklistBuilderAdd x.1 b x.2).1 with
      | true => exact hrest.cons_cons x.2
      | false => exact hrest.cons x.2

/-- An added domain was offered. -/
theorem addedDomains_subset {granted : Nat → Bool} {allow : List UInt64} {minDomains : Nat}
    {lines : List Bytes} : addedDomains granted allow minDomains lines ⊆
      offeredDomains allow lines := by
  have := (addAll_sublist (withAnswers granted 0 (offeredDomains allow lines))
    (blocklistBuilderCreate minDomains)).subset
  rwa [withAnswers_map_snd] at this

/-- The generator's context after some lines. -/
def sinkLines (granted : Nat → Bool) (allow : List UInt64) (minDomains : Nat)
    (lines : List Bytes) : SinkCtx :=
  lines.foldl (sinkLine granted allow) ⟨blocklistBuilderCreate minDomains, 0⟩

theorem sinkLines_builder (granted : Nat → Bool) (allow : List UInt64) (minDomains : Nat)
    (lines : List Bytes) : (sinkLines granted allow minDomains lines).builder =
      (addAll (blocklistBuilderCreate minDomains)
        (withAnswers granted 0 (offeredDomains allow lines))).2 := by
  have hflat : ∀ (ls : List Bytes) (ctx : SinkCtx),
      ls.foldl (sinkLine granted allow) ctx =
        (ls.flatMap parseLine).foldl (addSink granted allow) ctx := by
    intro ls
    induction ls with
    | nil => intro ctx; rfl
    | cons l ls ih => intro ctx; rw [List.foldl_cons, ih, List.flatMap_cons, List.foldl_append]; rfl
  unfold sinkLines
  rw [hflat, foldl_addSink]
  rfl

/-- **What the builder holds after the lines**: the hash of each added domain, in order. -/
theorem sinkLines_spec (granted : Nat → Bool) (allow : List UInt64) (minDomains : Nat)
    (lines : List Bytes) :
    (sinkLines granted allow minDomains lines).builder.hashes =
        (addedDomains granted allow minDomains lines).map domainHash ∧
      (sinkLines granted allow minDomains lines).builder.minDomains = minDomains ∧
      (sinkLines granted allow minDomains lines).builder.WellFormed := by
  rw [sinkLines_builder]
  obtain ⟨hh, hm, hw⟩ := addAll_spec (withAnswers granted 0 (offeredDomains allow lines))
    (blocklistBuilderCreate_wellFormed minDomains)
  exact ⟨hh, hm, hw⟩

/-- An offered domain was emitted by some line, and so is normalised, and no exception
stands for it. -/
theorem offeredDomains_spec {allow : List UInt64} {lines : List Bytes} {d : Bytes}
    (h : d ∈ offeredDomains allow lines) : ValidDomain d ∧ domainHash d ∉ allow := by
  obtain ⟨hd, hallow⟩ := List.mem_filter.mp h
  obtain ⟨line, -, hd⟩ := List.mem_flatMap.mp hd
  refine ⟨parseLine_valid hd, fun hm => ?_⟩
  simp [allowlistContains_iff.mpr hm] at hallow

/-- `fetch_and_generate` finishes the builder that the parsed lines leave. -/
theorem fetchAndGenerate_eq (sha256 : Bytes → Digest) (created : Bool) (granted : Nat → Bool)
    (a : FinishAlloc) (allow : List UInt64) (sources : List (Bytes × Response))
    (minDomains : Nat) :
    fetchAndGenerate sha256 created granted a allow sources minDomains =
      if !created then some (.errAlloc, .zero)
      else (blocklistBuilderFinish sha256 a
        (sinkLines granted allow minDomains (sourceLines sources)).builder).map
          blocklistBuilderDestroy := by
  have heq : fetchSources (sinkLine granted allow) sources
      (⟨blocklistBuilderCreate minDomains, 0⟩ : SinkCtx) =
      sinkLines granted allow minDomains (sourceLines sources) :=
    fetchSources_eq sources (⟨blocklistBuilderCreate minDomains, 0⟩ : SinkCtx) []
  unfold fetchAndGenerate
  simp only [heq]

/-- A published artifact is that of the builder the sources left. -/
theorem fetchAndGenerate_ok {sha256 : Bytes → Digest} {created : Bool} {granted : Nat → Bool}
    {a : FinishAlloc} {allow : List UInt64} {sources : List (Bytes × Response)}
    {minDomains : Nat} {art : Artifact}
    (h : fetchAndGenerate sha256 created granted a allow sources minDomains = some (.ok, art)) :
    art.Of sha256 (sinkLines granted allow minDomains (sourceLines sources)).builder := by
  unfold fetchAndGenerate at h
  split at h
  · cases h
  · have heq : fetchSources (sinkLine granted allow) sources
        (⟨blocklistBuilderCreate minDomains, 0⟩ : SinkCtx) =
        sinkLines granted allow minDomains (sourceLines sources) :=
      fetchSources_eq sources (⟨blocklistBuilderCreate minDomains, 0⟩ : SinkCtx) []
    simp only [heq] at h
    obtain ⟨⟨status, out, left⟩, hfinish, heq⟩ := Option.map_eq_some_iff.mp h
    obtain ⟨rfl, rfl⟩ := Prod.mk.inj heq
    exact blocklistBuilderFinish_ok (sinkLines_spec granted allow minDomains _).2.2 hfinish

end EspHole.Generator
