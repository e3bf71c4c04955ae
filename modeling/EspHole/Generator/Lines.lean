/-
Which lines a body has, however it arrives.

`fetch_one_source` keeps one partial line between reads and a flag for a line that outgrew
its buffer.  After any bytes both are those of the segment since the last newline, its
first `lineMax` bytes and whether there are more (`LineScan.midway`), so a step of the loop
is a byte more of the segment, and a run of it is a splitting at newlines.
`fetchOneSource_splits` puts the ends to it: at the end of the body the last segment counts
unless it is empty, after a read error it does not.
-/
import EspHole.Generator.Fetch

namespace EspHole.Generator

open Ascii Pipeline

/-- The byte that ends a line. -/
abbrev newline : UInt8 := '\n'.toUInt8

/-- The newline-free segments of a body. -/
def segments (body : Bytes) : List Bytes := body.splitOn newline

/-- The segments that a newline ends, but for those that are too long. -/
def wholeLines (body : Bytes) : List Bytes :=
  (segments body).dropLast.filter fun line => line.length ≤ lineMax

/-- The last segment, if there is something in it and it is not too long. -/
def lastLine (body : Bytes) : List Bytes :=
  [(segments body).getLastD []].filter fun line => line ≠ [] ∧ line.length ≤ lineMax

theorem segments_open {p : Bytes} (h : newline ∉ p) : segments p = [p] :=
  List.splitOn_eq_singleton h

theorem segments_ended {p body : Bytes} (h : newline ∉ p) :
    segments (p ++ newline :: body) = p :: segments body :=
  List.splitOn_append_cons_self_of_not_mem h body

theorem segments_ne_nil (body : Bytes) : segments body ≠ [] := List.splitOn_ne_nil _ _

section Scan

variable {σ : Type} {onLine : σ → Bytes → σ}

/-- The scan in the middle of a line of which it has seen `p`. -/
def LineScan.midway (ctx : σ) (p : Bytes) : LineScan σ :=
  ⟨ctx, p.take lineMax, decide (lineMax < p.length)⟩

/-- A byte of the line. -/
theorem scanByte_midway (ctx : σ) (p : Bytes) {c : UInt8} (hc : c ≠ newline) :
    scanByte onLine (.midway ctx p) c = .midway ctx (p ++ [c]) := by
  unfold scanByte LineScan.midway
  rw [if_neg hc]
  simp only [List.length_take, List.length_append, List.length_singleton]
  by_cases hroom : p.length < lineMax
  · rw [if_pos (by omega), List.take_of_length_le (by omega),
      List.take_of_length_le (by simp; omega)]
    have hfits : ¬ lineMax < p.length + 1 := by omega
    have hfits' : ¬ lineMax < p.length := by omega
    simp [hfits, hfits']
  · rw [if_neg (by omega), List.take_append_of_le_length (by omega)]
    have hover : lineMax < p.length + 1 := by omega
    simp [hover]

/-- Its end. -/
theorem scanByte_newline (ctx : σ) (p : Bytes) :
    scanByte onLine (.midway ctx p) newline =
      .midway (([p].filter fun line => line.length ≤ lineMax).foldl onLine ctx) [] := by
  unfold scanByte LineScan.midway
  rw [if_pos rfl]
  by_cases hover : lineMax < p.length
  · have hdrop : ¬ p.length ≤ lineMax := by omega
    simp [hover, hdrop]
  · have hkeep : p.length ≤ lineMax := by omega
    simp [hover, hkeep, List.take_of_length_le hkeep]

/-- **The loop splits what it reads at newlines**: the lines that ended were handed on, and
of the last one the scan is in the middle. -/
theorem scan_bytes (body : Bytes) : ∀ (ctx : σ) (p : Bytes), newline ∉ p →
    body.foldl (scanByte onLine) (.midway ctx p) =
      .midway ((wholeLines (p ++ body)).foldl onLine ctx) ((segments (p ++ body)).getLastD []) := by
  induction body with
  | nil =>
      intro ctx p hp
      rw [List.append_nil, wholeLines, segments_open hp]
      rfl
  | cons c body ih =>
      intro ctx p hp
      rw [List.foldl_cons]
      by_cases hc : c = newline
      · subst hc
        have hrest := ih (([p].filter fun line => line.length ≤ lineMax).foldl onLine ctx) []
          List.not_mem_nil
        rw [scanByte_newline, hrest, List.nil_append, wholeLines, wholeLines, segments_ended hp,
          List.dropLast_cons_of_ne_nil (segments_ne_nil body), ← List.foldl_append,
          ← List.filter_append, List.singleton_append, List.getLastD_cons]
        congr 1
        obtain ⟨s, ss, hsegs⟩ := List.exists_cons_of_ne_nil (segments_ne_nil body)
        rw [hsegs, List.getLastD_cons, List.getLastD_cons]
      · have hp' : newline ∉ p ++ [c] := by
          intro h
          rcases List.mem_append.mp h with h | h
          · exact hp h
          · exact hc (List.mem_singleton.mp h).symm
        rw [scanByte_midway ctx p hc, ih ctx (p ++ [c]) hp', List.append_assoc,
          List.singleton_append]

/-- Chunks are read one after the other. -/
theorem scanReads_chunks (chunks : List Bytes) (reads : List HttpRead) :
    ∀ st : LineScan σ, (∀ c ∈ chunks, c ≠ []) →
      scanReads onLine (chunks.map .data ++ reads) st =
        scanReads onLine reads (chunks.flatten.foldl (scanByte onLine) st) := by
  induction chunks with
  | nil => intro st _; rfl
  | cons c chunks ih =>
      intro st hne
      obtain ⟨b, bs, rfl⟩ := List.exists_cons_of_ne_nil (hne c List.mem_cons_self)
      rw [List.flatten_cons, List.foldl_append]
      exact ih _ fun d hd => hne d (List.mem_cons_of_mem _ hd)

/-- The end of a body hands on what is left of it. -/
theorem scanReads_end (ctx : σ) (p : Bytes) (reads : List HttpRead) :
    scanReads onLine (.data [] :: reads) (.midway ctx p) =
      (true, ([p].filter fun line => line ≠ [] ∧ line.length ≤ lineMax).foldl onLine ctx) := by
  rw [scanReads]
  unfold LineScan.midway
  by_cases hover : lineMax < p.length
  · have hdrop : ¬ p.length ≤ lineMax := by omega
    simp [hover, hdrop]
  · have hkeep : p.length ≤ lineMax := by omega
    rw [List.take_of_length_le hkeep]
    cases p with
    | nil => rfl
    | cons c p =>
        have hkeep' : p.length + 1 ≤ lineMax := hkeep
        have hover' : ¬ lineMax < p.length + 1 := hover
        simp [hkeep', hover']

/-- **The lines of a body are its segments**, whatever the chunks it comes in: all that are not
too long, but for an empty last one; and where the body breaks off, those that a newline
ended. -/
theorem fetchOneSource_splits (onLine : σ → Bytes → σ) (ctx : σ) {chunks : List Bytes}
    (hne : ∀ c ∈ chunks, c ≠ []) (reads : List HttpRead) :
    fetchOneSource onLine (.answer 200 (chunks.map .data ++ .data [] :: reads)) ctx =
        (true, (wholeLines chunks.flatten ++ lastLine chunks.flatten).foldl onLine ctx) ∧
      fetchOneSource onLine (.answer 200 (chunks.map .data ++ .error :: reads)) ctx =
        (false, (wholeLines chunks.flatten).foldl onLine ctx) := by
  have hscan : chunks.flatten.foldl (scanByte onLine) ⟨ctx, [], false⟩ = _ :=
    scan_bytes chunks.flatten ctx [] List.not_mem_nil
  rw [List.nil_append] at hscan
  constructor
  · show scanReads onLine _ _ = _
    rw [scanReads_chunks chunks _ _ hne, hscan, scanReads_end, List.foldl_append]
    rfl
  · show scanReads onLine _ _ = _
    rw [scanReads_chunks chunks _ _ hne, hscan]
    rfl

end Scan

/-- Three chunks whose borders are not those of the lines. -/
theorem fetchOneSource_splits_three :
    fetchOneSource (fun lines line => lines ++ [line])
        (.answer 200 ([ascii "a.b\nc", ascii ".d\n", ascii "e.f"].map .data ++ [.data []])) [] =
      (true, [ascii "a.b", ascii "c.d", ascii "e.f"]) ∧
    fetchOneSource (fun lines line => lines ++ [line])
        (.answer 200 ([ascii "a.b\nc", ascii ".d\n", ascii "e.f"].map .data ++ [.error])) [] =
      (false, [ascii "a.b", ascii "c.d"]) := by
  have hne : ∀ c ∈ [ascii "a.b\nc", ascii ".d\n", ascii "e.f"], c ≠ [] := by decide
  have h := fetchOneSource_splits (fun lines line => lines ++ [line]) [] hne []
  exact ⟨h.1.trans (by decide), h.2.trans (by decide)⟩

end EspHole.Generator
