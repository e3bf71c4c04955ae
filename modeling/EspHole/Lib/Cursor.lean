/-
Loops that walk a buffer by index.

A buffer is read through an accessor that answers `none` where there is nothing to read.
`Reads get l` says that it reads `l` from its start; the two loops that skip what satisfies
a test, forwards and backwards, then answer, and answer what `List.takeWhile` and
`List.rdropWhile` say.  A program of such loops that is shown to answer has stayed inside.
-/
import Mathlib.Data.List.DropRight
import Mathlib.Data.List.TakeWhile

namespace Cursor

variable {α : Type}

/-- `while (i < stop && p(get[i])) i++` -/
def scanWhile (p : α → Bool) (get : Nat → Option α) (i stop : Nat) : Option Nat :=
  if _h : i < stop then
    match get i with
    | none => none
    | some c => if p c then scanWhile p get (i + 1) stop else some i
  else some i
termination_by stop - i

/-- `while (stop > i && p(get[stop - 1])) stop--` -/
def scanBack (p : α → Bool) (get : Nat → Option α) (i : Nat) : Nat → Option Nat
  | 0 => some 0
  | stop + 1 =>
      if i < stop + 1 then
        match get stop with
        | none => none
        | some c => if p c then scanBack p get i stop else some (stop + 1)
      else some (stop + 1)

/-- The accessor behind a pointer moved by `n`. -/
def shift (get : Nat → Option α) (n : Nat) : Nat → Option α := fun k => get (n + k)

/-- `l` can be read from the start. -/
def Reads (get : Nat → Option α) (l : List α) : Prop := ∀ k < l.length, get k = l[k]?

theorem reads_list (l : List α) : Reads (fun k => l[k]?) l := fun _ _ => rfl

/-- So can any beginning of it, -/
theorem Reads.take {get : Nat → Option α} {l : List α} (h : Reads get l) (n : Nat) :
    Reads get (l.take n) := by
  intro k hk
  rw [List.length_take] at hk
  rw [h k (by omega), List.getElem?_take_of_lt (by omega)]

/-- and any end, behind a pointer that is moved there. -/
theorem Reads.drop {get : Nat → Option α} {l : List α} (h : Reads get l) (n : Nat) :
    Reads (shift get n) (l.drop n) := by
  intro k hk
  rw [List.length_drop] at hk
  unfold shift
  rw [h (n + k) (by omega), List.getElem?_drop]

theorem Reads.get {get : Nat → Option α} {l : List α} (h : Reads get l) {k : Nat}
    (hk : k < l.length) : get k = some l[k] := by
  rw [h k hk, List.getElem?_eq_getElem hk]

/-- Of a beginning, as it is written. -/
theorem Reads.isPrefix {get : Nat → Option α} {l pre : List α} (h : Reads get l)
    (hpre : pre <+: l) : Reads get pre := by
  rw [List.prefix_iff_eq_take.mp hpre]
  exact h.take pre.length

variable {p : α → Bool} {get : Nat → Option α}

/-- Behind what satisfies a test is what is left when it is dropped. -/
theorem drop_takeWhile_length (l : List α) (i : Nat) :
    l.drop (i + ((l.drop i).takeWhile p).length) = (l.drop i).dropWhile p := by
  rw [← List.drop_drop]
  conv_lhs => arg 2; rw [← List.takeWhile_append_dropWhile (p := p) (l := l.drop i)]
  rw [List.drop_left]

/-- It ends inside. -/
theorem takeWhile_length_le {l : List α} {i : Nat} (hi : i ≤ l.length) :
    i + ((l.drop i).takeWhile p).length ≤ l.length := by
  have := (List.takeWhile_prefix (l := l.drop i) p).length_le
  rw [List.length_drop] at this
  omega

/-- **A loop forwards** stops after what satisfies the test. -/
theorem scanWhile_eq {l : List α} (h : Reads get l) (i : Nat) (hi : i ≤ l.length) :
    scanWhile p get i l.length = some (i + ((l.drop i).takeWhile p).length) := by
  obtain ⟨n, hn⟩ : ∃ n, l.length - i = n := ⟨_, rfl⟩
  induction n generalizing i with
  | zero =>
      rw [scanWhile, dif_neg (by omega), List.drop_eq_nil_of_le (by omega)]
      rfl
  | succ n ih =>
      have hlt : i < l.length := by omega
      rw [scanWhile, dif_pos hlt, h.get hlt, List.drop_eq_getElem_cons hlt]
      dsimp only
      by_cases hc : p l[i] = true
      · rw [if_pos hc, ih (i + 1) hlt (by omega), List.takeWhile_cons_of_pos hc, List.length_cons]
        congr 1
        omega
      · rw [if_neg hc, List.takeWhile_cons_of_neg hc]
        rfl

/-- From the start. -/
theorem scanWhile_zero {l : List α} (h : Reads get l) :
    scanWhile p get 0 l.length = some (l.takeWhile p).length := by
  rw [scanWhile_eq h 0 (Nat.zero_le _), List.drop_zero, Nat.zero_add]

/-- **A loop backwards** stops before what satisfies the test. -/
theorem scanBack_eq {l : List α} (h : Reads get l) (i : Nat) (hi : i ≤ l.length) :
    scanBack p get i l.length = some (i + ((l.drop i).rdropWhile p).length) := by
  induction l using List.reverseRecOn with
  | nil =>
      obtain rfl : i = 0 := Nat.le_zero.mp hi
      rfl
  | append_singleton l c ih =>
      have hlast : get l.length = some c := by
        rw [h l.length (by simp)]
        simp
      rw [List.length_append, List.length_singleton, scanBack]
      by_cases hlt : i < l.length + 1
      · rw [if_pos hlt, hlast, List.drop_append_of_le_length (by omega)]
        dsimp only
        by_cases hc : p c = true
        · have hinit : Reads get l := by
            intro k hk
            rw [h k (by simp; omega), List.getElem?_append_left hk]
          rw [if_pos hc, ih hinit (by omega), List.rdropWhile_concat_pos _ _ _ hc]
        · rw [if_neg hc, List.rdropWhile_concat_neg _ _ _ hc, List.length_append, List.length_drop,
            List.length_singleton]
          congr 1
          omega
      · have hdrop : (l ++ [c]).drop i = [] := List.drop_eq_nil_of_le (by simp; omega)
        have hlen : i = l.length + 1 := by
          rw [List.length_append, List.length_singleton] at hi
          omega
        rw [if_neg hlt, hdrop, hlen]
        rfl

/-- A span that can be read is read. -/
theorem mapM_range {l : List α} (h : Reads get l) : (List.range l.length).mapM get = some l := by
  have hreads : ∀ n, n ≤ l.length → (List.range n).mapM get = some (l.take n) := by
    intro n
    induction n with
    | zero => intro _; rfl
    | succ n ih =>
        intro hn
        have hlast : [n].mapM get = some [l[n]] := by
          rw [List.mapM_cons, h.get hn]
          rfl
        rw [List.range_succ, List.mapM_append, ih (by omega), hlast]
        show some (l.take n ++ [l[n]]) = _
        rw [List.take_append_getElem hn]
  rw [hreads l.length (Nat.le_refl _), List.take_length]

end Cursor
