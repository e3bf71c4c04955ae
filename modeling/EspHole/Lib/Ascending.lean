/-
Strictly ascending lists: making them, checking them, searching them.

A sorted set kept as an array needs four small programs: drop the repeats of a sorted
list, check that a list is strictly ascending, and search it, of which there are two
usual forms — leave the loop on a hit, or narrow to a lower bound and compare once at
the end.  Each is written here as its loop, over a partial read `get`, and a read that
fails makes the program fail.  So "the answer is right" also says that no read fell
outside what `get` can give.
-/
import Mathlib.Data.List.Sort
import Mathlib.Data.List.Chain

variable {α : Type} [LinearOrder α]

/-- Every entry is below every later one. -/
abbrev Ascending (l : List α) : Prop := l.Pairwise (· < ·)

namespace Ascending

theorem nodup {l : List α} (h : Ascending l) : l.Nodup := h.imp fun hlt => ne_of_lt hlt

theorem getElem_lt {l : List α} (h : Ascending l) {i j : Nat} (hij : i < j)
    (hj : j < l.length) : l[i] < l[j] :=
  List.pairwise_iff_getElem.mp h i j (Nat.lt_trans hij hj) hj hij

/-- An ascending list is determined by its members. -/
theorem ext {l l' : List α} (h : Ascending l) (h' : Ascending l')
    (hmem : ∀ x, x ∈ l ↔ x ∈ l') : l = l' := by
  have hperm : l.Perm l' := (List.perm_ext_iff_of_nodup h.nodup h'.nodup).mpr hmem
  exact hperm.eq_of_pairwise (fun a b _ _ hab hba => absurd hab (lt_asymm hba)) h h'

/-! ### Dropping repeats -/

/-- Keep an entry unless it repeats the one before it, `prev`. -/
def dropRepeats : Option α → List α → List α
  | _, [] => []
  | prev, x :: xs =>
      if prev = some x then dropRepeats (some x) xs else x :: dropRepeats (some x) xs

theorem mem_dropRepeats_some {l : List α} :
    ∀ {p x : α}, (x = p ∨ x ∈ dropRepeats (some p) l) ↔ (x = p ∨ x ∈ l) := by
  induction l with
  | nil => intro p x; rfl
  | cons y ys ih =>
      intro p x
      have hy := @ih y x
      unfold dropRepeats
      by_cases hc : some p = some y
      · rw [if_pos hc]
        obtain rfl : p = y := Option.some.inj hc
        rw [hy, List.mem_cons]
        tauto
      · rw [if_neg hc, List.mem_cons, List.mem_cons, hy]

/-- No entry is lost. -/
@[simp] theorem mem_dropRepeats {l : List α} {x : α} :
    x ∈ dropRepeats none l ↔ x ∈ l := by
  cases l with
  | nil => rfl
  | cons y ys =>
      unfold dropRepeats
      rw [if_neg (by simp), List.mem_cons, List.mem_cons, mem_dropRepeats_some]

theorem dropRepeats_some_above {l : List α} :
    ∀ {p : α}, (p :: l).Pairwise (· ≤ ·) →
      Ascending (dropRepeats (some p) l) ∧ ∀ x ∈ dropRepeats (some p) l, p < x := by
  induction l with
  | nil => intro p _; exact ⟨List.Pairwise.nil, by intro x hx; simp [dropRepeats] at hx⟩
  | cons y ys ih =>
      intro p hp
      obtain ⟨hhead, htail⟩ := List.pairwise_cons.mp hp
      obtain ⟨hasc, habove⟩ := ih htail
      unfold dropRepeats
      by_cases hc : some p = some y
      · rw [if_pos hc]
        obtain rfl : p = y := Option.some.inj hc
        exact ⟨hasc, habove⟩
      · rw [if_neg hc]
        have hlt : p < y := lt_of_le_of_ne (hhead y (by simp)) fun he => hc (by rw [he])
        refine ⟨List.pairwise_cons.mpr ⟨habove, hasc⟩, ?_⟩
        intro x hx
        rcases List.mem_cons.mp hx with rfl | hx
        · exact hlt
        · exact lt_trans hlt (habove x hx)

/-- What is left of a sorted list is strictly ascending. -/
theorem dropRepeats_ascending {l : List α} (h : l.Pairwise (· ≤ ·)) :
    Ascending (dropRepeats none l) := by
  cases l with
  | nil => exact List.Pairwise.nil
  | cons y ys =>
      obtain ⟨hasc, habove⟩ := dropRepeats_some_above h
      unfold dropRepeats
      rw [if_neg (by simp)]
      exact List.pairwise_cons.mpr ⟨habove, hasc⟩

theorem dropRepeats_length_le {l : List α} :
    ∀ {p : Option α}, (dropRepeats p l).length ≤ l.length := by
  induction l with
  | nil => intro p; exact Nat.le_refl _
  | cons y ys ih =>
      intro p
      have := @ih (some y)
      unfold dropRepeats
      split
      · simp only [List.length_cons]; omega
      · simp only [List.length_cons]; omega

/-! ### Checking -/

/-- Compare `n` neighbouring pairs, the first being entries `i - 1` and `i`. -/
def check (get : Nat → Option α) : Nat → Nat → Option Bool
  | _, 0 => some true
  | i, n + 1 =>
      match get (i - 1), get i with
      | some a, some b => if b ≤ a then some false else check get (i + 1) n
      | _, _ => none

/-- The pairs from `i` on are in order. -/
def OrderedFrom (l : List α) (i : Nat) : Prop :=
  ∀ j (_ : i ≤ j) (h : j < l.length), l[j - 1] < l[j]

instance (l : List α) (i : Nat) : Decidable (OrderedFrom l i) :=
  decidable_of_iff (∀ j (h : j < l.length), i ≤ j → l[j - 1] < l[j])
    ⟨fun h j hij hj => h j hj hij, fun h j hj hij => h j hij hj⟩

theorem orderedFrom_one {l : List α} : OrderedFrom l 1 ↔ Ascending l := by
  unfold Ascending OrderedFrom
  rw [← List.isChain_iff_pairwise, List.isChain_iff_getElem]
  constructor
  · intro h i hi
    exact h (i + 1) (by omega) hi
  · intro h j hj hlt
    have := h (j - 1) (by omega)
    simpa only [Nat.sub_add_cancel hj] using this

theorem check_eq {l : List α} {get : Nat → Option α} (hget : ∀ i < l.length, get i = l[i]?) :
    ∀ (n i : Nat), 1 ≤ i → i + n = max i l.length →
      check get i n = some (decide (OrderedFrom l i)) := by
  intro n
  induction n with
  | zero =>
      intro i _ hn
      have hvac : OrderedFrom l i := fun j hij hj => by omega
      simp [check, hvac]
  | succ n ih =>
      intro i hi hn
      have hlt : i < l.length := by omega
      unfold check
      rw [hget (i - 1) (by omega), hget i hlt, List.getElem?_eq_getElem hlt,
        List.getElem?_eq_getElem (by omega : i - 1 < l.length)]
      simp only
      by_cases hc : l[i] ≤ l[i - 1]
      · have hno : ¬ OrderedFrom l i := fun h => absurd (h i (Nat.le_refl _) hlt) (not_lt.mpr hc)
        rw [if_pos hc]
        simp [hno]
      · rw [if_neg hc, ih (i + 1) (by omega) (by omega)]
        have hiff : OrderedFrom l (i + 1) ↔ OrderedFrom l i := by
          constructor
          · intro h j hij hj
            rcases Nat.eq_or_lt_of_le hij with rfl | hij'
            · exact not_le.mp hc
            · exact h j hij' hj
          · intro h j hij hj
            exact h j (by omega) hj
        simp [hiff]

/-- **The check decides strict order**, and every read it makes is inside the list. -/
theorem check_spec {l : List α} [Decidable (Ascending l)] {get : Nat → Option α}
    (hget : ∀ i < l.length, get i = l[i]?) :
    check get 1 (l.length - 1) = some (decide (Ascending l)) := by
  rw [check_eq hget _ _ (Nat.le_refl 1) (by omega)]
  simp only [orderedFrom_one]

/-- Asked about more entries than an ascending list has, the check runs off its end. -/
theorem check_overrun {l : List α} (hl : Ascending l) :
    ∀ (n i : Nat), 1 ≤ i → 0 < n → l.length < i + n → check (fun i => l[i]?) i n = none := by
  intro n
  induction n with
  | zero => intro i _ hn _; omega
  | succ n ih =>
      intro i hi _ hlt
      unfold check
      by_cases hin : i < l.length
      · rw [List.getElem?_eq_getElem (by omega : i - 1 < l.length), List.getElem?_eq_getElem hin]
        simp only
        rw [if_neg (not_le.mpr (getElem_lt hl (by omega) hin))]
        exact ih (i + 1) (by omega) (by omega) (by omega)
      · rw [List.getElem?_eq_none (by omega : l.length ≤ i)]
        split
        · rename_i h
          cases h
        · rfl

/-- A check that passes has read every entry up to the last one it was asked about. -/
theorem check_reads {get : Nat → Option α} :
    ∀ (n i : Nat), check get i n = some true → ∀ j, i ≤ j → j < i + n → get j ≠ none := by
  intro n
  induction n with
  | zero => intro i _ j hij hj; omega
  | succ n ih =>
      intro i h j hij hj
      unfold check at h
      split at h
      · rename_i a b ha hb
        by_cases hc : b ≤ a
        · rw [if_pos hc] at h
          cases h
        · rw [if_neg hc] at h
          rcases Nat.eq_or_lt_of_le hij with rfl | hlt
          · rw [hb]
            exact Option.some_ne_none b
          · exact ih (i + 1) h j hlt (by omega)
      · cases h

/-! ### Searching -/

/-- Binary search of `[lo, hi)` that leaves the loop when it meets `x`. -/
def search (get : Nat → Option α) (x : α) (lo hi : Nat) : Option Bool :=
  if lo < hi then
    let mid := lo + (hi - lo) / 2
    match get mid with
    | none => none
    | some v =>
        if v = x then some true
        else if v < x then search get x (mid + 1) hi
        else search get x lo mid
  else some false
termination_by hi - lo

/-- Binary search of `[lo, hi)` for the first entry that is not below `x`. -/
def lowerBound (get : Nat → Option α) (x : α) (lo hi : Nat) : Option Nat :=
  if lo < hi then
    let mid := lo + (hi - lo) / 2
    match get mid with
    | none => none
    | some v => if v < x then lowerBound get x (mid + 1) hi else lowerBound get x lo mid
  else some lo
termination_by hi - lo

/-- What both loops keep: `x` can only be inside the window. -/
structure Window (l : List α) (x : α) (lo hi : Nat) : Prop where
  le : lo ≤ hi
  size : hi ≤ l.length
  below : ∀ i (h : i < l.length), i < lo → l[i] < x
  above : ∀ i (h : i < l.length), hi ≤ i → x ≤ l[i]

theorem Window.all (l : List α) (x : α) : Window l x 0 l.length :=
  ⟨Nat.zero_le _, Nat.le_refl _, fun i _ hi => by omega, fun i hi h => by omega⟩

theorem Window.right {l : List α} (hl : Ascending l) {x : α} {lo hi mid : Nat}
    (h : Window l x lo hi) (hmid : mid < hi)
    (hlt : l.get ⟨mid, Nat.lt_of_lt_of_le hmid h.size⟩ < x) : Window l x (mid + 1) hi := by
  refine ⟨hmid, h.size, ?_, h.above⟩
  intro i hi' him
  rcases Nat.lt_or_eq_of_le (Nat.le_of_lt_succ him) with hlt' | rfl
  · exact lt_trans (getElem_lt hl hlt' _) hlt
  · exact hlt

theorem Window.left {l : List α} (hl : Ascending l) {x : α} {lo hi mid : Nat}
    (h : Window l x lo hi) (hlo : lo ≤ mid) (hmid : mid < hi)
    (hle : x ≤ l.get ⟨mid, Nat.lt_of_lt_of_le hmid h.size⟩) : Window l x lo mid := by
  refine ⟨hlo, Nat.le_of_lt (Nat.lt_of_lt_of_le hmid h.size), h.below, ?_⟩
  intro i hi' him
  rcases Nat.lt_or_eq_of_le him with hlt' | rfl
  · exact le_of_lt (lt_of_le_of_lt hle (getElem_lt hl hlt' hi'))
  · exact hle

section Search

variable {l : List α} {get : Nat → Option α} {x : α}

/-- An empty window with `x` cut off on the right leaves `x` nowhere. -/
theorem not_mem_of_empty {lo hi : Nat} (hw : Window l x lo hi) (hempty : hi ≤ lo)
    (hcut : ∀ i (h : i < l.length), hi ≤ i → l[i] ≠ x) : x ∉ l := by
  intro hx
  obtain ⟨i, h, rfl⟩ := List.getElem_of_mem hx
  by_cases hlo : i < lo
  · exact absurd (hw.below i h hlo) (lt_irrefl _)
  · exact hcut i h (by omega) rfl

/-- Besides the window, the early exit knows that the cut-off entries are not `x`. -/
theorem search_window (hl : Ascending l) (hget : ∀ i < l.length, get i = l[i]?) :
    ∀ (n lo hi : Nat), hi - lo ≤ n → Window l x lo hi →
      (∀ i (h : i < l.length), hi ≤ i → l[i] ≠ x) →
      search get x lo hi = some (decide (x ∈ l)) := by
  intro n
  induction n with
  | zero =>
      intro lo hi hn hw hcut
      have hno : x ∉ l := not_mem_of_empty hw (by omega) hcut
      rw [search, if_neg (by omega), decide_eq_false hno]
  | succ n ih =>
      intro lo hi hn hw hcut
      by_cases hlt : lo < hi
      · have hmid : lo + (hi - lo) / 2 < l.length := by have := hw.size; omega
        rw [search, if_pos hlt]
        simp only [hget _ hmid, List.getElem?_eq_getElem hmid]
        generalize hm : lo + (hi - lo) / 2 = mid at hmid ⊢
        by_cases heq : l[mid] = x
        · rw [if_pos heq, decide_eq_true (heq ▸ List.getElem_mem hmid)]
        · rw [if_neg heq]
          by_cases hv : l[mid] < x
          · rw [if_pos hv]
            exact ih (mid + 1) hi (by omega) (hw.right hl (by omega) hv) hcut
          · rw [if_neg hv]
            refine ih lo mid (by omega) (hw.left hl (by omega) (by omega) (not_lt.mp hv)) ?_
            intro i h hge hix
            rcases Nat.eq_or_lt_of_le hge with rfl | hgt
            · exact heq hix
            · exact hv (hix ▸ getElem_lt hl hgt h)
      · have hno : x ∉ l := not_mem_of_empty hw (by omega) hcut
        rw [search, if_neg hlt, decide_eq_false hno]

/-- **The early-exit search decides membership.** -/
theorem search_spec (hl : Ascending l) (hget : ∀ i < l.length, get i = l[i]?) :
    search get x 0 l.length = some (decide (x ∈ l)) :=
  search_window hl hget _ 0 l.length (Nat.le_refl _) (Window.all l x)
    fun i h hge => by omega

theorem lowerBound_window (hl : Ascending l) (hget : ∀ i < l.length, get i = l[i]?) :
    ∀ (n lo hi : Nat), hi - lo ≤ n → Window l x lo hi →
      ∃ k, lowerBound get x lo hi = some k ∧ Window l x k k := by
  intro n
  induction n with
  | zero =>
      intro lo hi hn hw
      have heq : hi = lo := by have := hw.le; omega
      subst heq
      rw [lowerBound, if_neg (by omega)]
      exact ⟨hi, rfl, hw⟩
  | succ n ih =>
      intro lo hi hn hw
      by_cases hlt : lo < hi
      · have hmid : lo + (hi - lo) / 2 < l.length := by have := hw.size; omega
        rw [lowerBound, if_pos hlt]
        simp only [hget _ hmid, List.getElem?_eq_getElem hmid]
        generalize hm : lo + (hi - lo) / 2 = mid at hmid ⊢
        by_cases hv : l[mid] < x
        · rw [if_pos hv]
          exact ih (mid + 1) hi (by omega) (hw.right hl (by omega) hv)
        · rw [if_neg hv]
          exact ih lo mid (by omega) (hw.left hl (by omega) (by omega) (not_lt.mp hv))
      · have heq : hi = lo := by have := hw.le; omega
        subst heq
        rw [lowerBound, if_neg hlt]
        exact ⟨hi, rfl, hw⟩

/-- **The lower bound splits the list** into what is below `x` and what is not. -/
theorem lowerBound_spec (hl : Ascending l) (hget : ∀ i < l.length, get i = l[i]?) :
    ∃ k, lowerBound get x 0 l.length = some k ∧ Window l x k k :=
  lowerBound_window hl hget _ 0 l.length (Nat.le_refl _) (Window.all l x)

/-- At the lower bound, one comparison decides membership. -/
theorem Window.mem_iff (hl : Ascending l) {k : Nat} (hw : Window l x k k) :
    x ∈ l ↔ l[k]? = some x := by
  constructor
  · intro hx
    obtain ⟨i, h, rfl⟩ := List.getElem_of_mem hx
    have hge : k ≤ i := by
      by_contra hlt
      exact absurd (hw.below i h (by omega)) (lt_irrefl _)
    rcases Nat.eq_or_lt_of_le hge with rfl | hgt
    · exact List.getElem?_eq_getElem h
    · exact absurd (getElem_lt hl hgt h) (not_lt.mpr (hw.above k (by omega) (Nat.le_refl _)))
  · intro h
    exact List.mem_of_getElem? h

end Search

end Ascending
