/-
Amounts that are booked under a key.

A list stands for a place where something of value is kept: every entry is booked under a key
and has an amount of each kind.  `tally` is what the entries of a key come to.  Moving an
entry from one place to another takes its amount here and adds it there, which is what
`tally_split` and `tally_append` are for; the rest is arithmetic.
-/
import Mathlib.Algebra.BigOperators.Group.List.Basic
import Mathlib.Algebra.Order.BigOperators.Group.List
import Mathlib.Algebra.Order.Ring.Nat

namespace Ledger

variable {β γ κ α : Type} [DecidableEq κ]

/-- What one entry counts for. -/
def weight (key : β → κ) (amount : β → α → Nat) (x : β) (k : κ) (a : α) : Nat :=
  if key x = k then amount x a else 0

/-- What is booked under a key. -/
def tally (key : β → κ) (amount : β → α → Nat) (l : List β) (k : κ) (a : α) : Nat :=
  (l.map fun x => weight key amount x k a).sum

variable {key : β → κ} {amount : β → α → Nat} {k : κ} {a : α}

theorem weight_of_eq {x : β} (h : key x = k) : weight key amount x k a = amount x a := if_pos h

theorem weight_of_ne {x : β} (h : key x ≠ k) : weight key amount x k a = 0 := if_neg h

@[simp] theorem tally_nil : tally key amount [] k a = 0 := rfl

@[simp] theorem tally_cons (x : β) (l : List β) :
    tally key amount (x :: l) k a = weight key amount x k a + tally key amount l k a :=
  List.sum_cons

@[simp] theorem tally_append (l m : List β) :
    tally key amount (l ++ m) k a = tally key amount l k a + tally key amount m k a := by
  unfold tally
  rw [List.map_append, List.sum_append]

/-- One entry, taken out of those around it. -/
theorem tally_split (pre post : List β) (x : β) : tally key amount (pre ++ x :: post) k a =
    weight key amount x k a + tally key amount (pre ++ post) k a := by
  rw [tally_append, tally_append, tally_cons]
  omega

theorem tally_perm {l m : List β} (h : l.Perm m) :
    tally key amount l k a = tally key amount m k a := (h.map _).sum_eq

theorem tally_map (f : γ → β) (l : List γ) :
    tally key amount (l.map f) k a = tally (key ∘ f) (amount ∘ f) l k a := by
  unfold tally
  rw [List.map_map]
  rfl

/-- What two places have together is what one with both amounts has. -/
theorem tally_add {part rest : β → α → Nat} {l : List β}
    (h : ∀ x ∈ l, part x a + rest x a = amount x a) :
    tally key part l k a + tally key rest l k a = tally key amount l k a := by
  induction l with
  | nil => rfl
  | cons x l ih =>
      have hx := h x List.mem_cons_self
      have hl := ih fun y hy => h y (List.mem_cons_of_mem x hy)
      rw [tally_cons, tally_cons, tally_cons]
      by_cases hk : key x = k
      · rw [weight_of_eq hk, weight_of_eq hk, weight_of_eq hk]
        omega
      · rw [weight_of_ne hk, weight_of_ne hk, weight_of_ne hk]
        omega

/-- Only what is booked under the key matters. -/
theorem tally_congr {key' : β → κ} {amount' : β → α → Nat} {l : List β}
    (h : ∀ x ∈ l, weight key amount x k a = weight key' amount' x k a) :
    tally key amount l k a = tally key' amount' l k a :=
  congrArg List.sum (List.map_congr_left h)

theorem tally_le {amount' : β → α → Nat} {l : List β}
    (h : ∀ x ∈ l, key x = k → amount x a ≤ amount' x a) :
    tally key amount l k a ≤ tally key amount' l k a := by
  refine List.sum_le_sum fun x hx => ?_
  by_cases hk : key x = k
  · rw [weight_of_eq hk, weight_of_eq hk]
    exact h x hx hk
  · rw [weight_of_ne hk]
    exact Nat.zero_le _

theorem tally_eq_zero {l : List β} (h : ∀ x ∈ l, key x = k → amount x a = 0) :
    tally key amount l k a = 0 := by
  refine List.sum_eq_zero fun v hv => ?_
  obtain ⟨x, hx, rfl⟩ := List.mem_map.mp hv
  by_cases hk : key x = k
  · exact (weight_of_eq hk).trans (h x hx hk)
  · exact weight_of_ne hk

end Ledger
