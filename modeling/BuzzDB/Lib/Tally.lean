import Mathlib.Algebra.BigOperators.Group.Finset.Piecewise
import Mathlib.Algebra.BigOperators.Group.List.Basic
import Mathlib.Algebra.Order.BigOperators.Group.List
import Mathlib.Algebra.Order.Ring.Nat
import Mathlib.Data.List.GetD

/-!
# Tallies

How many values of a list go to each of the buckets `0 .. n-1`, for a function that says which
bucket a value goes to.  Counting one value after the other makes a tally, and sums over its
first and last entries count the values with a smaller and a greater bucket.  Counts that are
summed over a set can be counted value by value as well.
-/

namespace Tally

variable {α : Type*} (bucket : α → Nat) (n : Nat)

/-- The number of values in each bucket. -/
def tally (values : List α) : List Nat :=
  (List.range n).map fun i => values.countP fun x => bucket x = i

@[simp] theorem length_tally (values : List α) : (tally bucket n values).length = n := by
  rw [tally, List.length_map, List.length_range]

@[simp] theorem tally_nil : tally bucket n [] = List.replicate n 0 := by
  simp [tally, List.map_const']

variable {bucket n} {values : List α} {i k : Nat}

@[simp] theorem getElem_tally (bound : i < (tally bucket n values).length) :
    (tally bucket n values)[i] = values.countP fun x => bucket x = i := by
  simp [tally]

theorem getD_tally (bound : i < n) :
    (tally bucket n values).getD i 0 = values.countP fun x => bucket x = i := by
  rw [List.getD_eq_getElem _ _ (by rwa [length_tally]), getElem_tally]

/-- One more value makes the entry of its bucket one greater. -/
theorem tally_concat (values : List α) (x : α) :
    tally bucket n (values ++ [x]) = (tally bucket n values).modify (bucket x) (· + 1) := by
  refine List.ext_getElem (by simp) fun i bound bound' => ?_
  rw [List.getElem_modify, getElem_tally, getElem_tally, List.countP_append, List.countP_singleton]
  by_cases here : bucket x = i
  · simp [here]
  · simp [here]

theorem countP_lt_succ (values : List α) (k : Nat) :
    (values.countP fun x => bucket x < k + 1) =
      (values.countP fun x => bucket x < k) + values.countP fun x => bucket x = k := by
  induction values with
  | nil => rfl
  | cons x values ih =>
    simp only [List.countP_cons, ih, decide_eq_true_eq]
    split <;> split <;> split <;> omega

/-- The first entries count the values with a smaller bucket. -/
theorem sum_take_tally (bound : k ≤ n) :
    ((tally bucket n values).take k).sum = values.countP fun x => bucket x < k := by
  induction k with
  | zero => simp
  | succ k ih =>
    have inside : k < (tally bucket n values).length := by rwa [length_tally]
    rw [List.take_succ_eq_append_getElem inside, List.sum_append, ih (by omega), getElem_tally,
      countP_lt_succ]
    simp

/-- All entries together count every value. -/
theorem sum_tally (inside : ∀ x ∈ values, bucket x < n) :
    (tally bucket n values).sum = values.length := by
  have whole := @sum_take_tally _ bucket n values n (le_refl n)
  rw [List.take_of_length_le (by simp)] at whole
  rw [whole, List.countP_eq_length]
  exact fun x member => decide_eq_true (inside x member)

/-- The last entries count the values with a bucket from there on. -/
theorem sum_drop_tally (inside : ∀ x ∈ values, bucket x < n) (bound : k ≤ n) :
    ((tally bucket n values).drop k).sum = values.countP fun x => k ≤ bucket x := by
  have parts := List.sum_take_add_sum_drop (tally bucket n values) k
  have counts := @List.length_eq_countP_add_countP _ (fun x => decide (bucket x < k)) values
  rw [sum_take_tally bound, sum_tally inside] at parts
  have same : (values.countP fun x => decide ¬ (decide (bucket x < k) = true)) =
      values.countP fun x => decide (k ≤ bucket x) := by
    simp only [decide_eq_true_eq, Nat.not_lt]
  omega

/-! ## Counting twice -/

/-- How often the members of a set count a value, summed over the set and over the values. -/
theorem sum_countP {β : Type*} (s : Finset β) (P : α → β → Prop) [∀ x b, Decidable (P x b)]
    (values : List α) :
    ∑ b ∈ s, values.countP (fun x => P x b) =
      (values.map fun x => (s.filter fun b => P x b).card).sum := by
  induction values with
  | nil => simp
  | cons x values ih =>
    rw [List.map_cons, List.sum_cons, ← ih, Finset.card_filter, ← Finset.sum_add_distrib]
    refine Finset.sum_congr rfl fun b _ => ?_
    rw [List.countP_cons, Nat.add_comm]
    simp only [decide_eq_true_eq]

/-- A sum of bounded numbers reaches the bound of each number exactly if all of them do. -/
theorem sum_map_eq_iff {f : α → Nat} {most : Nat} (bounded : ∀ x ∈ values, f x ≤ most) :
    (values.map f).sum = values.length * most ↔ ∀ x ∈ values, f x = most := by
  induction values with
  | nil => simp
  | cons x values ih =>
    have here := bounded x List.mem_cons_self
    have rest : ∀ y ∈ values, f y ≤ most := fun y member => bounded y (List.mem_cons_of_mem x member)
    have total : (values.map f).sum ≤ values.length * most := by
      have sum := List.sum_le_card_nsmul (values.map f) most fun n member => by
        obtain ⟨y, inside, rfl⟩ := List.mem_map.mp member
        exact rest y inside
      rwa [List.length_map, Nat.nsmul_eq_mul] at sum
    rw [List.map_cons, List.sum_cons, List.length_cons, Nat.add_mul, Nat.one_mul,
      List.forall_mem_cons, ← ih rest]
    omega

end Tally
