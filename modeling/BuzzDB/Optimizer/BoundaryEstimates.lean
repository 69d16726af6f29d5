import BuzzDB.Optimizer.IntHistogram
import Mathlib.Tactic.FieldSimp
import Mathlib.Tactic.Linarith

/-!
# Estimates at the ends of buckets

`GT` takes `bucket_right`, which is the first value of the next bucket, for the last one of its
own: within a bucket its estimate and that of `LT` add up to the whole bucket, so that `GT` counts
the value itself.  The other three range operators are exact at the ends of their bucket.
-/

namespace BuzzDB.Optimizer.IntHistogram

variable {h : IntHistogram} {values : List Int} {buckets minVal maxVal v l r : Int} {i : Nat}

/-! ## A value in the range -/

theorem Built.totalValues_ne (built : Built h values) (nonempty : values ≠ []) : h.totalValues ≠ 0 := by
  rw [built.total]
  exact mt List.length_eq_zero_iff.mp nonempty

/-- The branches of `estimate_selectivity` behind its early returns. -/
theorem estimate_inside (counted : h.totalValues ≠ 0) (low : h.privateMinVal ≤ v)
    (high : v ≤ h.privateMaxVal) :
    h.estimateSelectivity .eq v = h.estimateEqual v ∧
    h.estimateSelectivity .ne v = 1 - h.estimateEqual v ∧
    h.estimateSelectivity .gt v = h.partOfBucket v (h.bucketRight v - v) + h.sharesAbove v ∧
    h.estimateSelectivity .lt v = h.partOfBucket v (v - h.bucketLeft v) + h.sharesBelow v ∧
    h.estimateSelectivity .ge v = (if v ≤ h.privateMinVal then 1
      else (if v = h.bucketLeft v then h.wholeBucket v
        else h.partOfBucket v (h.bucketRight v - v)) + h.sharesAbove v) ∧
    h.estimateSelectivity .le v = (if v ≥ h.privateMaxVal then 1
      else (if v = h.bucketRight v - 1 then h.wholeBucket v
        else h.partOfBucket v (v - h.bucketLeft v + 1)) + h.sharesBelow v) := by
  have notLow : ¬ v < h.privateMinVal := Int.not_lt.mpr low
  have notHigh : ¬ v > h.privateMaxVal := Int.not_lt.mpr high
  simp only [estimateSelectivity, if_neg counted, if_neg notLow, if_neg notHigh, and_self]

theorem addAll_range (h : IntHistogram) (values : List Int) :
    (h.addAll values).privateMinVal = h.privateMinVal ∧
      (h.addAll values).privateMaxVal = h.privateMaxVal := by
  induction values generalizing h with
  | nil => exact ⟨rfl, rfl⟩
  | cons v values ih =>
    obtain ⟨sameMin, sameMax⟩ := h.addValue_range v
    obtain ⟨restMin, restMax⟩ := ih (h.addValue v)
    exact ⟨restMin.trans sameMin, restMax.trans sameMax⟩

/-- What the constructor and `add_value` make of any values. -/
theorem built_new (positive : 1 ≤ buckets) (ordered : minVal ≤ maxVal) (values : List Int) :
    Built ((new buckets minVal maxVal).addAll values)
      (values.filter fun v => minVal ≤ v ∧ v ≤ maxVal) :=
  built_addAll (Built.new positive ordered) values

/-! ## Exact estimates -/

/-- The range operators have the exact fractions at the ends of the range `l..r`. -/
structure ExactAt (h : IntHistogram) (values : List Int) (l r : Int) : Prop where
  lt : h.estimateSelectivity .lt l = fraction values (· < l)
  ge : h.estimateSelectivity .ge l = fraction values (l ≤ ·)
  le : h.estimateSelectivity .le r = fraction values (· ≤ r)
  gt : h.estimateSelectivity .gt r = fraction values (r < ·)

/-- The ends of a bucket are the same for all of its values. -/
theorem Built.ends (built : Built h values) (left : l = h.privateMinVal + i * h.bucketWidth)
    (right : r = min (l + h.bucketWidth - 1) h.privateMaxVal) (low : l ≤ v) (high : v ≤ r) :
    h.bucketLeft v = l ∧ h.bucketRight v = r + 1 := by
  have nonneg : 0 ≤ i * h.bucketWidth :=
    Int.mul_nonneg (Int.natCast_nonneg i) (Int.le_of_lt built.width)
  have vLow : h.privateMinVal ≤ v := by omega
  have vHigh : v ≤ h.privateMaxVal := by omega
  have below := built.lt_bucket_iff vLow i
  have next := built.lt_bucket_iff vLow (i + 1)
  rw [Nat.cast_add, Nat.cast_one, Int.add_mul, Int.one_mul] at next
  have bucket : h.bucketOf v = i := by omega
  have isLeft : h.bucketLeft v = l := by
    rw [bucketLeft, (built.index_eq vLow vHigh).1, bucket, left]
  refine ⟨isLeft, ?_⟩
  unfold bucketRight
  rw [isLeft]
  dsimp only
  split <;> omega

section Ends

variable (built : Built h values) (nonempty : values ≠ [])
  (left : l = h.privateMinVal + i * h.bucketWidth) (reached : l ≤ h.privateMaxVal)
  (right : r = min (l + h.bucketWidth - 1) h.privateMaxVal)

include built nonempty left reached right

/-- `LT`, `GE` and `LE` are exact. -/
theorem Built.exact_but_gt :
    h.estimateSelectivity .lt l = fraction values (· < l) ∧
      h.estimateSelectivity .ge l = fraction values (l ≤ ·) ∧
      h.estimateSelectivity .le r = fraction values (· ≤ r) := by
  have width := built.width
  have nonneg : 0 ≤ i * h.bucketWidth :=
    Int.mul_nonneg (Int.natCast_nonneg i) (Int.le_of_lt width)
  have counted := built.totalValues_ne nonempty
  have lLow : h.privateMinVal ≤ l := by omega
  have lr : l ≤ r := by omega
  have rHigh : r ≤ h.privateMaxVal := by omega
  obtain ⟨leftL, rightL⟩ := built.ends left right (le_refl l) lr
  obtain ⟨leftR, rightR⟩ := built.ends left right lr (le_refl r)
  obtain ⟨_, _, _, lt, ge, _⟩ := estimate_inside counted lLow reached
  obtain ⟨_, _, _, _, _, le⟩ := estimate_inside counted (lLow.trans lr) rHigh
  refine ⟨?_, ?_, ?_⟩
  · rw [lt, partOfBucket_eq, built.sharesBelow_eq lLow reached, leftL, Int.sub_self]
    simp
  · rw [ge]
    split
    · rename_i first
      exact (fraction_eq_one nonempty fun x member => by
        have inside := built.inside x member
        omega).symm
    · rw [if_pos leftL.symm, built.wholeBucket_eq lLow reached, built.sharesAbove_eq lLow reached,
        leftL, rightL]
      refine fraction_add (fun x member => ?_) fun x member => ?_
      · omega
      · omega
  · rw [le]
    split
    · rename_i last
      exact (fraction_eq_one nonempty fun x member => by
        have inside := built.inside x member
        omega).symm
    · rw [if_pos (by omega), built.wholeBucket_eq (lLow.trans lr) rHigh,
        built.sharesBelow_eq (lLow.trans lr) rHigh, leftR, rightR]
      refine fraction_add (fun x member => ?_) fun x member => ?_
      · omega
      · omega

/-- `GT` counts one value's part of the bucket too much. -/
theorem Built.gt_right :
    h.estimateSelectivity .gt r =
      (values.countP fun x => l ≤ x ∧ x ≤ r : Nat) / (r + 1 - l : Int) / values.length +
        fraction values (r < ·) := by
  have nonneg : 0 ≤ i * h.bucketWidth :=
    Int.mul_nonneg (Int.natCast_nonneg i) (Int.le_of_lt built.width)
  have counted := built.totalValues_ne nonempty
  have width := built.width
  have rLow : h.privateMinVal ≤ r := by omega
  have rHigh : r ≤ h.privateMaxVal := by omega
  have lr : l ≤ r := by omega
  obtain ⟨leftR, rightR⟩ := built.ends left right lr (le_refl r)
  obtain ⟨_, _, gt, _⟩ := estimate_inside counted rLow rHigh
  have one : r + 1 - r = 1 := by omega
  rw [gt, partOfBucket_eq, built.sharesAbove_eq rLow rHigh, built.height_eq rLow rHigh, leftR,
    rightR, built.total, one, Int.cast_one, mul_one]
  simp only [Int.lt_add_one_iff, Int.add_one_le_iff]

/-- All four are exact exactly if the bucket is empty. -/
theorem Built.exactAt_iff : ExactAt h values l r ↔ ∀ x ∈ values, ¬ (l ≤ x ∧ x ≤ r) := by
  have width := built.width
  have wide : l < r + 1 := by omega
  have part := built.gt_right nonempty left reached right
  have counted : (values.length : ℚ) ≠ 0 :=
    Nat.cast_ne_zero.mpr (mt List.length_eq_zero_iff.mp nonempty)
  have size : ((r + 1 - l : Int) : ℚ) ≠ 0 := Int.cast_ne_zero.mpr (by omega)
  have exactGt : h.estimateSelectivity .gt r = fraction values (r < ·) ↔
      ∀ x ∈ values, ¬ (l ≤ x ∧ x ≤ r) := by
    rw [part, add_eq_right, div_eq_zero_iff, or_iff_left counted, div_eq_zero_iff, or_iff_left size,
      Nat.cast_eq_zero, List.countP_eq_zero]
    simp only [decide_eq_true_eq]
  refine ⟨fun exactAt => exactGt.mp exactAt.gt, fun empty => ?_⟩
  obtain ⟨lt, ge, le⟩ := built.exact_but_gt nonempty left reached right
  exact ⟨lt, ge, le, exactGt.mpr empty⟩

end Ends

/-- The estimates for one value agree with each other. -/
structure Consistent (h : IntHistogram) (v : Int) : Prop where
  one : h.estimateSelectivity .lt v + h.estimateSelectivity .eq v + h.estimateSelectivity .gt v = 1
  le : h.estimateSelectivity .le v = h.estimateSelectivity .lt v + h.estimateSelectivity .eq v
  ge : h.estimateSelectivity .ge v = h.estimateSelectivity .gt v + h.estimateSelectivity .eq v
  ne : h.estimateSelectivity .eq v + h.estimateSelectivity .ne v = 1

/-- A value outside the range takes the early returns. -/
theorem consistent_outside (counted : h.totalValues ≠ 0)
    (outside : v < h.privateMinVal ∨ h.privateMinVal ≤ v ∧ h.privateMaxVal < v) : Consistent h v := by
  rcases outside with below | ⟨notBelow, above⟩
  · constructor <;> simp [estimateSelectivity, counted, below]
  · constructor <;> simp [estimateSelectivity, counted, Int.not_lt.mpr notBelow, above]

section Inside

variable (built : Built h values) (nonempty : values ≠ []) (low : h.privateMinVal ≤ v)
  (high : v ≤ h.privateMaxVal)

include built low high

/-- The values below the right end of the bucket. -/
theorem Built.below_right :
    fraction values (· < h.bucketLeft v) + h.height v / h.totalValues =
      fraction values (· < h.bucketRight v) := by
  have whole : (h.height v : ℚ) / h.totalValues =
      fraction values fun x => h.bucketLeft v ≤ x ∧ x < h.bucketRight v := by
    rw [built.height_eq low high, built.total, fraction]
  obtain ⟨_, left, _⟩ := built.bucket low high
  obtain ⟨right, _⟩ := built.bucketRight_eq low high
  rw [whole]
  exact fraction_add (fun x _ => by omega) fun x _ => by omega

/-- The bucket of the value, and those below and above it. -/
theorem Built.shares (nonempty : values ≠ []) :
    h.sharesBelow v + h.height v / h.totalValues + h.sharesAbove v = 1 := by
  have all : fraction values (· < h.bucketRight v) + fraction values (h.bucketRight v ≤ ·) =
      fraction values fun _ => True :=
    fraction_add (fun x _ => iff_of_true trivial (lt_or_ge x _)) fun x _ => by omega
  rw [built.sharesBelow_eq low high, built.sharesAbove_eq low high, built.below_right low high, all]
  exact fraction_eq_one nonempty fun _ _ => trivial

/-- `LT` and `GT` share the bucket of the value among themselves. -/
theorem Built.lt_add_gt (nonempty : values ≠ []) :
    h.estimateSelectivity .lt v + h.estimateSelectivity .gt v = 1 := by
  obtain ⟨_, _, gt, lt, _⟩ := estimate_inside (built.totalValues_ne nonempty) low high
  obtain ⟨_, left, _⟩ := built.bucket low high
  obtain ⟨right, _⟩ := built.bucketRight_eq low high
  have size : ((h.bucketRight v : ℚ) - h.bucketLeft v) ≠ 0 := by
    rw [← Int.cast_sub]
    exact Int.cast_ne_zero.mpr (by omega)
  have parts : h.partOfBucket v (v - h.bucketLeft v) + h.partOfBucket v (h.bucketRight v - v) =
      h.height v / h.totalValues := by
    rw [partOfBucket_eq, partOfBucket_eq]
    push_cast
    field_simp
    ring
  have shares := built.shares low high nonempty
  rw [lt, gt]
  linarith

/-- For a value in an empty bucket the estimates agree. -/
theorem Built.consistent_empty (nonempty : values ≠ []) (empty : h.height v = 0) :
    Consistent h v := by
  have counted := built.totalValues_ne nonempty
  obtain ⟨eq, ne, gt, lt, ge, le⟩ := estimate_inside counted low high
  have noPart : ∀ part, h.partOfBucket v part = 0 := fun part => by
    rw [partOfBucket, if_neg (by omega)]
  have noWhole : h.wholeBucket v = 0 := by rw [wholeBucket, if_neg (by omega)]
  have noEqual : h.estimateEqual v = 0 := by rw [estimateEqual, if_pos empty]
  have shares := built.shares low high nonempty
  rw [empty, Nat.cast_zero, zero_div, add_zero] at shares
  obtain ⟨index, left, _⟩ := built.bucket low high
  obtain ⟨right, rightHigh⟩ := built.bucketRight_eq low high
  refine ⟨?_, ?_, ?_, ?_⟩
  · rw [lt, eq, gt, noPart, noPart, noEqual]
    linarith
  · rw [le, lt, eq, noPart, noPart, noWhole, noEqual, ite_self]
    split
    · rename_i last
      have none : h.sharesAbove v = 0 := by
        rw [built.sharesAbove_eq low high, fraction, List.countP_eq_zero.mpr]
        · simp
        · intro x member beyond
          have inside := built.inside x member
          have reaches := of_decide_eq_true beyond
          omega
      linarith
    · ring
  · rw [ge, gt, eq, noPart, noWhole, noEqual, ite_self]
    split
    · rename_i first
      have none : h.sharesBelow v = 0 := by
        have isLeft : h.privateMinVal ≤ h.bucketLeft v :=
          Int.le_add_of_nonneg_right (Int.mul_nonneg index (Int.le_of_lt built.width))
        rw [built.sharesBelow_eq low high, fraction, List.countP_eq_zero.mpr]
        · simp
        · intro x member below
          have inside := built.inside x member
          have reaches := of_decide_eq_true below
          omega
      linarith
    · ring
  · rw [eq, ne]
    ring

theorem Built.consistent_iff (nonempty : values ≠ []) : Consistent h v ↔ h.height v = 0 := by
  refine ⟨fun consistent => ?_, built.consistent_empty low high nonempty⟩
  obtain ⟨eq, _⟩ := estimate_inside (built.totalValues_ne nonempty) low high
  have both := built.lt_add_gt low high nonempty
  have zero : h.estimateEqual v = 0 := by
    have one := consistent.one
    rw [eq] at one
    linarith
  by_contra filled
  rw [estimateEqual, if_neg filled, div_eq_zero_iff, div_eq_zero_iff, Nat.cast_eq_zero,
    Nat.cast_eq_zero, Int.cast_eq_zero] at zero
  rcases zero with (noHeight | noWidth) | noValues
  · exact filled noHeight
  · exact Int.ne_of_gt built.width noWidth
  · exact built.totalValues_ne nonempty noValues

end Inside

end BuzzDB.Optimizer.IntHistogram
