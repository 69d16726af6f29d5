import BuzzDB.Optimizer.BoundaryEstimates
import Mathlib.Algebra.BigOperators.Field
import Mathlib.Order.Interval.Finset.Nat

/-!
# Sums of equality estimates

`EQ` divides the height of a bucket by `bucket_width`, the range operators by
`bucket_right - bucket_left`, the number of integers that the bucket covers.  The two differ for
the bucket that the maximum cuts: its integers do not share out the whole height.
-/

namespace BuzzDB.Optimizer.IntHistogram

variable {h : IntHistogram} {values : List Int} {buckets minVal maxVal v x : Int}

/-! ## What a bucket covers -/

/-- The number of integers in a range. -/
def integers (minVal maxVal : Int) : Nat := (maxVal + 1 - minVal).toNat

/-- The number of integers of the range in the bucket of a value. -/
def covered (h : IntHistogram) (x : Int) : Nat :=
  ((Finset.range (integers h.privateMinVal h.privateMaxVal)).filter fun i : Nat =>
    h.bucketOf x = h.bucketOf (h.privateMinVal + i)).card

/-- They are the integers from the left end of the bucket to its right end. -/
theorem Built.covered_eq (built : Built h values) (low : h.privateMinVal ≤ x)
    (high : x ≤ h.privateMaxVal) : h.covered x = (h.bucketRight x - h.bucketLeft x).toNat := by
  obtain ⟨index, left, _⟩ := built.bucket low high
  obtain ⟨right, rightHigh⟩ := built.bucketRight_eq low high
  have leftLow : h.privateMinVal ≤ h.bucketLeft x :=
    Int.le_add_of_nonneg_right (Int.mul_nonneg index (Int.le_of_lt built.width))
  have same : (Finset.range (integers h.privateMinVal h.privateMaxVal)).filter
      (fun i : Nat => h.bucketOf x = h.bucketOf (h.privateMinVal + i)) =
        Finset.Ico (h.bucketLeft x - h.privateMinVal).toNat
          (h.bucketRight x - h.privateMinVal).toNat := by
    ext i
    rw [Finset.mem_filter, Finset.mem_range, Finset.mem_Ico, integers]
    have vLow : h.privateMinVal ≤ h.privateMinVal + i := by omega
    have below := built.lt_left_iff low high vLow
    constructor
    · rintro ⟨within, bucket⟩
      have above := built.right_le_iff low high vLow (by omega)
      omega
    · rintro ⟨fromLeft, toRight⟩
      have above := built.right_le_iff low high vLow (by omega)
      omega
  rw [covered, same, Nat.card_Ico]
  omega

/-- No bucket covers more integers than its width. -/
theorem Built.covered_le (built : Built h values) (low : h.privateMinVal ≤ x)
    (high : x ≤ h.privateMaxVal) : h.covered x ≤ h.bucketWidth.toNat := by
  obtain ⟨_, left, below⟩ := built.bucket low high
  rw [built.covered_eq low high, bucketRight]
  split <;> omega

/-- A bucket covers as many integers as its width exactly if it ends in the range: if its values
are below the last such end. -/
theorem Built.covered_eq_width_iff (built : Built h values) (low : h.privateMinVal ≤ x)
    (high : x ≤ h.privateMaxVal) :
    h.covered x = h.bucketWidth.toNat ↔
      x < h.privateMinVal +
        (h.privateMaxVal - h.privateMinVal + 1) / h.bucketWidth * h.bucketWidth := by
  have width := built.width
  obtain ⟨index, _⟩ := built.index x low high
  obtain ⟨_, left, below⟩ := built.bucket low high
  have isLeft : h.bucketLeft x =
      h.privateMinVal + (x - h.privateMinVal) / h.bucketWidth * h.bucketWidth := by
    rw [bucketLeft, index]
  have whole : h.covered x = h.bucketWidth.toNat ↔
      h.bucketLeft x + h.bucketWidth ≤ h.privateMaxVal + 1 := by
    rw [built.covered_eq low high, bucketRight]
    split <;> omega
  have ends : h.bucketLeft x + h.bucketWidth ≤ h.privateMaxVal + 1 ↔
      (x - h.privateMinVal) / h.bucketWidth + 1 ≤
        (h.privateMaxVal - h.privateMinVal + 1) / h.bucketWidth := by
    rw [Int.le_ediv_iff_mul_le width, Int.add_mul, Int.one_mul]
    omega
  have before := Int.ediv_lt_iff_lt_mul width (a := x - h.privateMinVal)
    (b := (h.privateMaxVal - h.privateMinVal + 1) / h.bucketWidth)
  rw [whole, ends]
  omega

/-! ## The sum -/

/-- The values in the bucket of `v`, by their buckets. -/
theorem Built.height_eq_count (built : Built h values) (low : h.privateMinVal ≤ v)
    (high : v ≤ h.privateMaxVal) :
    h.height v = values.countP fun x => h.bucketOf x = h.bucketOf v := by
  obtain ⟨index, inBuckets⟩ := built.index_eq low high
  rw [height, built.counts, index, Int.toNat_natCast, Tally.getD_tally inBuckets]

/-- The estimates for all integers of the range: every value adds the integers that its bucket
covers. -/
theorem Built.sum_equal (built : Built h values) (nonempty : values ≠ []) :
    ∑ i ∈ Finset.range (integers h.privateMinVal h.privateMaxVal),
        h.estimateSelectivity .eq (h.privateMinVal + i) =
      ((values.map h.covered).sum : ℚ) / h.bucketWidth / values.length := by
  have each : ∀ i ∈ Finset.range (integers h.privateMinVal h.privateMaxVal),
      h.estimateSelectivity .eq (h.privateMinVal + i) =
        ((values.countP fun x => h.bucketOf x = h.bucketOf (h.privateMinVal + i) : Nat) : ℚ) /
          h.bucketWidth / values.length := by
    intro i member
    have within := Finset.mem_range.mp member
    rw [integers] at within
    have low : h.privateMinVal ≤ h.privateMinVal + i := by omega
    have high : h.privateMinVal + i ≤ h.privateMaxVal := by omega
    rw [(estimate_inside (built.totalValues_ne nonempty) low high).1, estimateEqual_eq,
      built.height_eq_count low high, built.total]
  rw [Finset.sum_congr rfl each, ← Finset.sum_div, ← Finset.sum_div, ← Nat.cast_sum,
    Tally.sum_countP]
  rfl

/-- They are one together exactly if the bucket of every value ends in the range. -/
theorem Built.sum_equal_iff (built : Built h values) (nonempty : values ≠ []) :
    ∑ i ∈ Finset.range (integers h.privateMinVal h.privateMaxVal),
        h.estimateSelectivity .eq (h.privateMinVal + i) = 1 ↔
      ∀ x ∈ values, x < h.privateMinVal +
        (h.privateMaxVal - h.privateMinVal + 1) / h.bucketWidth * h.bucketWidth := by
  have width : (h.bucketWidth.toNat : ℚ) = h.bucketWidth := by
    have nonneg := Int.toNat_of_nonneg (Int.le_of_lt built.width)
    exact_mod_cast congrArg (Int.cast : Int → ℚ) nonneg
  have positive : (h.bucketWidth : ℚ) ≠ 0 := Int.cast_ne_zero.mpr (Int.ne_of_gt built.width)
  have counted : (values.length : ℚ) ≠ 0 :=
    Nat.cast_ne_zero.mpr (mt List.length_eq_zero_iff.mp nonempty)
  have bounded : ∀ x ∈ values, h.covered x ≤ h.bucketWidth.toNat := fun x member =>
    built.covered_le (built.inside x member).1 (built.inside x member).2
  rw [built.sum_equal nonempty, div_div, div_eq_one_iff_eq (mul_ne_zero positive counted), ← width,
    ← Nat.cast_mul, Nat.cast_inj, Nat.mul_comm, Tally.sum_map_eq_iff bounded]
  refine forall₂_congr fun x member => ?_
  exact built.covered_eq_width_iff (built.inside x member).1 (built.inside x member).2

end BuzzDB.Optimizer.IntHistogram
