import BuzzDB.Optimizer.BoundaryEstimates
import Mathlib.Algebra.Order.Field.Basic
import Mathlib.Data.Int.ConditionallyCompleteOrder
import Mathlib.Tactic.Positivity

/-!
# Monotone estimates

The four range operators are one function: `LE` is `LT` of the next integer, and `GT` and `GE` are
what `LT` leaves of one, so that they agree with each other.  `LT` lies between the fractions at
both ends of the bucket, which makes it monotone across buckets, and is linear within one.

`estimateChecked` is `estimate_selectivity` with its divisions checked, which are never by zero.
-/

namespace BuzzDB.Optimizer.IntHistogram

/-! ## Divisions -/

/-- Integer division; `none` is a division by zero. -/
def divide (a b : Int) : Option Int := if b = 0 then none else some (a.tdiv b)

/-- Division of `double`s, likewise. -/
def quotient (a b : ℚ) : Option ℚ := if b = 0 then none else some (a / b)

/-- The constructor. -/
def newChecked (buckets minVal maxVal : Int) : Option IntHistogram := do
  let bucketWidth ← divide (maxVal - minVal + buckets) buckets
  return { new buckets minVal maxVal with
    bucketWidth := if bucketWidth < 1 then 1 else bucketWidth }

variable (h : IntHistogram)

def bucketIndexChecked (val : Int) : Option Int := do
  let bucketIndex ← divide (val - h.privateMinVal) h.bucketWidth
  return if bucketIndex ≥ h.privateBuckets then h.privateBuckets - 1 else bucketIndex

/-- `add_value`. -/
def addValueChecked (val : Int) : Option IntHistogram :=
  if val ≥ h.privateMinVal ∧ val ≤ h.privateMaxVal then do
    let bucketIndex ← h.bucketIndexChecked val
    return { h with
      bucketCounts := h.bucketCounts.modify bucketIndex.toNat (· + 1)
      totalValues := h.totalValues + 1 }
  else some h

def shareChecked (counts : List Nat) : Option ℚ := do
  let shares ← counts.mapM fun (count : Nat) => quotient count h.totalValues
  return shares.sum

def partOfBucketChecked (v part : Int) : Option ℚ :=
  if 0 < h.height v then do
    let share ← quotient (h.height v * part) (h.bucketRight v - h.bucketLeft v : Int)
    quotient share h.totalValues
  else some 0

def wholeBucketChecked (v : Int) : Option ℚ :=
  if 0 < h.height v then quotient (h.height v) h.totalValues else some 0

def estimateEqualChecked (v : Int) : Option ℚ :=
  if h.height v = 0 then some 0 else do
    let share ← quotient (h.height v) h.bucketWidth
    quotient share h.totalValues

/-- `estimate_selectivity`; the early returns divide nothing. -/
def estimateChecked (op : PredicateType) (v : Int) : Option ℚ :=
  if h.totalValues = 0 ∨ v < h.privateMinVal ∨ v > h.privateMaxVal then
    some (h.estimateSelectivity op v)
  else do
    let bucketIndex ← h.bucketIndexChecked v
    let below ← h.shareChecked (h.bucketCounts.take bucketIndex.toNat)
    let above ← h.shareChecked (h.bucketCounts.drop (bucketIndex + 1).toNat)
    match op with
    | .eq => h.estimateEqualChecked v
    | .ne => return 1 - (← h.estimateEqualChecked v)
    | .gt => return (← h.partOfBucketChecked v (h.bucketRight v - v)) + above
    | .lt => return (← h.partOfBucketChecked v (v - h.bucketLeft v)) + below
    | .ge =>
      if v ≤ h.privateMinVal then some 1
      else if v = h.bucketLeft v then return (← h.wholeBucketChecked v) + above
      else return (← h.partOfBucketChecked v (h.bucketRight v - v)) + above
    | .le =>
      if v ≥ h.privateMaxVal then some 1
      else if v = h.bucketRight v - 1 then return (← h.wholeBucketChecked v) + below
      else return (← h.partOfBucketChecked v (v - h.bucketLeft v + 1)) + below

/-- A histogram of some values, and an estimate from it. -/
def estimateOf (buckets minVal maxVal : Int) (values : List Int) (op : PredicateType) (v : Int) :
    Option ℚ := do
  let h ← newChecked buckets minVal maxVal
  let h ← values.foldlM addValueChecked h
  h.estimateChecked op v

variable {h} {values : List Int} {buckets minVal maxVal v w : Int}

theorem divide_eq {a b : Int} (nonzero : b ≠ 0) : divide a b = some (a.tdiv b) := if_neg nonzero

theorem quotient_eq {a b : ℚ} (nonzero : b ≠ 0) : quotient a b = some (a / b) := if_neg nonzero

theorem newChecked_eq (positive : 1 ≤ buckets) :
    newChecked buckets minVal maxVal = some (new buckets minVal maxVal) := by
  rw [newChecked, divide_eq (by omega)]
  rfl

theorem Built.bucketIndexChecked_eq (built : Built h values) (v : Int) :
    h.bucketIndexChecked v = some (h.bucketIndex v) := by
  rw [bucketIndexChecked, divide_eq (Int.ne_of_gt built.width)]
  rfl

theorem Built.addValueChecked_eq (built : Built h values) (v : Int) :
    h.addValueChecked v = some (h.addValue v) := by
  rw [IntHistogram.addValueChecked, IntHistogram.addValue, built.bucketIndexChecked_eq]
  split
  · rfl
  · rfl

theorem Built.addAllChecked_eq (built : Built h values) (more : List Int) :
    more.foldlM addValueChecked h = some (h.addAll more) := by
  induction more generalizing h values with
  | nil => rfl
  | cons v more ih =>
    have next := built_addAll built [v]
    rw [List.foldlM_cons, built.addValueChecked_eq]
    exact ih next

theorem shareChecked_eq (counted : (h.totalValues : ℚ) ≠ 0) (counts : List Nat) :
    h.shareChecked counts = some (h.share counts) := by
  have each : (counts.mapM fun (count : Nat) => quotient count h.totalValues) =
      some (counts.map fun (count : Nat) => (count : ℚ) / h.totalValues) := by
    induction counts with
    | nil => rfl
    | cons count counts ih =>
      rw [List.mapM_cons, quotient_eq counted, ih]
      rfl
  rw [shareChecked, each]
  rfl

/-- No divisor is zero. -/
theorem Built.estimateChecked_eq (built : Built h values) (op : PredicateType) (v : Int) :
    h.estimateChecked op v = some (h.estimateSelectivity op v) := by
  unfold estimateChecked
  split
  · rfl
  · rename_i inside
    rw [not_or, not_or, Int.not_lt, Int.not_lt] at inside
    obtain ⟨counted, low, high⟩ := inside
    obtain ⟨_, left, _⟩ := built.bucket low high
    obtain ⟨right, _⟩ := built.bucketRight_eq low high
    have total : (h.totalValues : ℚ) ≠ 0 := Nat.cast_ne_zero.mpr counted
    have width : (h.bucketWidth : ℚ) ≠ 0 := Int.cast_ne_zero.mpr (Int.ne_of_gt built.width)
    have size : ((h.bucketRight v - h.bucketLeft v : Int) : ℚ) ≠ 0 :=
      Int.cast_ne_zero.mpr (by omega)
    have part : ∀ p, h.partOfBucketChecked v p = some (h.partOfBucket v p) := fun p => by
      rw [partOfBucketChecked, partOfBucket, quotient_eq size]
      simp only [Option.bind_eq_bind, Option.bind_some, quotient_eq total, apply_ite some]
    have whole : h.wholeBucketChecked v = some (h.wholeBucket v) := by
      rw [wholeBucketChecked, wholeBucket, quotient_eq total, apply_ite some]
    have equal : h.estimateEqualChecked v = some (h.estimateEqual v) := by
      rw [estimateEqualChecked, estimateEqual, quotient_eq width]
      simp only [Option.bind_eq_bind, Option.bind_some, quotient_eq total, apply_ite some]
    obtain ⟨eq, ne, gt, lt, ge, le⟩ := estimate_inside counted low high
    simp only [built.bucketIndexChecked_eq, shareChecked_eq total, part, whole, equal,
      Option.bind_eq_bind, Option.bind_some]
    cases op with
    | eq => rw [eq]
    | ne => rw [ne]; rfl
    | gt => rw [gt]; rfl
    | lt => rw [lt]; rfl
    | ge =>
      rw [ge]
      dsimp only
      split
      · rfl
      · split <;> rfl
    | le =>
      rw [le]
      dsimp only
      split
      · rfl
      · split <;> rfl

/-! ## Buckets in order -/

section Inside

variable (built : Built h values) (low : h.privateMinVal ≤ v) (high : v ≤ h.privateMaxVal)

include built low high

/-- The values up to the right end of a bucket are in it. -/
theorem Built.bucketIndex_eq (order : v ≤ w) (inBucket : w < h.bucketRight v) :
    h.bucketIndex w = h.bucketIndex v := by
  obtain ⟨_, left, _⟩ := built.bucket low high
  obtain ⟨_, rightHigh⟩ := built.bucketRight_eq low high
  have wLow : h.privateMinVal ≤ w := low.trans order
  have wHigh : w ≤ h.privateMaxVal := by omega
  have below := built.lt_left_iff low high wLow
  have above := built.right_le_iff low high wLow wHigh
  rw [(built.index_eq low high).1, (built.index_eq wLow wHigh).1]
  omega

/-- The values from the right end of a bucket on have a bucket that begins there or later. -/
theorem Built.right_le_left (apart : h.bucketRight v ≤ w) (wHigh : w ≤ h.privateMaxVal) :
    h.bucketRight v ≤ h.bucketLeft w := by
  obtain ⟨right, _⟩ := built.bucketRight_eq low high
  have wLow : h.privateMinVal ≤ w := by omega
  have above := (built.right_le_iff low high wLow wHigh).mpr apart
  have later : h.bucketIndex v + 1 ≤ h.bucketIndex w := by
    rw [(built.index_eq low high).1, (built.index_eq wLow wHigh).1]
    omega
  have further := Int.mul_le_mul_of_nonneg_right later (Int.le_of_lt built.width)
  rw [Int.add_mul, Int.one_mul] at further
  unfold bucketRight bucketLeft at *
  dsimp only at *
  split at apart <;> split <;> omega

omit high in
/-- The first bucket begins at the minimum. -/
theorem Built.left_of_min (first : v = h.privateMinVal) (high : v ≤ h.privateMaxVal) :
    h.bucketLeft v = v := by
  obtain ⟨index, left, _⟩ := built.bucket low high
  have fromMin : h.privateMinVal ≤ h.bucketLeft v :=
    Int.le_add_of_nonneg_right (Int.mul_nonneg index (Int.le_of_lt built.width))
  omega

/-- A bucket is not empty of integers. -/
theorem Built.size_pos : 0 < (h.bucketRight v : ℚ) - h.bucketLeft v := by
  obtain ⟨_, left, _⟩ := built.bucket low high
  obtain ⟨right, _⟩ := built.bucketRight_eq low high
  rw [← Int.cast_sub]
  exact Int.cast_pos.mpr (by omega)

theorem Built.wholeBucket_height : h.wholeBucket v = h.height v / h.totalValues := by
  rw [built.wholeBucket_eq low high, built.height_eq low high, built.total, fraction]

/-- A whole bucket is a part of it as well. -/
theorem Built.partOfBucket_whole :
    h.partOfBucket v (h.bucketRight v - h.bucketLeft v) = h.height v / h.totalValues := by
  have size := (built.size_pos low high).ne'
  rw [partOfBucket_eq, Int.cast_sub, mul_div_cancel_right₀ _ size]

/-- A part of a bucket is at most the whole one. -/
theorem Built.partOfBucket_between {part : Int} (nonneg : 0 ≤ part)
    (most : part ≤ h.bucketRight v - h.bucketLeft v) :
    0 ≤ h.partOfBucket v part ∧ h.partOfBucket v part ≤ h.height v / h.totalValues := by
  have size := built.size_pos low high
  have nonneg' : (0 : ℚ) ≤ part := Int.cast_nonneg nonneg
  have most' : (part : ℚ) ≤ h.bucketRight v - h.bucketLeft v := by exact_mod_cast most
  rw [partOfBucket_eq, Int.cast_sub]
  refine ⟨by positivity, ?_⟩
  refine div_le_div_of_nonneg_right ?_ (Nat.cast_nonneg _)
  rw [div_le_iff₀ size]
  exact mul_le_mul_of_nonneg_left most' (Nat.cast_nonneg _)

end Inside

/-- What the estimates take from the bucket. -/
theorem same_bucket (same : h.bucketIndex w = h.bucketIndex v) :
    h.bucketLeft w = h.bucketLeft v ∧ h.bucketRight w = h.bucketRight v ∧
      h.height w = h.height v ∧ h.sharesBelow w = h.sharesBelow v := by
  have left : h.bucketLeft w = h.bucketLeft v := by rw [bucketLeft, bucketLeft, same]
  refine ⟨left, ?_, ?_, ?_⟩
  · rw [bucketRight, bucketRight, left]
  · rw [height, height, same]
  · rw [sharesBelow, sharesBelow, same]

/-! ## One function for the ranges -/

theorem fraction_mono {P Q : Int → Prop} [DecidablePred P] [DecidablePred Q]
    (weaker : ∀ x ∈ values, P x → Q x) : fraction values P ≤ fraction values Q := by
  refine div_le_div_of_nonneg_right ?_ (Nat.cast_nonneg _)
  refine Nat.cast_le.mpr (List.countP_mono_left fun x member holds => ?_)
  exact decide_eq_true (weaker x member (of_decide_eq_true holds))

theorem fraction_nonneg (values : List Int) (P : Int → Prop) [DecidablePred P] :
    0 ≤ fraction values P := by
  unfold fraction
  positivity

theorem fraction_le_one (values : List Int) (P : Int → Prop) [DecidablePred P] :
    fraction values P ≤ 1 :=
  div_le_one_of_le₀ (Nat.cast_le.mpr List.countP_le_length) (Nat.cast_nonneg _)

section Nonempty

variable (built : Built h values) (nonempty : values ≠ [])

include built nonempty

/-- Outside the range there are the early returns. -/
theorem Built.estimate_below (below : v < h.privateMinVal) :
    h.estimateSelectivity .lt v = 0 ∧ h.estimateSelectivity .le v = 0 ∧
      h.estimateSelectivity .gt v = 1 ∧ h.estimateSelectivity .ge v = 1 := by
  simp [estimateSelectivity, built.totalValues_ne nonempty, below]

theorem Built.estimate_above (low : h.privateMinVal ≤ v) (above : h.privateMaxVal < v) :
    h.estimateSelectivity .lt v = 1 ∧ h.estimateSelectivity .le v = 1 ∧
      h.estimateSelectivity .gt v = 0 ∧ h.estimateSelectivity .ge v = 0 := by
  simp [estimateSelectivity, built.totalValues_ne nonempty, above, Int.not_lt.mpr low]

theorem Built.range_nonempty : h.privateMinVal ≤ h.privateMaxVal := by
  obtain ⟨x, member⟩ := List.exists_mem_of_ne_nil values nonempty
  obtain ⟨low, high⟩ := built.inside x member
  exact low.trans high

/-- `GT` is what `LT` leaves. -/
theorem Built.gt_eq (v : Int) :
    h.estimateSelectivity .gt v = 1 - h.estimateSelectivity .lt v := by
  have range := built.range_nonempty nonempty
  rcases lt_or_ge v h.privateMinVal with below | low
  · obtain ⟨lt, _, gt, _⟩ := built.estimate_below nonempty below
    rw [lt, gt, sub_zero]
  · rcases lt_or_ge h.privateMaxVal v with above | high
    · obtain ⟨lt, _, gt, _⟩ := built.estimate_above nonempty low above
      rw [lt, gt, sub_self]
    · have both := built.lt_add_gt low high nonempty
      linarith

/-- `GE` counts the value itself, as `GT` does. -/
theorem Built.ge_eq (v : Int) : h.estimateSelectivity .ge v = h.estimateSelectivity .gt v := by
  rcases lt_or_ge v h.privateMinVal with below | low
  · obtain ⟨_, _, gt, ge⟩ := built.estimate_below nonempty below
    rw [gt, ge]
  · rcases lt_or_ge h.privateMaxVal v with above | high
    · obtain ⟨_, _, gt, ge⟩ := built.estimate_above nonempty low above
      rw [gt, ge]
    · obtain ⟨_, _, gt, lt, ge, _⟩ := estimate_inside (built.totalValues_ne nonempty) low high
      have whole := built.partOfBucket_whole low high
      rw [ge]
      split
      · rename_i first
        -- `LT` of the minimum counts nothing
        have left := built.left_of_min low (by omega) high
        have none : h.estimateSelectivity .lt v = 0 := by
          rw [lt, built.sharesBelow_eq low high, left, Int.sub_self, partOfBucket_eq, fraction,
            List.countP_eq_zero.mpr]
          · simp
          · intro x member below
            have inside := built.inside x member
            have reaches := of_decide_eq_true below
            omega
        rw [built.gt_eq nonempty, none, sub_zero]
      · rw [gt]
        split
        · rename_i atLeft
          rw [built.wholeBucket_height low high, ← whole, ← atLeft]
        · rfl

/-- `LE` is `LT` of the next integer. -/
theorem Built.le_eq (v : Int) :
    h.estimateSelectivity .le v = h.estimateSelectivity .lt (v + 1) := by
  have range := built.range_nonempty nonempty
  have counted := built.totalValues_ne nonempty
  rcases lt_or_ge v h.privateMinVal with below | low
  · rw [(built.estimate_below nonempty below).2.1]
    rcases lt_or_eq_of_le (Int.add_one_le_of_lt below) with still | first
    · rw [(built.estimate_below nonempty still).1]
    · -- the minimum itself
      have atMin : h.estimateSelectivity .lt (v + 1) = 1 - h.estimateSelectivity .ge (v + 1) := by
        rw [built.ge_eq nonempty, built.gt_eq nonempty]
        ring
      obtain ⟨_, _, _, _, ge, _⟩ := estimate_inside counted first.ge (by omega : v + 1 ≤ h.privateMaxVal)
      rw [atMin, ge, if_pos first.le, sub_self]
  · rcases lt_or_ge v h.privateMaxVal with inside | atEnd
    · have high := Int.le_of_lt inside
      obtain ⟨_, _, _, _, _, le⟩ := estimate_inside counted low high
      obtain ⟨_, _, _, lt, _⟩ := estimate_inside counted (low.trans (Int.le_of_lt (Int.lt_succ v)))
        (show v + 1 ≤ h.privateMaxVal from inside)
      obtain ⟨right, _⟩ := built.bucketRight_eq low high
      rw [le, if_neg (by omega), lt]
      split
      · rename_i last
        -- the next integer is the left end of its bucket
        have next := built.right_le_left low high (w := v + 1) (by omega) inside
        have left := (built.bucket (low.trans (Int.le_of_lt (Int.lt_succ v))) inside).2.1
        have begins : h.bucketLeft (v + 1) = v + 1 := by omega
        have isRight : h.bucketRight v = v + 1 := by omega
        rw [built.wholeBucket_height low high, built.sharesBelow_eq low high, add_comm,
          built.below_right low high, built.sharesBelow_eq _ inside, begins, isRight, Int.sub_self,
          partOfBucket_eq, Int.cast_zero, mul_zero, zero_div, zero_div, zero_add]
        omega
      · have same := built.bucketIndex_eq low high (w := v + 1) (by omega) (by omega)
        obtain ⟨sameLeft, sameRight, sameHeight, sameBelow⟩ := same_bucket same
        have part : v + 1 - h.bucketLeft v = v - h.bucketLeft v + 1 := by omega
        rw [sameBelow, partOfBucket_eq, partOfBucket_eq, sameHeight, sameRight, sameLeft, part]
    · have le : h.estimateSelectivity .le v = 1 := by
        rcases lt_or_eq_of_le atEnd with above | last
        · exact (built.estimate_above nonempty low above).2.1
        · obtain ⟨_, _, _, _, _, le⟩ := estimate_inside counted low last.ge
          rw [le, if_pos atEnd]
      rw [le, (built.estimate_above nonempty (v := v + 1) (by omega) (by omega)).1]

/-- Inside the range `LT` lies between the fractions at both ends of the bucket. -/
theorem Built.lt_between (low : h.privateMinVal ≤ v) (high : v ≤ h.privateMaxVal) :
    fraction values (· < h.bucketLeft v) ≤ h.estimateSelectivity .lt v ∧
      h.estimateSelectivity .lt v ≤ fraction values (· < h.bucketRight v) := by
  obtain ⟨_, left, _⟩ := built.bucket low high
  obtain ⟨right, _⟩ := built.bucketRight_eq low high
  obtain ⟨_, _, _, lt, _⟩ := estimate_inside (built.totalValues_ne nonempty) low high
  obtain ⟨nonneg, most⟩ := built.partOfBucket_between low high
    (show 0 ≤ v - h.bucketLeft v by omega) (by omega)
  rw [lt, built.sharesBelow_eq low high, ← built.below_right low high]
  constructor
  · linarith
  · linarith

theorem Built.lt_bounds (v : Int) :
    0 ≤ h.estimateSelectivity .lt v ∧ h.estimateSelectivity .lt v ≤ 1 := by
  rcases lt_or_ge v h.privateMinVal with below | low
  · rw [(built.estimate_below nonempty below).1]
    exact ⟨le_refl 0, zero_le_one⟩
  · rcases lt_or_ge h.privateMaxVal v with above | high
    · rw [(built.estimate_above nonempty low above).1]
      exact ⟨zero_le_one, le_refl 1⟩
    · obtain ⟨least, most⟩ := built.lt_between nonempty low high
      exact ⟨(fraction_nonneg _ _).trans least, most.trans (fraction_le_one _ _)⟩

theorem Built.lt_monotone : Monotone (h.estimateSelectivity .lt) := by
  intro v w order
  rcases lt_or_ge v h.privateMinVal with below | low
  · rw [(built.estimate_below nonempty below).1]
    exact (built.lt_bounds nonempty w).1
  rcases lt_or_ge h.privateMaxVal w with above | wHigh
  · rw [(built.estimate_above nonempty (low.trans order) above).1]
    exact (built.lt_bounds nonempty v).2
  have high := order.trans wHigh
  have wLow := low.trans order
  rcases lt_or_ge w (h.bucketRight v) with within | behind
  · -- within a bucket the part grows
    have counted := built.totalValues_ne nonempty
    have same := built.bucketIndex_eq low high order within
    obtain ⟨_, _, _, lt, _⟩ := estimate_inside counted low high
    obtain ⟨_, _, _, lt', _⟩ := estimate_inside counted wLow wHigh
    have size := built.size_pos low high
    obtain ⟨sameLeft, sameRight, sameHeight, sameBelow⟩ := same_bucket same
    rw [lt, lt', sameBelow, partOfBucket_eq, partOfBucket_eq, sameHeight, sameRight, sameLeft]
    have grows : ((v - h.bucketLeft v : Int) : ℚ) ≤ (w - h.bucketLeft v : Int) :=
      Int.cast_le.mpr (by omega)
    push_cast at grows ⊢
    gcongr
  · -- between buckets lie all values of the lower one
    have apart := built.right_le_left low high behind wHigh
    calc h.estimateSelectivity .lt v
        ≤ fraction values (· < h.bucketRight v) := (built.lt_between nonempty low high).2
      _ ≤ fraction values (· < h.bucketLeft w) := fraction_mono fun x _ less => less.trans_le apart
      _ ≤ h.estimateSelectivity .lt w := (built.lt_between nonempty wLow wHigh).1

theorem Built.eq_bounds (v : Int) :
    0 ≤ h.estimateSelectivity .eq v ∧ h.estimateSelectivity .eq v ≤ 1 := by
  have counted := built.totalValues_ne nonempty
  by_cases inside : h.privateMinVal ≤ v ∧ v ≤ h.privateMaxVal
  · obtain ⟨low, high⟩ := inside
    have wide : (1 : ℚ) ≤ h.bucketWidth := by exact_mod_cast built.width
    have whole : (h.height v : ℚ) / h.totalValues ≤ 1 := by
      have least := fraction_nonneg values (· < h.bucketLeft v)
      have right := built.below_right low high
      have most := fraction_le_one values (· < h.bucketRight v)
      linarith
    rw [(estimate_inside counted low high).1, estimateEqual_eq, div_right_comm]
    exact ⟨by positivity, (div_le_self (by positivity) wide).trans whole⟩
  · have none : h.estimateSelectivity .eq v = 0 := by
      rcases lt_or_ge v h.privateMinVal with below | low
      · simp [estimateSelectivity, counted, below]
      · have above : h.privateMaxVal < v := by omega
        simp [estimateSelectivity, counted, above, Int.not_lt.mpr low]
    rw [none]
    exact ⟨le_refl 0, zero_le_one⟩

theorem Built.ne_eq (v : Int) :
    h.estimateSelectivity .ne v = 1 - h.estimateSelectivity .eq v := by
  have counted := built.totalValues_ne nonempty
  rcases lt_or_ge v h.privateMinVal with below | low
  · simp [estimateSelectivity, counted, below]
  · rcases lt_or_ge h.privateMaxVal v with above | high
    · simp [estimateSelectivity, counted, above, Int.not_lt.mpr low]
    · obtain ⟨eq, ne, _⟩ := estimate_inside counted low high
      rw [eq, ne]

end Nonempty

/-! ## Every histogram -/

/-- The estimates are fractions, and those for ranges are monotone. -/
structure Fractions (h : IntHistogram) : Prop where
  nonneg : ∀ op v, 0 ≤ h.estimateSelectivity op v
  le_one : ∀ op v, h.estimateSelectivity op v ≤ 1
  lt : Monotone (h.estimateSelectivity .lt)
  le : Monotone (h.estimateSelectivity .le)
  gt : Antitone (h.estimateSelectivity .gt)
  ge : Antitone (h.estimateSelectivity .ge)

/-- A histogram without values estimates zero. -/
theorem fractions_of_empty (empty : h.totalValues = 0) : Fractions h := by
  have zero : ∀ op v, h.estimateSelectivity op v = 0 := fun op v => if_pos empty
  constructor
  · exact fun op v => (zero op v).ge
  · exact fun op v => (zero op v).le.trans zero_le_one
  all_goals
    intro v w _
    rw [zero, zero]

theorem Built.fractions (built : Built h values) (nonempty : values ≠ []) : Fractions h := by
  have bounds : ∀ op v, 0 ≤ h.estimateSelectivity op v ∧ h.estimateSelectivity op v ≤ 1 := by
    intro op v
    have lt := built.lt_bounds nonempty
    have gt := built.gt_eq nonempty v
    have eq := built.eq_bounds nonempty v
    cases op with
    | eq => exact eq
    | ne =>
      rw [built.ne_eq nonempty]
      constructor <;> linarith
    | lt => exact lt v
    | le =>
      rw [built.le_eq nonempty]
      exact lt (v + 1)
    | gt =>
      have := lt v
      constructor <;> linarith
    | ge =>
      have := lt v
      rw [built.ge_eq nonempty]
      constructor <;> linarith
  have gt : Antitone (h.estimateSelectivity .gt) := fun v w order => by
    have less := built.lt_monotone nonempty order
    rw [built.gt_eq nonempty, built.gt_eq nonempty]
    linarith
  refine ⟨fun op v => (bounds op v).1, fun op v => (bounds op v).2, built.lt_monotone nonempty,
    fun v w order => ?_, gt, fun v w order => ?_⟩
  · rw [built.le_eq nonempty, built.le_eq nonempty]
    exact built.lt_monotone nonempty (Int.add_le_add_right order 1)
  · rw [built.ge_eq nonempty, built.ge_eq nonempty]
    exact gt order

/-- Whatever is added, the estimates are fractions, those for ranges are monotone over all integers,
and nothing is divided by zero. -/
theorem estimates_fractions (positive : 1 ≤ buckets) (ordered : minVal ≤ maxVal)
    (values : List Int) :
    Fractions ((new buckets minVal maxVal).addAll values) ∧
      ∀ op v, estimateOf buckets minVal maxVal values op v =
        some (((new buckets minVal maxVal).addAll values).estimateSelectivity op v) := by
  have built := built_new positive ordered values
  constructor
  · by_cases empty : (values.filter fun v => minVal ≤ v ∧ v ≤ maxVal) = []
    · refine fractions_of_empty ?_
      rw [built.total, empty]
      rfl
    · exact built.fractions empty
  · intro op v
    rw [estimateOf, newChecked_eq positive]
    simp only [Option.bind_eq_bind, Option.bind_some,
      (Built.new positive ordered).addAllChecked_eq values]
    exact built.estimateChecked_eq op v

/-- The histogram of one of the tests. -/
theorem estimates_fractions_negative :
    Fractions ((new 10 (-60) (-10)).addAll [-33, -60, -10]) ∧
      ∀ op v, estimateOf 10 (-60) (-10) [-33, -60, -10] op v =
        some (((new 10 (-60) (-10)).addAll [-33, -60, -10]).estimateSelectivity op v) :=
  estimates_fractions (by decide) (by decide) [-33, -60, -10]

end BuzzDB.Optimizer.IntHistogram
