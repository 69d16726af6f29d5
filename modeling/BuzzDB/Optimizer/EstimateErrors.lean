import BuzzDB.Optimizer.TableEstimates
import Mathlib.Data.Int.Range

/-!
# Errors of the estimates

How far `estimate_selectivity` is from the fraction of the values that satisfy the predicate.  Of the
values of a bucket the histogram knows only how many they are, so that an estimate may be wrong by the
share of the bucket.  It is not wrong by more; and the ranges are exact throughout a bucket exactly if
its values are spread evenly over the integers in it.
-/

namespace BuzzDB.Optimizer.IntHistogram

open TableStatistics (Satisfies)

/-- The share of the values that are in the bucket of `v`; outside the range there is no bucket. -/
def bucketShare (h : IntHistogram) (v : Int) : ℚ :=
  if h.privateMinVal ≤ v ∧ v ≤ h.privateMaxVal then h.height v / h.totalValues else 0

/-- Every integer in the bucket of `v` occurs equally often. -/
def EvenlySpread (h : IntHistogram) (values : List Int) (v : Int) : Prop :=
  ∀ x, h.bucketLeft v ≤ x → x < h.bucketRight v →
    values.count x * (h.bucketRight v - h.bucketLeft v) = h.height v

instance (h : IntHistogram) (values : List Int) (v : Int) : Decidable (h.EvenlySpread values v) :=
  inferInstanceAs (Decidable (∀ _, _ → _ → _))

/-- An operator for a range of values. -/
def IsRange (op : PredicateType) : Prop := op ≠ .eq ∧ op ≠ .ne

variable {h : IntHistogram} {values : List Int} {buckets minVal maxVal v x : Int}

/-! ## Fractions -/

theorem fraction_not {P Q : Int → Prop} [DecidablePred P] [DecidablePred Q] (nonempty : values ≠ [])
    (other : ∀ x, Q x ↔ ¬ P x) : fraction values Q = 1 - fraction values P := by
  have all : fraction values P + fraction values Q = fraction values fun _ => True :=
    fraction_add (fun x _ => iff_of_true trivial ((em (P x)).imp_right (other x).mpr))
      fun x _ both => (other x).mp both.2 both.1
  rw [fraction_eq_one nonempty fun _ _ => trivial] at all
  linarith

/-- The values up to `x` are those below it and `x` itself. -/
theorem fraction_succ (values : List Int) (x : Int) :
    fraction values (· < x + 1) = fraction values (· < x) + values.count x / values.length := by
  have here : fraction values (· = x) = values.count x / values.length := by
    rw [fraction, List.count_eq_countP]
    rfl
  rw [← here]
  exact (fraction_add (fun y _ => by omega) fun y _ => by omega).symm

section Inside

variable (built : Built h values) (nonempty : values ≠ []) (low : h.privateMinVal ≤ v)
  (high : v ≤ h.privateMaxVal)

include built nonempty low high

/-- The branches of `LE` are one. -/
theorem Built.le_inside :
    h.estimateSelectivity .le v = h.partOfBucket v (v - h.bucketLeft v + 1) + h.sharesBelow v := by
  obtain ⟨_, _, _, _, _, le⟩ := estimate_inside (built.totalValues_ne nonempty) low high
  obtain ⟨right, most⟩ := built.bucketRight_eq low high
  have whole := built.partOfBucket_whole low high
  have below := built.below_right low high
  rw [le]
  split
  · -- the last value of the range is the last one of its bucket
    have part : v - h.bucketLeft v + 1 = h.bucketRight v - h.bucketLeft v := by omega
    rw [part, whole, built.sharesBelow_eq low high, add_comm, below]
    refine (fraction_eq_one nonempty fun x member => ?_).symm
    have inside := built.inside x member
    omega
  · split
    · have part : v - h.bucketLeft v + 1 = h.bucketRight v - h.bucketLeft v := by omega
      rw [part, whole, built.wholeBucket_height low high]
    · rfl

/-- `LE` lies between the fractions at both ends of the bucket, as `LT` does. -/
theorem Built.le_between :
    fraction values (· < h.bucketLeft v) ≤ h.estimateSelectivity .le v ∧
      h.estimateSelectivity .le v ≤ fraction values (· < h.bucketRight v) := by
  obtain ⟨_, left, _⟩ := built.bucket low high
  obtain ⟨right, _⟩ := built.bucketRight_eq low high
  obtain ⟨nonneg, most⟩ := built.partOfBucket_between low high
    (show 0 ≤ v - h.bucketLeft v + 1 by omega) (by omega)
  rw [built.le_inside nonempty low high, built.sharesBelow_eq low high,
    ← built.below_right low high]
  constructor
  · linarith
  · linarith

end Inside

/-! ## Errors -/

section Errors

variable (built : Built h values) (nonempty : values ≠ [])

include built nonempty

/-- Outside the range the early returns are right. -/
theorem Built.outside_exact (outside : ¬ (h.privateMinVal ≤ v ∧ v ≤ h.privateMaxVal))
    (op : PredicateType) : h.estimateSelectivity op v = fraction values (Satisfies op v) := by
  have counted := built.totalValues_ne nonempty
  have none : ∀ op, (∀ x ∈ values, ¬ Satisfies op v x) → fraction values (Satisfies op v) = 0 :=
    fun _ => TableStatistics.fraction_eq_zero_iff.mpr
  have all : ∀ op, (∀ x ∈ values, Satisfies op v x) → fraction values (Satisfies op v) = 1 :=
    fun _ => fraction_eq_one nonempty
  have apart : (v < h.privateMinVal ∧ ∀ x ∈ values, v < x) ∨
      (¬ v < h.privateMinVal ∧ v > h.privateMaxVal ∧ ∀ x ∈ values, x < v) := by
    rcases lt_or_ge v h.privateMinVal with below | low
    · exact Or.inl ⟨below, fun x member => below.trans_le (built.inside x member).1⟩
    · have above : h.privateMaxVal < v := by omega
      exact Or.inr ⟨low.not_gt, above, fun x member => (built.inside x member).2.trans_lt above⟩
  unfold estimateSelectivity
  rw [if_neg counted]
  rcases apart with ⟨below, greater⟩ | ⟨low, above, less⟩
  · rw [if_pos below]
    cases op with
    | eq => exact (none .eq fun x member => (greater x member).ne').symm
    | ne => exact (all .ne fun x member => (greater x member).ne').symm
    | lt => exact (none .lt fun x member => (greater x member).not_gt).symm
    | le => exact (none .le fun x member => (greater x member).not_ge).symm
    | gt => exact (all .gt greater).symm
    | ge => exact (all .ge fun x member => (greater x member).le).symm
  · rw [if_neg low, if_pos above]
    cases op with
    | eq => exact (none .eq fun x member => (less x member).ne).symm
    | ne => exact (all .ne fun x member => (less x member).ne).symm
    | lt => exact (all .lt less).symm
    | le => exact (all .le fun x member => (less x member).le).symm
    | gt => exact (none .gt fun x member => (less x member).not_gt).symm
    | ge => exact (none .ge fun x member => (less x member).not_ge).symm

/-- `EQ` takes a part of the bucket, and the value itself occurs only there. -/
theorem Built.eq_near (low : h.privateMinVal ≤ v) (high : v ≤ h.privateMaxVal) :
    |h.estimateSelectivity .eq v - fraction values (· = v)| ≤ h.height v / h.totalValues := by
  obtain ⟨eq, _⟩ := estimate_inside (built.totalValues_ne nonempty) low high
  obtain ⟨_, left, _⟩ := built.bucket low high
  obtain ⟨right, _⟩ := built.bucketRight_eq low high
  have wide : (1 : ℚ) ≤ h.bucketWidth := by exact_mod_cast built.width
  have part : h.estimateSelectivity .eq v ≤ h.height v / h.totalValues := by
    rw [eq, estimateEqual_eq, div_right_comm]
    exact div_le_self (by positivity) wide
  have here : fraction values (· = v) ≤ h.height v / h.totalValues := by
    rw [built.height_eq low high, built.total]
    exact fraction_mono fun x _ same => by omega
  have near := abs_sub_le_of_le_of_le (built.eq_bounds nonempty v).1 part (fraction_nonneg _ _) here
  rwa [sub_zero] at near

/-- Of a value in the range, both the estimate and the fraction of a range are between those at the
ends of the bucket. -/
theorem Built.inside_near (low : h.privateMinVal ≤ v) (high : v ≤ h.privateMaxVal)
    (op : PredicateType) :
    |h.estimateSelectivity op v - fraction values (Satisfies op v)| ≤
      h.height v / h.totalValues := by
  obtain ⟨_, left, _⟩ := built.bucket low high
  obtain ⟨right, _⟩ := built.bucketRight_eq low high
  have ends := built.below_right low high
  obtain ⟨ltLeft, ltRight⟩ := built.lt_between nonempty low high
  obtain ⟨leLeft, leRight⟩ := built.le_between nonempty low high
  have lessLeft : fraction values (· < h.bucketLeft v) ≤ fraction values (· < v) :=
    fraction_mono fun x _ less => by omega
  have lessRight : fraction values (· < v) ≤ fraction values (· < h.bucketRight v) :=
    fraction_mono fun x _ less => by omega
  have upLeft : fraction values (· < h.bucketLeft v) ≤ fraction values (· ≤ v) :=
    fraction_mono fun x _ less => by omega
  have upRight : fraction values (· ≤ v) ≤ fraction values (· < h.bucketRight v) :=
    fraction_mono fun x _ less => by omega
  have size : fraction values (· < h.bucketRight v) - fraction values (· < h.bucketLeft v) =
      h.height v / h.totalValues := by linarith
  have complement : ∀ a b : ℚ, |(1 - a) - (1 - b)| = |a - b| := fun a b => by
    rw [sub_sub_sub_cancel_left, abs_sub_comm]
  cases op with
  | eq => exact built.eq_near nonempty low high
  | ne =>
    have other : fraction values (Satisfies .ne v) = 1 - fraction values (· = v) :=
      fraction_not nonempty fun x => Iff.rfl
    rw [built.ne_eq nonempty, other, complement]
    exact built.eq_near nonempty low high
  | lt =>
    rw [← size]
    exact abs_sub_le_of_le_of_le ltLeft ltRight lessLeft lessRight
  | le =>
    rw [← size]
    exact abs_sub_le_of_le_of_le leLeft leRight upLeft upRight
  | gt =>
    have other : fraction values (Satisfies .gt v) = 1 - fraction values (· ≤ v) :=
      fraction_not nonempty fun x => Int.not_le.symm
    rw [built.gt_eq nonempty, other, complement, ← size]
    exact abs_sub_le_of_le_of_le ltLeft ltRight upLeft upRight
  | ge =>
    have other : fraction values (Satisfies .ge v) = 1 - fraction values (· < v) :=
      fraction_not nonempty fun x => Int.not_lt.symm
    rw [built.ge_eq nonempty, built.gt_eq nonempty, other, complement, ← size]
    exact abs_sub_le_of_le_of_le ltLeft ltRight lessLeft lessRight

end Errors

/-- Whatever is added, an estimate is off by the share of the bucket at most: it says how many of the
values in the range satisfy the predicate, up to those in the bucket of the constant. -/
theorem estimates_near (positive : 1 ≤ buckets) (ordered : minVal ≤ maxVal)
    (isHistogram : h = (new buckets minVal maxVal).addAll values) (op : PredicateType) (v : Int) :
    |h.estimateSelectivity op v -
      fraction (values.filter fun x => minVal ≤ x ∧ x ≤ maxVal) (Satisfies op v)| ≤
        h.bucketShare v := by
  have built := built_new positive ordered values
  rw [← isHistogram] at built
  by_cases empty : (values.filter fun x => minVal ≤ x ∧ x ≤ maxVal) = []
  · have zero : h.totalValues = 0 := by
      rw [built.total, empty]
      rfl
    have estimate : h.estimateSelectivity op v = 0 := if_pos zero
    rw [estimate, empty, fraction, bucketShare, zero]
    simp
  · unfold bucketShare
    split
    · rename_i inside
      exact built.inside_near empty inside.1 inside.2 op
    · rename_i outside
      rw [built.outside_exact empty outside, sub_self, abs_zero]

/-- The bucket of 3 has three of the five values in the histogram of the tests. -/
theorem estimates_near_three :
    |((new 10 1 10).addAll [3, 3, 3, 1, 10]).estimateSelectivity .gt 3 -
      fraction ([3, 3, 3, 1, 10].filter fun x => 1 ≤ x ∧ x ≤ 10) (Satisfies .gt 3)| ≤
        ((new 10 1 10).addAll [3, 3, 3, 1, 10]).bucketShare 3 :=
  estimates_near (by decide) (by decide) rfl .gt 3

/-! ## Buckets with evenly spread values -/

/-- One integer more is one more part of the bucket. -/
theorem Built.partOfBucket_succ (built : Built h values) (v p : Int) :
    h.partOfBucket v (p + 1) = h.partOfBucket v p +
      h.height v / (h.bucketRight v - h.bucketLeft v : Int) / values.length := by
  rw [partOfBucket_eq, partOfBucket_eq, built.total, Int.cast_add, Int.cast_one]
  ring

section EvenlySpread

variable (built : Built h values) (nonempty : values ≠ []) (low : h.privateMinVal ≤ v)
  (high : v ≤ h.privateMaxVal)

include built low high

/-- The integers between the ends of a bucket are in the range, and that bucket is theirs. -/
theorem Built.in_bucket (left : h.bucketLeft v ≤ x) (right : x < h.bucketRight v) :
    h.privateMinVal ≤ x ∧ x ≤ h.privateMaxVal ∧ h.bucketIndex x = h.bucketIndex v := by
  obtain ⟨index, _⟩ := built.bucket low high
  obtain ⟨_, most⟩ := built.bucketRight_eq low high
  have fromMin : h.privateMinVal ≤ h.bucketLeft v :=
    Int.le_add_of_nonneg_right (Int.mul_nonneg index (Int.le_of_lt built.width))
  have xLow : h.privateMinVal ≤ x := fromMin.trans left
  have xHigh : x ≤ h.privateMaxVal := by omega
  refine ⟨xLow, xHigh, ?_⟩
  have below := built.lt_left_iff low high xLow
  have above := built.right_le_iff low high xLow xHigh
  rw [(built.index_eq low high).1, (built.index_eq xLow xHigh).1]
  omega

include nonempty

/-- `LT` and `LE` of the integers in a bucket. -/
theorem Built.estimates_in_bucket (left : h.bucketLeft v ≤ x) (right : x < h.bucketRight v) :
    h.estimateSelectivity .lt x = h.partOfBucket v (x - h.bucketLeft v) + h.sharesBelow v ∧
      h.estimateSelectivity .le x =
        h.partOfBucket v (x - h.bucketLeft v + 1) + h.sharesBelow v := by
  obtain ⟨xLow, xHigh, same⟩ := built.in_bucket low high left right
  obtain ⟨sameLeft, sameRight, sameHeight, sameBelow⟩ := same_bucket same
  have part : ∀ p, h.partOfBucket x p = h.partOfBucket v p := fun p => by
    rw [partOfBucket_eq, partOfBucket_eq, sameHeight, sameRight, sameLeft]
  obtain ⟨_, _, _, lt, _⟩ := estimate_inside (built.totalValues_ne nonempty) xLow xHigh
  have le := built.le_inside nonempty xLow xHigh
  rw [lt, le, part, part, sameLeft, sameBelow]
  exact ⟨rfl, rfl⟩

/-- How often an integer of an even bucket occurs. -/
theorem Built.count_eq_iff (x : Int) :
    (values.count x : ℚ) / values.length =
        h.height v / (h.bucketRight v - h.bucketLeft v : Int) / values.length ↔
      values.count x * (h.bucketRight v - h.bucketLeft v) = h.height v := by
  have size : ((h.bucketRight v - h.bucketLeft v : Int) : ℚ) ≠ 0 := by
    rw [Int.cast_sub]
    exact (built.size_pos low high).ne'
  have counted : (values.length : ℚ) ≠ 0 :=
    Nat.cast_ne_zero.mpr (mt List.length_eq_zero_iff.mp nonempty)
  rw [div_left_inj' counted, eq_div_iff size]
  exact_mod_cast Iff.rfl

/-- The values below an integer of an even bucket, counted from the left end. -/
theorem Built.fraction_of_even (even : h.EvenlySpread values v) (k : Nat)
    (most : h.bucketLeft v + k ≤ h.bucketRight v) :
    fraction values (· < h.bucketLeft v + k) = h.partOfBucket v k + h.sharesBelow v := by
  induction k with
  | zero => simp [partOfBucket_eq, built.sharesBelow_eq low high]
  | succ k ih =>
    have step := fraction_succ values (h.bucketLeft v + k)
    have here := (built.count_eq_iff nonempty low high (h.bucketLeft v + k)).mpr
      (even (h.bucketLeft v + k) (by omega) (by omega))
    rw [Nat.cast_add, Nat.cast_one, ← Int.add_assoc, step, ih (by omega), here,
      built.partOfBucket_succ]
    ring

/-- The values below an integer of an even bucket, or below its right end. -/
theorem Built.below_of_even (even : h.EvenlySpread values v) (left : h.bucketLeft v ≤ x)
    (right : x ≤ h.bucketRight v) :
    fraction values (· < x) = h.partOfBucket v (x - h.bucketLeft v) + h.sharesBelow v := by
  have steps : ((x - h.bucketLeft v).toNat : Int) = x - h.bucketLeft v :=
    Int.toNat_of_nonneg (by omega)
  have below := built.fraction_of_even nonempty low high even (x - h.bucketLeft v).toNat (by omega)
  rwa [steps, add_sub_cancel] at below

/-- The estimates of ranges are exact throughout a bucket, `GT` up to the constant. -/
theorem Built.ranges_exact_iff :
    (∀ op, IsRange op → ∀ x, h.bucketLeft v ≤ x → x < h.bucketRight v →
      h.estimateSelectivity op x = fraction values (Counts op x)) ↔ h.EvenlySpread values v := by
  constructor
  · intro exact x left right
    obtain ⟨lt, le⟩ := built.estimates_in_bucket nonempty low high left right
    have exactLt : h.estimateSelectivity .lt x = fraction values (· < x) :=
      exact .lt ⟨nofun, nofun⟩ x left right
    have exactLe : h.estimateSelectivity .le x = fraction values (· ≤ x) :=
      exact .le ⟨nofun, nofun⟩ x left right
    have upTo : fraction values (· ≤ x) = fraction values (· < x + 1) :=
      fraction_congr fun y _ => Int.lt_add_one_iff.symm
    refine (built.count_eq_iff nonempty low high x).mp ?_
    rw [upTo, fraction_succ, ← exactLt, lt, le, built.partOfBucket_succ] at exactLe
    linarith
  · intro even op range x left right
    obtain ⟨lt, le⟩ := built.estimates_in_bucket nonempty low high left right
    have below := built.below_of_even nonempty low high even left right.le
    rw [← lt] at below
    have notBelow : fraction values (x ≤ ·) = 1 - fraction values (· < x) :=
      fraction_not nonempty fun y => Int.not_lt.symm
    cases op with
    | eq => exact absurd rfl range.1
    | ne => exact absurd rfl range.2
    | lt => exact below.symm
    | le =>
      have next := built.below_of_even nonempty low high even (x := x + 1) (by omega) (by omega)
      have part : x + 1 - h.bucketLeft v = x - h.bucketLeft v + 1 := by omega
      rw [part, ← le] at next
      rw [← next]
      exact fraction_congr fun y _ => Int.lt_add_one_iff
    | gt =>
      rw [built.gt_eq nonempty, ← below]
      exact notBelow.symm
    | ge =>
      rw [built.ge_eq nonempty, built.gt_eq nonempty, ← below]
      exact notBelow.symm

end EvenlySpread

/-- The estimates of ranges are exact at every integer of a bucket exactly if its values are spread
evenly; `GT` counts the constant as well. -/
theorem ranges_exact_iff_even (positive : 1 ≤ buckets) (ordered : minVal ≤ maxVal)
    (isHistogram : h = (new buckets minVal maxVal).addAll values) (low : minVal ≤ v)
    (high : v ≤ maxVal) :
    let kept := values.filter fun x => minVal ≤ x ∧ x ≤ maxVal
    (∀ op, IsRange op → ∀ x, h.bucketLeft v ≤ x → x < h.bucketRight v →
      h.estimateSelectivity op x = fraction kept (Counts op x)) ↔ h.EvenlySpread kept v := by
  have built := built_new positive ordered values
  obtain ⟨isMin, isMax⟩ := (new buckets minVal maxVal).addAll_range values
  rw [← isHistogram] at built isMin isMax
  have low : h.privateMinVal ≤ v := isMin.le.trans low
  have high : v ≤ h.privateMaxVal := high.trans isMax.ge
  intro kept
  by_cases empty : kept = []
  · have built : Built h kept := built
    have zero : h.totalValues = 0 := by
      rw [built.total, empty]
      rfl
    have none : h.height v = 0 := by
      rw [built.height_eq low high, empty]
      rfl
    refine iff_of_true (fun op _ x _ _ => ?_) fun x _ _ => ?_
    · have estimate : h.estimateSelectivity op x = 0 := if_pos zero
      rw [estimate, empty, fraction]
      simp
    · rw [none, empty]
      simp
  · exact built.ranges_exact_iff empty low high

/-- Two buckets of five integers each; the first one has each of its integers twice. -/
theorem ranges_exact_iff_even_five :
    let values : List Int := [1, 2, 3, 4, 5, 5, 4, 3, 2, 1, 7]
    let h := (new 2 1 9).addAll values
    let kept := values.filter fun x => 1 ≤ x ∧ x ≤ 9
    (∀ op, IsRange op → ∀ x, h.bucketLeft 3 ≤ x → x < h.bucketRight 3 →
      h.estimateSelectivity op x = fraction kept (Counts op x)) ↔ h.EvenlySpread kept 3 :=
  ranges_exact_iff_even (by decide) (by decide) rfl (by decide) (by decide)

end BuzzDB.Optimizer.IntHistogram
