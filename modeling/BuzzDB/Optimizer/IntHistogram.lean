import BuzzDB.Lib.Tally
import BuzzDB.Optimizer.JoinNode
import Mathlib.Data.Rat.Lemmas
import Mathlib.Tactic.Ring

/-!
# Histograms

`IntHistogram` of lab 4, with exact rationals for `double` and unbounded integers for `int64_t`
and `int`, whose arithmetic has no meaning where it overflows.

The buckets all have the same width, so the last ones may reach beyond the maximum or lie behind
it.  `Built` is what a sequence of `add_value` makes of a histogram.
-/

namespace BuzzDB.Optimizer

/-- `IntHistogram`. -/
structure IntHistogram where
  privateBuckets : Int
  privateMinVal : Int
  privateMaxVal : Int
  bucketWidth : Int
  bucketCounts : List Nat
  totalValues : Nat

namespace IntHistogram

/-- The constructor. -/
def new (buckets minVal maxVal : Int) : IntHistogram :=
  let bucketWidth := (maxVal - minVal + buckets).tdiv buckets
  { privateBuckets := buckets
    privateMinVal := minVal
    privateMaxVal := maxVal
    bucketWidth := if bucketWidth < 1 then 1 else bucketWidth
    bucketCounts := List.replicate buckets.toNat 0
    totalValues := 0 }

variable (h : IntHistogram)

/-- `bucket_index`, in `add_value` and in `estimate_selectivity`. -/
def bucketIndex (val : Int) : Int :=
  let bucketIndex := (val - h.privateMinVal).tdiv h.bucketWidth
  if bucketIndex ≥ h.privateBuckets then h.privateBuckets - 1 else bucketIndex

/-- `add_value`. -/
def addValue (val : Int) : IntHistogram :=
  if val ≥ h.privateMinVal ∧ val ≤ h.privateMaxVal then
    { h with
      bucketCounts := h.bucketCounts.modify (h.bucketIndex val).toNat (· + 1)
      totalValues := h.totalValues + 1 }
  else h

/-- One `add_value` after the other. -/
def addAll (values : List Int) : IntHistogram := values.foldl addValue h

/-! ## `estimate_selectivity` -/

def height (v : Int) : Nat := h.bucketCounts.getD (h.bucketIndex v).toNat 0

def bucketLeft (v : Int) : Int := h.privateMinVal + h.bucketIndex v * h.bucketWidth

def bucketRight (v : Int) : Int :=
  let bucketRight := h.bucketLeft v + h.bucketWidth
  if bucketRight > h.privateMaxVal then h.privateMaxVal + 1 else bucketRight

/-- The sum of `bucket_counts[i] / (double)total_values` over some buckets. -/
def share (counts : List Nat) : ℚ := (counts.map fun (count : Nat) => (count : ℚ) / h.totalValues).sum

/-- The buckets below that of `v`. -/
def sharesBelow (v : Int) : ℚ := h.share (h.bucketCounts.take (h.bucketIndex v).toNat)

/-- The buckets above that of `v`. -/
def sharesAbove (v : Int) : ℚ := h.share (h.bucketCounts.drop (h.bucketIndex v + 1).toNat)

/-- `height * part / (bucket_right - bucket_left) / total_values`, if the bucket is not empty. -/
def partOfBucket (v part : Int) : ℚ :=
  if 0 < h.height v then
    h.height v * part / (h.bucketRight v - h.bucketLeft v : Int) / h.totalValues
  else 0

/-- `height / total_values`, if the bucket is not empty. -/
def wholeBucket (v : Int) : ℚ := if 0 < h.height v then h.height v / h.totalValues else 0

/-- The branch of `EQ`, which `NE` calls. -/
def estimateEqual (v : Int) : ℚ :=
  if h.height v = 0 then 0 else h.height v / h.bucketWidth / h.totalValues

/-- `estimate_selectivity`. -/
def estimateSelectivity (op : PredicateType) (v : Int) : ℚ :=
  if h.totalValues = 0 then 0
  else if v < h.privateMinVal then
    match op with
    | .gt => 1
    | .ge => 1
    | .ne => 1
    | .eq => 0
    | .lt => 0
    | .le => 0
  else if v > h.privateMaxVal then
    match op with
    | .lt => 1
    | .le => 1
    | .ne => 1
    | .eq => 0
    | .gt => 0
    | .ge => 0
  else
    match op with
    | .eq => h.estimateEqual v
    | .ne => 1 - h.estimateEqual v
    | .gt => h.partOfBucket v (h.bucketRight v - v) + h.sharesAbove v
    | .lt => h.partOfBucket v (v - h.bucketLeft v) + h.sharesBelow v
    | .ge =>
      if v ≤ h.privateMinVal then 1
      else
        (if v = h.bucketLeft v then h.wholeBucket v
          else h.partOfBucket v (h.bucketRight v - v)) + h.sharesAbove v
    | .le =>
      if v ≥ h.privateMaxVal then 1
      else
        (if v = h.bucketRight v - 1 then h.wholeBucket v
          else h.partOfBucket v (v - h.bucketLeft v + 1)) + h.sharesBelow v

/-! ## What `add_value` builds -/

variable {h} {values : List Int} {buckets minVal maxVal v x : Int} {i : Nat}

/-- The bucket of a value, counted from the minimum. -/
def bucketOf (h : IntHistogram) (v : Int) : Nat := ((v - h.privateMinVal) / h.bucketWidth).toNat

/-- The histogram of a list of values, all of them in its range. -/
structure Built (h : IntHistogram) (values : List Int) : Prop where
  width : 0 < h.bucketWidth
  index : ∀ v, h.privateMinVal ≤ v → v ≤ h.privateMaxVal →
    h.bucketIndex v = (v - h.privateMinVal) / h.bucketWidth ∧ h.bucketIndex v < h.privateBuckets
  counts : h.bucketCounts = Tally.tally h.bucketOf h.privateBuckets.toNat values
  total : h.totalValues = values.length
  inside : ∀ v ∈ values, h.privateMinVal ≤ v ∧ v ≤ h.privateMaxVal

/-- The width is at least one, and the buckets cover the range. -/
theorem width_new (positive : 1 ≤ buckets) (ordered : minVal ≤ maxVal) :
    0 < (new buckets minVal maxVal).bucketWidth ∧
      maxVal - minVal < buckets * (new buckets minVal maxVal).bucketWidth := by
  have quotient : (maxVal - minVal + buckets).tdiv buckets = (maxVal - minVal) / buckets + 1 := by
    rw [Int.tdiv_eq_ediv_of_nonneg (by omega), Int.add_ediv_of_dvd_right (Int.dvd_refl buckets),
      Int.ediv_self (by omega)]
  have nonneg : 0 ≤ (maxVal - minVal) / buckets := Int.ediv_nonneg (by omega) (by omega)
  have width : (new buckets minVal maxVal).bucketWidth = (maxVal - minVal) / buckets + 1 := by
    rw [new, quotient]
    exact if_neg (by omega)
  rw [width]
  refine ⟨by omega, ?_⟩
  have rest := Int.emod_lt_of_pos (maxVal - minVal) (show 0 < buckets by omega)
  have split := Int.mul_ediv_add_emod (maxVal - minVal) buckets
  rw [Int.mul_add, Int.mul_one]
  omega

theorem Built.new (positive : 1 ≤ buckets) (ordered : minVal ≤ maxVal) :
    Built (new buckets minVal maxVal) [] where
  width := (width_new positive ordered).1
  index v low high := by
    obtain ⟨width, covers⟩ := width_new positive ordered
    have truncates : (v - minVal).tdiv (IntHistogram.new buckets minVal maxVal).bucketWidth =
        (v - minVal) / (IntHistogram.new buckets minVal maxVal).bucketWidth :=
      Int.tdiv_eq_ediv_of_nonneg (Int.sub_nonneg.mpr low)
    have below : (v - minVal) / (IntHistogram.new buckets minVal maxVal).bucketWidth < buckets := by
      refine Int.ediv_lt_of_lt_mul width (Int.lt_of_le_of_lt ?_ covers)
      exact Int.sub_le_sub_right high _
    have index : (IntHistogram.new buckets minVal maxVal).bucketIndex v =
        (v - minVal) / (IntHistogram.new buckets minVal maxVal).bucketWidth := by
      rw [bucketIndex]
      change (if (v - minVal).tdiv _ ≥ buckets then _ else (v - minVal).tdiv _ : Int) = _
      rw [truncates, if_neg (Int.not_le.mpr below)]
    exact ⟨index, index ▸ below⟩
  counts := (Tally.tally_nil _ _).symm
  total := rfl
  inside _ absent := absurd absent List.not_mem_nil

/-- A value outside the range changes nothing. -/
theorem Built.addValue_outside (outside : ¬ (h.privateMinVal ≤ v ∧ v ≤ h.privateMaxVal)) :
    h.addValue v = h := if_neg outside

theorem Built.addValue (built : Built h values) (low : h.privateMinVal ≤ v)
    (high : v ≤ h.privateMaxVal) : Built (h.addValue v) (values ++ [v]) := by
  rw [IntHistogram.addValue, if_pos ⟨low, high⟩]
  refine ⟨built.width, built.index, ?_, ?_, fun x member => ?_⟩
  · change h.bucketCounts.modify (h.bucketIndex v).toNat (· + 1) =
      Tally.tally h.bucketOf h.privateBuckets.toNat (values ++ [v])
    rw [Tally.tally_concat, ← built.counts, bucketOf, (built.index v low high).1]
  · rw [List.length_append, ← built.total]
    rfl
  · rcases List.mem_append.mp member with old | new
    · exact built.inside x old
    · rw [List.mem_singleton.mp new]
      exact ⟨low, high⟩

/-- The added values that are in the range. -/
def kept (h : IntHistogram) (values : List Int) : List Int :=
  values.filter fun v => h.privateMinVal ≤ v ∧ v ≤ h.privateMaxVal

theorem addValue_range (h : IntHistogram) (v : Int) :
    (h.addValue v).privateMinVal = h.privateMinVal ∧ (h.addValue v).privateMaxVal = h.privateMaxVal := by
  unfold addValue
  split <;> exact ⟨rfl, rfl⟩

/-- Whatever is added, the histogram is that of the values in its range. -/
theorem built_addAll {old : List Int} (built : Built h old) (values : List Int) :
    Built (h.addAll values) (old ++ h.kept values) := by
  induction values generalizing h old with
  | nil =>
    rw [kept, List.filter_nil, List.append_nil]
    exact built
  | cons v values ih =>
    obtain ⟨sameMin, sameMax⟩ := h.addValue_range v
    rw [kept, List.filter_cons, addAll, List.foldl_cons]
    split
    · rename_i inside
      obtain ⟨low, high⟩ := of_decide_eq_true inside
      have next := ih (built.addValue low high)
      rw [kept, sameMin, sameMax, List.append_assoc, List.singleton_append] at next
      exact next
    · rename_i outside
      rw [Built.addValue_outside fun inside => outside (decide_eq_true inside)]
      exact ih built

/-! ## Buckets and shares -/

namespace Built

/-- Where a value lies in its bucket. -/
theorem bucket (built : Built h values) (low : h.privateMinVal ≤ v) (high : v ≤ h.privateMaxVal) :
    0 ≤ h.bucketIndex v ∧ h.bucketLeft v ≤ v ∧ v < h.bucketLeft v + h.bucketWidth := by
  obtain ⟨index, _⟩ := built.index v low high
  have rest := Int.emod_lt_of_pos (v - h.privateMinVal) built.width
  have nonneg := Int.emod_nonneg (v - h.privateMinVal) (Int.ne_of_gt built.width)
  have split := Int.mul_ediv_add_emod (v - h.privateMinVal) h.bucketWidth
  have left : h.bucketLeft v = h.privateMinVal + h.bucketWidth * ((v - h.privateMinVal) / h.bucketWidth) := by
    rw [bucketLeft, index, Int.mul_comm]
  refine ⟨?_, by omega, by omega⟩
  rw [index]
  exact Int.ediv_nonneg (by omega) (Int.le_of_lt built.width)

theorem index_eq (built : Built h values) (low : h.privateMinVal ≤ v) (high : v ≤ h.privateMaxVal) :
    h.bucketIndex v = h.bucketOf v ∧ h.bucketOf v < h.privateBuckets.toNat := by
  obtain ⟨nonneg, _⟩ := built.bucket low high
  obtain ⟨index, inBuckets⟩ := built.index v low high
  rw [bucketOf, ← index]
  omega

theorem bucketRight_eq (built : Built h values) (low : h.privateMinVal ≤ v)
    (high : v ≤ h.privateMaxVal) : v < h.bucketRight v ∧ h.bucketRight v ≤ h.privateMaxVal + 1 := by
  obtain ⟨_, _, below⟩ := built.bucket low high
  unfold bucketRight
  dsimp only
  split <;> omega

/-- The bucket of a value, in terms of the left end of a bucket. -/
theorem lt_bucket_iff (built : Built h values) (xLow : h.privateMinVal ≤ x) (i : Nat) :
    h.bucketOf x < i ↔ x < h.privateMinVal + i * h.bucketWidth := by
  have below := Int.ediv_lt_iff_lt_mul built.width (a := x - h.privateMinVal) (b := i)
  have nonneg := Int.ediv_nonneg (Int.sub_nonneg.mpr xLow) (Int.le_of_lt built.width)
  rw [bucketOf]
  omega

/-- The values of lower buckets are those below the left end. -/
theorem lt_left_iff (built : Built h values) (low : h.privateMinVal ≤ v)
    (high : v ≤ h.privateMaxVal) (xLow : h.privateMinVal ≤ x) :
    h.bucketOf x < h.bucketOf v ↔ x < h.bucketLeft v := by
  rw [built.lt_bucket_iff xLow, bucketLeft, (built.index_eq low high).1]

/-- The values of higher buckets are those from the right end on. -/
theorem right_le_iff (built : Built h values) (low : h.privateMinVal ≤ v)
    (high : v ≤ h.privateMaxVal) (xLow : h.privateMinVal ≤ x) (xHigh : x ≤ h.privateMaxVal) :
    h.bucketOf v + 1 ≤ h.bucketOf x ↔ h.bucketRight v ≤ x := by
  have next := built.lt_bucket_iff xLow (h.bucketOf v + 1)
  have left : h.privateMinVal + (h.bucketOf v + 1 : Nat) * h.bucketWidth =
      h.bucketLeft v + h.bucketWidth := by
    rw [bucketLeft, (built.index_eq low high).1]
    push_cast
    ring
  rw [left] at next
  unfold bucketRight
  dsimp only
  split <;> omega

end Built

/-! ## Fractions -/

/-- The fraction of the values with a property. -/
def fraction (values : List Int) (P : Int → Prop) [DecidablePred P] : ℚ :=
  (values.countP fun x => P x : Nat) / values.length

theorem share_eq (h : IntHistogram) (counts : List Nat) :
    h.share counts = (counts.sum : ℚ) / h.totalValues := by
  unfold share
  induction counts with
  | nil => simp
  | cons count counts ih => rw [List.map_cons, List.sum_cons, ih, List.sum_cons, Nat.cast_add, add_div]

theorem fraction_congr {P Q : Int → Prop} [DecidablePred P] [DecidablePred Q]
    (same : ∀ x ∈ values, (P x ↔ Q x)) : fraction values P = fraction values Q := by
  have counts : values.countP (fun x => P x) = values.countP fun x => Q x :=
    List.countP_congr fun x member => by simpa using same x member
  rw [fraction, counts, fraction]

/-- What holds of every value has the fraction one. -/
theorem fraction_eq_one {P : Int → Prop} [DecidablePred P] (nonempty : values ≠ [])
    (all : ∀ x ∈ values, P x) : fraction values P = 1 := by
  have counts : values.countP (fun x => P x) = values.length :=
    List.countP_eq_length.mpr fun x member => decide_eq_true (all x member)
  rw [fraction, counts]
  exact div_self (Nat.cast_ne_zero.mpr (mt List.length_eq_zero_iff.mp nonempty))

theorem fraction_add {P Q R : Int → Prop} [DecidablePred P] [DecidablePred Q] [DecidablePred R]
    (same : ∀ x ∈ values, (R x ↔ P x ∨ Q x)) (apart : ∀ x ∈ values, ¬ (P x ∧ Q x)) :
    fraction values P + fraction values Q = fraction values R := by
  unfold fraction
  rw [← add_div, ← Nat.cast_add]
  congr 2
  induction values with
  | nil => rfl
  | cons y values ih =>
    have here := same y List.mem_cons_self
    have notBoth := apart y List.mem_cons_self
    have rest := ih (fun x member => same x (List.mem_cons_of_mem y member))
      fun x member => apart x (List.mem_cons_of_mem y member)
    simp only [List.countP_cons, decide_eq_true_eq]
    by_cases inP : P y
    · have notQ : ¬ Q y := fun inQ => notBoth ⟨inP, inQ⟩
      simp only [inP, notQ, here.mpr (Or.inl inP), if_true, if_false]
      omega
    · by_cases inQ : Q y
      · simp only [inP, inQ, here.mpr (Or.inr inQ), if_true, if_false]
        omega
      · have notR : ¬ R y := fun inR => (here.mp inR).elim inP inQ
        simp only [inP, inQ, notR, if_false]
        omega

namespace Built

theorem sharesBelow_eq (built : Built h values) (low : h.privateMinVal ≤ v)
    (high : v ≤ h.privateMaxVal) : h.sharesBelow v = fraction values (· < h.bucketLeft v) := by
  obtain ⟨index, inBuckets⟩ := built.index_eq low high
  rw [sharesBelow, share_eq, built.counts, built.total, index, Int.toNat_natCast,
    Tally.sum_take_tally (Nat.le_of_lt inBuckets)]
  exact fraction_congr fun x member => built.lt_left_iff low high (built.inside x member).1

theorem sharesAbove_eq (built : Built h values) (low : h.privateMinVal ≤ v)
    (high : v ≤ h.privateMaxVal) : h.sharesAbove v = fraction values (h.bucketRight v ≤ ·) := by
  obtain ⟨index, inBuckets⟩ := built.index_eq low high
  have all : ∀ x ∈ values, h.bucketOf x < h.privateBuckets.toNat := fun x member =>
    (built.index_eq (built.inside x member).1 (built.inside x member).2).2
  have next : (h.bucketIndex v + 1).toNat = h.bucketOf v + 1 := by omega
  rw [sharesAbove, share_eq, built.counts, built.total, next, Tally.sum_drop_tally all inBuckets]
  exact fraction_congr fun x member =>
    built.right_le_iff low high (built.inside x member).1 (built.inside x member).2

/-- The values in the bucket of `v`. -/
theorem height_eq (built : Built h values) (low : h.privateMinVal ≤ v)
    (high : v ≤ h.privateMaxVal) :
    h.height v = values.countP fun x => h.bucketLeft v ≤ x ∧ x < h.bucketRight v := by
  obtain ⟨index, inBuckets⟩ := built.index_eq low high
  rw [height, built.counts, index, Int.toNat_natCast, Tally.getD_tally inBuckets]
  refine List.countP_congr fun x member => ?_
  obtain ⟨xLow, xHigh⟩ := built.inside x member
  have left := built.lt_left_iff low high xLow
  have right := built.right_le_iff low high xLow xHigh
  simp only [decide_eq_true_eq]
  omega

/-- An empty bucket contributes nothing. -/
theorem partOfBucket_eq (h : IntHistogram) (v part : Int) : h.partOfBucket v part =
    h.height v * part / (h.bucketRight v - h.bucketLeft v : Int) / h.totalValues := by
  rw [partOfBucket]
  split
  · rfl
  · rename_i empty
    rw [Nat.eq_zero_of_not_pos empty]
    simp

/-- The branch of `EQ`; an empty bucket needs no branch of its own. -/
theorem estimateEqual_eq (h : IntHistogram) (v : Int) :
    h.estimateEqual v = h.height v / h.bucketWidth / h.totalValues := by
  rw [estimateEqual]
  split
  · rename_i empty
    rw [empty, Nat.cast_zero, zero_div, zero_div]
  · rfl

theorem wholeBucket_eq (built : Built h values) (low : h.privateMinVal ≤ v)
    (high : v ≤ h.privateMaxVal) :
    h.wholeBucket v = fraction values fun x => h.bucketLeft v ≤ x ∧ x < h.bucketRight v := by
  have whole : h.wholeBucket v = h.height v / h.totalValues := by
    rw [wholeBucket]
    split
    · rfl
    · rename_i empty
      rw [Nat.eq_zero_of_not_pos empty, Nat.cast_zero, zero_div]
  rw [whole, built.height_eq low high, built.total, fraction]

end Built

end IntHistogram

end BuzzDB.Optimizer
