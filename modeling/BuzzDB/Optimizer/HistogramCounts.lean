import BuzzDB.Optimizer.BoundaryEstimates
import Mathlib.Algebra.BigOperators.Ring.Finset

/-!
# Histogram counts

`IntHistogram` in the integer types of the source.  Integers wrap around; what C++ does where an `int`
is counted beyond its maximum is undefined.

As long as the length of the range and the number of buckets together fit into 64 bits, and the
number of buckets into an `int`, no index or bound that the constructor and `add_value` compute leaves
its type, and the index is that of a bucket before it is compared with their number.  The counters are
right as long as no more values are counted than an `int` can hold.
-/

namespace BuzzDB.Optimizer

/-! ## Counts over unbounded integers -/

namespace IntHistogram.Built

variable {h : IntHistogram} {values : List Int}

/-- Every bucket counts the values in the range that it covers. -/
theorem bucketCounts_eq (built : Built h values) :
    h.bucketCounts = (List.range h.privateBuckets.toNat).map fun i : Nat =>
      values.countP fun x => h.privateMinVal + i * h.bucketWidth ≤ x ∧
        x < h.privateMinVal + (i + 1) * h.bucketWidth := by
  rw [built.counts, Tally.tally]
  refine List.map_congr_left fun i _ => List.countP_congr fun x member => ?_
  have below := built.lt_bucket_iff (built.inside x member).1 i
  have next := built.lt_bucket_iff (built.inside x member).1 (i + 1)
  rw [Nat.cast_add, Nat.cast_one] at next
  rw [decide_eq_true_eq, decide_eq_true_eq]
  omega

/-- The counts sum to the number of values. -/
theorem sum_bucketCounts (built : Built h values) : h.bucketCounts.sum = h.totalValues := by
  rw [built.counts, built.total]
  exact Tally.sum_tally fun x member =>
    (built.index_eq (built.inside x member).1 (built.inside x member).2).2

end IntHistogram.Built

/-! ## In the types of the source -/

/-- `IntHistogram`. -/
structure MachineHistogram where
  privateBuckets : Int64
  privateMinVal : Int64
  privateMaxVal : Int64
  bucketWidth : Int64
  bucketCounts : List Int32
  totalValues : Int32

namespace MachineHistogram

/-- The constructor. -/
def new (buckets minVal maxVal : Int64) : MachineHistogram :=
  let bucketWidth := (maxVal - minVal + buckets) / buckets
  { privateBuckets := buckets
    privateMinVal := minVal
    privateMaxVal := maxVal
    bucketWidth := if bucketWidth < 1 then 1 else bucketWidth
    bucketCounts := List.replicate buckets.toInt.toNat 0
    totalValues := 0 }

variable (h : MachineHistogram)

/-- `int bucket_index = (val - private_min_val) / bucket_width`. -/
def unclampedIndex (val : Int64) : Int32 := ((val - h.privateMinVal) / h.bucketWidth).toInt32

/-- `bucket_index`, behind the clamp. -/
def bucketIndex (val : Int64) : Int32 :=
  let bucketIndex := h.unclampedIndex val
  if bucketIndex.toInt64 ≥ h.privateBuckets then (h.privateBuckets - 1).toInt32 else bucketIndex

/-- `add_value`. -/
def addValue (val : Int64) : MachineHistogram :=
  if val ≥ h.privateMinVal ∧ val ≤ h.privateMaxVal then
    { h with
      bucketCounts := h.bucketCounts.modify (h.bucketIndex val).toInt.toNat (· + 1)
      totalValues := h.totalValues + 1 }
  else h

/-- One `add_value` after the other. -/
def addAll (values : List Int64) : MachineHistogram := values.foldl addValue h

/-- The value lies in the range that the bucket covers. -/
def InBucket (i : Nat) (val : Int64) : Prop :=
  h.privateMinVal.toInt + i * h.bucketWidth.toInt ≤ val.toInt ∧
    val.toInt < h.privateMinVal.toInt + (i + 1) * h.bucketWidth.toInt

instance (i : Nat) : DecidablePred (h.InBucket i) := fun _ => inferInstanceAs (Decidable (_ ∧ _))

/-! ## In unbounded integers -/

/-- The same histogram over unbounded integers, but for what the counters have lost. -/
structure Narrows (h : MachineHistogram) (ideal : IntHistogram) : Prop where
  buckets : ideal.privateBuckets = h.privateBuckets.toInt
  minVal : ideal.privateMinVal = h.privateMinVal.toInt
  maxVal : ideal.privateMaxVal = h.privateMaxVal.toInt
  width : ideal.bucketWidth = h.bucketWidth.toInt
  counts : h.bucketCounts = ideal.bucketCounts.map Int32.ofNat
  total : h.totalValues = Int32.ofNat ideal.totalValues

/-- The length of the range and the number of buckets fit into 64 bits, and the number of buckets
into an `int`. -/
structure Fits (buckets minVal maxVal : Int64) : Prop where
  positive : 1 ≤ buckets
  ordered : minVal ≤ maxVal
  inside : maxVal.toInt - minVal.toInt + buckets.toInt < 2 ^ 63
  few : buckets.toInt < 2 ^ 31

variable {h} {buckets minVal maxVal v : Int64} {ideal : IntHistogram} {added : List Int}

theorem toInt_sub_of_inside {a b : Int64} (low : 0 ≤ a.toInt - b.toInt)
    (high : a.toInt - b.toInt < 2 ^ 63) : (a - b).toInt = a.toInt - b.toInt := by
  rw [Int64.toInt_sub]
  exact Int.bmod_eq_of_le (by omega) (by omega)

/-- The constructor computes inside of 64 bits. -/
theorem new_narrows (fits : Fits buckets minVal maxVal) :
    (new buckets minVal maxVal).Narrows
      (IntHistogram.new buckets.toInt minVal.toInt maxVal.toInt) := by
  obtain ⟨positive, ordered, inside, -⟩ := fits
  have positive : 1 ≤ buckets.toInt := Int64.le_iff_toInt_le.mp positive
  have ordered : minVal.toInt ≤ maxVal.toInt := Int64.le_iff_toInt_le.mp ordered
  have length : (maxVal - minVal).toInt = maxVal.toInt - minVal.toInt :=
    toInt_sub_of_inside (by omega) (by omega)
  have sum : (maxVal - minVal + buckets).toInt = maxVal.toInt - minVal.toInt + buckets.toInt := by
    rw [Int64.toInt_add, length]
    exact Int.bmod_eq_of_le (by omega) (by omega)
  have notMinusOne : buckets ≠ -1 := by
    intro same
    rw [same] at positive
    exact absurd positive (by decide)
  have width : ((maxVal - minVal + buckets) / buckets).toInt =
      (maxVal.toInt - minVal.toInt + buckets.toInt).tdiv buckets.toInt := by
    rw [Int64.toInt_div_of_ne_right _ _ notMinusOne, sum]
  have small : (maxVal - minVal + buckets) / buckets < 1 ↔
      (maxVal.toInt - minVal.toInt + buckets.toInt).tdiv buckets.toInt < 1 := by
    rw [Int64.lt_iff_toInt_lt, width]
    rfl
  refine ⟨rfl, rfl, rfl, ?_, ?_, rfl⟩
  · simp only [new, IntHistogram.new, small, apply_ite Int64.toInt, width]
    rfl
  · rw [IntHistogram.new, List.map_replicate]
    rfl

/-- The index that `add_value` computes fits into an `int`, and is that of a bucket. -/
theorem toInt_unclampedIndex (narrows : h.Narrows ideal) (built : ideal.Built added)
    (fits : Fits h.privateBuckets h.privateMinVal h.privateMaxVal)
    (low : h.privateMinVal ≤ v) (high : v ≤ h.privateMaxVal) :
    (h.unclampedIndex v).toInt = ideal.bucketIndex v.toInt ∧
      0 ≤ (h.unclampedIndex v).toInt ∧ (h.unclampedIndex v).toInt < h.privateBuckets.toInt := by
  obtain ⟨positive, -, inside, few⟩ := fits
  have positive : 1 ≤ h.privateBuckets.toInt := Int64.le_iff_toInt_le.mp positive
  have low : h.privateMinVal.toInt ≤ v.toInt := Int64.le_iff_toInt_le.mp low
  have high : v.toInt ≤ h.privateMaxVal.toInt := Int64.le_iff_toInt_le.mp high
  have lowIdeal : ideal.privateMinVal ≤ v.toInt := narrows.minVal ▸ low
  have highIdeal : v.toInt ≤ ideal.privateMaxVal := narrows.maxVal ▸ high
  obtain ⟨index, below⟩ := built.index v.toInt lowIdeal highIdeal
  obtain ⟨nonneg, -, -⟩ := built.bucket lowIdeal highIdeal
  rw [narrows.buckets] at below
  rw [narrows.minVal, narrows.width] at index
  have difference : (v - h.privateMinVal).toInt = v.toInt - h.privateMinVal.toInt :=
    toInt_sub_of_inside (by omega) (by omega)
  have notMinusOne : h.bucketWidth ≠ -1 := by
    intro same
    have width : 0 < ideal.bucketWidth := built.width
    rw [narrows.width, same] at width
    exact absurd width (by decide)
  have quotient : ((v - h.privateMinVal) / h.bucketWidth).toInt = ideal.bucketIndex v.toInt := by
    rw [Int64.toInt_div_of_ne_right _ _ notMinusOne, difference,
      Int.tdiv_eq_ediv_of_nonneg (Int.sub_nonneg.mpr low)]
    exact index.symm
  have narrowed : (h.unclampedIndex v).toInt = ideal.bucketIndex v.toInt := by
    rw [unclampedIndex, Int64.toInt_toInt32, quotient]
    exact Int.bmod_eq_of_le (by omega) (by omega)
  rw [narrowed]
  exact ⟨rfl, nonneg, below⟩

/-- The clamp is not taken. -/
theorem bucketIndex_eq (below : (h.unclampedIndex v).toInt < h.privateBuckets.toInt) :
    h.bucketIndex v = h.unclampedIndex v := by
  refine if_neg (Int64.not_le.mpr (Int64.lt_iff_toInt_lt.mpr ?_))
  rw [Int32.toInt_toInt64]
  exact below

/-- A value of the range is counted in its bucket. -/
theorem addValue_inside (low : h.privateMinVal ≤ v) (high : v ≤ h.privateMaxVal) :
    h.addValue v = { h with
      bucketCounts := h.bucketCounts.modify (h.bucketIndex v).toInt.toNat (· + 1)
      totalValues := h.totalValues + 1 } := if_pos ⟨low, high⟩

/-- A value outside the range changes nothing. -/
theorem addValue_outside (outside : ¬ (h.privateMinVal ≤ v ∧ v ≤ h.privateMaxVal)) :
    h.addValue v = h := if_neg outside

/-- A counter goes on where the unbounded one does, even behind an overflow. -/
theorem modify_narrowed (counts : List Nat) (i : Nat) :
    (counts.map Int32.ofNat).modify i (· + 1) = (counts.modify i (· + 1)).map Int32.ofNat := by
  refine List.ext_getElem (by simp) fun k bound bound' => ?_
  simp only [List.getElem_modify, List.getElem_map]
  split
  · exact (Int32.ofNat_add _ _).symm
  · rfl

/-- `add_value` counts what it counts over unbounded integers. -/
theorem Narrows.addValue (narrows : h.Narrows ideal) (built : ideal.Built added)
    (fits : Fits h.privateBuckets h.privateMinVal h.privateMaxVal) (v : Int64) :
    (h.addValue v).Narrows (ideal.addValue v.toInt) := by
  have inRange : h.privateMinVal ≤ v ∧ v ≤ h.privateMaxVal ↔
      ideal.privateMinVal ≤ v.toInt ∧ v.toInt ≤ ideal.privateMaxVal := by
    rw [Int64.le_iff_toInt_le, Int64.le_iff_toInt_le, narrows.minVal, narrows.maxVal]
  by_cases inside : h.privateMinVal ≤ v ∧ v ≤ h.privateMaxVal
  · obtain ⟨low, high⟩ := inside
    obtain ⟨index, -, below⟩ := toInt_unclampedIndex narrows built fits low high
    rw [addValue_inside low high, bucketIndex_eq below, index, IntHistogram.addValue,
      if_pos (inRange.mp ⟨low, high⟩)]
    refine ⟨narrows.buckets, narrows.minVal, narrows.maxVal, narrows.width, ?_, ?_⟩
    · change h.bucketCounts.modify _ _ = _
      rw [narrows.counts]
      exact modify_narrowed _ _
    · change h.totalValues + 1 = _
      rw [narrows.total]
      exact (Int32.ofNat_add _ _).symm
  · rw [addValue_outside inside, IntHistogram.addValue,
      if_neg fun ideal => inside (inRange.mpr ideal)]
    exact narrows

/-- The arguments of the constructor, and the width. -/
theorem addValue_arguments (h : MachineHistogram) (v : Int64) :
    (h.addValue v).privateBuckets = h.privateBuckets ∧
      (h.addValue v).privateMinVal = h.privateMinVal ∧
      (h.addValue v).privateMaxVal = h.privateMaxVal := by
  unfold addValue
  split
  · exact ⟨rfl, rfl, rfl⟩
  · exact ⟨rfl, rfl, rfl⟩

theorem addAll_arguments (h : MachineHistogram) (values : List Int64) :
    (h.addAll values).privateBuckets = h.privateBuckets ∧
      (h.addAll values).privateMinVal = h.privateMinVal ∧
      (h.addAll values).privateMaxVal = h.privateMaxVal := by
  induction values generalizing h with
  | nil => exact ⟨rfl, rfl, rfl⟩
  | cons v values ih =>
    obtain ⟨buckets, minVal, maxVal⟩ := h.addValue_arguments v
    obtain ⟨restBuckets, restMin, restMax⟩ := ih (h.addValue v)
    exact ⟨restBuckets.trans buckets, restMin.trans minVal, restMax.trans maxVal⟩

/-- Whatever is added, the counters are those over unbounded integers. -/
theorem Narrows.addAll (narrows : h.Narrows ideal) (built : ideal.Built added)
    (fits : Fits h.privateBuckets h.privateMinVal h.privateMaxVal) (values : List Int64) :
    (h.addAll values).Narrows (ideal.addAll (values.map Int64.toInt)) := by
  induction values generalizing h ideal added with
  | nil => exact narrows
  | cons v values ih =>
    have next : (ideal.addValue v.toInt).Built (added ++ ideal.kept [v.toInt]) :=
      IntHistogram.built_addAll built [v.toInt]
    obtain ⟨buckets, minVal, maxVal⟩ := h.addValue_arguments v
    rw [← buckets, ← minVal, ← maxVal] at fits
    exact ih (narrows.addValue built (by rwa [buckets, minVal, maxVal] at fits) v) next fits

/-- What the constructor and `add_value` make of any values. -/
theorem built_new (fits : Fits buckets minVal maxVal) (values : List Int64) :
    ∃ ideal, ((new buckets minVal maxVal).addAll values).Narrows ideal ∧
      ideal.Built
        ((values.map Int64.toInt).filter fun x => minVal.toInt ≤ x ∧ x ≤ maxVal.toInt) := by
  have positive : 1 ≤ buckets.toInt := Int64.le_iff_toInt_le.mp fits.positive
  have ordered : minVal.toInt ≤ maxVal.toInt := Int64.le_iff_toInt_le.mp fits.ordered
  exact ⟨_, (new_narrows fits).addAll (IntHistogram.Built.new positive ordered) fits values,
    IntHistogram.built_new positive ordered (values.map Int64.toInt)⟩

/-- The index of a value is that of the bucket that covers it. -/
theorem inBucket_unclampedIndex (narrows : h.Narrows ideal) (built : ideal.Built added)
    (fits : Fits h.privateBuckets h.privateMinVal h.privateMaxVal)
    (low : h.privateMinVal ≤ v) (high : v ≤ h.privateMaxVal) :
    h.InBucket (h.unclampedIndex v).toInt.toNat v := by
  obtain ⟨index, nonneg, -⟩ := toInt_unclampedIndex narrows built fits low high
  obtain ⟨-, left, right⟩ :=
    built.bucket (narrows.minVal ▸ Int64.le_iff_toInt_le.mp low)
      (narrows.maxVal ▸ Int64.le_iff_toInt_le.mp high)
  have isLeft : ideal.bucketLeft v.toInt =
      h.privateMinVal.toInt + (h.unclampedIndex v).toInt * h.bucketWidth.toInt := by
    rw [index, IntHistogram.bucketLeft, narrows.minVal, narrows.width]
  rw [isLeft] at left right
  rw [narrows.width] at right
  rw [InBucket, Int.toNat_of_nonneg nonneg, Int.add_mul, Int.one_mul, ← Int.add_assoc]
  exact ⟨left, right⟩

/-- The values of the range, counted among all that were added. -/
theorem countP_inRange (minVal maxVal : Int64) (values : List Int64) (P : Int → Prop)
    [DecidablePred P] :
    ((values.map Int64.toInt).filter fun x => minVal.toInt ≤ x ∧ x ≤ maxVal.toInt).countP (P ·) =
      values.countP fun v => (minVal ≤ v ∧ v ≤ maxVal) ∧ P v.toInt := by
  rw [List.countP_filter, List.countP_map]
  refine List.countP_congr fun v _ => ?_
  simp only [Function.comp_apply, Bool.and_eq_true, decide_eq_true_eq, Int64.le_iff_toInt_le]
  exact and_comm

/-- A counter that has not left its type. -/
theorem toInt_narrowed {n : Nat} (small : n < 2 ^ 31) : (Int32.ofNat n).toInt = n :=
  Int32.toInt_ofNat_of_lt small

/-- The histogram of a sequence of values: each value of the range goes to the bucket that covers it,
the other ones change nothing, and exactly if no more values of the range have been added than an
`int` can hold, every bucket has counted the values that it covers, and all of them together. -/
theorem addAll_counts (fits : Fits buckets minVal maxVal) (values : List Int64)
    (isHistogram : (new buckets minVal maxVal).addAll values = h) :
    (∀ v, minVal ≤ v → v ≤ maxVal → ∃ i : Nat, i < buckets.toInt ∧
      (h.unclampedIndex v).toInt = i ∧ h.bucketIndex v = h.unclampedIndex v ∧ h.InBucket i v ∧
      h.addValue v = { h with
        bucketCounts := h.bucketCounts.modify i (· + 1)
        totalValues := h.totalValues + 1 }) ∧
    (∀ v, ¬ (minVal ≤ v ∧ v ≤ maxVal) → h.addValue v = h) ∧
    (((h.bucketCounts.map Int32.toInt = (List.range buckets.toInt.toNat).map fun i =>
          ((values.countP fun v => (minVal ≤ v ∧ v ≤ maxVal) ∧ h.InBucket i v : Nat) : Int)) ∧
        (h.totalValues.toInt = (values.countP fun v => minVal ≤ v ∧ v ≤ maxVal : Nat)) ∧
        (h.bucketCounts.map Int32.toInt).sum = h.totalValues.toInt) ↔
      (values.countP fun v => minVal ≤ v ∧ v ≤ maxVal) < 2 ^ 31) := by
  obtain ⟨ideal, narrows, built⟩ := built_new fits values
  obtain ⟨isBuckets, isMin, isMax⟩ := (new buckets minVal maxVal).addAll_arguments values
  rw [isHistogram] at narrows isBuckets isMin isMax
  have isBuckets : buckets = h.privateBuckets := isBuckets.symm
  have isMin : minVal = h.privateMinVal := isMin.symm
  have isMax : maxVal = h.privateMaxVal := isMax.symm
  clear isHistogram
  subst isBuckets isMin isMax
  refine ⟨fun v low high => ?_, fun v => addValue_outside, ?_⟩
  · obtain ⟨-, nonneg, below⟩ := toInt_unclampedIndex narrows built fits low high
    have index := bucketIndex_eq below
    have counted := addValue_inside low high
    rw [index] at counted
    have isIndex : ((h.unclampedIndex v).toInt.toNat : Int) = (h.unclampedIndex v).toInt :=
      Int.toNat_of_nonneg nonneg
    refine ⟨(h.unclampedIndex v).toInt.toNat, ?_, isIndex.symm, index,
      inBucket_unclampedIndex narrows built fits low high, counted⟩
    rw [isIndex]
    exact below
  have total : ideal.totalValues =
      values.countP fun v => h.privateMinVal ≤ v ∧ v ≤ h.privateMaxVal := by
    have all := countP_inRange h.privateMinVal h.privateMaxVal values fun _ => True
    rw [built.total]
    simpa using all
  have counts : ideal.bucketCounts = (List.range h.privateBuckets.toInt.toNat).map fun i =>
      values.countP fun v => (h.privateMinVal ≤ v ∧ v ≤ h.privateMaxVal) ∧ h.InBucket i v := by
    rw [built.bucketCounts_eq, narrows.buckets, narrows.minVal, narrows.width]
    exact List.map_congr_left fun i _ => countP_inRange _ _ values _
  constructor
  · rintro ⟨-, right, -⟩
    have bound := h.totalValues.toInt_lt
    omega
  · intro small
    have few : ∀ n ∈ ideal.bucketCounts, n < 2 ^ 31 := by
      intro n member
      have le := List.le_sum_of_mem member
      rw [built.sum_bucketCounts, total] at le
      omega
    have narrowed : h.bucketCounts.map Int32.toInt = ideal.bucketCounts.map fun n : Nat => (n : Int) := by
      rw [narrows.counts, List.map_map]
      exact List.map_congr_left fun n member => toInt_narrowed (few n member)
    have isTotal : h.totalValues.toInt = ideal.totalValues := by
      rw [narrows.total]
      exact toInt_narrowed (total ▸ small)
    refine ⟨?_, isTotal.trans (congrArg Nat.cast total), ?_⟩
    · rw [narrowed, counts, List.map_map]
      rfl
    · rw [narrowed, isTotal, ← built.sum_bucketCounts]
      exact (Nat.cast_list_sum _).symm

/-- Seven buckets for a range of four values, and a value outside of it. -/
theorem addAll_counts_seven :
    ((new 7 (-2) 1).addAll [-2, 1, 5, -2]).bucketCounts.map Int32.toInt = [2, 0, 0, 1, 0, 0, 0] ∧
      (((new 7 (-2) 1).addAll [-2, 1, 5, -2]).bucketCounts.map Int32.toInt).sum =
        ((new 7 (-2) 1).addAll [-2, 1, 5, -2]).totalValues.toInt := by
  have fits : Fits 7 (-2) 1 := ⟨by decide, by decide, by decide, by decide⟩
  obtain ⟨counts, -, sum⟩ := (addAll_counts fits [-2, 1, 5, -2] rfl).2.2.mpr (by decide)
  exact ⟨counts.trans (by decide), sum⟩

/-- One value that is added `2 ^ 31` times. -/
theorem not_addAll_counts_overflow : Fits 1 0 0 ∧
    ((List.replicate (2 ^ 31) 0).countP fun v : Int64 => 0 ≤ v ∧ v ≤ 0) = 2 ^ 31 ∧
    ((new 1 0 0).addAll (List.replicate (2 ^ 31) 0)).totalValues.toInt ≠ 2 ^ 31 ∧
    ((new 1 0 0).addAll (List.replicate (2 ^ 31) 0)).bucketCounts.map Int32.toInt ≠ [2 ^ 31] := by
  refine ⟨⟨by decide, by decide, by decide, by decide⟩, ?_, fun total => ?_, fun counts => ?_⟩
  · rw [List.countP_replicate]
    rfl
  · have bound := ((new 1 0 0).addAll (List.replicate (2 ^ 31) 0)).totalValues.toInt_lt
    omega
  · obtain ⟨count, -, isCount⟩ := List.mem_map.mp (counts ▸ List.mem_singleton_self ((2 : Int) ^ 31))
    have bound := count.toInt_lt
    omega

end MachineHistogram

end BuzzDB.Optimizer
