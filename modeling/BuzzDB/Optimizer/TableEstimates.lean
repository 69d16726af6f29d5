import BuzzDB.Optimizer.JoinOrder
import BuzzDB.Optimizer.MonotoneEstimates

/-!
# Table statistics

`TableStats` of lab 4 with its histograms.  The constructor does not look at the table: it takes
510 tuples for every page, and the row number modulo 33 for the value of every field.  Its histograms
have buckets of width one, so that their estimates count rows.

`estimate_table_cardinality` multiplies with 10200, the tuples of 20 pages, whatever the table; and
the shortcuts of `estimate_selectivity` cut off at the last value of the range instead of behind it.
-/

namespace BuzzDB.Optimizer

/-- `TableStats`, with the statistics of its fields. -/
structure TableStatistics extends TableStats where
  numTuples : UInt64
  numFields : UInt64
  fieldHistograms : List IntHistogram

namespace TableStatistics

/-- The values that the constructor adds to each histogram. -/
def rows (numTuples : UInt64) : List Int :=
  (List.range numTuples.toNat).map fun j => ((j % 33 : Nat) : Int)

/-- The constructor. -/
def new (ioCostPerPage : Int64) (numPages numFields : UInt64) : TableStatistics :=
  let numTuples := numPages * 510
  { ioCostPerPage
    numPages
    numTuples
    numFields
    fieldHistograms := (List.range numFields.toNat).map fun _ =>
      (IntHistogram.new 100 0 32).addAll (rows numTuples) }

/-- The constant-range shortcuts of `estimate_selectivity`. -/
def shortcut (op : PredicateType) (constant : Int64) : Option ℚ :=
  if (op = .gt ∨ op = .ge) ∧ constant ≥ 32 then some 0
  else if (op = .lt ∨ op = .le) ∧ constant ≤ 0 then some 0
  else if op = .lt ∧ constant ≥ 32 then some 1
  else if op = .le ∧ constant ≥ 32 then some 1
  else none

/-- `estimate_selectivity`. -/
def estimateSelectivity (stats : TableStatistics) (field : Int64) (op : PredicateType)
    (constant : Int64) : ℚ :=
  if field < 0 ∨ field ≥ stats.numFields.toInt64 then 1
  else
    match shortcut op constant with
    | some selectivity => selectivity
    | none =>
      match stats.fieldHistograms[field.toInt.toNat]? with
      | some histogram => histogram.estimateSelectivity op constant.toInt
      | none => 0

/-- The field is one of the table. -/
def ValidField (stats : TableStatistics) (field : Int64) : Prop :=
  ¬ (field < 0 ∨ field ≥ stats.numFields.toInt64)

instance (stats : TableStatistics) (field : Int64) : Decidable (stats.ValidField field) :=
  inferInstanceAs (Decidable (¬ _))

end TableStatistics

/-! ## Buckets of width one -/

namespace IntHistogram

/-- The values that an estimate counts in buckets of width one: `GT` counts the constant as well. -/
def Counts (op : PredicateType) (constant x : Int) : Prop :=
  match op with
  | .eq => x = constant
  | .ne => x ≠ constant
  | .lt => x < constant
  | .le => x ≤ constant
  | .gt => constant ≤ x
  | .ge => constant ≤ x

instance (op : PredicateType) (constant : Int) : DecidablePred (Counts op constant) := fun x => by
  unfold Counts
  cases op <;> infer_instance

variable {h : IntHistogram} {values : List Int} {v : Int}

theorem addAll_width (h : IntHistogram) (values : List Int) :
    (h.addAll values).bucketWidth = h.bucketWidth := by
  induction values generalizing h with
  | nil => rfl
  | cons v values ih =>
    have here : (h.addValue v).bucketWidth = h.bucketWidth := by
      unfold addValue
      split <;> rfl
    exact (ih (h.addValue v)).trans here

section Unit

variable (built : Built h values) (unit : h.bucketWidth = 1)

include built unit

theorem Built.unit_ends (low : h.privateMinVal ≤ v) (high : v ≤ h.privateMaxVal) :
    h.bucketLeft v = v ∧ h.bucketRight v = v + 1 := by
  obtain ⟨_, left, below⟩ := built.bucket low high
  have isLeft : h.bucketLeft v = v := by omega
  refine ⟨isLeft, ?_⟩
  unfold bucketRight
  rw [isLeft, unit]
  dsimp only
  split <;> omega

theorem Built.unit_lt (nonempty : values ≠ []) (v : Int) :
    h.estimateSelectivity .lt v = fraction values (· < v) := by
  rcases lt_or_ge v h.privateMinVal with below | low
  · rw [(built.estimate_below nonempty below).1, fraction, List.countP_eq_zero.mpr]
    · simp
    · intro x member less
      have inside := built.inside x member
      have reaches := of_decide_eq_true less
      omega
  · rcases lt_or_ge h.privateMaxVal v with above | high
    · rw [(built.estimate_above nonempty low above).1]
      exact (fraction_eq_one nonempty fun x member => (built.inside x member).2.trans_lt above).symm
    · obtain ⟨_, _, _, lt, _⟩ := estimate_inside (built.totalValues_ne nonempty) low high
      rw [lt, built.sharesBelow_eq low high, (built.unit_ends unit low high).1, Int.sub_self,
        partOfBucket_eq]
      simp

theorem Built.unit_eq (nonempty : values ≠ []) (v : Int) :
    h.estimateSelectivity .eq v = fraction values (· = v) := by
  have counted := built.totalValues_ne nonempty
  by_cases inside : h.privateMinVal ≤ v ∧ v ≤ h.privateMaxVal
  · obtain ⟨low, high⟩ := inside
    obtain ⟨isLeft, isRight⟩ := built.unit_ends unit low high
    rw [(estimate_inside counted low high).1, estimateEqual_eq, unit, Int.cast_one, div_one,
      built.height_eq low high, built.total, isLeft, isRight]
    exact fraction_congr fun x _ => by omega
  · have none : fraction values (· = v) = 0 := by
      rw [fraction, List.countP_eq_zero.mpr]
      · simp
      · intro x member same
        rw [of_decide_eq_true same] at member
        exact inside (built.inside v member)
    rw [none]
    rcases lt_or_ge v h.privateMinVal with below | low
    · simp [estimateSelectivity, counted, below]
    · have above : h.privateMaxVal < v := by omega
      simp [estimateSelectivity, counted, above, Int.not_lt.mpr low]

/-- In buckets of width one the estimates count values. -/
theorem Built.unit_estimate (op : PredicateType) (v : Int) :
    h.estimateSelectivity op v = fraction values (Counts op v) := by
  by_cases empty : values = []
  · have zero : h.totalValues = 0 := by rw [built.total, empty]; rfl
    have none : h.estimateSelectivity op v = 0 := if_pos zero
    rw [none, empty, fraction]
    simp
  have lt := built.unit_lt unit empty
  have rest : ∀ P Q : Int → Prop, [DecidablePred P] → [DecidablePred Q] →
      (∀ x, ¬ P x ↔ Q x) → 1 - fraction values P = fraction values Q := by
    intro P Q _ _ other
    have all : fraction values P + fraction values Q = fraction values fun _ => True :=
      fraction_add (fun x _ => iff_of_true trivial ((em (P x)).imp_right (other x).mp))
        fun x _ both => (other x).mpr both.2 both.1
    rw [fraction_eq_one empty fun _ _ => trivial] at all
    linarith
  cases op with
  | eq => exact built.unit_eq unit empty v
  | ne =>
    rw [built.ne_eq empty, built.unit_eq unit empty]
    exact rest _ _ fun x => Iff.rfl
  | lt => exact lt v
  | le =>
    rw [built.le_eq empty, lt]
    exact fraction_congr fun x _ => Int.lt_add_one_iff
  | gt =>
    rw [built.gt_eq empty, lt]
    exact rest _ _ fun x => Int.not_lt
  | ge =>
    rw [built.ge_eq empty, built.gt_eq empty, lt]
    exact rest _ _ fun x => Int.not_lt

end Unit

end IntHistogram

namespace TableStatistics

open IntHistogram

variable {ioCostPerPage : Int64} {numPages numFields : UInt64} {field constant : Int64}
  {op : PredicateType}

@[simp] theorem length_rows (n : UInt64) : (rows n).length = n.toNat := by
  rw [rows, List.length_map, List.length_range]

theorem rows_between {n : UInt64} {x : Int} (member : x ∈ rows n) : 0 ≤ x ∧ x ≤ 32 := by
  obtain ⟨j, _, rfl⟩ := List.mem_map.mp member
  omega

/-- The histogram of each field. -/
theorem built_rows (n : UInt64) :
    Built ((IntHistogram.new 100 0 32).addAll (rows n)) (rows n) ∧
      ((IntHistogram.new 100 0 32).addAll (rows n)).bucketWidth = 1 := by
  have built : Built ((IntHistogram.new 100 0 32).addAll (rows n))
      ((rows n).filter fun v => 0 ≤ v ∧ v ≤ 32) := built_new (by decide) (by decide) (rows n)
  rw [List.filter_eq_self.mpr fun v member => decide_eq_true (rows_between member)] at built
  exact ⟨built, addAll_width _ _⟩

/-- Behind the shortcuts the estimate counts rows. -/
theorem estimateSelectivity_eq (valid : (new ioCostPerPage numPages numFields).ValidField field)
    (op : PredicateType) (constant : Int64) :
    (new ioCostPerPage numPages numFields).estimateSelectivity field op constant =
      (shortcut op constant).getD
        (fraction (rows (numPages * 510)) (Counts op constant.toInt)) := by
  rw [TableStatistics.estimateSelectivity, if_neg valid]
  split
  · rename_i selectivity taken
    rw [taken, Option.getD_some]
  · rename_i open'
    rw [ValidField, not_or, Int64.not_lt, ge_iff_le, Int64.not_le] at valid
    obtain ⟨nonneg, less⟩ := valid
    have index : field.toInt.toNat < numFields.toNat := by
      have low := Int64.le_iff_toInt_le.mp nonneg
      have high : field.toInt < numFields.toInt64.toInt := Int64.lt_iff_toInt_lt.mp less
      have zero : (0 : Int64).toInt = 0 := rfl
      have cast : numFields.toInt64.toInt = (numFields.toNat : Int).bmod (2 ^ 64) := by
        rw [← Int64.toInt_toBitVec, UInt64.toBitVec_toInt64, BitVec.toInt_eq_toNat_bmod,
          UInt64.toNat_toBitVec]
      have bound := numFields.toNat_lt
      rw [cast, Int.bmod_def] at high
      split at high <;> omega
    have there : (new ioCostPerPage numPages numFields).fieldHistograms[field.toInt.toNat]? =
        some ((IntHistogram.new 100 0 32).addAll (rows (numPages * 510))) := by
      change ((List.range numFields.toNat).map _)[field.toInt.toNat]? = _
      rw [List.getElem?_map, List.getElem?_range index, Option.map_some]
    obtain ⟨built, unit⟩ := built_rows (numPages * 510)
    rw [there, open', Option.getD_none]
    exact built.unit_estimate unit op constant.toInt

/-! ## Cardinalities -/

section Cardinality

variable (stats : TableStatistics) (field : Int64) (op : PredicateType) (constant : Int64)

/-- The estimated cardinality is within the table and is its tuples times the selectivity, rounded
down. -/
def WithinTable : Prop :=
  let selectivity := stats.estimateSelectivity field op constant
  estimateTableCardinality selectivity ≤ stats.numTuples ∧
    ((estimateTableCardinality selectivity).toNat : Int) = ⌊(stats.numTuples.toNat : ℚ) * selectivity⌋

/-- Every tuple is selected: there is no such field, or the constant is behind the range. -/
def SelectsAll : Prop :=
  ¬ stats.ValidField field ∨ (op = .lt ∨ op = .le) ∧ constant ≥ 32

/-- No tuple is selected. -/
def SelectsNone : Prop :=
  (op = .gt ∨ op = .ge) ∧ constant ≥ 32 ∨ (op = .lt ∨ op = .le) ∧ constant ≤ 0 ∨
    ∀ x ∈ rows stats.numTuples, ¬ Counts op constant.toInt x

instance : Decidable (stats.WithinTable field op constant) := inferInstanceAs (Decidable (_ ∧ _))

end Cardinality

theorem estimateTableCardinality_toNat {s : ℚ} (nonneg : 0 ≤ s) (le : s ≤ 1) :
    ((estimateTableCardinality s).toNat : Int) = ⌊10200 * s⌋ := by
  have scaled : (10200 : ℚ) * s ≤ 10200 := by linarith
  have low : 0 ≤ ⌊10200 * s⌋ := Int.floor_nonneg.mpr (by positivity)
  have high : ⌊10200 * s⌋ ≤ 10200 :=
    Int.cast_le (R := ℚ) |>.mp ((Int.floor_le _).trans (by exact_mod_cast scaled))
  have literal : Double.mul (Double.literal 10200 0) s = 10200 * s := by
    simp [Double.mul, Double.literal]
  unfold estimateTableCardinality
  rw [literal]
  change ((UInt64.ofNat ⌊10200 * s⌋.toNat).toNat : Int) = _
  rw [UInt64.toNat_ofNat_of_lt' (show ⌊10200 * s⌋.toNat < 2 ^ 64 by omega), Int.toNat_of_nonneg low]

/-- The estimate is within the table exactly if it is rounded to the table's own cardinality. -/
theorem withinTable_floor {stats : TableStatistics}
    (nonneg : 0 ≤ stats.estimateSelectivity field op constant)
    (le : stats.estimateSelectivity field op constant ≤ 1) :
    stats.WithinTable field op constant ↔
      ⌊10200 * stats.estimateSelectivity field op constant⌋ =
        ⌊(stats.numTuples.toNat : ℚ) * stats.estimateSelectivity field op constant⌋ := by
  have estimate := estimateTableCardinality_toNat nonneg le
  unfold WithinTable
  dsimp only
  rw [estimate, and_iff_right_iff_imp, UInt64.le_iff_toNat_le]
  intro same
  have within : (stats.numTuples.toNat : ℚ) * stats.estimateSelectivity field op constant ≤
      stats.numTuples.toNat := mul_le_of_le_one_right (Nat.cast_nonneg _) le
  have floor := Int.floor_le_floor within
  rw [Int.floor_natCast] at floor
  omega

/-- With `k` of `n` tuples selected. -/
theorem floor_scaled_iff {k n : Nat} (counted : n ≠ 0) :
    ⌊10200 * ((k : ℚ) / n)⌋ = ⌊(n : ℚ) * (k / n)⌋ ↔
      n = 10200 ∨ k = 0 ∨ n < 10200 ∧ k * (10200 - n) < n := by
  have nonzero : (0 : ℚ) < n := Nat.cast_pos.mpr (Nat.pos_of_ne_zero counted)
  rw [mul_div_cancel₀ _ nonzero.ne', Int.floor_natCast, Int.floor_eq_iff, ← mul_div_assoc,
    le_div_iff₀ nonzero, div_lt_iff₀ nonzero]
  have whole : ((k : Int) : ℚ) * n ≤ 10200 * k ∧ 10200 * (k : ℚ) < ((k : Int) + 1) * n ↔
      k * n ≤ 10200 * k ∧ 10200 * k < (k + 1) * n := by
    push_cast
    exact and_congr (by exact_mod_cast Iff.rfl) (by exact_mod_cast Iff.rfl)
  rw [whole]
  rcases Nat.eq_zero_or_pos k with rfl | positive
  · simp [Nat.pos_of_ne_zero counted]
  · rw [Nat.mul_comm 10200 k, Nat.mul_le_mul_left_iff positive, Nat.add_mul, Nat.one_mul]
    constructor
    · intro ⟨le, lt⟩
      rcases Nat.lt_or_eq_of_le le with less | same
      · refine Or.inr (Or.inr ⟨less, ?_⟩)
        rw [Nat.mul_sub]
        omega
      · exact Or.inl same
    · intro cases
      rcases cases with rfl | none | ⟨less, lt⟩
      · exact ⟨le_rfl, by omega⟩
      · omega
      · rw [Nat.mul_sub] at lt
        exact ⟨less.le, by omega⟩

/-- The shortcuts by their values. -/
theorem shortcut_eq (op : PredicateType) (constant : Int64) : shortcut op constant =
    if (op = .gt ∨ op = .ge) ∧ constant ≥ 32 ∨ (op = .lt ∨ op = .le) ∧ constant ≤ 0 then some 0
    else if (op = .lt ∨ op = .le) ∧ constant ≥ 32 then some 1
    else none := by
  unfold shortcut
  by_cases above : (op = .gt ∨ op = .ge) ∧ constant ≥ 32
  · rw [if_pos above, if_pos (Or.inl above)]
  by_cases below : (op = .lt ∨ op = .le) ∧ constant ≤ 0
  · rw [if_neg above, if_pos below, if_pos (Or.inr below)]
  rw [if_neg above, if_neg below, if_neg (not_or.mpr ⟨above, below⟩)]
  by_cases lt : op = .lt ∧ constant ≥ 32
  · rw [if_pos lt, if_pos ⟨Or.inl lt.1, lt.2⟩]
  · rw [if_neg lt]
    exact if_congr (by rw [or_and_right, or_iff_right lt]) rfl rfl

/-- An estimate of all tuples is within the table if it has the 10200 tuples of the constant. -/
theorem withinTable_of_one {ioCostPerPage : Int64} {numPages numFields : UInt64} {field : Int64}
    {op : PredicateType} {constant : Int64}
    (value : (new ioCostPerPage numPages numFields).estimateSelectivity field op constant = 1) :
    (new ioCostPerPage numPages numFields).WithinTable field op constant ↔
      (numPages * 510).toNat = 10200 := by
  have tuples : (new ioCostPerPage numPages numFields).numTuples = numPages * 510 := rfl
  rw [withinTable_floor (by rw [value]; exact zero_le_one) (by rw [value]), value, tuples, mul_one,
    mul_one, Int.floor_natCast, Int.floor_ofNat]
  omega

/-- The estimate is within the table if it has the 10200 tuples of the constant, or the predicate
selects nothing; a smaller table may also hide the error by rounding. -/
theorem withinTable_iff (ioCostPerPage : Int64) (numPages numFields : UInt64) (field : Int64)
    (op : PredicateType) (constant : Int64) :
    (new ioCostPerPage numPages numFields).WithinTable field op constant ↔
      let stats := new ioCostPerPage numPages numFields
      let n := (numPages * 510).toNat
      let k := (rows stats.numTuples).countP fun x => Counts op constant.toInt x
      n = 10200 ∨ ¬ stats.SelectsAll field op constant ∧
        (stats.SelectsNone op constant ∨ n < 10200 ∧ k * (10200 - n) < n) := by
  have tuples : (new ioCostPerPage numPages numFields).numTuples = numPages * 510 := rfl
  by_cases valid : (new ioCostPerPage numPages numFields).ValidField field
  · have value := estimateSelectivity_eq valid op constant
    rw [shortcut_eq] at value
    by_cases none : (op = .gt ∨ op = .ge) ∧ constant ≥ 32 ∨ (op = .lt ∨ op = .le) ∧ constant ≤ 0
    · rw [if_pos none, Option.getD_some] at value
      have selectsNone : (new ioCostPerPage numPages numFields).SelectsNone op constant := by
        rcases none with above | below
        · exact Or.inl above
        · exact Or.inr (Or.inl below)
      have notAll : ¬ (new ioCostPerPage numPages numFields).SelectsAll field op constant := by
        intro all
        obtain ⟨less, above⟩ := all.resolve_left (not_not_intro valid)
        rcases none with ⟨greater, _⟩ | ⟨_, below⟩
        · rcases less with rfl | rfl <;> simp at greater
        · exact absurd (Int64.le_trans above below) (by decide)
      refine iff_of_true ?_ (Or.inr ⟨notAll, Or.inl selectsNone⟩)
      rw [withinTable_floor (by rw [value]) (by rw [value]; exact zero_le_one), value]
      simp
    · rw [if_neg none] at value
      by_cases all : (op = .lt ∨ op = .le) ∧ constant ≥ 32
      · rw [if_pos all, Option.getD_some] at value
        exact (withinTable_of_one value).trans (or_iff_left fun other => other.1 (Or.inr all)).symm
      · rw [if_neg all, Option.getD_none] at value
        have notAll : ¬ (new ioCostPerPage numPages numFields).SelectsAll field op constant :=
          not_or.mpr ⟨not_not_intro valid, all⟩
        have noRow : (new ioCostPerPage numPages numFields).SelectsNone op constant ↔
            (rows (numPages * 510)).countP (fun x => Counts op constant.toInt x) = 0 := by
          rw [SelectsNone, ← or_assoc, or_iff_right none, List.countP_eq_zero, tuples]
          simp only [decide_eq_true_eq]
        dsimp only
        rw [withinTable_floor (by rw [value]; exact fraction_nonneg _ _)
          (by rw [value]; exact fraction_le_one _ _), value, noRow, tuples, fraction, length_rows,
          and_iff_right notAll]
        by_cases empty : (numPages * 510).toNat = 0
        · have noRows : rows (numPages * 510) = [] := by rw [rows, empty]; rfl
          rw [noRows, empty]
          simp
        · exact floor_scaled_iff empty
  · have value : (new ioCostPerPage numPages numFields).estimateSelectivity field op constant = 1 :=
      if_pos (not_not.mp valid)
    exact (withinTable_of_one value).trans (or_iff_left fun other => other.1 (Or.inl valid)).symm

/-- One page has 510 tuples, and every value is less than 40: the estimate is 10200. -/
theorem not_withinTable_onePage : ¬ (new 100 1 1).WithinTable 0 .lt 40 := by
  intro within
  have value : (new 100 1 1).estimateSelectivity 0 .lt 40 = 1 := rfl
  have estimate := estimateTableCardinality_toNat (s := 1) zero_le_one le_rfl
  have le := UInt64.le_iff_toNat_le.mp within.1
  rw [value] at le
  rw [mul_one, Int.floor_ofNat] at estimate
  have tuples : (new 100 1 1).numTuples.toNat = 510 := rfl
  omega

/-! ## Shortcuts -/

/-- `x op constant`. -/
def Satisfies (op : PredicateType) (constant x : Int) : Prop :=
  match op with
  | .eq => x = constant
  | .ne => x ≠ constant
  | .lt => x < constant
  | .le => x ≤ constant
  | .gt => x > constant
  | .ge => x ≥ constant

instance (op : PredicateType) (constant : Int) : DecidablePred (Satisfies op constant) := fun x => by
  unfold Satisfies
  cases op <;> infer_instance

/-- A value that the shortcuts return is the fraction of the rows that satisfy the predicate. -/
def ShortcutExact (stats : TableStatistics) (field : Int64) (op : PredicateType)
    (constant : Int64) : Prop :=
  (shortcut op constant).isSome → stats.estimateSelectivity field op constant =
    fraction (rows stats.numTuples) (Satisfies op constant.toInt)

theorem mem_rows {n : UInt64} {x : Int} (low : 0 ≤ x) (high : x ≤ 32) : x ∈ rows n ↔ x < n.toNat := by
  rw [rows, List.mem_map]
  constructor
  · intro ⟨j, member, eq⟩
    have less := List.mem_range.mp member
    omega
  · intro less
    exact ⟨x.toNat, List.mem_range.mpr (by omega), by omega⟩

theorem fraction_eq_zero_iff {values : List Int} {P : Int → Prop} [DecidablePred P] :
    fraction values P = 0 ↔ ∀ x ∈ values, ¬ P x := by
  rw [fraction, div_eq_zero_iff, Nat.cast_eq_zero, Nat.cast_eq_zero, List.countP_eq_zero]
  simp only [decide_eq_true_eq]
  exact or_iff_left_of_imp fun empty x member => by
    rw [List.length_eq_zero_iff.mp empty] at member
    cases member

theorem fraction_eq_one_iff {values : List Int} {P : Int → Prop} [DecidablePred P] :
    fraction values P = 1 ↔ values ≠ [] ∧ ∀ x ∈ values, P x := by
  constructor
  · intro one
    have nonempty : values ≠ [] := by
      intro empty
      rw [fraction, empty] at one
      simp at one
    refine ⟨nonempty, ?_⟩
    have nonzero : (values.length : ℚ) ≠ 0 :=
      Nat.cast_ne_zero.mpr (mt List.length_eq_zero_iff.mp nonempty)
    rw [fraction, div_eq_one_iff_eq nonzero, Nat.cast_inj, List.countP_eq_length] at one
    exact fun x member => of_decide_eq_true (one x member)
  · rintro ⟨nonempty, all⟩
    exact fraction_eq_one nonempty all

theorem rows_lt_iff {n : UInt64} {c : Int} (high : 32 ≤ c) :
    (∀ x ∈ rows n, x < c) ↔ (c = 32 → n.toNat ≤ 32) := by
  constructor
  · intro less last
    by_contra many
    have there := (mem_rows (n := n) (x := 32) (by decide) le_rfl).mpr (by omega)
    have := less 32 there
    omega
  · intro few x member
    have between := rows_between member
    have index := (mem_rows between.1 between.2).mp member
    omega

theorem rows_not_le_iff {n : UInt64} {c : Int} (low : c ≤ 0) :
    (∀ x ∈ rows n, ¬ x ≤ c) ↔ (c = 0 → n.toNat = 0) := by
  constructor
  · intro greater first
    by_contra some
    have there := (mem_rows (n := n) (x := 0) le_rfl (by decide)).mpr (by omega)
    have := greater 0 there
    omega
  · intro none x member
    have between := rows_between member
    have index := (mem_rows between.1 between.2).mp member
    omega

theorem rows_ne_nil {n : UInt64} : rows n ≠ [] ↔ n.toNat ≠ 0 := by
  rw [← length_rows n, ne_eq, ne_eq, List.length_eq_zero_iff]

/-- No value of a row is behind the range. -/
theorem rows_not_gt {n : UInt64} {c : Int} (above : 32 ≤ c) : ∀ x ∈ rows n, ¬ Satisfies .gt c x := by
  intro x member greater
  have between := rows_between member
  unfold Satisfies at greater
  omega

/-- No value of a row is before it. -/
theorem rows_not_lt {n : UInt64} {c : Int} (below : c ≤ 0) : ∀ x ∈ rows n, ¬ Satisfies .lt c x := by
  intro x member less
  have between := rows_between member
  unfold Satisfies at less
  omega

/-- Where the shortcuts are wrong: `GE` and `LT` at the last value of the range, `LE` at the first. -/
theorem shortcutExact_iff {ioCostPerPage : Int64} {numPages numFields : UInt64} {field : Int64}
    (valid : (new ioCostPerPage numPages numFields).ValidField field) (op : PredicateType)
    (constant : Int64) :
    (new ioCostPerPage numPages numFields).ShortcutExact field op constant ↔
      let n := (numPages * 510).toNat
      (op = .ge ∧ constant = 32 → n ≤ 32) ∧
        (op = .le ∧ constant = 0 → n = 0) ∧
        (op = .lt ∧ constant ≥ 32 → n ≠ 0 ∧ (constant = 32 → n ≤ 32)) ∧
        (op = .le ∧ constant ≥ 32 → n ≠ 0) := by
  have tuples : (new ioCostPerPage numPages numFields).numTuples = numPages * 510 := rfl
  have last : constant ≥ 32 ↔ 32 ≤ constant.toInt := Int64.le_iff_toInt_le
  have first : constant ≤ 0 ↔ constant.toInt ≤ 0 := Int64.le_iff_toInt_le
  have isLast : constant = 32 ↔ constant.toInt = 32 := Int64.toInt_inj.symm
  have isFirst : constant = 0 ↔ constant.toInt = 0 := Int64.toInt_inj.symm
  have value := estimateSelectivity_eq valid op constant
  unfold ShortcutExact
  rw [value, tuples, shortcut_eq]
  simp only [last, first, isLast, isFirst]
  clear value tuples valid last first isLast isFirst
  generalize constant.toInt = c
  generalize numPages * 510 = n
  have zero : ∀ op, 0 = fraction (rows n) (Satisfies op c) ↔ ∀ x ∈ rows n, ¬ Satisfies op c x :=
    fun op => eq_comm.trans fraction_eq_zero_iff
  have one : ∀ op, 1 = fraction (rows n) (Satisfies op c) ↔
      n.toNat ≠ 0 ∧ ∀ x ∈ rows n, Satisfies op c x :=
    fun op => eq_comm.trans (fraction_eq_one_iff.trans (and_congr_left' rows_ne_nil))
  cases op with
  | eq => simp
  | ne => simp
  | gt =>
    by_cases above : 32 ≤ c
    · simp [above, (zero .gt).mpr (rows_not_gt above)]
    · simp [above]
  | ge =>
    by_cases above : 32 ≤ c
    · have noRow : (∀ x ∈ rows n, ¬ Satisfies .ge c x) ↔ (c = 32 → n.toNat ≤ 32) := by
        rw [← rows_lt_iff above]
        exact forall₂_congr fun x _ => Int.not_le
      simp [above, zero, noRow]
    · have notLast : c ≠ 32 := by omega
      simp [above, notLast]
  | lt =>
    by_cases below : c ≤ 0
    · have notAbove : ¬ 32 ≤ c := by omega
      simp [below, notAbove, (zero .lt).mpr (rows_not_lt below)]
    · by_cases above : 32 ≤ c
      · have allRows : (∀ x ∈ rows n, Satisfies .lt c x) ↔ (c = 32 → n.toNat ≤ 32) := rows_lt_iff above
        simp [below, above, one, allRows]
      · simp [below, above]
  | le =>
    by_cases below : c ≤ 0
    · have notAbove : ¬ 32 ≤ c := by omega
      have noRow : (∀ x ∈ rows n, ¬ Satisfies .le c x) ↔ (c = 0 → n.toNat = 0) :=
        rows_not_le_iff below
      simp [below, notAbove, zero, noRow]
    · have notFirst : c ≠ 0 := by omega
      by_cases above : 32 ≤ c
      · have allRows : (∀ x ∈ rows n, Satisfies .le c x) ↔ True :=
          iff_true_intro fun x member => (rows_between member).2.trans above
        simp [below, above, notFirst, one, allRows]
      · simp [below, above, notFirst]

/-- Three pages: `LE` is exact at the end of the range and `LT` behind it, `GE` is not at the end. -/
theorem shortcutExact_iff_threePages :
    (new 100 3 2).ShortcutExact 1 .le 32 ∧ (new 100 3 2).ShortcutExact 1 .lt 33 ∧
      ¬ (new 100 3 2).ShortcutExact 1 .ge 32 := by
  refine ⟨(shortcutExact_iff (by decide) .le 32).mpr (by decide),
    (shortcutExact_iff (by decide) .lt 33).mpr (by decide), fun exact => ?_⟩
  exact absurd ((shortcutExact_iff (by decide) .ge 32).mp exact) (by decide)

/-- One page has the value zero in 16 of its 510 rows, and the estimate of `LE` zero is zero. -/
theorem not_shortcutExact_le : ¬ (new 100 1 1).ShortcutExact 0 .le 0 := by
  intro exact
  have value : (new 100 1 1).estimateSelectivity 0 .le 0 = 0 := rfl
  have zero := exact rfl
  rw [value, eq_comm, fraction_eq_zero_iff] at zero
  have there : (0 : Int) ∈ rows 510 := (mem_rows le_rfl (by decide)).mpr (by decide)
  exact zero 0 there le_rfl

end TableStatistics

end BuzzDB.Optimizer
