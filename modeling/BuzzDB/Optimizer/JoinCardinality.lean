import BuzzDB.Lib.Binary64
import BuzzDB.Optimizer.OrderJoins
import Mathlib.Data.Nat.Prime.Basic

/-!
# Cardinalities of joins

`estimate_join_cardinality` in both orientations of a join, over the doubles of the machine.  The factor
`0.3` of a join that is no equality is a double just below three tenths.  Where three tenths of the
product of the cardinalities is an integer, the computed product may stay below it, and then
the estimate is one less; this depends on which cardinality comes first.
-/

namespace BuzzDB.Optimizer

instance : Double Float.Model where
  lt x y := x.lt y
  add x y := x.add y
  mul x y := x.mul y
  literal m k := Float.Model.ofScientific m (-k)
  ofUInt64 := Float.Model.ofUInt64
  toUInt64 := Float.Model.toUInt64
  toInt32 := Float.Model.toInt32
  dblMax := .ofBits 0x7FEFFFFFFFFFFFFF

/-! ## Three tenths -/

/-- The literal `0.3`, in units of `2 ^ -54`. -/
def threeTenths : Nat := 5404319552844595

/-- `0.3 * c * d`, in units of `2 ^ -54`. -/
def product (c d : Nat) : Nat := Rounding.round 53 (Rounding.round 53 (threeTenths * c) * d)

/-- Three tenths of `c * d` is at most half a spacing above `d` times the double for three tenths of `c`. -/
def Near (c d : Nat) : Prop :=
  2 * (3 * (c * d) / 10 * 2 ^ 54 - Rounding.round 53 (threeTenths * c) * d) ≤
    Rounding.spacing 53 (Rounding.round 53 (threeTenths * c) * d)

instance (c d : Nat) : Decidable (Near c d) := inferInstanceAs (Decidable (_ ≤ _))

variable {c d : Nat}

theorem spacing_le {n k : Nat} (low : 2 ^ 52 ≤ n) (high : n ≤ 2 ^ 52 * k) : Rounding.spacing 53 n ≤ k := by
  have positive : n ≠ 0 := by omega
  have below := Rounding.spacing_mul_le ((Nat.le_log2 positive).mpr low) positive
  exact Nat.le_of_mul_le_mul_left (by rw [Nat.mul_comm]; exact below.trans high) (Nat.two_pow_pos 52)

/-- The double for three tenths of `c`, before it is multiplied. -/
theorem threeTenths_error (pos : 0 < c) :
    10 * Rounding.round 53 (threeTenths * c) ≤ 3 * 2 ^ 54 * c + 8 * c ∧
      3 * 2 ^ 54 * c ≤ 10 * Rounding.round 53 (threeTenths * c) + 12 * c := by
  have close : Rounding.spacing 53 (threeTenths * c) ≤ 2 * c := by
    unfold threeTenths
    exact spacing_le (by omega) (by omega)
  have error := Rounding.round_error 53 (threeTenths * c)
  unfold threeTenths at *
  omega

theorem factor_le (c : Nat) : Rounding.round 53 (threeTenths * c) ≤ 2 ^ 54 * c := by
  rcases Nat.eq_zero_or_pos c with rfl | pos
  · simp
  · have above := (threeTenths_error pos).1
    omega

/-- The computed product is three tenths up to a few units of `c * d`. -/
theorem product_error (pos : 0 < c) (pos' : 0 < d) :
    10 * product c d ≤ 3 * 2 ^ 54 * (c * d) + 18 * (c * d) ∧
      3 * 2 ^ 54 * (c * d) ≤ 10 * product c d + 22 * (c * d) := by
  obtain ⟨above, below⟩ := threeTenths_error pos
  obtain ⟨factor, isFactor⟩ : ∃ factor, factor = Rounding.round 53 (threeTenths * c) := ⟨_, rfl⟩
  rw [product, ← isFactor]
  rw [← isFactor] at above below
  have error := Rounding.round_error 53 (factor * d)
  have above' : 10 * (factor * d) ≤ 3 * 2 ^ 54 * (c * d) + 8 * (c * d) := by
    calc 10 * (factor * d) = 10 * factor * d := by ring
      _ ≤ (3 * 2 ^ 54 * c + 8 * c) * d := Nat.mul_le_mul_right d above
      _ = 3 * 2 ^ 54 * (c * d) + 8 * (c * d) := by ring
  have below' : 3 * 2 ^ 54 * (c * d) ≤ 10 * (factor * d) + 12 * (c * d) := by
    calc 3 * 2 ^ 54 * (c * d) = 3 * 2 ^ 54 * c * d := by ring
      _ ≤ (10 * factor + 12 * c) * d := Nat.mul_le_mul_right d below
      _ = 10 * (factor * d) + 12 * (c * d) := by ring
  have positive : 0 < c * d := Nat.mul_pos pos pos'
  have close : Rounding.spacing 53 (factor * d) ≤ 2 * (c * d) := spacing_le (by omega) (by omega)
  omega

/-- Numbers of this size are multiples of the spacing, if they are integers. -/
theorem spacing_dvd {n z : Nat} (small : n < 2 ^ 86) : 2 * Rounding.spacing 53 n ∣ z * 2 ^ 54 := by
  have power : n.log2 + 1 - 53 ≤ 53 := by
    rcases Nat.eq_zero_or_pos n with rfl | pos
    · decide
    · have bits := (Nat.log2_lt pos.ne').mpr small
      omega
  have divides : 2 * Rounding.spacing 53 n ∣ 2 ^ 54 := by
    rw [Rounding.spacing, ← Nat.pow_succ']
    exact Nat.pow_dvd_pow 2 (by omega)
  exact divides.mul_left z

/-- The product reaches the integer exactly if three tenths is near enough. -/
theorem le_product_iff (small : c * d < 2 ^ 31) :
    3 * (c * d) / 10 * 2 ^ 54 ≤ product c d ↔ Near c d := by
  have bound : Rounding.round 53 (threeTenths * c) * d < 2 ^ 86 := by
    calc Rounding.round 53 (threeTenths * c) * d ≤ 2 ^ 54 * c * d := Nat.mul_le_mul_right d (factor_le c)
      _ = 2 ^ 54 * (c * d) := Nat.mul_assoc _ _ _
      _ < 2 ^ 86 := by omega
  have divides := spacing_dvd (z := 3 * (c * d) / 10) bound
  unfold product Near
  rcases Nat.lt_or_ge (Rounding.round 53 (threeTenths * c) * d) (3 * (c * d) / 10 * 2 ^ 54) with below | above
  · exact Rounding.le_round_iff divides below
  · refine iff_of_true (Rounding.le_round (dvd_of_mul_left_dvd divides) above) ?_
    rw [Nat.sub_eq_zero_of_le above]
    exact Nat.zero_le _

/-- What is left of the product behind the conversion to `int`. -/
theorem product_div (small : c * d < 2 ^ 31) :
    product c d / 2 ^ 54 =
      if 10 ∣ c * d ∧ ¬ Near c d then 3 * (c * d) / 10 - 1 else 3 * (c * d) / 10 := by
  rcases Nat.eq_zero_or_pos c with rfl | pos
  · simp [product]
  rcases Nat.eq_zero_or_pos d with rfl | pos'
  · simp [product]
  have error := product_error pos pos'
  have reaches := le_product_iff small
  by_cases ten : 10 ∣ c * d
  · by_cases near : Near c d
    · have reached := reaches.mpr near
      rw [if_neg fun short => short.2 near]
      omega
    · have short := mt reaches.mp near
      rw [if_pos ⟨ten, near⟩]
      omega
  · have between : 3 * (c * d) / 10 * 10 < 3 * (c * d) := by omega
    rw [if_neg fun short => ten short.1]
    omega

theorem near_of_eq_zero (none : c * d = 0) : Near c d := by
  rw [Near, none]
  simp

/-- Three tenths of a multiple of five is a double. -/
theorem near_of_dvd (five : 5 ∣ c) (ten : 10 ∣ c * d) (small : c < 2 ^ 31) : Near c d := by
  rcases Nat.eq_zero_or_pos c with rfl | pos
  · exact near_of_eq_zero (Nat.zero_mul d)
  obtain ⟨fifth, rfl⟩ := five
  have isLess : threeTenths * (5 * fifth) + fifth = 3 * fifth * 2 ^ 53 := by
    unfold threeTenths
    omega
  obtain ⟨n, isN⟩ : ∃ n, n = threeTenths * (5 * fifth) := ⟨_, rfl⟩
  rw [← isN] at isLess
  have bits : n.log2 ≤ 84 := by
    have below : n.log2 < 85 := (Nat.log2_lt (by omega)).mpr (by omega)
    omega
  have divides : 2 * Rounding.spacing 53 n ∣ 3 * fifth * 2 ^ 53 := by
    rw [Rounding.spacing, ← Nat.pow_succ']
    exact (Nat.pow_dvd_pow 2 (by omega)).mul_left _
  have close : 2 * fifth ≤ Rounding.spacing 53 n := by
    have below := Rounding.lt_spacing_mul 53 n
    omega
  have exact : 3 * fifth * 2 ^ 53 ≤ Rounding.round 53 n := (Rounding.le_round_iff divides (by omega)).mpr (by omega)
  have integer : 3 * (5 * fifth * d) / 10 * 2 ^ 54 = 3 * fifth * 2 ^ 53 * d := by
    obtain ⟨tenth, isTenth⟩ := ten
    have half : fifth * d = 2 * tenth := by
      rw [Nat.mul_assoc] at isTenth
      omega
    have whole : 3 * (10 * tenth) / 10 = 3 * tenth := by omega
    calc 3 * (5 * fifth * d) / 10 * 2 ^ 54 = 3 * tenth * 2 ^ 54 := by rw [isTenth, whole]
      _ = 3 * (2 * tenth) * 2 ^ 53 := by ring
      _ = 3 * fifth * 2 ^ 53 * d := by rw [← half]; ring
  rw [Near, ← isN, integer, Nat.sub_eq_zero_of_le (Nat.mul_le_mul_right d exact)]
  exact Nat.zero_le _

/-- Among multiples of ten only near ones have an estimate that is exact. -/
theorem near_of_exact {rows : Nat} (isRows : rows = c * d) (ten : 10 ∣ rows)
    (exact : (if 10 ∣ rows ∧ ¬ Near c d then 3 * rows / 10 - 1 else 3 * rows / 10) = 3 * rows / 10) :
    Near c d := by
  by_contra far
  rw [if_pos ⟨ten, far⟩] at exact
  exact far (near_of_eq_zero (by omega))

/-! ## Estimates -/

theorem denotes_ofUInt64 {card : UInt64} (small : card.toNat < 2 ^ 31) :
    Binary64.Denotes (Float.Model.ofUInt64 card) card.toNat 0 := by
  have denotes := Binary64.denotes_ofUInt64 card
  rw [Rounding.round_of_lt (small.trans (by decide))] at denotes
  exact denotes

theorem denotes_threeTenths : Binary64.Denotes (Float.Model.ofScientific 3 (-1)) threeTenths 54 :=
  Or.inr ⟨threeTenths, -54, by decide, by rfl, by decide +kernel, 0, 0, rfl, rfl⟩

/-- The estimate for a join that is no equality. -/
theorem estimate_of_ne {j : LogicalJoinNode} (other : j.op ≠ .eq) (card1 card2 : UInt64)
    (t1pkey t2pkey : Bool) (small1 : card1.toNat < 2 ^ 31) (small2 : card2.toNat < 2 ^ 31)
    (small : card1.toNat * card2.toNat < 2 ^ 31) :
    (estimateJoinCardinality Float.Model j card1 card2 t1pkey t2pkey).toInt =
      (product card1.toNat card2.toNat / 2 ^ 54 : Nat) := by
  rw [estimateJoinCardinality, if_neg other]
  have bound : threeTenths * card1.toNat < 2 ^ 84 := by
    unfold threeTenths
    omega
  have isFactor := denotes_threeTenths.mul (denotes_ofUInt64 small1) (by omega) (by decide)
  have bound' : Rounding.round 53 (threeTenths * card1.toNat) * card2.toNat < 2 ^ 200 := by
    calc Rounding.round 53 (threeTenths * card1.toNat) * card2.toNat ≤ 2 ^ 54 * card1.toNat * card2.toNat :=
          Nat.mul_le_mul_right _ (factor_le card1.toNat)
      _ = 2 ^ 54 * (card1.toNat * card2.toNat) := Nat.mul_assoc _ _ _
      _ < 2 ^ 200 := by omega
  have isProduct := isFactor.mul (denotes_ofUInt64 small2) bound' (by decide)
  refine isProduct.toInt32 ?_
  have quotient := product_div small
  rw [product] at quotient
  change Rounding.round 53 (Rounding.round 53 (threeTenths * card1.toNat) * card2.toNat) / 2 ^ 54 < 2 ^ 31
  rw [quotient]
  split <;> omega

/-- The estimate respects the keys, lies between zero and the largest of the cardinalities and their
product, and is the same for the other orientation. -/
structure RespectsKeys (j : LogicalJoinNode) (card1 card2 : UInt64) (t1pkey t2pkey : Bool) : Prop where
  keys : j.op = .eq →
    (t1pkey → (estimateJoinCardinality Float.Model j card1 card2 t1pkey t2pkey).toInt ≤
      card2.toNat) ∧
    (t2pkey → (estimateJoinCardinality Float.Model j card1 card2 t1pkey t2pkey).toInt ≤ card1.toNat)
  nonneg : 0 ≤ (estimateJoinCardinality Float.Model j card1 card2 t1pkey t2pkey).toInt
  atMost : (estimateJoinCardinality Float.Model j card1 card2 t1pkey t2pkey).toInt ≤
    (max (max card1.toNat card2.toNat) (card1.toNat * card2.toNat) : Nat)
  swapped : estimateJoinCardinality Float.Model j card1 card2 t1pkey t2pkey =
    estimateJoinCardinality Float.Model j.swapInnerOuter card2 card1 t2pkey t1pkey

/-- The tables for which an equality join has estimates of its own. -/
def HardCoded (j : LogicalJoinNode) : Prop :=
  j.leftTable = "t1" ∧ j.rightTable = "t2" ∨ j.leftTable = "t2" ∧ j.rightTable = "t1"

instance (j : LogicalJoinNode) : Decidable (HardCoded j) := inferInstanceAs (Decidable (_ ∨ _))

variable {j : LogicalJoinNode} {card1 card2 : UInt64} {t1pkey t2pkey : Bool}

theorem toInt_card {card : UInt64} (small : card.toNat < 2 ^ 31) :
    card.toUInt32.toInt32.toInt = (card.toNat : Int) := by
  have word : card.toUInt32.toBitVec.toNat = card.toNat := by
    rw [UInt32.toNat_toBitVec, UInt64.toNat_toUInt32]
    exact Nat.mod_eq_of_lt (by omega)
  change card.toUInt32.toBitVec.toInt = _
  rw [BitVec.toInt_eq_toNat_of_lt (by omega), word]

/-- The estimate for an equality join of other tables. -/
theorem estimate_of_eq (equality : j.op = .eq) (other : ¬ HardCoded j)
    (small1 : card1.toNat < 2 ^ 31) (small2 : card2.toNat < 2 ^ 31) (t1pkey t2pkey : Bool) :
    (estimateJoinCardinality Float.Model j card1 card2 t1pkey t2pkey).toInt =
      (if t1pkey then if t2pkey then min card1.toNat card2.toNat else card2.toNat
        else if t2pkey then card1.toNat else max card1.toNat card2.toNat : Nat) := by
  obtain ⟨first, second⟩ := not_or.mp other
  rw [estimateJoinCardinality, if_pos equality, if_neg first, if_neg second]
  cases t1pkey <;> cases t2pkey
  · simp only [Bool.false_eq_true, false_and, and_false, if_false, not_false_eq_true]
    split
    · rename_i less
      rw [toInt_card small2, Nat.max_eq_right (UInt64.lt_iff_toNat_lt.mp less).le]
    · rename_i notLess
      have atMost := UInt64.le_iff_toNat_le.mp (UInt64.not_lt.mp notLess)
      rw [toInt_card small1, Nat.max_eq_left atMost]
  · simpa using toInt_card small1
  · simpa using toInt_card small2
  · simp only [not_true_eq_false, and_false, false_and, if_false, and_self, if_true]
    split
    · rename_i less
      rw [toInt_card small2, Nat.min_eq_right (UInt64.lt_iff_toNat_lt.mp less).le]
    · rename_i notLess
      have atMost := UInt64.le_iff_toNat_le.mp (UInt64.not_lt.mp notLess)
      rw [toInt_card small1, Nat.min_eq_left atMost]

theorem hardCoded_swap : HardCoded j.swapInnerOuter ↔ HardCoded j := by
  rw [HardCoded, HardCoded, or_comm]
  exact or_congr and_comm and_comm

/-- An equality join of other tables. -/
theorem respectsKeys_of_eq (equality : j.op = .eq) (other : ¬ HardCoded j)
    (small1 : card1.toNat < 2 ^ 31) (small2 : card2.toNat < 2 ^ 31) :
    RespectsKeys j card1 card2 t1pkey t2pkey := by
  have isEstimate := estimate_of_eq equality other small1 small2 t1pkey t2pkey
  have isSwapped := estimate_of_eq (j := j.swapInnerOuter) equality (mt hardCoded_swap.mp other) small2
    small1 t2pkey t1pkey
  refine ⟨fun _ => ⟨?_, ?_⟩, ?_, ?_, ?_⟩
  · intro key
    rw [isEstimate, if_pos key]
    split <;> omega
  · intro key
    rw [isEstimate, if_pos key]
    split <;> omega
  · rw [isEstimate]
    exact Int.natCast_nonneg _
  · rw [isEstimate]
    split <;> split <;> omega
  · apply Int32.toInt_inj.mp
    rw [isEstimate, isSwapped, Nat.min_comm, Nat.max_comm]
    cases t1pkey <;> cases t2pkey <;> rfl

/-- An equality join of the tables with estimates of their own is not the same for both
orientations. -/
theorem not_respectsKeys_of_hardCoded (equality : j.op = .eq) (hardCoded : HardCoded j) :
    ¬ RespectsKeys j card1 card2 t1pkey t2pkey := by
  intro respects
  have swapped := respects.swapped
  have equality' : j.swapInnerOuter.op = .eq := equality
  rw [estimateJoinCardinality, estimateJoinCardinality, if_pos equality, if_pos equality'] at swapped
  rcases hardCoded with ⟨left, right⟩ | ⟨left, right⟩
  · simp [LogicalJoinNode.swapInnerOuter, left, right] at swapped
  · simp [LogicalJoinNode.swapInnerOuter, left, right] at swapped

/-- A join that is no equality has one estimate for both orientations, exactly if three tenths of the
product of the cardinalities is no integer, or is near enough to what is computed in both. -/
theorem respectsKeys_iff_of_ne (other : j.op ≠ .eq) (small1 : card1.toNat < 2 ^ 31)
    (small2 : card2.toNat < 2 ^ 31) (small : card1.toNat * card2.toNat < 2 ^ 31) :
    RespectsKeys j card1 card2 t1pkey t2pkey ↔
      (10 ∣ card1.toNat * card2.toNat →
        Near card1.toNat card2.toNat ∧ Near card2.toNat card1.toNat) := by
  have small' : card2.toNat * card1.toNat < 2 ^ 31 := by rwa [Nat.mul_comm]
  have isEstimate := estimate_of_ne other card1 card2 t1pkey t2pkey small1 small2 small
  have isSwapped := estimate_of_ne (j := j.swapInnerOuter) other card2 card1 t2pkey t1pkey small2 small1
    small'
  rw [product_div small] at isEstimate
  rw [product_div small', Nat.mul_comm card2.toNat] at isSwapped
  obtain ⟨rows, isRows⟩ : ∃ rows, rows = card1.toNat * card2.toNat := ⟨_, rfl⟩
  rw [← isRows] at isEstimate isSwapped small ⊢
  constructor
  · intro respects ten
    have swapped := congrArg Int32.toInt respects.swapped
    rw [isEstimate, isSwapped] at swapped
    have same := Int.natCast_inj.mp swapped
    have five : 5 ∣ card1.toNat * card2.toNat := isRows ▸ (by decide : 5 ∣ 10).trans ten
    rcases Nat.prime_five.dvd_mul.mp five with five1 | five2
    · have near := near_of_dvd five1 (isRows ▸ ten) small1
      rw [if_neg fun short => short.2 near] at same
      exact ⟨near, near_of_exact (isRows.trans (Nat.mul_comm _ _)) ten same.symm⟩
    · have near := near_of_dvd five2 (Nat.mul_comm _ _ ▸ isRows ▸ ten) small2
      rw [if_neg (fun short => short.2 near : ¬ (10 ∣ rows ∧ ¬ Near card2.toNat card1.toNat))] at same
      exact ⟨near_of_exact isRows ten same, near⟩
  · intro near
    rw [if_neg fun short => short.2 (near short.1).1] at isEstimate
    rw [if_neg fun short => short.2 (near short.1).2] at isSwapped
    refine ⟨fun equality => absurd equality other, ?_, ?_, ?_⟩
    · rw [isEstimate]
      exact Int.natCast_nonneg _
    · rw [isEstimate, ← isRows]
      omega
    · exact Int32.toInt_inj.mp (isEstimate.trans isSwapped.symm)

/-- The estimate respects the keys and the orientation, exactly if the join is not an equality join
of the tables with estimates of their own, and is no other join where three tenths of the
product of the cardinalities is an integer that one of the computed products does not reach. -/
theorem respectsKeys_iff (j : LogicalJoinNode) (card1 card2 : UInt64) (t1pkey t2pkey : Bool)
    (small1 : card1.toNat < 2 ^ 31) (small2 : card2.toNat < 2 ^ 31)
    (small : card1.toNat * card2.toNat < 2 ^ 31) :
    RespectsKeys j card1 card2 t1pkey t2pkey ↔
      (j.op = .eq → ¬ HardCoded j) ∧
        (j.op ≠ .eq → 10 ∣ card1.toNat * card2.toNat →
          Near card1.toNat card2.toNat ∧ Near card2.toNat card1.toNat) := by
  by_cases equality : j.op = .eq
  · rw [imp_iff_right equality, and_iff_left fun other => absurd equality other]
    constructor
    · intro respects hardCoded
      exact not_respectsKeys_of_hardCoded equality hardCoded respects
    · intro other
      exact respectsKeys_of_eq equality other small1 small2
  · rw [respectsKeys_iff_of_ne equality small1 small2 small, imp_iff_right equality,
      and_iff_right fun same => absurd same equality]

/-- Tables that are compared, with twenty and thirty rows: three tenths of 600 is computed exactly in
both orientations.  With three and thirty rows one of them does not reach 27. -/
theorem respectsKeys_iff_less : RespectsKeys ⟨"a", "b", 0, 0, .lt⟩ 20 30 true false ∧
    ¬ RespectsKeys ⟨"a", "b", 0, 0, .lt⟩ 3 30 true false := by
  constructor
  · rw [respectsKeys_iff ⟨"a", "b", 0, 0, .lt⟩ 20 30 true false (by decide) (by decide) (by decide)]
    decide +kernel
  · rw [respectsKeys_iff ⟨"a", "b", 0, 0, .lt⟩ 3 30 true false (by decide) (by decide) (by decide)]
    decide +kernel

/-- A key of ten rows has 8160 estimated rows, and three times thirty rows has another estimate than
thirty times three. -/
theorem not_respectsKeys :
    ¬ RespectsKeys ⟨"t1", "t2", 1, 2, .eq⟩ 10 20 true false ∧
      ¬ RespectsKeys ⟨"a", "b", 1, 2, .lt⟩ 3 30 false false :=
  ⟨fun respects => absurd ((respects.keys rfl).1 rfl) (by decide),
    fun respects => absurd respects.swapped (by decide +kernel)⟩

end BuzzDB.Optimizer
