import BuzzDB.Lib.Rounding
import Mathlib

/-!
# Doubles that are not negative

The logical model of doubles, over numbers with a binary point: `Denotes x n s` says that the double `x` is
`n / 2 ^ s`.  The conversion from `uint64_t` and the product round to 53 significant bits, and the
conversion to `int` cuts off what is behind the point.
-/

namespace Binary64

open Float.Model Float.Model.UnpackedFloat

variable {m n k a b s t : Nat} {e : Int}

/-! ## Shifts -/

/-- The bits that a shift keeps and those it remembers; by induction on the shift. -/
theorem shiftRight_eq (m k : Nat) : ExtendedMantissa.ofMantissaAndAccuracy m .exact >>> k =
    ⟨m / 2 ^ k, decide (2 ^ k ≤ 2 * (m % 2 ^ k)), decide (2 * (m % 2 ^ k) % 2 ^ k ≠ 0)⟩ := by
  induction k with
  | zero =>
    have none : m % 1 = 0 := Nat.mod_one m
    change ExtendedMantissa.mk m false false = _
    simp [none]
  | succ k ih =>
    have shifted : ExtendedMantissa.ofMantissaAndAccuracy m .exact >>> (k + 1) =
        (ExtendedMantissa.ofMantissaAndAccuracy m .exact >>> k).shiftRightOne := rfl
    have power : 2 ^ (k + 1) = 2 ^ k * 2 := Nat.pow_succ 2 k
    have rest : m % 2 ^ (k + 1) = m % 2 ^ k + 2 ^ k * (m / 2 ^ k % 2) := by
      rw [power, Nat.mod_mul]
    have small := Nat.mod_lt m (Nat.two_pow_pos k)
    have bit := Nat.mod_two_eq_zero_or_one (m / 2 ^ k)
    have twice : 2 * (m % 2 ^ k) % 2 ^ (k + 1) = 2 * (m % 2 ^ k) := Nat.mod_eq_of_lt (by omega)
    have sticky : 2 * (m % 2 ^ (k + 1)) % 2 ^ (k + 1) = 2 * (m % 2 ^ k) := by
      have parts : 2 * (m % 2 ^ (k + 1)) = 2 * (m % 2 ^ k) + 2 ^ (k + 1) * (m / 2 ^ k % 2) := by
        rw [rest, power]
        ring
      rw [parts, Nat.add_mul_mod_self_left, twice]
    rw [shifted, ih, ExtendedMantissa.shiftRightOne, sticky]
    congr 1
    · rw [power, Nat.div_div_eq_div_mul]
    · -- the next bit
      rw [Bool.eq_iff_iff, bne_iff_ne, decide_eq_true_iff, rest, power]
      rcases bit with zero | one
      · rw [zero]
        omega
      · rw [one]
        omega
    · -- the bits behind it
      rw [Bool.eq_iff_iff, Bool.or_eq_true, decide_eq_true_iff, decide_eq_true_iff,
        decide_eq_true_iff]
      have power_pos := Nat.two_pow_pos k
      by_cases high : 2 ^ k ≤ 2 * (m % 2 ^ k)
      · exact iff_of_true (Or.inl high) (by omega)
      · rw [Nat.mod_eq_of_lt (Nat.lt_of_not_le high), or_iff_right high]

/-- A shifted mantissa is rounded to the nearest one. -/
theorem roundedMantissa_shiftRight (m k : Nat) :
    (ExtendedMantissa.ofMantissaAndAccuracy m .exact >>> k).roundedMantissa =
      Rounding.quotient m (2 ^ k) := by
  have small := Nat.mod_lt m (Nat.two_pow_pos k)
  rw [shiftRight_eq, Rounding.quotient]
  by_cases high : 2 ^ k ≤ 2 * (m % 2 ^ k)
  · have excess : 2 * (m % 2 ^ k) % 2 ^ k = 2 * (m % 2 ^ k) - 2 ^ k := by
      rw [Nat.mod_eq_sub_mod high, Nat.mod_eq_of_lt (by omega)]
    by_cases tie : 2 * (m % 2 ^ k) = 2 ^ k
    · have up : Rounding.Up (2 ^ k) (m / 2 ^ k) (m % 2 ^ k) ↔ m / 2 ^ k % 2 = 1 := by
        rw [Rounding.Up, tie, or_iff_right (Nat.lt_irrefl _), and_iff_right rfl]
      rw [excess, tie, Nat.sub_self]
      simp only [up, le_refl, decide_true, ne_eq, not_true_eq_false, decide_false,
        ExtendedMantissa.roundedMantissa, ExtendedMantissa.accuracy, Accuracy.roundToNearestEven]
      split <;> omega
    · have up : Rounding.Up (2 ^ k) (m / 2 ^ k) (m % 2 ^ k) := Or.inl (by omega)
      rw [if_pos up, decide_eq_true high, decide_eq_true (by omega)]
      rfl
  · have low := Nat.lt_of_not_le high
    have down : ¬ Rounding.Up (2 ^ k) (m / 2 ^ k) (m % 2 ^ k) := by
      rw [Rounding.Up]
      omega
    rw [if_neg down, decide_eq_false high]
    cases decide (2 * (m % 2 ^ k) % 2 ^ k ≠ 0) <;> rfl

/-- The shift that leaves 53 bits. -/
theorem shiftToTargetExponent_eq (bits : 52 ≤ m.log2) (normal : -1074 ≤ e) :
    shiftToTargetExponent Format.binary64 m e .exact =
      (ExtendedMantissa.ofMantissaAndAccuracy m .exact >>> (m.log2 - 52), e + (m.log2 - 52 : Nat)) := by
  have target : Format.binary64.targetExponent (totalExponent m e) = e + (m.log2 - 52 : Nat) := by
    simp only [Format.targetExponent, totalExponent, Format.mantissaBits, Format.minExponent]
    omega
  have amount : (e + (m.log2 - 52 : Nat) - e).toNat = m.log2 - 52 := by omega
  rw [shiftToTargetExponent, target, shiftToExponent]
  simp only [amount]

theorem quotient_bits (bits : 52 ≤ m.log2) :
    2 ^ 52 ≤ Rounding.quotient m (2 ^ (m.log2 - 52)) ∧
      Rounding.quotient m (2 ^ (m.log2 - 52)) ≤ 2 ^ 53 := by
  have positive : m ≠ 0 := by
    rintro rfl
    exact absurd bits (by decide)
  have power := Nat.two_pow_pos (m.log2 - 52)
  have low : 2 ^ 52 ≤ m / 2 ^ (m.log2 - 52) := by
    rw [Nat.le_div_iff_mul_le power, ← Nat.pow_add, Nat.add_sub_cancel' bits]
    exact Nat.log2_self_le positive
  have high : m / 2 ^ (m.log2 - 52) < 2 ^ 53 := by
    have total : 53 + (m.log2 - 52) = m.log2 + 1 := by omega
    rw [Nat.div_lt_iff_lt_mul power, ← Nat.pow_add, total]
    exact Nat.lt_log2_self
  unfold Rounding.quotient
  split <;> omega

/-- A mantissa of 53 bits or more is rounded to 53 bits. -/
theorem roundWithAccuracy_eq (bits : 52 ≤ m.log2) (normal : -1074 ≤ e) :
    ∃ m' k, ∃ pos : 0 < m', roundWithAccuracy Format.binary64 .positive m e .exact =
        .finite .positive m' (e + (k : Nat)) pos ∧
      m'.log2 = 52 ∧ k ≤ m.log2 - 51 ∧ m' * 2 ^ k = Rounding.round 53 m := by
  obtain ⟨low, high⟩ := quotient_bits bits
  have spacing : Rounding.spacing 53 m = 2 ^ (m.log2 - 52) := by
    have amount : m.log2 + 1 - 53 = m.log2 - 52 := by omega
    rw [Rounding.spacing, amount]
  rw [Rounding.round, spacing]
  obtain ⟨q, isQ⟩ : ∃ q, q = Rounding.quotient m (2 ^ (m.log2 - 52)) := ⟨_, rfl⟩
  rw [← isQ] at low high ⊢
  have first : (ExtendedMantissa.ofMantissaAndAccuracy m .exact >>> (m.log2 - 52)).roundedMantissa = q := by
    rw [roundedMantissa_shiftRight, isQ]
  have positive : q ≠ 0 := by omega
  have bits' : 52 ≤ q.log2 := (Nat.le_log2 positive).mpr low
  have second : (ExtendedMantissa.ofMantissaAndAccuracy q .exact >>> (q.log2 - 52)).mantissa =
      q / 2 ^ (q.log2 - 52) := by
    rw [shiftRight_eq]
  have result : ∀ pos : 0 < q / 2 ^ (q.log2 - 52),
      roundWithAccuracy Format.binary64 .positive m e .exact =
        .finite .positive (q / 2 ^ (q.log2 - 52)) (e + (m.log2 - 52 : Nat) + (q.log2 - 52 : Nat))
          pos := by
    intro pos
    rw [roundWithAccuracy, shiftToTargetExponent_eq bits normal]
    simp only [first, shiftToTargetExponent_eq bits' (show -1074 ≤ e + (m.log2 - 52 : Nat) by omega),
      second, dif_neg pos.ne']
  by_cases small : q < 2 ^ 53
  · have log : q.log2 = 52 := (Nat.log2_eq_iff positive).mpr ⟨low, small⟩
    rw [log, Nat.sub_self, Nat.pow_zero, Nat.div_one, Int.natCast_zero, Int.add_zero] at result
    exact ⟨q, m.log2 - 52, by omega, result (by omega), log, by omega, rfl⟩
  · -- the mantissa has become one bit longer
    have last : q = 2 ^ 53 := by omega
    rw [last] at result ⊢
    have log : (2 ^ 53).log2 = 53 := Nat.log2_two_pow
    rw [log] at result
    refine ⟨2 ^ 52, m.log2 - 52 + 1, by decide, ?_, Nat.log2_two_pow, by omega, ?_⟩
    · rw [Int.natCast_add, ← Int.add_assoc]
      exact result (by decide)
    · rw [Nat.pow_succ]
      ring

theorem unpackSign_packComponents (spec : Format) (sign : Sign) (exponent : BitVec spec.exponentBits)
    (mantissa : BitVec spec.mantissaBitsWithoutImplicit) :
    unpackSign (packComponents spec sign exponent mantissa) = sign.toBitVec := by
  ext i isBit
  have last : i = 0 := by omega
  subst last
  simp [unpackSign, packComponents, BitVec.getLsbD_append, BitVec.getLsbD_eq_getElem,
    BitVec.getElem_append]

/-- The mantissa with its first bit back. -/
theorem toNat_mantissa (positive : m ≠ 0) (bits : m.log2 = 52) :
    (1#1 ++ BitVec.ofNat 52 m).toNat = m := by
  obtain ⟨low, high⟩ := (Nat.log2_eq_iff positive).mp bits
  have rest : (BitVec.ofNat 52 m).toNat = m - 2 ^ 52 := by
    rw [BitVec.toNat_ofNat, Nat.mod_eq_sub_mod low, Nat.mod_eq_of_lt (by omega)]
  have small : (BitVec.ofNat 52 m).toNat < 2 ^ 52 := (BitVec.ofNat 52 m).isLt
  rw [BitVec.toNat_append, ← Nat.shiftLeft_add_eq_or_of_lt small, rest]
  change 1 <<< 52 + (m - 2 ^ 52) = m
  rw [Nat.one_shiftLeft]
  omega

/-- What is packed is what was there. -/
theorem unpack_pack (pos : 0 < m) (bits : m.log2 = 52) (low : -1074 ≤ e) (high : e ≤ 971) :
    (Float.Model.pack (.finite .positive m e pos)).unpack = .finite .positive m e pos := by
  obtain ⟨biased, isBiased⟩ : ∃ biased : Nat, e + 1023 + 52 = biased :=
    ⟨(e + 1023 + 52).toNat, (Int.toNat_of_nonneg (by omega)).symm⟩
  have amount : (e + Format.binary64.exponentBias + Format.binary64.mantissaBitsWithoutImplicit).toNat =
      biased := by
    change (e + 1023 + 52).toNat = biased
    rw [isBiased, Int.toNat_natCast]
  have packed : UnpackedFloat.pack Format.binary64 (.finite .positive m e pos) =
      packComponents Format.binary64 .positive (BitVec.ofNat 11 biased) (BitVec.ofNat 52 m) := by
    have fits : ¬ 2 ^ Format.binary64.exponentBits ≤ biased + 1 := by
      change ¬ 2 ^ 11 ≤ biased + 1
      omega
    have isNormal : m.log2 + 1 = Format.binary64.mantissaBits := by
      rw [bits]
      rfl
    simp only [UnpackedFloat.pack, amount, if_neg fits, if_pos isNormal]
  have exponent : (BitVec.ofNat 11 biased).toNat = biased := by
    rw [BitVec.toNat_ofNat, Nat.mod_eq_of_lt (by omega)]
  have notLast : BitVec.ofNat 11 biased ≠ -1#11 := by
    intro last
    rw [last] at exponent
    change 2047 = biased at exponent
    omega
  have notFirst : BitVec.ofNat 11 biased ≠ 0#11 := by
    intro first
    rw [first] at exponent
    change 0 = biased at exponent
    omega
  have bias : (Format.binary64.exponentBias : Int) + Format.binary64.mantissaBitsWithoutImplicit = 1075 :=
    rfl
  change UnpackedFloat.unpack Format.binary64 (UnpackedFloat.pack Format.binary64 _) = _
  rw [packed]
  simp only [UnpackedFloat.unpack, unpackExponent_packComponents, unpackMantissa_packComponents,
    unpackSign_packComponents, if_neg notLast, if_neg notFirst, exponent, bias,
    toNat_mantissa pos.ne' bits]
  have back : (biased : Int) - 1075 = e := by omega
  rw [back]
  rfl

/-! ## Values -/

/-- `m * 2 ^ e` is `n / 2 ^ s`. -/
def Scaled (m : Nat) (e : Int) (n s : Nat) : Prop :=
  ∃ a b : Nat, m * 2 ^ a = n * 2 ^ b ∧ e + s = (a : Int) - b

/-- The double is `n / 2 ^ s`. -/
def Denotes (x : Float.Model) (n s : Nat) : Prop :=
  n = 0 ∧ x.unpack = .zero .positive ∨
    ∃ m e, ∃ pos : 0 < m, x.unpack = .finite .positive m e pos ∧ m.log2 = 52 ∧ Scaled m e n s

/-- A mantissa of 53 bits fixes the exponent. -/
theorem Scaled.exponent (scaled : Scaled m e n s) (bits : m.log2 = 52) :
    n ≠ 0 ∧ e = (n.log2 : Int) - 52 - s := by
  obtain ⟨a, b, same, exponent⟩ := scaled
  have positive : m ≠ 0 := by
    rintro rfl
    exact absurd bits (by decide)
  have positive' : n ≠ 0 := by
    rintro rfl
    rw [Nat.zero_mul, Nat.mul_eq_zero] at same
    exact same.elim positive (Nat.two_pow_pos a).ne'
  have logs := congrArg Nat.log2 same
  rw [Rounding.log2_mul_two_pow positive, Rounding.log2_mul_two_pow positive', bits] at logs
  exact ⟨positive', by omega⟩

/-- A mantissa that is rounded. -/
theorem Scaled.round (scaled : Scaled m e n s) {m' : Nat} (rounded : m' * 2 ^ k = Rounding.round 53 m) :
    Scaled m' (e + k) (Rounding.round 53 n) s := by
  obtain ⟨a, b, same, exponent⟩ := scaled
  refine ⟨k + a, b, ?_, by omega⟩
  rw [Nat.pow_add, ← Nat.mul_assoc, rounded, ← Rounding.round_mul_two_pow, same,
    Rounding.round_mul_two_pow]

theorem Scaled.mul {m' n' : Nat} {e' : Int} (scaled : Scaled m e n s) (scaled' : Scaled m' e' n' t) :
    Scaled (m * m') (e + e') (n * n') (s + t) := by
  obtain ⟨a, b, same, exponent⟩ := scaled
  obtain ⟨a', b', same', exponent'⟩ := scaled'
  refine ⟨a + a', b + b', ?_, by omega⟩
  calc m * m' * 2 ^ (a + a') = m * 2 ^ a * (m' * 2 ^ a') := by ring
    _ = n * 2 ^ b * (n' * 2 ^ b') := by rw [same, same']
    _ = n * n' * 2 ^ (b + b') := by ring

/-- A mantissa that is rounded and packed. -/
theorem denotes_round (scaled : Scaled m e n s) (bits : 52 ≤ m.log2) (low : -1074 ≤ e)
    (high : e + m.log2 ≤ 1022) :
    Denotes (Float.Model.pack (roundWithAccuracy Format.binary64 .positive m e .exact))
      (Rounding.round 53 n) s := by
  obtain ⟨m', k, pos, result, bits', shift, rounded⟩ := roundWithAccuracy_eq bits low
  rw [result]
  exact Or.inr ⟨m', e + k, pos, unpack_pack pos bits' (by omega) (by omega), bits',
    scaled.round rounded⟩

theorem denotes_zero : Denotes (Float.Model.pack (.zero .positive)) 0 s := Or.inl ⟨rfl, rfl⟩

/-- An integer, with as many bits behind the point as the mantissa has left. -/
theorem ofNat_eq (positive : n ≠ 0) : UnpackedFloat.ofNat Format.binary64 n =
    roundWithAccuracy Format.binary64 .positive (n * 2 ^ (52 - n.log2)) (-(52 - n.log2 : Nat))
      .exact := by
  have above : compare (n : Int) 0 = .gt := Int.compare_eq_gt.mpr (by omega)
  have target : (-Format.binary64.targetExponent (totalExponent n 0)).toNat = 52 - n.log2 := by
    simp only [Format.targetExponent, totalExponent, Format.mantissaBits, Format.minExponent]
    omega
  rw [UnpackedFloat.ofNat, UnpackedFloat.ofInt, UnpackedFloat.normalize, above]
  simp only [Int.toNat_natCast, UnpackedFloat.round, decreaseExponent, Int.zero_sub, target,
    Nat.shiftLeft_eq]

theorem denotes_ofUInt64 (n : UInt64) :
    Denotes (Float.Model.ofUInt64 n) (Rounding.round 53 n.toNat) 0 := by
  rcases Nat.eq_zero_or_pos n.toNat with zero | pos
  · obtain rfl : n = 0 := UInt64.toNat_inj.mp zero
    exact denotes_zero
  · have bound : n.toNat.log2 < 64 := (Nat.log2_lt pos.ne').mpr n.toNat_lt
    have bits := Rounding.log2_mul_two_pow pos.ne' (52 - n.toNat.log2)
    have scaled : Scaled (n.toNat * 2 ^ (52 - n.toNat.log2)) (-(52 - n.toNat.log2 : Nat)) n.toNat 0 :=
      ⟨0, 52 - n.toNat.log2, Nat.mul_one _, by omega⟩
    rw [Float.Model.ofUInt64, UnpackedFloat.ofUInt64, ofNat_eq pos.ne']
    exact denotes_round scaled (by omega) (by omega) (by omega)

theorem log2_mul {m' : Nat} (bits : m.log2 = 52) (bits' : m'.log2 = 52) :
    104 ≤ (m * m').log2 ∧ (m * m').log2 ≤ 105 := by
  have bounds : ∀ {m : Nat}, m.log2 = 52 → 2 ^ 52 ≤ m ∧ m < 2 ^ 53 := by
    intro m bits
    refine (Nat.log2_eq_iff ?_).mp bits
    rintro rfl
    exact absurd bits (by decide)
  obtain ⟨low, high⟩ := bounds bits
  obtain ⟨low', high'⟩ := bounds bits'
  have below : 2 ^ 52 * 2 ^ 52 ≤ m * m' := Nat.mul_le_mul low low'
  have above : m * m' < 2 ^ 53 * 2 ^ 53 := Nat.mul_lt_mul'' high high'
  have positive : m * m' ≠ 0 := by omega
  constructor
  · exact (Nat.le_log2 positive).mpr (by omega)
  · have bound : (m * m').log2 < 106 := (Nat.log2_lt positive).mpr (by omega)
    omega

/-- The product is rounded. -/
theorem Denotes.mul {x y : Float.Model} {n' : Nat} (isX : Denotes x n s) (isY : Denotes y n' t)
    (small : n * n' < 2 ^ 200) (few : s + t ≤ 800) :
    Denotes (x.mul y) (Rounding.round 53 (n * n')) (s + t) := by
  rw [Float.Model.mul]
  obtain ⟨rfl, zero⟩ | ⟨m, e, pos, isFinite, bits, scaled⟩ := isX
  · rw [Nat.zero_mul, Rounding.round_of_lt (Nat.two_pow_pos 53), zero]
    obtain ⟨_, zero'⟩ | ⟨m', e', pos', isFinite', _⟩ := isY
    · rw [zero']
      exact denotes_zero
    · rw [isFinite']
      exact denotes_zero
  · obtain ⟨rfl, zero'⟩ | ⟨m', e', pos', isFinite', bits', scaled'⟩ := isY
    · rw [Nat.mul_zero, Rounding.round_of_lt (Nat.two_pow_pos 53), isFinite, zero']
      exact denotes_zero
    · obtain ⟨positive, exponent⟩ := scaled.exponent bits
      obtain ⟨positive', exponent'⟩ := scaled'.exponent bits'
      have logs : n.log2 + n'.log2 < 200 := by
        have low : 2 ^ (n.log2 + n'.log2) ≤ n * n' := by
          rw [Nat.pow_add]
          exact Nat.mul_le_mul (Nat.log2_self_le positive) (Nat.log2_self_le positive')
        exact (Nat.pow_lt_pow_iff_right (by decide)).mp (low.trans_lt small)
      have product := log2_mul bits bits'
      rw [isFinite, isFinite']
      exact denotes_round (scaled.mul scaled') (by omega) (by omega) (by omega)

/-- What is left of a number when the bits behind the point are cut off. -/
theorem Scaled.roundToInt (scaled : Scaled m e n s) :
    UnpackedFloat.roundToInt .positive m e = (n / 2 ^ s : Nat) := by
  obtain ⟨a, b, same, exponent⟩ := scaled
  have amount : (0 - (e - e.toNat)).toNat = (-e).toNat := by omega
  have cut : UnpackedFloat.roundToInt .positive m e =
      (m * 2 ^ e.toNat / 2 ^ (-e).toNat : Nat) := by
    simp only [UnpackedFloat.roundToInt, decreaseExponent, shiftToExponent, Int.sub_zero, amount,
      shiftRight_eq, Nat.shiftLeft_eq, Sign.apply]
  have powers : (-e).toNat + a = s + (b + e.toNat) := by omega
  have quotient : m * 2 ^ e.toNat / 2 ^ (-e).toNat = n / 2 ^ s := by
    calc m * 2 ^ e.toNat / 2 ^ (-e).toNat
        = m * 2 ^ e.toNat * 2 ^ a / (2 ^ (-e).toNat * 2 ^ a) :=
          (Nat.mul_div_mul_right _ _ (Nat.two_pow_pos a)).symm
      _ = n * 2 ^ (b + e.toNat) / (2 ^ s * 2 ^ (b + e.toNat)) := by
          rw [← Nat.pow_add, ← Nat.pow_add, powers, Nat.mul_right_comm, same, Nat.mul_assoc,
            ← Nat.pow_add]
      _ = n / 2 ^ s := Nat.mul_div_mul_right _ _ (Nat.two_pow_pos _)
  rw [cut, quotient]

theorem Denotes.toInt32 {x : Float.Model} (isX : Denotes x n s) (small : n / 2 ^ s < 2 ^ 31) :
    x.toInt32.toInt = (n / 2 ^ s : Nat) := by
  have isInt : x.unpack.toInt Int32.minValue.toInt Int32.maxValue.toInt = (n / 2 ^ s : Nat) := by
    obtain ⟨rfl, zero⟩ | ⟨m, e, pos, isFinite, _, scaled⟩ := isX
    · rw [zero, Nat.zero_div]
      rfl
    · rw [isFinite]
      exact scaled.roundToInt
  generalize n / 2 ^ s = whole at small isInt ⊢
  have low : Int32.minValue.toInt ≤ whole := by
    change -2147483648 ≤ (whole : Int)
    omega
  have high : whole ≤ Int32.maxValue.toInt := by
    change (whole : Int) ≤ 2147483647
    omega
  rw [Float.Model.toInt32, UnpackedFloat.toInt32, isInt, Int32.ofIntClamp, dif_pos low, dif_pos high,
    Int32.toInt_ofIntLE]

end Binary64
