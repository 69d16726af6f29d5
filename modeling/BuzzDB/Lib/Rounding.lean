import Mathlib.Data.Nat.Log
import Mathlib.Tactic.Linarith
import Mathlib.Tactic.Ring

/-!
# Rounding to significant bits

A natural number rounded to the nearest one with `p` significant bits, where a tie goes to the even one.
`spacing` is the distance of the numbers with `p` significant bits around it.
-/

namespace Rounding

/-- The distance of the numbers with `p` significant bits that have the magnitude of `n`. -/
def spacing (p n : Nat) : Nat := 2 ^ (n.log2 + 1 - p)

/-- A quotient by `u` with the remainder `r` goes up. -/
def Up (u q r : Nat) : Prop := u < 2 * r ∨ u = 2 * r ∧ q % 2 = 1

instance (u q r : Nat) : Decidable (Up u q r) := inferInstanceAs (Decidable (_ ∨ _))

/-- The quotient by `u`, rounded. -/
def quotient (n u : Nat) : Nat := if Up u (n / u) (n % u) then n / u + 1 else n / u

/-- The nearest number with `p` significant bits. -/
def round (p n : Nat) : Nat := quotient n (spacing p n) * spacing p n

variable {p n k u z : Nat}

theorem spacing_pos : 0 < spacing p n := Nat.two_pow_pos _

theorem quotient_mul (pos : 0 < k) (n u : Nat) : quotient (n * k) (u * k) = quotient n u := by
  have up : Up (u * k) (n / u) (n % u * k) ↔ Up u (n / u) (n % u) := by
    have double : 2 * (n % u * k) = 2 * (n % u) * k := by ring
    rw [Up, Up, double, Nat.mul_lt_mul_right pos, Nat.mul_left_inj pos.ne']
  unfold quotient
  rw [Nat.mul_div_mul_right _ _ pos, Nat.mul_mod_mul_right]
  simp only [up]

theorem quotient_of_dvd (divides : u ∣ n) (pos : 0 < u) : quotient n u = n / u := by
  have exact : ¬ Up u (n / u) (n % u) := by
    rw [Nat.mod_eq_zero_of_dvd divides, Up]
    omega
  rw [quotient, if_neg exact]

/-- A number with `p` significant bits is kept. -/
theorem round_of_dvd (divides : spacing p n ∣ n) : round p n = n := by
  rw [round, quotient_of_dvd divides spacing_pos, Nat.div_mul_cancel divides]

theorem log2_mul_two_pow (pos : n ≠ 0) (k : Nat) : (n * 2 ^ k).log2 = n.log2 + k := by
  have power := Nat.two_pow_pos k
  rw [Nat.log2_eq_iff (Nat.mul_ne_zero pos power.ne')]
  constructor
  · rw [Nat.pow_add]
    exact Nat.mul_le_mul_right _ (Nat.log2_self_le pos)
  · rw [Nat.add_right_comm, Nat.pow_add]
    exact Nat.mul_lt_mul_of_pos_right Nat.lt_log2_self power

@[simp] theorem round_zero (p : Nat) : round p 0 = 0 := round_of_dvd (dvd_zero _)

theorem spacing_mul (many : p ≤ n.log2 + 1) (pos : n ≠ 0) :
    spacing p (n * 2 ^ k) = spacing p n * 2 ^ k := by
  have split : n.log2 + k + 1 - p = n.log2 + 1 - p + k := by omega
  rw [spacing, spacing, log2_mul_two_pow pos, split, Nat.pow_add]

/-- Rounding depends on the significant bits only. -/
theorem round_mul_two_pow (p n k : Nat) : round p (n * 2 ^ k) = round p n * 2 ^ k := by
  rcases Nat.eq_zero_or_pos n with rfl | pos
  · rw [Nat.zero_mul, round_zero, Nat.zero_mul]
  · by_cases many : p ≤ n.log2 + 1
    · rw [round, round, spacing_mul many pos.ne', quotient_mul (Nat.two_pow_pos k), Nat.mul_assoc]
    · -- both numbers have few significant bits
      have one : spacing p n ∣ n := by
        have none : n.log2 + 1 - p = 0 := by omega
        rw [spacing, none]
        exact one_dvd n
      have few : spacing p (n * 2 ^ k) ∣ n * 2 ^ k := by
        rw [spacing, log2_mul_two_pow pos.ne']
        exact (Nat.pow_dvd_pow 2 (by omega)).mul_left n
      rw [round_of_dvd one, round_of_dvd few]

theorem round_of_lt (small : n < 2 ^ p) : round p n = n := by
  apply round_of_dvd
  rcases Nat.eq_zero_or_pos n with rfl | pos
  · exact dvd_zero _
  · have bits := (Nat.log2_lt pos.ne').mpr small
    have none : n.log2 + 1 - p = 0 := by omega
    rw [spacing, none]
    exact one_dvd n

theorem quotient_error (n : Nat) (pos : 0 < u) :
    2 * (quotient n u * u) ≤ 2 * n + u ∧ 2 * n ≤ 2 * (quotient n u * u) + u := by
  have split := Nat.div_add_mod' n u
  have below : u * (n / u + 1) = n / u * u + u := by ring
  unfold quotient
  split
  · rename_i up
    have half : u ≤ 2 * (n % u) := up.elim Nat.le_of_lt fun tie => tie.1.le
    have small := Nat.mod_lt n pos
    rw [Nat.mul_comm (n / u + 1), below]
    omega
  · rename_i down
    have half : 2 * (n % u) ≤ u := Nat.le_of_not_lt fun more => down (Or.inl more)
    omega

/-- The error is at most half a spacing. -/
theorem round_error (p n : Nat) :
    2 * round p n ≤ 2 * n + spacing p n ∧ 2 * n ≤ 2 * round p n + spacing p n :=
  quotient_error n spacing_pos

theorem spacing_mul_le (many : p ≤ n.log2) (pos : n ≠ 0) : spacing (p + 1) n * 2 ^ p ≤ n := by
  have bits : n.log2 + 1 - (p + 1) + p = n.log2 := by omega
  rw [spacing, ← Nat.pow_add, bits]
  exact Nat.log2_self_le pos

theorem lt_spacing_mul (p n : Nat) : n < spacing p n * 2 ^ p := by
  rw [spacing, ← Nat.pow_add]
  exact Nat.lt_log2_self.trans_le (Nat.pow_le_pow_right (by decide) (by omega))

/-- A multiple of the spacing that is not above the number is not above the rounded one. -/
theorem le_round (divides : spacing p n ∣ z) (le : z ≤ n) : z ≤ round p n := by
  obtain ⟨w, rfl⟩ := divides
  have pos : 0 < spacing p n := spacing_pos
  have floor : w ≤ n / spacing p n := (Nat.le_div_iff_mul_le pos).mpr (by rw [Nat.mul_comm]; exact le)
  have ceiling : n / spacing p n ≤ quotient n (spacing p n) := by
    unfold quotient
    split <;> omega
  rw [round, Nat.mul_comm]
  exact Nat.mul_le_mul_right _ (floor.trans ceiling)

/-- A number below an even multiple of its spacing is rounded up to it exactly if it is at most half
a spacing below. -/
theorem le_round_iff (divides : 2 * spacing p n ∣ z) (below : n < z) :
    z ≤ round p n ↔ 2 * (z - n) ≤ spacing p n := by
  obtain ⟨w, rfl⟩ := divides
  have pos : 0 < spacing p n := spacing_pos
  unfold round
  generalize spacing p n = u at below pos ⊢
  have multiple : 2 * u * w = 2 * w * u := by ring
  rw [multiple] at below ⊢
  have split := Nat.div_add_mod' n u
  have small := Nat.mod_lt n pos
  have floor : n / u < 2 * w := Nat.div_lt_of_lt_mul (by rw [Nat.mul_comm]; exact below)
  rw [Nat.mul_le_mul_right_iff pos]
  by_cases last : n / u + 1 = 2 * w
  · -- the multiple is the next one
    have next : 2 * w * u = n / u * u + u := by rw [← last]; ring
    have reaches : 2 * w ≤ quotient n u ↔ Up u (n / u) (n % u) := by
      unfold quotient
      split
      · rename_i up
        exact iff_of_true last.ge up
      · rename_i down
        exact iff_of_false (by omega) down
    have odd : n / u % 2 = 1 := by omega
    rw [reaches, Up]
    omega
  · have far : n / u * u + u + u ≤ 2 * w * u := by
      have more : (n / u + 2) * u ≤ 2 * w * u := Nat.mul_le_mul_right u (by omega)
      have parts : (n / u + 2) * u = n / u * u + u + u := by ring
      omega
    have short : quotient n u < 2 * w := by
      unfold quotient
      split <;> omega
    exact iff_of_false (Nat.not_le.mpr short) (by omega)

end Rounding
