import Mathlib.Algebra.Order.Floor.Ring
import Mathlib.Data.Rat.Floor
import Mathlib.Tactic.Linarith
import Mathlib.Tactic.Ring

/-!
# Numbers of type double

The finite values of a binary floating-point format with 53 digits, as rational numbers, and what
is common to all ways of rounding to the nearest one.

* `IsDouble x` : `x` is a finite value of the format.
* `RoundsTo x y` : `y` is a value of the format that is nearest to `x`.
* `RoundsTo.le`, `RoundsTo.ge` : rounding does not pass a value of the format.
* `IsDouble.gap` : a value of the format keeps its distance from other numbers with few digits;
  `RoundsTo.eq_of_near` : so what is near such a number is rounded to it.
* `roundHalfAway` : the nearest whole number, halves away from zero.
-/

namespace CrankItUp

/-- A number with at most 53 binary digits, and an exponent in the range of the format. -/
def IsDouble (x : ℚ) : Prop :=
  ∃ n q : ℤ, |n| < 2 ^ 53 ∧ -1074 ≤ q ∧ q ≤ 971 ∧ x = n * 2 ^ q

/-- `y` is a value of the format, and none is nearer to `x`. -/
structure RoundsTo (x y : ℚ) : Prop where
  isDouble : IsDouble y
  nearest : ∀ z, IsDouble z → |x - y| ≤ |x - z|

/-- The nearest whole number; a half is rounded away from zero. -/
def roundHalfAway (x : ℚ) : ℤ := if 0 ≤ x then ⌊x + 1 / 2⌋ else -⌊-x + 1 / 2⌋

variable {x y z : ℚ}

/-! ### Values of the format -/

/-- A number that some power of two makes a whole number. -/
theorem isDouble_of_mul {a : ℕ} {n : ℤ} (h : x * 2 ^ a = n) (hn : |n| < 2 ^ 53) (ha : a ≤ 1074) :
    IsDouble x := by
  refine ⟨n, -a, hn, by omega, by omega, ?_⟩
  rw [zpow_neg, zpow_natCast, ← div_eq_mul_inv]
  exact eq_div_of_mul_eq (pow_ne_zero a two_ne_zero) h

theorem isDouble_intCast {n : ℤ} (hn : |n| < 2 ^ 53) : IsDouble n :=
  isDouble_of_mul (a := 0) (by rw [pow_zero, mul_one]) hn (Nat.zero_le _)

/-- A number of the format other than `z`, which is a whole number over `2 ^ a`, is at least
`2⁻ᵃ` away from `z`, or at least the distance that its digits allow. -/
theorem IsDouble.gap (hy : IsDouble y) {a : ℕ} {N : ℤ} (hz : z * 2 ^ a = N) (hne : y ≠ z) :
    1 / 2 ^ a ≤ |z - y| ∨ |y| ≤ 2 ^ 53 * |z - y| := by
  obtain ⟨n, q, hn, -, -, rfl⟩ := hy
  have hz : z = N / 2 ^ a := eq_div_of_mul_eq (pow_ne_zero a two_ne_zero) hz
  have hdist : ∀ M : ℤ, ∀ u : ℚ, 0 < u → z - n * 2 ^ q = M * u → u ≤ |z - n * 2 ^ q| := by
    intro M u hu hM
    have hM0 : M ≠ 0 := by
      rintro rfl
      rw [Int.cast_zero, zero_mul] at hM
      exact hne (sub_eq_zero.1 hM).symm
    have hone : (1 : ℚ) ≤ |(M : ℚ)| := by exact_mod_cast Int.one_le_abs hM0
    rw [hM, abs_mul, abs_of_pos hu]
    exact le_mul_of_one_le_left hu.le hone
  rcases le_or_gt (-(a : ℤ)) q with hq | hq
  · -- both are multiples of `2⁻ᵃ`
    obtain ⟨b, rfl⟩ : ∃ b : ℕ, q = b - a := ⟨(q + a).toNat, by omega⟩
    have hu : (0 : ℚ) < 1 / 2 ^ a := div_pos one_pos (pow_pos two_pos a)
    refine .inl (hdist (N - n * 2 ^ b) _ hu ?_)
    rw [hz, zpow_sub₀ two_ne_zero]
    push_cast
    simp only [zpow_natCast]
    ring
  · -- both are multiples of `2 ^ q`, and `|y|` is less than `2 ^ 53` of it
    obtain ⟨b, rfl⟩ : ∃ b : ℕ, q = -(a + b : ℕ) := ⟨(-q - a).toNat, by omega⟩
    have hu : (0 : ℚ) < 2 ^ (-(a + b : ℕ) : ℤ) := zpow_pos two_pos _
    refine .inr ?_
    have hle := hdist (N * 2 ^ b - n) _ hu (by
      rw [hz, zpow_neg, zpow_natCast, pow_add]
      push_cast
      field_simp)
    have hn' : |(n : ℚ)| ≤ 2 ^ 53 := by exact_mod_cast hn.le
    calc |(n : ℚ) * 2 ^ (-(a + b : ℕ) : ℤ)| = |(n : ℚ)| * 2 ^ (-(a + b : ℕ) : ℤ) := by
          rw [abs_mul, abs_of_pos hu]
      _ ≤ 2 ^ 53 * |z - n * 2 ^ (-(a + b : ℕ) : ℤ)| := by gcongr

/-! ### Rounding -/

namespace RoundsTo

theorem le (h : RoundsTo x y) (hz : IsDouble z) (hxz : x ≤ z) : y ≤ z := by
  have hle := h.nearest z hz
  rw [abs_of_nonpos (sub_nonpos.2 hxz)] at hle
  have := neg_abs_le (x - y)
  linarith

theorem ge (h : RoundsTo x y) (hz : IsDouble z) (hzx : z ≤ x) : z ≤ y := by
  have hle := h.nearest z hz
  rw [abs_of_nonneg (sub_nonneg.2 hzx)] at hle
  have := le_abs_self (x - y)
  linarith

theorem eq_of_isDouble (h : RoundsTo x y) (hx : IsDouble x) : y = x :=
  le_antisymm (h.le hx le_rfl) (h.ge hx le_rfl)

theorem abs_sub_le_two_mul (h : RoundsTo x y) (hz : IsDouble z) : |z - y| ≤ 2 * |x - z| := by
  have hle := h.nearest z hz
  have htri := abs_sub_le z x y
  rw [abs_sub_comm z x] at htri
  linarith

/-- Near a value with few digits there is no other that the result could be. -/
theorem eq_of_near (h : RoundsTo x y) {a : ℕ} {N : ℤ} (hz : z * 2 ^ a = N) (hdouble : IsDouble z)
    (hgap : 2 * |x - z| < 1 / 2 ^ a) (hdigits : (2 ^ 53 + 1) * (2 * |x - z|) < |z|) : y = z := by
  by_contra hne
  have hdist := h.abs_sub_le_two_mul hdouble
  rcases h.isDouble.gap hz hne with hle | hle
  · exact absurd (hle.trans hdist) (not_le.2 hgap)
  · have htri : |z| ≤ |z - y| + |y| := by simpa using abs_add_le (z - y) y
    linarith

end RoundsTo

theorem roundHalfAway_eq {k : ℤ} (h0 : 0 ≤ x) (hle : (k : ℚ) - 1 / 2 ≤ x) (hlt : x < k + 1 / 2) :
    roundHalfAway x = k := by
  rw [roundHalfAway, if_pos h0, Int.floor_eq_iff]
  constructor <;> linarith

end CrankItUp
