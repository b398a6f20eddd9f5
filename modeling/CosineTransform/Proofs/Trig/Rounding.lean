import CosineTransform.Proofs.Reals
import CosineTransform.Proofs.Trig.Scaling
import Mathlib.Data.Int.Log

/-!
# Binary floating point

Every operation on `Binary fraction` is the operation on real numbers, rounded to the closest number
with a leading bit and `fraction` bits behind it, ties to even. Exponents are not bounded, so
nothing overflows or underflows; with fifty-two bits this is double precision at the magnitudes that
it can hold. Every result is rounded that is no multiple of its last place
(`Binary.nearest_eq_self_iff`), but doubling only moves the exponent (`Binary.nearest_mul_zpow`), so
scaling is exact (`Binary.exactScaling`).
-/

namespace CosineTransform

namespace Binary

variable {fraction : ℕ} {x : ℝ}

/-! ## Rounding to an integer -/

/-- The closest integer, and the even one of two that are equally close. -/
noncomputable def nearestInt (x : ℝ) : ℤ :=
  if Int.fract x < 1 / 2 ∨ Int.fract x = 1 / 2 ∧ Even ⌊x⌋ then ⌊x⌋ else ⌊x⌋ + 1

theorem nearestInt_intCast (m : ℤ) : nearestInt m = m := by
  rw [nearestInt, Int.fract_intCast, Int.floor_intCast, if_pos (.inl one_half_pos)]

theorem abs_nearestInt_sub_le (x : ℝ) : |(nearestInt x : ℝ) - x| ≤ 1 / 2 := by
  have hfract := Int.self_sub_floor x
  have hnonneg := Int.fract_nonneg x
  have hlt := Int.fract_lt_one x
  rw [nearestInt, abs_le]
  split_ifs with hdown
  · have hhalf : Int.fract x ≤ 1 / 2 := hdown.elim le_of_lt fun htie => htie.1.le
    constructor <;> linarith
  · have hhalf : 1 / 2 ≤ Int.fract x := not_lt.1 fun hless => hdown (.inl hless)
    push_cast
    constructor <;> linarith

/-- Rounding does not lead past an integer. -/
theorem abs_nearestInt_le {m : ℤ} (h : |x| < m) : |nearestInt x| ≤ m := by
  obtain ⟨hlower, hupper⟩ := abs_lt.1 h
  have hfloor : ⌊x⌋ < m := Int.floor_lt.2 hupper
  have hfloor' : -m ≤ ⌊x⌋ := Int.le_floor.2 (by push_cast; exact hlower.le)
  rw [nearestInt, abs_le]
  split_ifs
  · omega
  · omega

/-! ## Rounding to a number of bits -/

/-- The place value of the last bit of a number. -/
noncomputable def lastPlace (fraction : ℕ) (x : ℝ) : ℝ := 2 ^ (Int.log 2 |x| - fraction)

theorem lastPlace_pos (fraction : ℕ) (x : ℝ) : 0 < lastPlace fraction x := zpow_pos two_pos _

/-- The closest number of as many bits, and the even one of two that are equally close. -/
noncomputable def nearest (fraction : ℕ) (x : ℝ) : ℝ :=
  nearestInt (x / lastPlace fraction x) * lastPlace fraction x

/-- At most half of the last place is rounded off. -/
theorem abs_nearest_sub_le (fraction : ℕ) (x : ℝ) :
    |nearest fraction x - x| ≤ lastPlace fraction x / 2 := by
  have hpos := lastPlace_pos fraction x
  have hsub : nearest fraction x - x =
      (nearestInt (x / lastPlace fraction x) - x / lastPlace fraction x) *
        lastPlace fraction x := by
    rw [sub_mul, div_mul_cancel₀ _ hpos.ne', nearest]
  calc |nearest fraction x - x|
      = |nearestInt (x / lastPlace fraction x) - x / lastPlace fraction x| *
          lastPlace fraction x := by rw [hsub, abs_mul, abs_of_pos hpos]
    _ ≤ 1 / 2 * lastPlace fraction x :=
        mul_le_mul_of_nonneg_right (abs_nearestInt_sub_le _) hpos.le
    _ = lastPlace fraction x / 2 := one_div_mul_eq_div _ _

theorem nearest_zero (fraction : ℕ) : nearest fraction 0 = 0 := by
  have hzero := nearestInt_intCast 0
  rw [Int.cast_zero] at hzero
  rw [nearest, zero_div, hzero, Int.cast_zero, zero_mul]

/-- The numbers that are not rounded are the multiples of their last place. -/
theorem nearest_eq_self_iff : nearest fraction x = x ↔ ∃ m : ℤ, x = m * lastPlace fraction x := by
  constructor
  · intro h
    exact ⟨nearestInt (x / lastPlace fraction x), h.symm⟩
  · rintro ⟨m, hm⟩
    have hquotient : x / lastPlace fraction x = m := by
      rw [div_eq_iff (lastPlace_pos fraction x).ne']
      exact hm
    rw [nearest, hquotient, nearestInt_intCast]
    exact hm.symm

/-- A power of two moves the leading bit. -/
theorem log_mul_zpow (hx : x ≠ 0) (e : ℤ) : Int.log 2 |x * 2 ^ e| = Int.log 2 |x| + e := by
  have hpow : (0 : ℝ) < 2 ^ e := zpow_pos two_pos e
  have hpos : 0 < |x| := abs_pos.2 hx
  have hscaled : |x * 2 ^ e| = |x| * 2 ^ e := by rw [abs_mul, abs_of_pos hpow]
  have hpos' : 0 < |x * 2 ^ e| := abs_pos.2 (mul_ne_zero hx hpow.ne')
  have hlower : (2 : ℝ) ^ Int.log 2 |x| ≤ |x| := Int.zpow_log_le_self one_lt_two hpos
  have hupper : |x| < (2 : ℝ) ^ (Int.log 2 |x| + 1) := Int.lt_zpow_succ_log_self one_lt_two _
  apply le_antisymm
  · refine Int.lt_add_one_iff.1 ((Int.lt_zpow_iff_log_lt one_lt_two hpos').1 ?_)
    rw [hscaled, add_right_comm]
    push_cast
    rw [zpow_add₀ two_ne_zero]
    exact mul_lt_mul_of_pos_right hupper hpow
  · refine (Int.zpow_le_iff_le_log one_lt_two hpos').1 ?_
    rw [hscaled]
    push_cast
    rw [zpow_add₀ two_ne_zero]
    exact mul_le_mul_of_nonneg_right hlower hpow.le

/-- Rounding commutes with moving the exponent. -/
theorem nearest_mul_zpow (fraction : ℕ) (x : ℝ) (e : ℤ) :
    nearest fraction (x * 2 ^ e) = nearest fraction x * 2 ^ e := by
  by_cases hx : x = 0
  · rw [hx, zero_mul, nearest_zero, zero_mul]
  · have hplace : lastPlace fraction (x * 2 ^ e) = lastPlace fraction x * 2 ^ e := by
      rw [lastPlace, log_mul_zpow hx, add_sub_right_comm, zpow_add₀ two_ne_zero, lastPlace]
    rw [nearest, hplace, mul_div_mul_right _ _ (zpow_ne_zero e two_ne_zero), ← mul_assoc, nearest]

theorem nearest_two_mul (fraction : ℕ) (x : ℝ) :
    nearest fraction (2 * x) = 2 * nearest fraction x := by
  have hone := nearest_mul_zpow fraction x 1
  rwa [zpow_one, mul_comm, mul_comm (nearest fraction x)] at hone

/-- An integer that has no more bits is not rounded. -/
theorem nearest_intCast_of_lt {m : ℤ} (h : |m| < 2 ^ (fraction + 1)) :
    nearest fraction (m : ℝ) = m := by
  by_cases hm : m = 0
  · rw [hm, Int.cast_zero, nearest_zero]
  · have hpos : (0 : ℝ) < |(m : ℝ)| := abs_pos.2 (Int.cast_ne_zero.2 hm)
    -- the leading bit of the integer is one of the bits that are kept
    have hlog : Int.log 2 |(m : ℝ)| < fraction + 1 := by
      refine (Int.lt_zpow_iff_log_lt one_lt_two hpos).1 ?_
      exact_mod_cast h
    obtain ⟨k, hk⟩ := Int.le.dest (Int.lt_add_one_iff.1 hlog)
    have hplace : lastPlace fraction (m : ℝ) = ((2 : ℝ) ^ k)⁻¹ := by
      rw [lastPlace, ← hk, sub_add_cancel_left, zpow_neg, zpow_natCast]
    refine nearest_eq_self_iff.2 ⟨m * 2 ^ k, ?_⟩
    rw [hplace]
    push_cast
    rw [mul_assoc, mul_inv_cancel₀ (pow_ne_zero k two_ne_zero), mul_one]

/-- Nor is the power of two that follows them. -/
theorem nearest_intCast {m : ℤ} (h : |m| ≤ 2 ^ (fraction + 1)) :
    nearest fraction (m : ℝ) = m := by
  rcases h.lt_or_eq with hlt | heq
  · exact nearest_intCast_of_lt hlt
  · obtain ⟨s, hs, hm⟩ : ∃ s : ℤ, |s| < 2 ^ (fraction + 1) ∧ m = s * 2 ^ (fraction + 1) := by
      have hone : (1 : ℤ) < 2 ^ (fraction + 1) := one_lt_pow₀ one_lt_two (by omega)
      obtain hpos | hneg := eq_or_eq_neg_of_abs_eq heq
      · exact ⟨1, by rwa [abs_one], by rw [one_mul, hpos]⟩
      · exact ⟨-1, by rwa [abs_neg, abs_one], by rw [neg_one_mul, hneg]⟩
    have hpow := nearest_mul_zpow fraction (s : ℝ) (fraction + 1 : ℕ)
    rw [nearest_intCast_of_lt hs, zpow_natCast] at hpow
    rw [hm]
    push_cast
    exact hpow

/-- What was rounded is not rounded again. -/
theorem nearest_nearest (fraction : ℕ) (x : ℝ) :
    nearest fraction (nearest fraction x) = nearest fraction x := by
  have hlt : |x / lastPlace fraction x| < ((2 ^ (fraction + 1) : ℤ) : ℝ) := by
    rw [abs_div, abs_of_pos (lastPlace_pos fraction x), div_lt_iff₀ (lastPlace_pos fraction x),
      lastPlace]
    push_cast
    rw [← zpow_natCast, ← zpow_add₀ two_ne_zero]
    refine (Int.lt_zpow_succ_log_self one_lt_two |x|).trans_eq ?_
    push_cast
    congr 1
    ring
  calc nearest fraction (nearest fraction x)
      = nearest fraction (nearestInt (x / lastPlace fraction x) : ℝ) * lastPlace fraction x :=
        nearest_mul_zpow fraction _ _
    _ = nearest fraction x := by rw [nearest_intCast (abs_nearestInt_le hlt), nearest]

end Binary

/-! ## The arithmetic -/

/-- A number with a leading bit and `fraction` bits behind it. -/
@[ext]
structure Binary (fraction : ℕ) where
  value : ℝ
  rounded : Binary.nearest fraction value = value

namespace Binary

variable {fraction : ℕ}

/-- The closest number of as many bits. -/
noncomputable def round (x : ℝ) : Binary fraction where
  value := nearest fraction x
  rounded := nearest_nearest fraction x

noncomputable instance : Scalar (Binary fraction) where
  add a b := round (a.value + b.value)
  sub a b := round (a.value - b.value)
  mul a b := round (a.value * b.value)
  div a b := round (a.value / b.value)
  neg a := round (-a.value)
  zero := round 0
  one := round 1

noncomputable instance : Precise (Binary fraction) where
  natCast n := round n
  half := round (1 / 2)
  pi := round Real.pi
  invSqrtTwo := round (1 / √2)
  sin a := round (Real.sin a.value)
  cos a := round (Real.cos a.value)
  sqrt a := round (√a.value)
  arctan a := round (Real.arctan a.value)

noncomputable instance : Sample (Binary fraction) (Binary fraction) where
  round := id
  bytes := 8

theorem value_mul (a b : Binary fraction) :
    (a * b).value = nearest fraction (a.value * b.value) := rfl

theorem value_div (a b : Binary fraction) :
    (a / b).value = nearest fraction (a.value / b.value) := rfl

theorem value_natCast (n : ℕ) : (n : Binary fraction).value = nearest fraction n := rfl

/-- Doubling is exact. -/
theorem value_two_mul (a : Binary fraction) :
    (((2 : ℕ) : Binary fraction) * a).value = 2 * a.value := by
  have htwo : nearest fraction ((2 : ℕ) : ℝ) = 2 := by
    have hle : |(2 : ℤ)| ≤ 2 ^ (fraction + 1) := le_self_pow₀ one_le_two (by omega)
    exact_mod_cast nearest_intCast hle
  rw [value_mul, value_natCast, htwo, nearest_two_mul, a.rounded]

/-- Doubling is exact at all magnitudes, as the exponent is not bounded. -/
theorem exactScaling (fraction limit : ℕ) :
    ExactScaling (fun _ : Binary fraction => True) limit where
  mul_comm a b := by
    ext
    rw [value_mul, value_mul, mul_comm]
  mul_two_mul a b _ _ := by
    ext
    rw [value_mul, value_two_mul, value_two_mul, value_mul, mul_left_comm, nearest_two_mul]
  two_mul_div a b _ _ := by
    ext
    rw [value_two_mul, value_div, value_div, value_two_mul, ← nearest_two_mul, ← mul_div_assoc,
      mul_div_mul_left _ _ two_ne_zero]
  cast_two_mul k _ := by
    ext
    rw [value_two_mul, value_natCast, value_natCast, ← nearest_two_mul]
    push_cast
    rfl
  moderate_cast _ _ _ := trivial
  moderate_arctan := trivial
  moderate_step _ _ _ := trivial

end Binary

end CosineTransform
