import CosineTransform.Fourier.Point
import CosineTransform.Scalar
import Mathlib.Analysis.SpecialFunctions.Trigonometric.Arctan
import Mathlib.Analysis.SpecialFunctions.Sqrt

/-!
# Exact real arithmetic

The real numbers with their own functions are a type of samples, and the type in which the tables of
such samples are computed: nothing is rounded. Over them a point is a complex number, and the
operations on points are the ones on complex numbers.
-/

namespace CosineTransform

open Complex (I)
open scoped ComplexConjugate

-- Named, so that a numeral in a definition is the same term in every module.
instance atLeastTwo_two : Nat.AtLeastTwo 2 := ⟨le_refl 2⟩

instance atLeastTwo_three : Nat.AtLeastTwo 3 := ⟨by decide⟩

instance atLeastTwo_four : Nat.AtLeastTwo 4 := ⟨by decide⟩

-- A statement about real numbers is to be about their own operations.
attribute [instance(50)] Scalar.toAdd Scalar.toSub Scalar.toMul Scalar.toDiv Scalar.toNeg
  Scalar.toZero Scalar.toOne Precise.toNatCast

noncomputable instance : Scalar ℝ where

noncomputable instance : Precise ℝ where
  half := 1 / 2
  pi := Real.pi
  invSqrtTwo := 1 / √2
  sin := Real.sin
  cos := Real.cos
  sqrt := Real.sqrt
  arctan := Real.arctan

noncomputable instance : Sample ℝ ℝ where
  round := id
  bytes := 8

/-! ## Signs -/

/-- The imaginary unit with the given sign. -/
def Sign.unit : Sign → ℂ
  | negative => -I
  | positive => I

theorem Sign.unit_flip (sign : Sign) : sign.flip.unit = -sign.unit := by
  cases sign
  · exact (neg_neg I).symm
  · rfl

theorem Sign.unit_mul_unit (sign : Sign) : sign.unit * sign.unit = -1 := by
  cases sign
  · exact (neg_mul_neg I I).trans Complex.I_mul_I
  · exact Complex.I_mul_I

/-- The point at the angle `t` of the unit circle, or its mirror image for the negative sign. -/
noncomputable def Sign.circle (sign : Sign) (t : ℝ) : ℂ := Complex.exp (sign.unit * t)

theorem Sign.circle_eq (sign : Sign) (t : ℝ) :
    sign.circle t = (Real.cos t : ℂ) + sign.unit * (Real.sin t : ℂ) := by
  cases sign
  · rw [circle, unit, neg_mul, mul_comm I, ← neg_mul, Complex.exp_mul_I, Complex.cos_neg,
      Complex.sin_neg, Complex.ofReal_cos, Complex.ofReal_sin]
    ring
  · rw [circle, unit, mul_comm I, Complex.exp_mul_I, Complex.ofReal_cos, Complex.ofReal_sin]
    ring

theorem Sign.circle_add (sign : Sign) (s t : ℝ) :
    sign.circle (s + t) = sign.circle s * sign.circle t := by
  rw [circle, circle, circle, ← Complex.exp_add, Complex.ofReal_add, mul_add]

theorem Sign.conj_unit (sign : Sign) : conj sign.unit = -sign.unit := by
  cases sign
  · simp [unit]
  · simp [unit]

theorem Sign.conj_circle (sign : Sign) (t : ℝ) : conj (sign.circle t) = sign.circle (-t) := by
  rw [circle, circle, ← Complex.exp_conj, map_mul, conj_unit, Complex.conj_ofReal]
  congr 1
  push_cast
  ring

/-! ## Points as complex numbers -/

namespace Point

/-- A complex number as a point. -/
def ofComplex (z : ℂ) : Point ℝ := ⟨z.re, z.im⟩

theorem ofComplex_add (z w : ℂ) : ofComplex (z + w) = ofComplex z + ofComplex w := rfl

theorem ofComplex_sub (z w : ℂ) : ofComplex (z - w) = ofComplex z - ofComplex w := rfl

theorem ofComplex_add_conj (z w : ℂ) : ofComplex (z + conj w) = ⟨z.re + w.re, z.im - w.im⟩ := by
  rw [ofComplex, Complex.add_re, Complex.add_im, Complex.conj_re, Complex.conj_im, sub_eq_add_neg]

theorem quarterTurn_ofComplex (sign : Sign) (z w : ℂ) :
    quarterTurn sign (ofComplex z) (ofComplex w) = ofComplex (z + sign.unit * w) := by
  cases sign
  · change (⟨z.re + w.im, z.im - w.re⟩ : Point ℝ) = ⟨(z + -I * w).re, (z + -I * w).im⟩
    simp [sub_eq_add_neg]
  · change (⟨z.re - w.im, z.im + w.re⟩ : Point ℝ) = ⟨(z + I * w).re, (z + I * w).im⟩
    simp [sub_eq_add_neg]

/-- The order of the factors does not matter to real numbers. -/
theorem weigh_eq_turn (sign : Sign) (w z : Point ℝ) : weigh sign w z = turn sign z w := by
  cases sign
  · change (⟨w.re * z.re + w.im * z.im, w.re * z.im - w.im * z.re⟩ : Point ℝ) =
      ⟨z.re * w.re + z.im * w.im, z.im * w.re - z.re * w.im⟩
    simp only [mul_comm]
  · change (⟨w.re * z.re - w.im * z.im, w.re * z.im + w.im * z.re⟩ : Point ℝ) =
      ⟨z.re * w.re - z.im * w.im, z.im * w.re + z.re * w.im⟩
    simp only [mul_comm]

/-- Turning a point is multiplying it. -/
theorem turn_eq_ofComplex (sign : Sign) (z : ℂ) (a b : ℝ) :
    turn sign (ofComplex z) ⟨a, b⟩ = ofComplex (z * (a + sign.unit * b)) := by
  cases sign
  · change (⟨z.re * a + z.im * b, z.im * a - z.re * b⟩ : Point ℝ) = _
    simp [ofComplex, Sign.unit]
    ring
  · change (⟨z.re * a - z.im * b, z.im * a + z.re * b⟩ : Point ℝ) = _
    simp [ofComplex, Sign.unit]
    ring

theorem turn_ofComplex (sign : Sign) (z : ℂ) (t : ℝ) :
    turn sign (ofComplex z) ⟨Real.cos t, Real.sin t⟩ = ofComplex (z * sign.circle t) := by
  rw [turn_eq_ofComplex, Sign.circle_eq]

end Point

end CosineTransform
