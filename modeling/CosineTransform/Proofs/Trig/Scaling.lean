import CosineTransform.Trig.Twiddles
import Mathlib.Algebra.Order.Group.Nat
import Mathlib.Algebra.Order.Ring.Nat

/-!
# Exact scaling

The angles of a table are multiples of its step, which is rounded, and so is each multiple. A longer
table meets the angles of a shorter one again, as twice the multiple of half the step.
`ExactScaling` says that doubling rounds nothing off, as in binary floating point it does not while
nothing overflows or underflows, and leaves all else about the operations open. That is enough for
the angles of both tables to be the same values (`ExactScaling.step_mul`).
-/

namespace CosineTransform

open Twiddles (step)

/-- Doubling is exact at the magnitudes that count as moderate. Among them are those of the angles
and of the numbers of samples in tables for lines of up to `limit` samples. -/
structure ExactScaling {R : Type} [Precise R] (moderate : R → Prop) (limit : ℕ) : Prop where
  mul_comm : ∀ a b : R, a * b = b * a
  /-- A product doubles with a factor. -/
  mul_two_mul : ∀ a b : R, moderate a → moderate b →
    a * (((2 : ℕ) : R) * b) = ((2 : ℕ) : R) * (a * b)
  /-- A quotient halves as its divisor doubles. -/
  two_mul_div : ∀ a b : R, moderate a → moderate b →
    ((2 : ℕ) : R) * (a / (((2 : ℕ) : R) * b)) = a / b
  /-- The conversion of a number of samples doubles with it. -/
  cast_two_mul : ∀ k : ℕ, 2 * k ≤ limit → ((2 * k : ℕ) : R) = ((2 : ℕ) : R) * (k : R)
  moderate_cast : ∀ k : ℕ, 0 < k → k ≤ limit → moderate (k : R)
  moderate_arctan : moderate (Precise.arctan 1)
  moderate_step : ∀ k : ℕ, 0 < k → k ≤ limit → moderate (step k)

namespace ExactScaling

variable {R : Type} [Precise R] {moderate : R → Prop} {limit : ℕ} (h : ExactScaling moderate limit)

include h

/-- Half a step is the step of twice as many parts. -/
theorem two_mul_step {s : ℕ} (hs : 0 < s) (hlimit : 2 * s ≤ limit) :
    ((2 : ℕ) : R) * step (2 * s) = step s := by
  rw [step, h.cast_two_mul s hlimit]
  exact h.two_mul_div _ _ h.moderate_arctan (h.moderate_cast s hs (by omega))

/-- Twice the multiple of half the step is the same angle. -/
theorem step_two_mul {s j : ℕ} (hs : 0 < s) (hj : 0 < j) (hs' : 2 * s ≤ limit)
    (hj' : 2 * j ≤ limit) : (step (2 * s) : R) * ((2 * j : ℕ) : R) = step s * (j : R) := by
  have hstep := h.moderate_step (2 * s) (by omega) hs'
  have hcast := h.moderate_cast j hj (by omega)
  calc (step (2 * s) : R) * ((2 * j : ℕ) : R)
      = step (2 * s) * (((2 : ℕ) : R) * (j : R)) := by rw [h.cast_two_mul j hj']
    _ = ((2 : ℕ) : R) * ((j : R) * step (2 * s)) := by
      rw [h.mul_two_mul _ _ hstep hcast, h.mul_comm (step (2 * s))]
    _ = (j : R) * (((2 : ℕ) : R) * step (2 * s)) := (h.mul_two_mul _ _ hcast hstep).symm
    _ = step s * (j : R) := by rw [h.two_mul_step hs hs', h.mul_comm]

/-- A table that is longer by a power of two meets the same angles. -/
theorem step_mul {s j : ℕ} (hs : 0 < s) (hj : 0 < j) (a : ℕ) (hs' : 2 ^ a * s ≤ limit)
    (hj' : 2 ^ a * j ≤ limit) :
    (step (2 ^ a * s) : R) * ((2 ^ a * j : ℕ) : R) = step s * (j : R) := by
  induction a with
  | zero => rw [pow_zero, one_mul, one_mul]
  | succ a ih =>
    rw [pow_succ', mul_assoc] at hs' hj' ⊢
    rw [mul_assoc, h.step_two_mul (Nat.mul_pos (Nat.two_pow_pos a) hs)
      (Nat.mul_pos (Nat.two_pow_pos a) hj) hs' hj', ih (by omega) (by omega)]

/-- All the parts of a power of two parts are one angle. -/
theorem step_mul_self {k : ℕ} (hk : 2 ^ k ≤ limit) :
    (step (2 ^ k) : R) * ((2 ^ k : ℕ) : R) = step 1 * ((1 : ℕ) : R) := by
  have hone := h.step_mul one_pos one_pos k (by omega) (by omega)
  rwa [mul_one] at hone

/-- Three times two steps are six steps. -/
theorem three_mul_step {s : ℕ} (hs : 0 < s) (hs' : s ≤ limit) (hsix : 6 ≤ limit) :
    ((3 : ℕ) : R) * (step s * ((2 : ℕ) : R)) = step s * ((6 : ℕ) : R) := by
  have hstep := h.moderate_step s hs hs'
  have hthree := h.moderate_cast 3 (by omega) (by omega)
  calc ((3 : ℕ) : R) * (step s * ((2 : ℕ) : R))
      = ((2 : ℕ) : R) * (((3 : ℕ) : R) * step s) := by
        rw [h.mul_comm (step s), h.mul_two_mul _ _ hthree hstep]
    _ = step s * (((2 : ℕ) : R) * ((3 : ℕ) : R)) := by
        rw [h.mul_comm ((3 : ℕ) : R), h.mul_two_mul _ _ hstep hthree]
    _ = step s * ((6 : ℕ) : R) := by rw [← h.cast_two_mul 3 hsix]

end ExactScaling

end CosineTransform
