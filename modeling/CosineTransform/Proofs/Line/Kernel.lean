import Mathlib.Algebra.BigOperators.Intervals
import CosineTransform.Proofs.Buffer
import CosineTransform.Proofs.Reals

/-!
# Kernels of the line stages

Without its rotation a line transform of `n` samples is a matrix with the entries `kernel n j t`,
and the rotation is a linear map `rotation n` of the lines. Two facts tie them to the cosine
transform: the rotation turns the kernel into the cosines (`rotation_kernel`), and it can be moved
from one factor of an inner product to the other (`sum_mul_rotation`). The first gives the forward
transform, and both give the inverse one.
-/

namespace CosineTransform.Stage

open Real (pi)

/-- The angle of `k` parts of a quarter circle in `n` parts. -/
noncomputable def turnAngle (n k : ℕ) : ℝ := pi * k / (2 * n)

/-- Sample `k` of `n` samples after the rotation: it and its counterpart at the other end of the
line are turned and halved, and sample `0` stays. -/
noncomputable def rotation (n : ℕ) (y : ℕ → ℝ) (k : ℕ) : ℝ :=
  if k = 0 then y 0
  else (Real.cos (turnAngle n k) - Real.sin (turnAngle n k)) / 2 * y k +
    (Real.cos (turnAngle n k) + Real.sin (turnAngle n k)) / 2 * y (n - k)

/-- The share of sample `j` in output `t` before the rotation. -/
noncomputable def kernel (n j t : ℕ) : ℝ :=
  let a := 4 * ((j + 1) / 2 : ℕ) * turnAngle n t
  if j % 2 = 0 then Real.cos a + Real.sin a else Real.cos a - Real.sin a

theorem turnAngle_zero (n : ℕ) : turnAngle n 0 = 0 := by simp [turnAngle]

/-- Counterparts have complementary angles. -/
theorem turnAngle_sub {n k : ℕ} (hn : 0 < n) (hk : k ≤ n) :
    turnAngle n (n - k) = pi / 2 - turnAngle n k := by
  have hn' : (n : ℝ) ≠ 0 := by positivity
  rw [turnAngle, turnAngle, Nat.cast_sub hk]
  field_simp

/-! ## The rotation of the kernel -/

theorem kernel_zero_right (n j : ℕ) : kernel n j 0 = 1 := by
  simp [kernel, turnAngle_zero]

/-- The rotation turns the kernel of the stages before it into that of the cosine transform. -/
theorem rotation_kernel {n t : ℕ} (ht : t < n) (j : ℕ) :
    rotation n (kernel n j) t = Real.cos ((2 * j + 1 : ℕ) * turnAngle n t) := by
  rw [rotation]
  split
  · rename_i ht0
    rw [kernel_zero_right, ht0, turnAngle_zero, mul_zero, Real.cos_zero]
  · have hreflect : 4 * (((j + 1) / 2 : ℕ) : ℝ) * turnAngle n (n - t) =
        ((j + 1) / 2 : ℕ) * (2 * pi) - 4 * ((j + 1) / 2 : ℕ) * turnAngle n t := by
      rw [turnAngle_sub (by omega) ht.le]
      ring
    rw [kernel, kernel]
    rw [hreflect, Real.cos_nat_mul_two_pi_sub, Real.sin_nat_mul_two_pi_sub]
    split
    · have hangle : ((2 * j + 1 : ℕ) : ℝ) * turnAngle n t =
          4 * ((j + 1) / 2 : ℕ) * turnAngle n t + turnAngle n t := by
        rw [show 2 * j + 1 = 4 * ((j + 1) / 2) + 1 by omega]
        push_cast
        ring
      rw [hangle, Real.cos_add]
      ring
    · have hangle : ((2 * j + 1 : ℕ) : ℝ) * turnAngle n t =
          4 * ((j + 1) / 2 : ℕ) * turnAngle n t - turnAngle n t := by
        have hsum : 2 * j + 1 + 1 = 4 * ((j + 1) / 2) := by omega
        have hcast : ((2 * j + 1 : ℕ) : ℝ) + 1 = 4 * ((j + 1) / 2 : ℕ) := by
          exact_mod_cast hsum
        rw [← hcast]
        ring
      rw [hangle, Real.cos_sub]
      ring

/-! ## The rotation as a linear map -/

/-- The rotation of a sum of lines, term by term. -/
theorem rotation_sum (n m : ℕ) (x : ℕ → ℝ) (g : ℕ → ℕ → ℝ) (k : ℕ) :
    rotation n (fun t => ∑ j ∈ Finset.range m, x j * g j t) k =
      ∑ j ∈ Finset.range m, x j * rotation n (g j) k := by
  unfold rotation
  split
  · rfl
  · rw [Finset.mul_sum, Finset.mul_sum, ← Finset.sum_add_distrib]
    refine Finset.sum_congr rfl ?_
    intro j _
    ring

/-- The rotation is its own transpose. -/
theorem sum_mul_rotation (n : ℕ) (x y : ℕ → ℝ) :
    ∑ t ∈ Finset.range n, x t * rotation n y t = ∑ t ∈ Finset.range n, rotation n x t * y t := by
  cases n with
  | zero => rfl
  | succ n =>
    -- the counterparts among the samples from `1` on
    have hreflect : ∑ t ∈ Finset.range n, (Real.cos (turnAngle (n + 1) (t + 1)) +
          Real.sin (turnAngle (n + 1) (t + 1))) / 2 * (x (t + 1) * y (n + 1 - (t + 1))) =
        ∑ t ∈ Finset.range n, (Real.cos (turnAngle (n + 1) (t + 1)) +
          Real.sin (turnAngle (n + 1) (t + 1))) / 2 * (x (n + 1 - (t + 1)) * y (t + 1)) := by
      rw [← Finset.sum_range_reflect]
      refine Finset.sum_congr rfl ?_
      intro t ht
      have ht := Finset.mem_range.1 ht
      rw [show n - 1 - t + 1 = n + 1 - (t + 1) by omega, turnAngle_sub (by omega) (by omega),
        Real.cos_pi_div_two_sub, Real.sin_pi_div_two_sub,
        show n + 1 - (n + 1 - (t + 1)) = t + 1 by omega, add_comm (Real.sin _)]
    rw [Finset.sum_range_succ', Finset.sum_range_succ']
    congr 1
    calc ∑ t ∈ Finset.range n, x (t + 1) * rotation (n + 1) y (t + 1)
        = ∑ t ∈ Finset.range n, (Real.cos (turnAngle (n + 1) (t + 1)) -
            Real.sin (turnAngle (n + 1) (t + 1))) / 2 * (x (t + 1) * y (t + 1)) +
          ∑ t ∈ Finset.range n, (Real.cos (turnAngle (n + 1) (t + 1)) +
            Real.sin (turnAngle (n + 1) (t + 1))) / 2 * (x (t + 1) * y (n + 1 - (t + 1))) := by
          rw [← Finset.sum_add_distrib]
          refine Finset.sum_congr rfl ?_
          intro t _
          rw [rotation, if_neg (Nat.succ_ne_zero t)]
          ring
      _ = ∑ t ∈ Finset.range n, rotation (n + 1) x (t + 1) * y (t + 1) := by
          rw [hreflect, ← Finset.sum_add_distrib]
          refine Finset.sum_congr rfl ?_
          intro t _
          rw [rotation, if_neg (Nat.succ_ne_zero t)]
          ring

end CosineTransform.Stage
