import CosineTransform.Proofs.Reals
import Mathlib.Algebra.BigOperators.Intervals

/-!
# The discrete Fourier transform

`dft` is the transform by its defining sum. Its outputs with an even index are the transform of half
as many sums (`dft_even`), and those with an odd index the transform of half as many turned
differences (`dft_odd`). The odd half taken apart once more gives the two quarters of the
split-radix recursion (`dft_one`, `dft_three`).
-/

namespace CosineTransform

open Real (pi)

/-! ## Turns of the unit circle -/

namespace Sign

theorem circle_zero (sign : Sign) : sign.circle 0 = 1 := by simp [circle]

theorem circle_nat_mul_two_pi (sign : Sign) (k : ℕ) : sign.circle (k * (2 * pi)) = 1 := by
  have hsin : Real.sin (k * (2 * pi)) = 0 := by
    simpa using Real.sin_add_nat_mul_two_pi 0 k
  rw [circle_eq, Real.cos_nat_mul_two_pi, hsin]
  simp

theorem circle_pi (sign : Sign) : sign.circle pi = -1 := by
  rw [circle_eq, Real.cos_pi, Real.sin_pi]
  simp

theorem circle_pi_div_two (sign : Sign) : sign.circle (pi / 2) = sign.unit := by
  rw [circle_eq, Real.cos_pi_div_two, Real.sin_pi_div_two]
  simp

end Sign

/-! ## The transform -/

/-- Output `k` of the discrete Fourier transform of `n` points. -/
noncomputable def dft (sign : Sign) (n : ℕ) (x : ℕ → ℂ) (k : ℕ) : ℂ :=
  ∑ j ∈ Finset.range n, x j * sign.circle (2 * pi * j * k / n)

theorem dft_congr {sign : Sign} {n : ℕ} {x y : ℕ → ℂ} (h : ∀ j < n, x j = y j) (k : ℕ) :
    dft sign n x k = dft sign n y k :=
  Finset.sum_congr rfl fun j hj => by rw [h j (Finset.mem_range.1 hj)]

/-- The transform of twice as many points pairs each point with the one half of the way on. -/
theorem dft_two_mul (sign : Sign) {n : ℕ} (x : ℕ → ℂ) (k : ℕ) :
    dft sign (2 * n) x k = ∑ j ∈ Finset.range n,
      (x j * sign.circle (2 * pi * j * k / (2 * n : ℕ)) +
        x (j + n) * sign.circle (2 * pi * (j + n : ℕ) * k / (2 * n : ℕ))) := by
  rw [dft, two_mul, Finset.sum_range_add, ← Finset.sum_add_distrib, ← two_mul]
  exact Finset.sum_congr rfl fun j _ => by rw [Nat.add_comm n j]

theorem dft_even (sign : Sign) {n : ℕ} (hn : 0 < n) (x : ℕ → ℂ) (k : ℕ) :
    dft sign (2 * n) x (2 * k) = dft sign n (fun j => x j + x (j + n)) k := by
  have hn' : (n : ℝ) ≠ 0 := by positivity
  rw [dft_two_mul]
  refine Finset.sum_congr rfl ?_
  intro j _
  have hnear : 2 * pi * j * (2 * k : ℕ) / (2 * n : ℕ) = 2 * pi * j * k / n := by
    push_cast
    field_simp
  -- half a line further on, an even output has made whole turns
  have hfar : 2 * pi * (j + n : ℕ) * (2 * k : ℕ) / (2 * n : ℕ) =
      2 * pi * j * k / n + k * (2 * pi) := by
    push_cast
    field_simp
  rw [hnear, hfar, Sign.circle_add, Sign.circle_nat_mul_two_pi, mul_one, add_mul]

theorem dft_odd (sign : Sign) {n : ℕ} (hn : 0 < n) (x : ℕ → ℂ) (k : ℕ) :
    dft sign (2 * n) x (2 * k + 1) =
      dft sign n (fun j => (x j - x (j + n)) * sign.circle (2 * pi * j / (2 * n : ℕ))) k := by
  have hn' : (n : ℝ) ≠ 0 := by positivity
  rw [dft_two_mul]
  refine Finset.sum_congr rfl ?_
  intro j _
  have hnear : 2 * pi * j * (2 * k + 1 : ℕ) / (2 * n : ℕ) =
      2 * pi * j / (2 * n : ℕ) + 2 * pi * j * k / n := by
    push_cast
    field_simp
    ring
  -- half a line further on, an odd output has made half a turn more
  have hfar : 2 * pi * (j + n : ℕ) * (2 * k + 1 : ℕ) / (2 * n : ℕ) =
      2 * pi * j / (2 * n : ℕ) + 2 * pi * j * k / n + k * (2 * pi) + pi := by
    push_cast
    field_simp
    ring
  rw [hnear, hfar]
  simp only [Sign.circle_add, Sign.circle_nat_mul_two_pi, Sign.circle_pi]
  ring

/-! ## Small transforms -/

theorem dft_one_zero (sign : Sign) (x : ℕ → ℂ) : dft sign 1 x 0 = x 0 := by
  rw [dft, Finset.sum_range_one, Nat.cast_zero, mul_zero, zero_div, Sign.circle_zero, mul_one]

theorem dft_two_zero (sign : Sign) (x : ℕ → ℂ) : dft sign 2 x 0 = x 0 + x 1 :=
  (dft_even sign one_pos x 0).trans (dft_one_zero sign _)

theorem dft_two_one (sign : Sign) (x : ℕ → ℂ) : dft sign 2 x 1 = x 0 - x 1 := by
  refine (dft_odd sign one_pos x 0).trans ((dft_one_zero sign _).trans ?_)
  rw [Nat.cast_zero, mul_zero, zero_div, Sign.circle_zero, mul_one, zero_add]

/-! ## The quarters of the split-radix recursion -/

section Quarters

variable (sign : Sign) (n : ℕ) (x : ℕ → ℂ)

/-- Point `j` of the quarter of `4 * n` points that gives the outputs with index `4 * k + 1`. -/
noncomputable def quarterOne (j : ℕ) : ℂ :=
  (x j - x (j + 2 * n) + sign.unit * (x (j + n) - x (j + n + 2 * n))) *
    sign.circle (2 * pi * j / (4 * n : ℕ))

/-- Point `j` of the quarter of `4 * n` points that gives the outputs with index `4 * k + 3`. -/
noncomputable def quarterThree (j : ℕ) : ℂ :=
  (x j - x (j + 2 * n) + sign.flip.unit * (x (j + n) - x (j + n + 2 * n))) *
    sign.circle (3 * (2 * pi * j / (4 * n : ℕ)))

variable {n}

private theorem circle_quarter (hn : 0 < n) (j : ℕ) :
    sign.circle (2 * pi * (j + n : ℕ) / (2 * (2 * n) : ℕ)) =
      sign.unit * sign.circle (2 * pi * j / (4 * n : ℕ)) := by
  have hn' : (n : ℝ) ≠ 0 := by positivity
  have hangle : 2 * pi * (j + n : ℕ) / (2 * (2 * n) : ℕ) =
      pi / 2 + 2 * pi * j / (4 * n : ℕ) := by
    push_cast
    field_simp
    ring
  rw [hangle, Sign.circle_add, Sign.circle_pi_div_two]

theorem dft_one (hn : 0 < n) (k : ℕ) :
    dft sign (4 * n) x (4 * k + 1) = dft sign n (quarterOne sign n x) k := by
  rw [show 4 * n = 2 * (2 * n) by ring, show 4 * k + 1 = 2 * (2 * k) + 1 by ring,
    dft_odd sign (by omega), dft_even sign hn]
  refine dft_congr (fun j _ => ?_) k
  rw [circle_quarter sign hn, quarterOne, show 4 * n = 2 * (2 * n) by ring]
  ring

theorem dft_three (hn : 0 < n) (k : ℕ) :
    dft sign (4 * n) x (4 * k + 3) = dft sign n (quarterThree sign n x) k := by
  have hn' : (n : ℝ) ≠ 0 := by positivity
  rw [show 4 * n = 2 * (2 * n) by ring, show 4 * k + 3 = 2 * (2 * k + 1) + 1 by ring,
    dft_odd sign (by omega), dft_odd sign hn]
  refine dft_congr (fun j _ => ?_) k
  have hangle : 3 * (2 * pi * j / (2 * (2 * n) : ℕ)) =
      2 * pi * j / (2 * (2 * n) : ℕ) + 2 * pi * j / (2 * n : ℕ) := by
    push_cast
    field_simp
    ring
  rw [circle_quarter sign hn, quarterThree, show 4 * n = 2 * (2 * n) by ring, Sign.unit_flip,
    hangle, Sign.circle_add]
  ring

end Quarters

end CosineTransform
