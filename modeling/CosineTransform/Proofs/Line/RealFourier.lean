import CosineTransform.Proofs.Line.RealStages

/-!
# Fourier transforms of real lines

A line of `2 * m` real samples is transformed as `m` complex points. Forward, its points are split
and then transformed with negative sign; inverse, they are transformed with positive sign and then
split. Either way the outcome, read as samples again, is the product of the line with the matrix
`kernel (2 * m)` or with its transpose.
-/

namespace CosineTransform.Stage

open Buffer (ofFn)
open Complex (I)
open Real (pi)
open scoped ComplexConjugate

/-- A sum over twice as many terms, in pairs of neighbours. -/
theorem sum_range_two_mul {M : Type} [AddCommMonoid M] (f : ℕ → M) (m : ℕ) :
    ∑ j ∈ Finset.range (2 * m), f j = ∑ i ∈ Finset.range m, (f (2 * i) + f (2 * i + 1)) := by
  induction m with
  | zero => rfl
  | succ m ih =>
    rw [Nat.mul_succ, Finset.sum_range_add, ih, Finset.sum_range_succ]
    simp [Finset.sum_range_succ]

/-! ## The kernel of neighbours -/

section Kernel

variable {m : ℕ}

theorem kernel_two_mul (hm : 0 < m) (j t : ℕ) :
    kernel (2 * m) j t =
      if j % 2 = 0 then Real.cos (t * turnAngle m (2 * ((j + 1) / 2))) +
        Real.sin (t * turnAngle m (2 * ((j + 1) / 2)))
      else Real.cos (t * turnAngle m (2 * ((j + 1) / 2))) -
        Real.sin (t * turnAngle m (2 * ((j + 1) / 2))) := by
  have hangle : 4 * (((j + 1) / 2 : ℕ) : ℝ) * turnAngle (2 * m) t =
      t * turnAngle m (2 * ((j + 1) / 2)) := by
    have hm' : (m : ℝ) ≠ 0 := by positivity
    rw [turnAngle, turnAngle, Nat.cast_mul 2 ((j + 1) / 2)]
    push_cast
    field_simp
    ring
  rw [kernel, hangle]

theorem kernel_even (hm : 0 < m) (i t : ℕ) :
    kernel (2 * m) (2 * i) t =
      Real.cos (t * turnAngle m (2 * i)) + Real.sin (t * turnAngle m (2 * i)) := by
  rw [kernel_two_mul hm, if_pos (by omega), show (2 * i + 1) / 2 = i by omega]

theorem kernel_odd (hm : 0 < m) (i t : ℕ) :
    kernel (2 * m) (2 * i + 1) t =
      Real.cos (t * turnAngle m (2 * (i + 1))) - Real.sin (t * turnAngle m (2 * (i + 1))) := by
  rw [kernel_two_mul hm, if_neg (by omega), show (2 * i + 1 + 1) / 2 = i + 1 by omega]

theorem kernel_last (hm : 0 < m) (t : ℕ) : kernel (2 * m) (2 * m - 1) t = (-1) ^ t := by
  have hangle : turnAngle m (2 * m) = pi := by
    have hm' : (m : ℝ) ≠ 0 := by positivity
    rw [turnAngle]
    push_cast
    field_simp
  rw [show 2 * m - 1 = 2 * (m - 1) + 1 by omega, kernel_odd hm, Nat.sub_add_cancel hm, hangle,
    Real.cos_nat_mul_pi, Real.sin_nat_mul_pi, sub_zero]

end Kernel

/-! ## Angles of a transform -/

section Angles

variable {m : ℕ} (hm : 0 < m)

include hm

/-- The angles of a Fourier transform are multiples of the angles of rotation. -/
theorem dft_angle (j k : ℕ) : 2 * pi * j * k / m = (2 * j : ℕ) * turnAngle m (2 * k) := by
  have hm' : (m : ℝ) ≠ 0 := by positivity
  rw [turnAngle]
  push_cast
  field_simp

/-- The angles of points that are counterparts add up to full circles. -/
theorem circle_counterpart (sign : Sign) {k : ℕ} (hk : k ≤ m) (q : ℕ) :
    sign.circle ((2 * q : ℕ) * turnAngle m (2 * (m - k))) =
      conj (sign.circle ((2 * q : ℕ) * turnAngle m (2 * k))) := by
  have hm' : (m : ℝ) ≠ 0 := by positivity
  have hangle : ((2 * q : ℕ) : ℝ) * turnAngle m (2 * (m - k)) =
      q * (2 * pi) + -((2 * q : ℕ) * turnAngle m (2 * k)) := by
    rw [turnAngle, turnAngle]
    push_cast [Nat.cast_sub hk]
    field_simp
    ring
  rw [hangle, Sign.circle_add, Sign.circle_nat_mul_two_pi, one_mul, Sign.conj_circle]

end Angles

/-! ## Forward -/

/-- A point that exchanged its share, and the conjugate of the share, in a frame of its own. -/
theorem exchanged (a v : ℂ) :
    a * (1 - (1 + -I * v) / 2) + conj (a * ((1 + -I * v) / 2)) = ⟨a.re, (a * v).re⟩ := by
  have hconj : conj (a * ((1 + -I * v) / 2)) = conj a * ((1 + I * conj v) / 2) := by
    rw [map_mul, map_div₀, map_add, map_mul, map_neg, map_one, Complex.conj_I, Complex.conj_ofNat,
      neg_neg]
  rw [hconj]
  apply Complex.ext
  · simp [Complex.div_ofNat_re, Complex.div_ofNat_im]
    ring
  · simp [Complex.div_ofNat_re, Complex.div_ofNat_im]
    ring

/-- The transform of split points. Every point but the first adds to the real part what it has in
the direction of an even multiple of its angle, and to the imaginary part that of the next odd
one. -/
theorem dft_exchange {m : ℕ} (hm : 0 < m) (z : ℕ → ℂ) (q : ℕ) :
    dft .negative m (exchange .negative m z) q =
      z 0 + ∑ k ∈ Finset.range (m - 1), (⟨(z (k + 1) * Sign.negative.circle
          ((2 * q : ℕ) * turnAngle m (2 * (k + 1)))).re, (z (k + 1) * Sign.negative.circle
          ((2 * q + 1 : ℕ) * turnAngle m (2 * (k + 1)))).re⟩ : ℂ) := by
  obtain ⟨M, rfl⟩ : ∃ M, m = M + 1 := ⟨m - 1, by omega⟩
  rw [dft, Finset.sum_range_succ']
  simp only [mul_right_comm (2 * pi) _ (q : ℝ), dft_angle hm]
  have hterm (k : ℕ) : exchange .negative (M + 1) z (k + 1) *
        Sign.negative.circle ((2 * q : ℕ) * turnAngle (M + 1) (2 * (k + 1))) =
      z (k + 1) * Sign.negative.circle ((2 * q : ℕ) * turnAngle (M + 1) (2 * (k + 1))) *
          (1 - weight .negative (M + 1) (k + 1)) +
        conj (z (M + 1 - (k + 1))) * weight .negative (M + 1) (k + 1) *
          Sign.negative.circle ((2 * q : ℕ) * turnAngle (M + 1) (2 * (k + 1))) := by
    rw [exchange, if_neg (Nat.succ_ne_zero k)]
    ring
  -- what the counterparts give is summed in the order of the points that they give it to
  have hreflect : ∑ k ∈ Finset.range M, conj (z (M + 1 - (k + 1))) *
        weight .negative (M + 1) (k + 1) *
          Sign.negative.circle ((2 * q : ℕ) * turnAngle (M + 1) (2 * (k + 1))) =
      ∑ k ∈ Finset.range M, conj (z (k + 1) * Sign.negative.circle
        ((2 * q : ℕ) * turnAngle (M + 1) (2 * (k + 1))) * weight .negative (M + 1) (k + 1)) := by
    rw [← Finset.sum_range_reflect]
    refine Finset.sum_congr rfl ?_
    intro k hk
    have hk := Finset.mem_range.1 hk
    rw [show M - 1 - k + 1 = M + 1 - (k + 1) by omega, circle_counterpart hm _ (by omega),
      ← conj_weight .negative (by omega), show M + 1 - (M + 1 - (k + 1)) = k + 1 by omega, map_mul,
      map_mul]
    ring
  rw [Finset.sum_congr rfl fun k _ => hterm k, Finset.sum_add_distrib, hreflect,
    ← Finset.sum_add_distrib, add_comm]
  have hfirst : exchange .negative (M + 1) z 0 *
      Sign.negative.circle ((2 * q : ℕ) * turnAngle (M + 1) (2 * 0)) = z 0 := by
    rw [exchange, if_pos rfl, mul_zero, turnAngle_zero, mul_zero, Sign.circle_zero, mul_one]
  rw [hfirst]
  congr 1
  refine Finset.sum_congr rfl ?_
  intro k _
  rw [weight, Sign.unit, exchanged, mul_assoc, ← Sign.circle_add]
  have hangle : ((2 * q : ℕ) : ℝ) * turnAngle (M + 1) (2 * (k + 1)) +
      turnAngle (M + 1) (2 * (k + 1)) = (2 * q + 1 : ℕ) * turnAngle (M + 1) (2 * (k + 1)) := by
    push_cast
    ring
  rw [hangle]

theorem re_mul_circle (z : ℂ) (a : ℝ) :
    (z * Sign.negative.circle a).re = z.re * Real.cos a + z.im * Real.sin a := by
  rw [Sign.circle_eq, Sign.unit, Complex.mul_re]
  simp [-Complex.ofReal_cos, -Complex.ofReal_sin]

/-- The points that `fold` makes of a line of `2 * m` samples. -/
def foldPoint (m : ℕ) (x : ℕ → ℝ) (i : ℕ) : ℂ :=
  ⟨x (2 * i) + x (partner m i), x (2 * i) - x (partner m i)⟩

theorem fold_eq_foldPoint (m : ℕ) (x : ℕ → ℝ) :
    fold (ofFn (2 * m) x) = .ok (ofFn m fun i => .ofComplex (foldPoint m x i)) := fold_eq_ok m x

/-- The parts of the transform of a folded line are the product of the line with the kernel. -/
theorem sum_mul_kernel_left {m : ℕ} (hm : 0 < m) (x : ℕ → ℝ) (t : ℕ) :
    (if t % 2 = 0 then (dft .negative m (exchange .negative m (foldPoint m x)) (t / 2)).re
      else (dft .negative m (exchange .negative m (foldPoint m x)) (t / 2)).im) =
      ∑ j ∈ Finset.range (2 * m), x j * kernel (2 * m) j t := by
  -- the first point holds the first and the last sample
  have hends : (if t % 2 = 0 then (foldPoint m x 0).re else (foldPoint m x 0).im) =
      x 0 + x (2 * m - 1) * (-1) ^ t := by
    change (if t % 2 = 0 then x 0 + x (2 * m - 1) else x 0 - x (2 * m - 1)) = _
    split
    · rename_i heven
      rw [(Nat.even_iff.2 heven).neg_one_pow, mul_one]
    · rename_i hodd
      rw [(Nat.odd_iff.2 (by omega)).neg_one_pow]
      ring
  have hpoint (k : ℕ) : (foldPoint m x (k + 1) *
        Sign.negative.circle (t * turnAngle m (2 * (k + 1)))).re =
      x (2 * (k + 1)) * kernel (2 * m) (2 * (k + 1)) t +
        x (2 * k + 1) * kernel (2 * m) (2 * k + 1) t := by
    rw [re_mul_circle, kernel_even hm, kernel_odd hm]
    change (x (2 * (k + 1)) + x (2 * k + 1)) * _ + (x (2 * (k + 1)) - x (2 * k + 1)) * _ = _
    ring
  calc _ = (if t % 2 = 0 then (foldPoint m x 0).re else (foldPoint m x 0).im) +
        ∑ k ∈ Finset.range (m - 1),
          (foldPoint m x (k + 1) * Sign.negative.circle (t * turnAngle m (2 * (k + 1)))).re := by
        rw [dft_exchange hm]
        split
        · rw [Complex.add_re, Complex.re_sum, show 2 * (t / 2) = t by omega]
        · rw [Complex.add_im, Complex.im_sum, show 2 * (t / 2) + 1 = t by omega]
    _ = ∑ j ∈ Finset.range (2 * m), x j * kernel (2 * m) j t := by
        obtain ⟨M, rfl⟩ : ∃ M, m = M + 1 := ⟨m - 1, by omega⟩
        rw [hends, Finset.sum_congr rfl fun k _ => hpoint k, sum_range_two_mul,
          Finset.sum_add_distrib, Finset.sum_add_distrib, Finset.sum_range_succ',
          Finset.sum_range_succ (fun i => x (2 * i + 1) * kernel (2 * (M + 1)) (2 * i + 1) t),
          ← kernel_last hm, kernel_even hm 0, mul_zero, turnAngle_zero, mul_zero, Real.cos_zero,
          Real.sin_zero, show 2 * (M + 1) - 1 = 2 * M + 1 by omega, Nat.add_sub_cancel]
        ring

/-! ## Inverse -/

/-- A point that exchanged its share with a counterpart that mirrors it. -/
theorem mirrored (z v : ℂ) : z - (z - conj z) * ((1 + I * v) / 2) = z.re + z.im * v := by
  have hdouble : z - conj z = 2 * z.im * I := by
    rw [Complex.sub_conj]
    push_cast
    ring
  have hre : z - z.im * I = z.re := Complex.ext (by simp) (by simp)
  calc z - (z - conj z) * ((1 + I * v) / 2) = z - z.im * I - z.im * v * (I * I) := by
        rw [hdouble]
        ring
    _ = z.re + z.im * v := by
        rw [hre, Complex.I_mul_I]
        ring

/-- Splitting a transform interleaves its points with their imaginary parts turned half a step
on. -/
theorem exchange_dft {m k : ℕ} (hpos : 0 < k) (hk : k < m) (z : ℕ → ℂ) :
    exchange .positive m (dft .positive m z) k =
      ∑ q ∈ Finset.range m, (((z q).re : ℂ) + (z q).im *
        Sign.positive.circle (turnAngle m (2 * k))) *
          Sign.positive.circle ((2 * q : ℕ) * turnAngle m (2 * k)) := by
  have hm : 0 < m := by omega
  rw [exchange, if_neg hpos.ne', dft, dft, map_sum, ← Finset.sum_sub_distrib, Finset.sum_mul,
    ← Finset.sum_sub_distrib]
  -- point by point, as the counterpart of an output is its own sum
  refine Finset.sum_congr rfl ?_
  intro q _
  rw [dft_angle hm, dft_angle hm, circle_counterpart hm _ hk.le, map_mul, Complex.conj_conj, weight,
    Sign.unit, ← mirrored]
  ring

/-- The points that `pairs` makes of a line. -/
def pairPoint (y : ℕ → ℝ) (q : ℕ) : ℂ := ⟨y (2 * q), y (2 * q + 1)⟩

theorem pairs_eq_pairPoint (m : ℕ) (y : ℕ → ℝ) :
    pairs (ofFn (2 * m) y) = .ok (ofFn m fun q => .ofComplex (pairPoint y q)) := pairs_eq_ok m y

theorem exchange_pairPoint {m k : ℕ} (hpos : 0 < k) (hk : k < m) (y : ℕ → ℝ) :
    exchange .positive m (dft .positive m (pairPoint y)) k =
      ∑ t ∈ Finset.range (2 * m), (y t : ℂ) * Sign.positive.circle (t * turnAngle m (2 * k)) := by
  rw [exchange_dft hpos hk, sum_range_two_mul]
  refine Finset.sum_congr rfl ?_
  intro q _
  -- the imaginary part of a point is the odd sample, one turn further on
  have hodd : ((2 * q + 1 : ℕ) : ℝ) * turnAngle m (2 * k) =
      turnAngle m (2 * k) + (2 * q : ℕ) * turnAngle m (2 * k) := by
    push_cast
    ring
  rw [hodd, Sign.circle_add]
  change ((y (2 * q) : ℂ) + (y (2 * q + 1) : ℂ) * _) * _ = _
  ring

theorem exchange_pairPoint_re {m k : ℕ} (hpos : 0 < k) (hk : k < m) (y : ℕ → ℝ) :
    (exchange .positive m (dft .positive m (pairPoint y)) k).re =
      ∑ t ∈ Finset.range (2 * m), y t * Real.cos (t * turnAngle m (2 * k)) := by
  rw [exchange_pairPoint hpos hk, Complex.re_sum]
  refine Finset.sum_congr rfl ?_
  intro t _
  rw [Complex.re_ofReal_mul, Sign.circle_eq, Sign.unit]
  simp [-Complex.ofReal_cos, -Complex.ofReal_sin]

theorem exchange_pairPoint_im {m k : ℕ} (hpos : 0 < k) (hk : k < m) (y : ℕ → ℝ) :
    (exchange .positive m (dft .positive m (pairPoint y)) k).im =
      ∑ t ∈ Finset.range (2 * m), y t * Real.sin (t * turnAngle m (2 * k)) := by
  rw [exchange_pairPoint hpos hk, Complex.im_sum]
  refine Finset.sum_congr rfl ?_
  intro t _
  rw [Complex.im_ofReal_mul, Sign.circle_eq, Sign.unit]
  simp [-Complex.ofReal_cos, -Complex.ofReal_sin]

/-- The first of the split points holds the sums of the even and of the odd samples. -/
theorem exchange_pairPoint_zero (m : ℕ) (y : ℕ → ℝ) :
    exchange .positive m (dft .positive m (pairPoint y)) 0 =
      ⟨∑ q ∈ Finset.range m, y (2 * q), ∑ q ∈ Finset.range m, y (2 * q + 1)⟩ := by
  have hsum : dft .positive m (pairPoint y) 0 = ∑ q ∈ Finset.range m, pairPoint y q := by
    refine Finset.sum_congr rfl ?_
    intro q _
    rw [Nat.cast_zero, mul_zero, zero_div, Sign.circle_zero, mul_one]
  rw [exchange, if_pos rfl, hsum]
  apply Complex.ext
  · exact Complex.re_sum _ _
  · exact Complex.im_sum _ _

/-- The samples that `unfold` makes of split points are the product of the line with the transposed
kernel. -/
theorem sum_mul_kernel_right {m : ℕ} (hm : 0 < m) (y : ℕ → ℝ) {j : ℕ} (hj : j < 2 * m) :
    (if j % 2 = 0 then (exchange .positive m (dft .positive m (pairPoint y)) (j / 2)).re +
        (exchange .positive m (dft .positive m (pairPoint y)) (j / 2)).im
      else (exchange .positive m (dft .positive m (pairPoint y)) (holder m j)).re -
        (exchange .positive m (dft .positive m (pairPoint y)) (holder m j)).im) =
      ∑ t ∈ Finset.range (2 * m), y t * kernel (2 * m) j t := by
  split
  · obtain ⟨k, rfl⟩ : ∃ k, j = 2 * k := ⟨j / 2, by omega⟩
    rw [Nat.mul_div_cancel_left k two_pos]
    rcases Nat.eq_zero_or_pos k with rfl | hpos
    · rw [exchange_pairPoint_zero, sum_range_two_mul, ← Finset.sum_add_distrib]
      refine Finset.sum_congr rfl ?_
      intro q _
      rw [kernel_even hm, kernel_even hm, mul_zero, turnAngle_zero, mul_zero, mul_zero,
        Real.cos_zero, Real.sin_zero]
      ring
    · rw [exchange_pairPoint_re hpos (by omega), exchange_pairPoint_im hpos (by omega),
        ← Finset.sum_add_distrib]
      refine Finset.sum_congr rfl ?_
      intro t _
      rw [kernel_even hm, mul_add]
  · by_cases hlast : j + 1 = 2 * m
    · -- the last sample is held by the first point, beside sample `0`
      rw [holder, if_pos hlast, exchange_pairPoint_zero, sum_range_two_mul,
        ← Finset.sum_sub_distrib]
      refine Finset.sum_congr rfl ?_
      intro q _
      rw [show j = 2 * m - 1 by omega, kernel_last hm, kernel_last hm, pow_succ, pow_mul]
      norm_num
      ring
    · obtain ⟨k, rfl⟩ : ∃ k, j = 2 * k + 1 := ⟨j / 2, by omega⟩
      rw [holder, if_neg hlast, show (2 * k + 1 + 1) / 2 = k + 1 by omega,
        exchange_pairPoint_re (by omega) (by omega), exchange_pairPoint_im (by omega) (by omega),
        ← Finset.sum_sub_distrib]
      refine Finset.sum_congr rfl ?_
      intro t _
      rw [kernel_odd hm, mul_sub]

end CosineTransform.Stage
