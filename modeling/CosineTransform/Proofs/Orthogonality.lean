import CosineTransform.Proofs.Direct
import Mathlib.Algebra.BigOperators.Field
import Mathlib.LinearAlgebra.Matrix.NonsingularInverse

/-!
# Orthogonality of the waves

The samples of two different waves on a line have the inner product zero
(`Direct.sum_wave_mul_wave`), on lines of any length: the product of two waves is a sum of two
waves, and the samples of a wave that is not constant add up to zero. With the weights of the scaled
transforms the waves are orthonormal, so the matrix of either transform is the inverse of the other
one, and its transpose (`Direct.product_opposite`, `Direct.sum_product_mul`).
`Direct.planeProduct_opposite` and `Direct.sum_planeProduct_mul_planeProduct` say the same of the
two transforms of a matrix.
-/

namespace CosineTransform

/-- The other direction. -/
def Direction.opposite : Direction → Direction
  | forward => inverse
  | inverse => forward

namespace Direct

open Real (pi)
open Stage (turnAngle)

variable {n k l : ℕ}

/-! ## Sums of waves -/

/-- The cosines of the odd multiples of an angle, times twice its sine, telescope. -/
theorem two_mul_sin_mul_sum_cos (n : ℕ) (t : ℝ) :
    2 * Real.sin t * ∑ j ∈ Finset.range n, Real.cos ((2 * j + 1 : ℕ) * t) =
      Real.sin (2 * n * t) := by
  induction n with
  | zero => simp
  | succ n ih =>
    have hlow : 2 * (n : ℝ) * t = (2 * n + 1 : ℕ) * t - t := by
      push_cast
      ring
    have hhigh : 2 * ((n + 1 : ℕ) : ℝ) * t = (2 * n + 1 : ℕ) * t + t := by
      push_cast
      ring
    rw [Finset.sum_range_succ, mul_add, ih, hlow, hhigh, Real.sin_sub, Real.sin_add]
    ring

/-- The samples of a wave that is not constant add up to zero. -/
theorem sum_wave (hk : 0 < k) (hlt : k < 2 * n) : ∑ j ∈ Finset.range n, wave n j k = 0 := by
  have hn : (0 : ℝ) < 2 * n := by
    exact_mod_cast (by omega : 0 < 2 * n)
  have hpos : 0 < turnAngle n k := by
    unfold turnAngle
    positivity
  have hpi : turnAngle n k < pi := by
    have hk' : (k : ℝ) < 2 * n := by exact_mod_cast hlt
    rw [turnAngle, div_lt_iff₀ hn]
    exact mul_lt_mul_of_pos_left hk' Real.pi_pos
  have hsin : 2 * Real.sin (turnAngle n k) ≠ 0 :=
    mul_ne_zero two_ne_zero (Real.sin_pos_of_pos_of_lt_pi hpos hpi).ne'
  have hperiod : 2 * n * turnAngle n k = k * pi := by
    rw [turnAngle, mul_div_cancel₀ _ hn.ne', mul_comm]
  -- the sum telescopes to the sine of a multiple of `π`
  have htelescope := two_mul_sin_mul_sum_cos n (turnAngle n k)
  rw [hperiod, Real.sin_nat_mul_pi] at htelescope
  simp only [wave_eq]
  exact (mul_eq_zero.1 htelescope).resolve_left hsin

/-- The product of two waves is a sum of two waves. -/
theorem wave_mul_wave (n j : ℕ) (h : l ≤ k) :
    wave n j k * wave n j l = (wave n j (k + l) + wave n j (k - l)) / 2 := by
  have hsum : ((2 * j + 1 : ℕ) : ℝ) * turnAngle n (k + l) =
      (2 * j + 1 : ℕ) * turnAngle n k + (2 * j + 1 : ℕ) * turnAngle n l := by
    simp only [turnAngle, Nat.cast_add]
    ring
  have hdifference : ((2 * j + 1 : ℕ) : ℝ) * turnAngle n (k - l) =
      (2 * j + 1 : ℕ) * turnAngle n k - (2 * j + 1 : ℕ) * turnAngle n l := by
    simp only [turnAngle, Nat.cast_sub h]
    ring
  simp only [wave_eq, hsum, hdifference, Real.cos_add, Real.cos_sub]
  ring

/-- Two waves have the inner product zero unless they are the same. -/
theorem sum_wave_mul_wave (hk : k < n) (hl : l < n) :
    ∑ j ∈ Finset.range n, wave n j k * wave n j l =
      if k = l then if k = 0 then (n : ℝ) else n / 2 else 0 := by
  wlog hle : l ≤ k generalizing k l
  · simp only [mul_comm (wave n _ k)]
    rw [this hl hk (by omega), if_neg (by omega), if_neg (by omega)]
  · -- a product of two waves is half the sum of two waves, which cancel over a line
    simp only [wave_mul_wave n _ hle]
    rw [← Finset.sum_div, Finset.sum_add_distrib]
    split_ifs with hsame hzero
    · simp [← hsame, hzero, wave_zero_right]
    · rw [← hsame, sum_wave (by omega) (by omega), Nat.sub_self]
      simp [wave_zero_right]
    · rw [sum_wave (by omega) (by omega), sum_wave (by omega) (by omega), add_zero, zero_div]

/-! ## The matrices of the scaled transforms -/

theorem share_opposite (direction : Direction) (scaled : Bool) (n k j : ℕ) :
    share direction.opposite scaled n k j = share direction scaled n j k := by
  cases direction <;> rfl

/-- The weight of a frequency makes its wave a unit vector. -/
theorem weightOf_mul_self (hn : 0 < n) (k : ℕ) :
    weightOf true n k * weightOf true n k * (if k = 0 then (n : ℝ) else n / 2) = 1 := by
  have hn' : (n : ℝ) ≠ 0 := by exact_mod_cast hn.ne'
  have hscale : √(2 / (n : ℝ)) * √(2 / (n : ℝ)) = 2 / n := Real.mul_self_sqrt (by positivity)
  have hshare : 1 / √2 * (1 / √2) = (1 / 2 : ℝ) := by
    rw [div_mul_div_comm, Real.mul_self_sqrt two_pos.le, one_mul]
  rw [weightOf, if_pos rfl]
  split_ifs with hk
  · rw [mul_mul_mul_comm, hscale, hshare]
    field_simp
  · rw [hscale]
    field_simp

/-- The matrix of the scaled forward transform. -/
noncomputable def forwardShares (n : ℕ) : Matrix (Fin n) (Fin n) ℝ :=
  .of fun k j => share .forward true n k j

/-- Its rows are orthonormal. -/
theorem forwardShares_mul_transpose (n : ℕ) :
    forwardShares n * (forwardShares n).transpose = 1 := by
  ext k l
  have hterm (j : Fin n) : forwardShares n k j * (forwardShares n).transpose j l =
      weightOf true n k * weightOf true n l * (wave n j k * wave n j l) := by
    change weightOf true n k * wave n j k * (weightOf true n l * wave n j l) = _
    ring
  rw [Matrix.mul_apply, Finset.sum_congr rfl fun j _ => hterm j, ← Finset.mul_sum,
    Fin.sum_univ_eq_sum_range (fun j => wave n j k * wave n j l),
    sum_wave_mul_wave k.isLt l.isLt, Matrix.one_apply]
  -- on the diagonal the weights make up for the length of a wave
  by_cases hsame : k = l
  · rw [if_pos hsame, hsame, if_pos rfl]
    exact weightOf_mul_self l.pos l
  · rw [if_neg hsame, if_neg (Fin.val_ne_of_ne hsame), mul_zero]

/-- The rows of the matrix of either scaled transform are orthonormal. -/
theorem sum_share_mul_share (direction : Direction) (hk : k < n) (hl : l < n) :
    ∑ j ∈ Finset.range n, share direction true n k j * share direction true n l j =
      if k = l then 1 else 0 := by
  rw [← Fin.sum_univ_eq_sum_range fun j =>
    share direction true n k j * share direction true n l j]
  have hrows := forwardShares_mul_transpose n
  -- the matrix is square, so its columns are orthonormal as well
  have hcolumns : (forwardShares n).transpose * forwardShares n = 1 := mul_eq_one_comm.1 hrows
  cases direction with
  | forward =>
    have hentry := congrFun (congrFun hrows ⟨k, hk⟩) ⟨l, hl⟩
    simp only [Matrix.mul_apply, Matrix.one_apply, Fin.mk.injEq] at hentry
    exact hentry
  | inverse =>
    have hentry := congrFun (congrFun hcolumns ⟨k, hk⟩) ⟨l, hl⟩
    simp only [Matrix.mul_apply, Matrix.one_apply, Fin.mk.injEq] at hentry
    exact hentry

/-! ## The transforms of a line -/

/-- A scaled transform undoes the one of the other direction. -/
theorem product_opposite (direction : Direction) (x : ℕ → ℝ) (hk : k < n) :
    product direction true n (product direction.opposite true n x) k = x k := by
  calc product direction true n (product direction.opposite true n x) k
      = ∑ i ∈ Finset.range n, (∑ j ∈ Finset.range n,
          share direction true n k j * share direction true n i j) * x i := by
        simp only [product, share_opposite, Finset.mul_sum, Finset.sum_mul]
        rw [Finset.sum_comm]
        refine Finset.sum_congr rfl fun i _ => Finset.sum_congr rfl fun j _ => ?_
        ring
    _ = ∑ i ∈ Finset.range n, if k = i then x i else 0 := by
        refine Finset.sum_congr rfl ?_
        intro i hi
        rw [sum_share_mul_share direction hk (Finset.mem_range.1 hi), ite_mul, one_mul, zero_mul]
    _ = x k := by
        rw [Finset.sum_ite_eq, if_pos (Finset.mem_range.2 hk)]

/-- The matrices of the two transforms are transposes of each other. -/
theorem sum_product_mul (direction : Direction) (scaled : Bool) (n : ℕ) (x y : ℕ → ℝ) :
    ∑ k ∈ Finset.range n, product direction scaled n x k * y k =
      ∑ j ∈ Finset.range n, x j * product direction.opposite scaled n y j := by
  simp only [product, share_opposite, Finset.mul_sum, Finset.sum_mul]
  rw [Finset.sum_comm]
  refine Finset.sum_congr rfl fun j _ => Finset.sum_congr rfl fun k _ => ?_
  ring

/-- A scaled transform keeps inner products. -/
theorem sum_product_mul_product (direction : Direction) (n : ℕ) (x y : ℕ → ℝ) :
    ∑ k ∈ Finset.range n, product direction true n x k * product direction true n y k =
      ∑ k ∈ Finset.range n, x k * y k := by
  have hinverse (j : ℕ) (hj : j < n) :
      product direction.opposite true n (product direction true n y) j = y j := by
    cases direction
    · exact product_opposite .inverse y hj
    · exact product_opposite .forward y hj
  rw [sum_product_mul]
  refine Finset.sum_congr rfl ?_
  intro j hj
  rw [hinverse j (Finset.mem_range.1 hj)]

/-! ## The transforms of a matrix -/

variable {rows cols r c : ℕ}

/-- A scaled transform of a matrix undoes the one of the other direction. -/
theorem planeProduct_opposite (direction : Direction) (x : ℕ → ℕ → ℝ) (hr : r < rows)
    (hc : c < cols) :
    planeProduct direction true rows cols (planeProduct direction.opposite true rows cols x) r c =
      x r c := by
  -- the columns are transformed back before the rows are
  have hcolumns (j : ℕ) : product direction true rows
        (fun i => planeProduct direction.opposite true rows cols x i j) r =
      product direction.opposite true cols (x r) j := by
    unfold planeProduct
    rw [product_comm]
    congr 1
    funext c'
    exact product_opposite direction (fun i => x i c') hr
  rw [planeProduct, funext hcolumns, product_opposite direction (x r) hc]

/-- A scaled transform of a matrix keeps inner products. -/
theorem sum_planeProduct_mul_planeProduct (direction : Direction) (rows cols : ℕ)
    (x y : ℕ → ℕ → ℝ) :
    ∑ r ∈ Finset.range rows, ∑ c ∈ Finset.range cols,
        planeProduct direction true rows cols x r c * planeProduct direction true rows cols y r c =
      ∑ r ∈ Finset.range rows, ∑ c ∈ Finset.range cols, x r c * y r c := by
  simp only [planeProduct, sum_product_mul_product]
  rw [Finset.sum_comm, Finset.sum_comm (f := fun r c => x r c * y r c)]
  refine Finset.sum_congr rfl ?_
  intro c _
  exact sum_product_mul_product direction rows (fun i => x i c) fun i => y i c

end Direct

end CosineTransform
