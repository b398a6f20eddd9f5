import CosineTransform.Direct
import CosineTransform.Line.Transform
import CosineTransform.Proofs.Grid
import CosineTransform.Proofs.Line.Kernel
import CosineTransform.Proofs.Reals

/-!
# Direct sums over the real numbers

Over the real numbers the direct transforms are finite sums, in which the order of the terms no
longer matters. Every term is a sample times a wave, and a scaled transform weights the samples on
the side of the frequencies.
-/

namespace CosineTransform.Direct

open Buffer (entry ofFn)
open Stage (turnAngle)

theorem sum_eq {n : ℕ} (term : Fin n → ℝ) : sum term = ∑ i, term i := by
  induction n with
  | zero => rfl
  | succ n ih =>
    have hlast := ih fun i => term i.castSucc
    rw [sum] at hlast ⊢
    rw [Fin.foldl_succ_last, hlast, Fin.sum_univ_castSucc]

/-- The cosine that sample `j` and frequency `k` of a transform of `n` samples share. -/
noncomputable def wave (n j k : ℕ) : ℝ := Real.cos (Real.pi * (2 * j + 1) * k / (2 * n))

/-- The weight of frequency `k` of `n` samples. -/
noncomputable def weightOf (scaled : Bool) (n k : ℕ) : ℝ :=
  if scaled then if k = 0 then √(2 / n) * (1 / √2) else √(2 / n) else 1

theorem wave_zero_right (n j : ℕ) : wave n j 0 = 1 := by
  rw [wave, Nat.cast_zero, mul_zero, zero_div, Real.cos_zero]

/-- The weight of the only frequency of a line of one sample. -/
theorem weightOf_one (scaled : Bool) : weightOf scaled 1 0 = 1 := by
  cases scaled
  · rfl
  · have htwo : √2 ≠ 0 := by positivity
    rw [weightOf, if_pos rfl, if_pos rfl, Nat.cast_one, div_one]
    exact mul_one_div_cancel htwo

theorem wave_eq (n j k : ℕ) : wave n j k = Real.cos ((2 * j + 1 : ℕ) * turnAngle n k) := by
  rw [wave, turnAngle]
  congr 1
  push_cast
  ring

/-! ## Lines -/

theorem size_forward (scaled : Bool) (x : Array ℝ) : (forward scaled x).size = x.size :=
  Array.size_ofFn

theorem size_inverse (scaled : Bool) (x : Array ℝ) : (inverse scaled x).size = x.size :=
  Array.size_ofFn

theorem getElem_forward (scaled : Bool) (x : Array ℝ) (k : ℕ) (hk : k < (forward scaled x).size) :
    (forward scaled x)[k] =
      (∑ j : Fin x.size, x[j] * wave x.size j k) * weightOf scaled x.size k := by
  have hterm (j : Fin x.size) : x[j] * Precise.cos (angle x.size (2 * j.val + 1) k) =
      x[j] * wave x.size j k := by
    change x[j] * Real.cos ((2 * j.val + 1 : ℕ) * (k : ℝ) * Real.pi / ((2 : ℕ) * (x.size : ℝ))) = _
    rw [wave]
    congr 2
    push_cast
    ring
  have hsum : sum (fun j : Fin x.size => x[j] * Precise.cos (angle x.size (2 * j.val + 1) k)) =
      ∑ j : Fin x.size, x[j] * wave x.size j k :=
    (sum_eq _).trans (Finset.sum_congr rfl fun j _ => hterm j)
  refine (Array.getElem_ofFn hk).trans ?_
  dsimp only
  rw [hsum]
  cases scaled
  · exact (mul_one _).symm
  · rw [if_pos rfl, weightOf, if_pos rfl]
    -- the numerals of the definition are casts of naturals
    change _ * ((if k = 0 then 1 / √2 else 1) * √((2 : ℕ) / (x.size : ℝ))) = _
    split
    · rw [Nat.cast_ofNat, mul_comm (1 / √2)]
    · rw [Nat.cast_ofNat, one_mul]

theorem getElem_inverse (scaled : Bool) (x : Array ℝ) (k : ℕ) (hk : k < (inverse scaled x).size) :
    (inverse scaled x)[k] =
      ∑ j : Fin x.size, weightOf scaled x.size j * x[j] * wave x.size k j := by
  have hterm (j : Fin x.size) : (if scaled then
        if j.val = 0 then (Precise.invSqrtTwo : ℝ) * weight x.size else weight x.size else 1) *
        x[j] * Precise.cos (angle x.size j.val (2 * k + 1)) =
      weightOf scaled x.size j * x[j] * wave x.size k j := by
    have hangle : Precise.cos (angle x.size j.val (2 * k + 1)) = wave x.size k j := by
      change Real.cos ((j.val : ℝ) * (2 * k + 1 : ℕ) * Real.pi / ((2 : ℕ) * (x.size : ℝ))) = _
      rw [wave]
      congr 1
      push_cast
      ring
    have hweight : (if scaled then
        if j.val = 0 then (Precise.invSqrtTwo : ℝ) * weight x.size else weight x.size else 1) =
        weightOf scaled x.size j := by
      rw [weightOf]
      change (if scaled then if j.val = 0 then 1 / √2 * √((2 : ℕ) / (x.size : ℝ))
        else √((2 : ℕ) / (x.size : ℝ)) else 1) = _
      rw [Nat.cast_ofNat, mul_comm (1 / √2)]
    rw [hangle, hweight]
  refine (Array.getElem_ofFn hk).trans ?_
  exact (sum_eq _).trans (Finset.sum_congr rfl fun j _ => hterm j)

theorem forward_eq (scaled : Bool) (x : Array ℝ) :
    forward scaled x = ofFn x.size fun k =>
      (∑ j ∈ Finset.range x.size, entry x j * wave x.size j k) * weightOf scaled x.size k := by
  refine Buffer.eq_ofFn (size_forward scaled x) ?_
  intro k hk
  rw [getElem_forward, ← Fin.sum_univ_eq_sum_range (fun j => entry x j * wave x.size j k)]
  simp only [Buffer.entry_eq_getElem (Fin.isLt _)]
  rfl

theorem inverse_eq (scaled : Bool) (x : Array ℝ) :
    inverse scaled x = ofFn x.size fun k =>
      ∑ j ∈ Finset.range x.size, weightOf scaled x.size j * entry x j * wave x.size k j := by
  refine Buffer.eq_ofFn (size_inverse scaled x) ?_
  intro k hk
  rw [getElem_inverse,
    ← Fin.sum_univ_eq_sum_range (fun j => weightOf scaled x.size j * entry x j * wave x.size k j)]
  simp only [Buffer.entry_eq_getElem (Fin.isLt _)]
  rfl

/-! ## Either direction -/

/-- The direct transform of a direction. -/
noncomputable def run (direction : Direction) (scaled : Bool) (x : Array ℝ) : Array ℝ :=
  match direction with
  | .forward => forward scaled x
  | .inverse => inverse scaled x

/-- The share of element `j` of a line of `n` elements in element `k` of its transform. -/
noncomputable def share (direction : Direction) (scaled : Bool) (n k j : ℕ) : ℝ :=
  match direction with
  | .forward => weightOf scaled n k * wave n j k
  | .inverse => weightOf scaled n j * wave n k j

/-- The product of a line with the matrix of a transform. -/
noncomputable def product (direction : Direction) (scaled : Bool) (n : ℕ) (x : ℕ → ℝ) (k : ℕ) : ℝ :=
  ∑ j ∈ Finset.range n, share direction scaled n k j * x j

/-- A direct transform is a linear map. -/
theorem run_ofFn (direction : Direction) (scaled : Bool) (n : ℕ) (x : ℕ → ℝ) :
    run direction scaled (ofFn n x) = ofFn n (product direction scaled n x) := by
  cases direction with
  | forward =>
    rw [run, forward_eq, Buffer.size_ofFn]
    refine Buffer.ofFn_congr ?_
    intro k _
    rw [product, Finset.sum_mul]
    refine Finset.sum_congr rfl ?_
    intro j hj
    rw [Buffer.entry_ofFn x (Finset.mem_range.1 hj), share]
    ring
  | inverse =>
    rw [run, inverse_eq, Buffer.size_ofFn]
    refine Buffer.ofFn_congr ?_
    intro k _
    refine Finset.sum_congr rfl ?_
    intro j hj
    rw [Buffer.entry_ofFn x (Finset.mem_range.1 hj), share]
    ring

/-- It makes no difference whether the rows or the columns of a matrix are transformed first, each
in a direction of its own. -/
theorem product_comm (d e : Direction) (scaled : Bool) (rows cols : ℕ) (x : ℕ → ℕ → ℝ)
    (r c : ℕ) :
    product d scaled rows (fun i => product e scaled cols (x i) c) r =
      product e scaled cols (fun j => product d scaled rows (fun i => x i j) r) c := by
  simp only [product, Finset.mul_sum]
  rw [Finset.sum_comm]
  refine Finset.sum_congr rfl fun j _ => Finset.sum_congr rfl fun i _ => ?_
  ring

/-! ## Matrices -/

/-- The columns of a matrix transformed, and then the rows of the result. -/
noncomputable def planeProduct (direction : Direction) (scaled : Bool) (rows cols : ℕ)
    (x : ℕ → ℕ → ℝ) (r : ℕ) : ℕ → ℝ :=
  product direction scaled cols fun c => product direction scaled rows (fun i => x i c) r

/-- The direct transform of a matrix, with its elements row by row. -/
theorem separable_flatten {f : Array ℝ → Array ℝ} {image : ℕ → (ℕ → ℝ) → ℕ → ℝ}
    (hf : ∀ n x, f (ofFn n x) = ofFn n (image n x)) {rows cols : ℕ} (hcols : 0 < cols)
    (x : ℕ → ℕ → ℝ) :
    separable f rows cols (Grid.ofFn rows cols x).flatten =
      .ok (Grid.ofFn rows cols fun r c =>
        image rows (fun i => image cols (x i) c) r).flatten := by
  have hrow (r : ℕ) (hr : r < rows) :
      (do return f (← Buffer.slice (ofFn (rows * cols) fun k => x (k / cols) (k % cols))
        (r * cols) cols)) = (.ok (ofFn cols (image cols (x r))) : Except Fault (Array ℝ)) := by
    rw [Buffer.slice_ofFn _ (Grid.row_le hr cols), ok_bind, pure_eq_ok, ← hf]
    refine congrArg (fun a => Except.ok (f a)) (Buffer.ofFn_congr fun c hc => ?_)
    rw [Grid.index_div r hc, Grid.index_mod r hc]
  -- the second pass runs over the columns of what the first one leaves
  have hcolumn (c : ℕ) (hc : c < cols) :
      (do return f (← Buffer.tabulate rows fun r => do
        Buffer.read (← Buffer.read (Grid.ofFn rows cols fun r => image cols (x r)) r) c)) =
      (.ok (ofFn rows (image rows fun i => image cols (x i) c)) : Except Fault (Array ℝ)) := by
    rw [Buffer.tabulate_eq_ok (g := fun r => image cols (x r) c), ok_bind, pure_eq_ok, hf]
    intro r hr
    exact Grid.get_ofFn (fun r => image cols (x r)) hr hc
  rw [separable, Grid.flatten_ofFn, Grid.flatten_ofFn, Buffer.size_ofFn,
    if_neg (not_not.2 rfl), Buffer.tabulate_eq_ok hrow, ok_bind]
  change (Buffer.tabulate cols (fun c => do return f (← Buffer.tabulate rows fun r => do
    Buffer.read (← Buffer.read (Grid.ofFn rows cols fun r => image cols (x r)) r) c)) >>= _) = _
  rw [Buffer.tabulate_eq_ok hcolumn, ok_bind]
  refine Buffer.tabulate_eq_ok ?_
  intro k hk
  exact Grid.get_ofFn (fun c => image rows fun i => image cols (x i) c) (Nat.mod_lt k hcols)
    ((Nat.div_lt_iff_lt_mul hcols).2 hk)

/-- The direct transform of a matrix transforms the rows first, which makes no difference. -/
theorem separable_run (direction : Direction) (scaled : Bool) {rows cols : ℕ} (hcols : 0 < cols)
    (x : ℕ → ℕ → ℝ) :
    separable (run direction scaled) rows cols (Grid.ofFn rows cols x).flatten =
      .ok (Grid.ofFn rows cols (planeProduct direction scaled rows cols x)).flatten := by
  rw [separable_flatten (run_ofFn direction scaled) hcols]
  refine congrArg (fun grid : Grid ℝ => Except.ok grid.flatten) (Grid.ofFn_congr fun r _ c _ => ?_)
  exact product_comm direction direction scaled rows cols x r c

end CosineTransform.Direct
