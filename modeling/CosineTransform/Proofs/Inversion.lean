import CosineTransform.Proofs.Orthogonality

/-!
# The direct transforms undo each other

Over the real numbers a scaled direct transform of a line of any length is undone by the one of the
other direction (`Direct.run_opposite`), and so is that of a matrix of any extents
(`Direct.separable_opposite`). In both directions the rows come before the columns, so the second
transform does not take back the steps of the first one in their reverse order; that it makes no
difference which of the passes comes first (`Direct.separable_run`) makes up for it.
-/

namespace CosineTransform.Direct

open Buffer (ofFn)

/-! ## Lines -/

/-- A scaled transform of a line undoes the one of the other direction. -/
theorem run_opposite (direction : Direction) (x : Array ℝ) :
    run direction true (run direction.opposite true x) = x := by
  rw [← Buffer.ofFn_entry x, run_ofFn, run_ofFn]
  exact Buffer.ofFn_congr fun k hk => product_opposite direction _ hk

/-- A line of one sample is its own transform. -/
theorem product_one (direction : Direction) (scaled : Bool) (x : ℕ → ℝ) :
    product direction scaled 1 x 0 = x 0 := by
  have hshare : share direction scaled 1 0 0 = 1 := by
    cases direction <;> rw [share, weightOf_one, wave_zero_right, mul_one]
  rw [product, Finset.sum_range_one, hshare, one_mul]

/-! ## Matrices -/

/-- A scaled transform of a matrix undoes the one of the other direction. -/
theorem separable_opposite (direction : Direction) {rows cols : ℕ} (hcols : 0 < cols) {x : Array ℝ}
    (hx : x.size = rows * cols) :
    ∃ y, separable (run direction.opposite true) rows cols x = .ok y ∧ y.size = rows * cols ∧
      separable (run direction true) rows cols y = .ok x := by
  obtain ⟨u, -, rfl⟩ := Grid.pieces_eq_ok hcols hx
  refine ⟨_, separable_run direction.opposite true hcols u, ?_, ?_⟩
  · rw [Grid.flatten_ofFn, Buffer.size_ofFn]
  · rw [separable_run direction true hcols]
    refine congrArg (fun grid : Grid ℝ => Except.ok grid.flatten) (Grid.ofFn_congr ?_)
    intro r hr c hc
    exact planeProduct_opposite direction u hr hc

/-- The transform of a matrix of a single row is the transform of that row. -/
theorem separable_single_row (direction : Direction) (scaled : Bool) {x : Array ℝ}
    (hx : 0 < x.size) :
    separable (run direction scaled) 1 x.size x = .ok (run direction scaled x) := by
  have hrow : (Grid.ofFn 1 x.size fun _ => Buffer.entry x).flatten = x := by
    rw [Grid.flatten_ofFn_one, Buffer.ofFn_entry]
  calc separable (run direction scaled) 1 x.size x
      = separable (run direction scaled) 1 x.size
          (Grid.ofFn 1 x.size fun _ => Buffer.entry x).flatten := by rw [hrow]
    _ = .ok (ofFn x.size (product direction scaled x.size (Buffer.entry x))) := by
        rw [separable_run direction scaled hx, Grid.flatten_ofFn_one, planeProduct]
        simp only [product_one]
    _ = .ok (run direction scaled x) := by rw [← run_ofFn, Buffer.ofFn_entry]

/-- The scaled direct transforms of a matrix undo each other in either order, whatever the number of
its rows and its columns. On a matrix of a single row they are the transforms of that row, which so
undo each other as well, whatever the length of the line. -/
theorem scaled_undo_each_other {rows cols : ℕ} (hcols : 1 ≤ cols) {x : Array ℝ}
    (hx : x.size = rows * cols) :
    (∃ y, forwardMatrix true rows cols x = .ok y ∧ y.size = rows * cols ∧
      inverseMatrix true rows cols y = .ok x) ∧
    (∃ y, inverseMatrix true rows cols x = .ok y ∧ y.size = rows * cols ∧
      forwardMatrix true rows cols y = .ok x) ∧
    (rows = 1 → forwardMatrix true 1 cols x = .ok (forward true x) ∧
      inverseMatrix true 1 cols x = .ok (inverse true x)) ∧
    ∀ line : Array ℝ, inverse true (forward true line) = line ∧
      forward true (inverse true line) = line := by
  refine ⟨separable_opposite .inverse hcols hx, separable_opposite .forward hcols hx, ?_, ?_⟩
  · rintro rfl
    obtain rfl : x.size = cols := hx.trans (one_mul cols)
    exact ⟨separable_single_row .forward true hcols, separable_single_row .inverse true hcols⟩
  · intro line
    exact ⟨run_opposite .inverse line, run_opposite .forward line⟩

/-- Three rows of five numbers there and back. -/
theorem scaled_undo_each_other_three_five :
    ∃ y, forwardMatrix true 3 5 (ofFn 15 fun i => (i : ℝ)) = .ok y ∧
      inverseMatrix true 3 5 y = .ok (ofFn 15 fun i => (i : ℝ)) := by
  obtain ⟨⟨y, hforward, -, hback⟩, -⟩ := scaled_undo_each_other (show 1 ≤ 5 by norm_num)
    (show (ofFn 15 fun i => (i : ℝ)).size = 3 * 5 from Buffer.size_ofFn _ _)
  exact ⟨y, hforward, hback⟩

end CosineTransform.Direct
