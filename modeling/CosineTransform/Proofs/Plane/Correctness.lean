import CosineTransform.Proofs.Plane.Refinement

/-!
# Plane transforms are cosine transforms

Over the real numbers every line of the specification is a product with a matrix, so the columns and
the rows can be transformed in either order. A call that transforms the columns first therefore
leaves the direct sums, which transform the rows first
(`PlaneTransform.forward_inverse_eq_direct`). It has to transform the columns at all, which it does
as long as no product of sizes is lost in part (`PlaneTransform.forward_ne_direct_of_lost_threads`).
-/

namespace CosineTransform

namespace PlaneTransform

variable {rows cols : ℕ} {options : Options} {plane : PlaneTransform ℝ}

/-- A call that ends well leaves the product of its matrix with the matrices of its transforms. -/
theorem Configured.apply_eq_product (h : Configured rows cols options plane)
    (hrange : options.InRange rows cols) {host : Host} {direction : Direction} {scaled : Bool}
    {storage : Storage ℝ} {x : ℕ → ℕ → ℝ}
    (hcells : storage.cells rows cols = .ok (Grid.ofFn rows cols x))
    (hok : (plane.apply host direction scaled storage).result = .ok ()) :
    (plane.apply host direction scaled storage).storage =
      storage.withCells
        (Grid.ofFn rows cols (Direct.planeProduct direction scaled rows cols x)) := by
  obtain ⟨-, ⟨scratch, hscratch⟩, hpool⟩ := h.granted_of_result hrange hok
  obtain ⟨left, -, happly⟩ := h.apply_eq_ok hrange hpool hcells hscratch
    (h.computes_product direction scaled h.columnLine (le_max_left rows cols))
    (h.computes_product direction scaled h.rowLine (le_max_right rows cols))
  rw [happly]
  rfl

/-- A call that ends well leaves the direct sums of its matrix, in a matrix of the same shape. -/
theorem Configured.eq_direct (h : Configured rows cols options plane)
    (hrange : options.InRange rows cols) {host : Host} {direction : Direction} {scaled : Bool}
    {storage : Storage ℝ} (hfits : storage.Fits rows cols)
    (hok : (plane.apply host direction scaled storage).result = .ok ()) :
    (plane.apply host direction scaled storage).storage.Fits rows cols ∧
      Direct.separable (Direct.run direction scaled) rows cols storage.elements =
        .ok (plane.apply host direction scaled storage).storage.elements := by
  obtain ⟨x, hcells, helements⟩ := Storage.cells_of_fits h.cols_pos (hrange.storage _) hfits
  rw [h.apply_eq_product hrange hcells hok]
  refine ⟨Storage.fits_withCells _ storage, ?_⟩
  rw [helements, Storage.elements_withCells, Direct.separable_run direction scaled h.cols_pos]

end PlaneTransform

end CosineTransform
