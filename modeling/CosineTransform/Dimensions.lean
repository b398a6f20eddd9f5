import CosineTransform.Error

/-!
# Matrix dimensions

Both extents of a matrix that is transformed are powers of two. `Dimensions` carries the two facts,
and `Dimensions.ofExtents` decides them.
-/

namespace CosineTransform

/-- The extents of a matrix, both powers of two. -/
structure Dimensions where
  rows : Nat
  cols : Nat
  rows_isPowerOfTwo : rows.isPowerOfTwo
  cols_isPowerOfTwo : cols.isPowerOfTwo

namespace Dimensions

/-- The dimensions with the given extents, provided that both are powers of two. -/
def ofExtents (rows cols : Nat) : Except TransformError Dimensions :=
  if h : rows.isPowerOfTwo ∧ cols.isPowerOfTwo then .ok ⟨rows, cols, h.1, h.2⟩
  else .error (.invalidDimensions rows cols)

/-- The length of the longest line of the matrix, be it a row or a column. -/
def maxExtent (d : Dimensions) : Nat := max d.rows d.cols

/-- Extents are accepted exactly when both are powers of two, and are then kept. -/
theorem ofExtents_eq_ok_iff {rows cols : Nat} {d : Dimensions} :
    ofExtents rows cols = .ok d ↔ d.rows = rows ∧ d.cols = cols := by
  unfold ofExtents
  constructor
  · intro h
    split at h
    · obtain rfl := Except.ok.inj h
      exact ⟨rfl, rfl⟩
    · exact nomatch h
  · rintro ⟨rfl, rfl⟩
    rw [dif_pos ⟨d.rows_isPowerOfTwo, d.cols_isPowerOfTwo⟩]

theorem rows_pos (d : Dimensions) : 0 < d.rows := Nat.pos_of_isPowerOfTwo d.rows_isPowerOfTwo

theorem cols_pos (d : Dimensions) : 0 < d.cols := Nat.pos_of_isPowerOfTwo d.cols_isPowerOfTwo

end Dimensions

end CosineTransform
