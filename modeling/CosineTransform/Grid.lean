import CosineTransform.Buffer

/-!
# Grids

A grid is a list of rows, of which each has a length of its own. A matrix is a grid, and so are the
scratch segments of the workers that share one.
-/

namespace CosineTransform

/-- Rows of elements. -/
abbrev Grid (T : Type) := Array (Array T)

namespace Grid

variable {T : Type}

/-- The grid has `rows` rows of `cols` elements. -/
def Shaped (rows cols : Nat) (grid : Grid T) : Prop :=
  grid.size = rows ∧ ∀ i, (h : i < grid.size) → grid[i].size = cols

/-- The length of the first row, and zero if there is no row. -/
def width (grid : Grid T) : Nat := (grid[0]?.map (·.size)).getD 0

/-- Element `j` of row `i`. -/
def get (grid : Grid T) (i j : Nat) : Except Fault T := do
  Buffer.read (← Buffer.read grid i) j

/-- The grid with element `j` of row `i` replaced by `x`, if there is such an element. -/
def set (grid : Grid T) (i j : Nat) (x : T) : Grid T :=
  grid.modify i fun row => row.setIfInBounds j x

/-- Why the grid has no element `j` of row `i`, if it has none. -/
def missing? (grid : Grid T) (i j : Nat) : Option Fault :=
  if h : i < grid.size then
    if j < grid[i].size then none else some (.outOfRange j grid[i].size)
  else some (.outOfRange i grid.size)

/-- The first row of another length than `cols`, and its length. -/
def misfit? (cols : Nat) (grid : Grid T) : Option (Nat × Nat) :=
  (grid.findIdx? (·.size ≠ cols)).bind fun index => grid[index]?.map (index, ·.size)

end Grid

end CosineTransform
