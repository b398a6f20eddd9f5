import CosineTransform.Dimensions
import CosineTransform.Host
import CosineTransform.Line.Transform
import CosineTransform.Scratch

/-!
# Plane transforms

A `PlaneTransform` is the cosine transform of matrices of one size. It owns all that does not depend
on the matrix: the tables, the transforms of a row and of a column, and the scratch space. All but
the scratch space is built when the transform is set up (`PlaneTransform.create`).
-/

namespace CosineTransform

/-- The cosine transform of matrices of one size. -/
structure PlaneTransform (T : Type) where
  dimensions : Dimensions
  options : Options
  tables : Tables T
  /-- The transform of a row. -/
  rowLine : LineTransform T
  /-- The transform of a column. -/
  columnLine : LineTransform T
  scratch : Scratch T

namespace PlaneTransform

variable {R T : Type} [Precise R] [Sample R T]

/-- The transform of matrices of `rows` rows and `cols` columns. Extents are looked at before the
options, and both before any memory is asked for. -/
def create (memory : Memory) (rows cols : Nat) (options : Options) :
    Except Failure (PlaneTransform T) := do
  let dimensions ← Dimensions.ofExtents rows cols
  options.validate
  let tables ← Tables.ofLength memory dimensions.maxExtent
  let rowLine ← LineTransform.ofLength cols
  let columnLine ← LineTransform.ofLength rows
  return { dimensions, options, tables, rowLine, columnLine, scratch := .empty }

end PlaneTransform

end CosineTransform
