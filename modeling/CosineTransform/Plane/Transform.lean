import CosineTransform.Columns.Pass
import CosineTransform.Plane.Basic
import CosineTransform.Rows.Pass
import CosineTransform.Storage

/-!
# Running a plane transform

A call transforms every column of a matrix and then every row of the result. It first looks at the
shape of the storage, then makes sure of the tables and of the scratch space, and only then touches
the matrix; so a call that reports a mismatch or a lack of memory has changed nothing.
-/

namespace CosineTransform.PlaneTransform

variable {R T : Type} [Precise R] [Sample R T]

/-- What a call leaves: the transform, the storage of the matrix, and how the call ended. -/
structure Outcome (T : Type) where
  plane : PlaneTransform T
  storage : Storage T
  result : Except Failure Unit

/-- Whether a call is split between the workers of the pool. -/
def isParallel (plane : PlaneTransform T) : Bool :=
  plane.options.isParallel plane.dimensions.rows plane.dimensions.cols

/-- Between how many workers a call is split. -/
def threads (plane : PlaneTransform T) : Nat :=
  plane.options.workers plane.dimensions.rows plane.dimensions.cols

/-- The column pass of a call over the given rows, which give it its extents. -/
def columnPass (plane : PlaneTransform T) (direction : Direction) (scaled : Bool)
    (cells : Grid T) : ColumnPass T where
  rows := cells.size
  split := ⟨cells.width, plane.threads⟩
  line := plane.columnLine.apply direction plane.tables scaled

/-- The row pass of a call. -/
def rowPass (plane : PlaneTransform T) (direction : Direction) (scaled : Bool) : RowPass T where
  line := plane.rowLine.apply direction plane.tables scaled

/-- Runs the column pass, which stages its columns in `window`. The rows must all have the same
length. -/
def runColumns (plane : PlaneTransform T) (host : Host) (direction : Direction) (scaled : Bool)
    (cells : Grid T) (window : Array T) : PassOutcome T :=
  let pass := plane.columnPass direction scaled cells
  match cells.misfit? pass.split.cols with
  | some (_, size) => ⟨cells, window, .error (.fault (.wrongCount pass.split.cols size))⟩
  | none =>
    if plane.isParallel then pass.onPool host.pool 0 cells window
    else pass.inOrder cells window

/-- Runs the row pass. -/
def runRows (plane : PlaneTransform T) (host : Host) (direction : Direction) (scaled : Bool)
    (cells : Grid T) : Grid T × Except Failure Unit :=
  let pass := plane.rowPass direction scaled
  if plane.isParallel then pass.onPool host.pool 1 plane.threads cells
  else pass.inOrder cells

/-- Runs the column pass and, if it ended well, the row pass. -/
def runPasses (plane : PlaneTransform T) (host : Host) (direction : Direction) (scaled : Bool)
    (cells : Grid T) (window : Array T) : PassOutcome T :=
  let ⟨cells, window, result⟩ := plane.runColumns host direction scaled cells window
  match result with
  | .error failure => ⟨cells, window, .error failure⟩
  | .ok () =>
    let (cells, result) := plane.runRows host direction scaled cells
    ⟨cells, window, result⟩

/-- Transforms the matrix in `storage` in place. -/
def apply (plane : PlaneTransform T) (host : Host) (direction : Direction) (scaled : Bool)
    (storage : Storage T) : Outcome T :=
  let rows := plane.dimensions.rows
  let cols := plane.dimensions.cols
  match storage.cells rows cols with
  | .error failure => ⟨plane, storage, .error failure⟩
  | .ok cells =>
    match Tables.ensure host.memory plane.dimensions.maxExtent plane.tables with
    | .error failure tables => ⟨{ plane with tables }, storage, .error failure⟩
    | .ok () tables =>
      let plane := { plane with tables }
      match Scratch.ensure host.memory rows cols plane.threads plane.scratch with
      | .error error scratch => ⟨{ plane with scratch }, storage, .error (.error error)⟩
      | .ok () scratch =>
        let window := scratch.window (Scratch.requiredLength rows cols plane.threads)
        let ⟨cells, window, result⟩ := plane.runPasses host direction scaled cells window
        ⟨{ plane with scratch := scratch.overwrite window }, storage.withCells cells, result⟩

/-- Runs the forward transform in place. -/
def forward (plane : PlaneTransform T) (host : Host) (scaled : Bool) (storage : Storage T) :
    Outcome T :=
  plane.apply host .forward scaled storage

/-- Runs the inverse transform in place. -/
def inverse (plane : PlaneTransform T) (host : Host) (scaled : Bool) (storage : Storage T) :
    Outcome T :=
  plane.apply host .inverse scaled storage

end CosineTransform.PlaneTransform
