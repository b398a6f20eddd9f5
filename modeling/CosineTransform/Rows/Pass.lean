import CosineTransform.Error
import CosineTransform.Grid
import CosineTransform.Strided
import CosineTransform.Workers

/-!
# The row pass

The row pass applies a line transform to every row of a matrix, in place. Between several workers
the rows are dealt out in turns.
-/

namespace CosineTransform

/-- A row pass: the transform of a row. -/
structure RowPass (T : Type) where
  line : Array T → Except Fault (Array T)

namespace RowPass

variable {T : Type}

/-- Transforms one row. A row that cannot be transformed is left as it is. -/
def advance (p : RowPass T) (row : Nat) : EStateM Fault (Grid T) Unit := fun cells =>
  match Buffer.read cells row >>= p.line with
  | .error f => .error f cells
  | .ok image => .ok () (cells.setIfInBounds row image)

/-- Transforms several rows one after another. -/
def run (p : RowPass T) (rows : List Nat) : EStateM Fault (Grid T) Unit :=
  rows.forM p.advance

/-- The rows of each of `workers` workers on a matrix of `rows` rows. -/
def assignments (workers rows : Nat) : Array (List Nat) :=
  Array.ofFn fun worker : Fin workers => Strided.list worker.val rows workers

/-- The pass by one worker. -/
def inOrder (p : RowPass T) (cells : Grid T) : Grid T × Except Failure Unit :=
  match p.run (List.range cells.size) cells with
  | .ok _ cells => (cells, .ok ())
  | .error f cells => (cells, .error (.fault f))

/-- Some of the rows as a task of a pool. -/
def task (p : RowPass T) (rows : List Nat) (cells : Grid T) : Grid T × TaskOutcome :=
  match p.run rows cells with
  | .ok _ cells => (cells, .done)
  | .error f cells => (cells, .aborted (.string f.message))

/-- The pass by the workers of a pool, of which there are no more than rows. -/
def onPool (p : RowPass T) (pool : Except String Pool) (batch threads : Nat) (cells : Grid T) :
    Grid T × Except Failure Unit :=
  Workers.fanOut pool batch (assignments (min threads cells.size) cells.size)
    (fun _ rows => p.task rows) cells

end RowPass

end CosineTransform
