import CosineTransform.Columns.Split
import CosineTransform.Error
import CosineTransform.Grid
import CosineTransform.Workers

/-!
# The column pass

The column pass applies a line transform to every column of a matrix. A worker copies a block of
adjacent columns into its own scratch segment, one column after another, transforms each of them
there, and copies them back. Workers share the cells of the matrix and nothing else.

## Steps

The part of a worker is a list of steps (`ColumnPass.program`), each of which touches at most one
cell of the matrix, and `ColumnPass.advance` is the effect of one step. Steps of several workers can
be taken in any order: `ColumnPass.run` takes a list of steps, each with the worker that it belongs
to. The pass on a pool runs the program of one worker after the other, in the order of the pool.
-/

namespace CosineTransform

/-- Adjacent columns of a matrix. -/
structure ColumnBlock where
  start : Nat
  width : Nat
deriving DecidableEq

/-- A step of a worker on the column pass. -/
inductive ColumnStep where
  /-- The block has to lie within the matrix and to fill the segment. -/
  | check (block : ColumnBlock)
  /-- Copies the cell in `row` and `col` to element `slot` of the segment. -/
  | fetch (row col slot : Nat)
  /-- Transforms a column of the segment. -/
  | transform (column : Nat)
  /-- Copies element `slot` of the segment to the cell in `row` and `col`. -/
  | store (slot row col : Nat)
deriving DecidableEq

/-- The row and the column of the cell that a step reads or writes. -/
def ColumnStep.cell? : ColumnStep → Option (Nat × Nat)
  | fetch row col _ | store _ row col => some (row, col)
  | check _ | transform _ => none

/-- What the workers on a column pass act on. -/
structure ColumnState (T : Type) where
  /-- The matrix, which all the workers share. -/
  cells : Grid T
  /-- The scratch segment of every worker. -/
  segments : Grid T

/-- A column pass over a matrix of `rows` rows: the split of its columns and the transform of a
column. -/
structure ColumnPass (T : Type) where
  rows : Nat
  split : ColumnSplit
  line : Array T → Except Fault (Array T)

/-- The matrix and the scratch window as a pass leaves them, and how the pass ended. -/
structure PassOutcome (T : Type) where
  cells : Grid T
  window : Array T
  result : Except Failure Unit

/-! ## Programs -/

namespace ColumnBlock

/-- Copies the block from a matrix of `rows` rows into the segment, one column after another. -/
def gather (b : ColumnBlock) (rows : Nat) : List ColumnStep :=
  (List.range rows).flatMap fun row => (List.range b.width).map fun column =>
    .fetch row (b.start + column) (column * rows + row)

/-- Copies the segment back to where `gather` took it from. -/
def scatter (b : ColumnBlock) (rows : Nat) : List ColumnStep :=
  (List.range rows).flatMap fun row => (List.range b.width).map fun column =>
    .store (column * rows + row) row (b.start + column)

/-- Transforms every piece of `rows` elements of the segment. -/
def transforms (b : ColumnBlock) (rows : Nat) : List ColumnStep :=
  (List.range (b.width * rows / rows)).map .transform

/-- All that a worker does to the block. -/
def steps (b : ColumnBlock) (rows : Nat) : List ColumnStep :=
  .check b :: b.gather rows ++ b.transforms rows ++ .check b :: b.scatter rows

end ColumnBlock

/-- The blocks of a worker. -/
def ColumnSplit.blocks (s : ColumnSplit) (worker : Nat) : List ColumnBlock :=
  (s.blockStarts worker).map (⟨·, s.width⟩)

namespace ColumnPass

variable {T : Type}

/-- All that a worker does. -/
def program (p : ColumnPass T) (worker : Nat) : List ColumnStep :=
  (p.split.blocks worker).flatMap (·.steps p.rows)

/-! ## The effect of a step -/

/-- The segment after one of its columns was transformed. -/
def transformColumn (p : ColumnPass T) (column : Nat) (segment : Array T) :
    Except Fault (Array T) := do
  let start := column * p.rows
  let image ← p.line (← Buffer.slice segment start p.rows)
  Buffer.blit segment start image

/-- One step of a worker. A step that cannot be taken leaves the state as it is. -/
def advance (p : ColumnPass T) (worker : Nat) (step : ColumnStep) :
    EStateM Fault (ColumnState T) Unit := fun s =>
  match step with
  | .check block =>
    if p.split.cols < block.start + block.width then
      .error (.blockOutside (block.start + block.width) p.split.cols) s
    else
      match Buffer.read s.segments worker with
      | .error f => .error f s
      | .ok segment =>
        if segment.size ≠ block.width * p.rows then
          .error (.wrongCount (block.width * p.rows) segment.size) s
        else .ok () s
  | .fetch row col slot =>
    match s.cells.get row col, s.segments.missing? worker slot with
    | .error f, _ | .ok _, some f => .error f s
    | .ok x, none => .ok () { s with segments := s.segments.set worker slot x }
  | .transform column =>
    match Buffer.read s.segments worker >>= p.transformColumn column with
    | .error f => .error f s
    | .ok segment => .ok () { s with segments := s.segments.setIfInBounds worker segment }
  | .store slot row col =>
    match s.segments.get worker slot, s.cells.missing? row col with
    | .error f, _ | .ok _, some f => .error f s
    | .ok x, none => .ok () { s with cells := s.cells.set row col x }

/-- Steps one after another, each taken by the worker that stands beside it. -/
def run (p : ColumnPass T) (schedule : List (Nat × ColumnStep)) :
    EStateM Fault (ColumnState T) Unit :=
  schedule.forM fun (worker, step) => p.advance worker step

/-- The program of a worker from its first step to its last. -/
def runWorker (p : ColumnPass T) (worker : Nat) : EStateM Fault (ColumnState T) Unit :=
  p.run ((p.program worker).map (worker, ·))

/-! ## The pass -/

/-- The pass by one worker, in the leading segment of the scratch window. -/
def inOrder (p : ColumnPass T) (cells : Grid T) (window : Array T) : PassOutcome T :=
  let length := p.split.segmentLength p.rows
  match Buffer.slice window 0 length with
  | .error f => ⟨cells, window, .error (.fault f)⟩
  | .ok segment =>
    let leave (s : ColumnState T) (result : Except Failure Unit) : PassOutcome T :=
      ⟨s.cells, s.segments.flatten ++ window.extract length, result⟩
    match p.runWorker 0 ⟨cells, #[segment]⟩ with
    | .ok _ s => leave s (.ok ())
    | .error f s => leave s (.error (.fault f))

/-- The part of a worker as a task of a pool. -/
def task (p : ColumnPass T) (worker : Nat) (s : ColumnState T) : ColumnState T × TaskOutcome :=
  match p.runWorker worker s with
  | .ok _ s => (s, .done)
  | .error f s => (s, .aborted (.string f.message))

/-- The pass by the workers of a pool, each in a segment of its own of the scratch window. -/
def onPool (p : ColumnPass T) (pool : Except String Pool) (batch : Nat) (cells : Grid T)
    (window : Array T) : PassOutcome T :=
  match Buffer.pieces (p.split.segmentLength p.rows) window with
  | .error f => ⟨cells, window, .error (.fault f)⟩
  | .ok segments =>
    let used := segments.size * p.split.segmentLength p.rows
    let (s, result) := Workers.fanOut pool batch (Array.range segments.size)
      (fun worker _ => p.task worker) ⟨cells, segments⟩
    ⟨s.cells, s.segments.flatten ++ window.extract used, result⟩

end ColumnPass

end CosineTransform
