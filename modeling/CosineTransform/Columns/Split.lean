import CosineTransform.Strided
import CosineTransform.Word

/-!
# Splitting columns between workers

The column pass hands out blocks of adjacent columns, and every worker stages its blocks in a
scratch segment of its own. The width of a block depends on how many columns there are for each
thread, so that no two workers share a column and no worker goes without one. All of this holds as
long as no product of sizes is lost in part: a number of threads whose double is no word can leave
columns without a worker.
-/

namespace CosineTransform

/-- How many columns there are for each thread. -/
inductive ColumnShape where
  /-- More than two columns for each thread: blocks of four columns are dealt out in turns. -/
  | wide
  /-- Exactly two columns for each thread: a pair of columns for every worker. -/
  | double
  /-- Fewer than two columns for each thread: a column for every worker. -/
  | single
deriving DecidableEq

/-- The widest block of columns that is staged at once. -/
def columnBlock : Nat := 4

/-- The columns of a matrix and the threads that share them. No thread counts as one. -/
structure ColumnSplit where
  cols : Nat
  threads : Nat

namespace ColumnSplit

/-- The shape of the split. -/
def shape (s : ColumnSplit) : ColumnShape :=
  let threads := max s.threads 1
  if Word.mul 2 threads < s.cols then .wide
  else if s.cols = Word.mul 2 threads then .double
  else .single

/-- How many adjacent columns a block has. -/
def width (s : ColumnSplit) : Nat :=
  match s.shape with
  | .wide => columnBlock
  | .double => 2
  | .single => 1

/-- How many workers the columns are split between. -/
def workers (s : ColumnSplit) : Nat :=
  match s.shape with
  | .wide => min (max s.threads 1) (s.cols / columnBlock)
  | .double => max s.threads 1
  | .single => s.cols

/-- How many elements a worker stages: a block of columns of `rows` elements each. -/
def segmentLength (s : ColumnSplit) (rows : Nat) : Nat := Word.mul s.width rows

/-- How many elements all the workers stage together. -/
def scratchLength (s : ColumnSplit) (rows : Nat) : Nat :=
  Word.mul s.workers (s.segmentLength rows)

/-- The first columns of the blocks of a worker. -/
def blockStarts (s : ColumnSplit) (worker : Nat) : List Nat :=
  (Strided.list worker (s.cols / s.width) (max s.workers 1)).map (· * s.width)

theorem width_pos (s : ColumnSplit) : 0 < s.width := by
  unfold width
  cases s.shape <;> decide

end ColumnSplit

end CosineTransform
