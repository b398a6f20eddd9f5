import CosineTransform.Error
import CosineTransform.Word

/-!
# Options

How many workers a matrix transform is split between, and from which size of matrix on it is split
at all.
-/

namespace CosineTransform

/-- The size from which on a matrix is split between workers, if nothing else is asked for. -/
def defaultParallelThreshold : Nat := 65536

/-- How a matrix transform is run. -/
structure Options where
  /-- The number of workers of each pass. One worker never leaves the calling thread. -/
  threads : Nat
  /-- The fewest elements of a matrix that is split between workers. -/
  parallelThreshold : Nat := defaultParallelThreshold
deriving DecidableEq

namespace Options

/-- Whether a matrix of these extents is split between workers. -/
def isParallel (o : Options) (rows cols : Nat) : Bool :=
  decide (1 < o.threads) && decide (o.parallelThreshold ≤ Word.mul rows cols)

/-- Between how many workers a matrix of these extents is split. -/
def workers (o : Options) (rows cols : Nat) : Nat :=
  if o.isParallel rows cols then o.threads else 1

/-- There has to be a worker. -/
def validate (o : Options) : Except TransformError Unit :=
  if o.threads = 0 then .error .noThreads else .ok ()

end Options

end CosineTransform
