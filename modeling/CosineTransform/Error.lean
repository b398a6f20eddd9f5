import CosineTransform.Fault

/-!
# Errors

`TransformError` lists the ways in which setting up or running a transform can fail, each with the
data of its cause; `TransformError.message` is the one place that words them. A call can also stop
at a broken precondition, so the outcome of a call that meets neither is `Except Failure`.
-/

namespace CosineTransform

/-- Why a transform could not be set up or run. -/
inductive TransformError where
  /-- A matrix extent is no power of two. -/
  | invalidDimensions (rows cols : Nat)
  /-- The storage does not hold a matrix of the expected shape; `actual` describes what it holds. -/
  | shapeMismatch (expectedRows expectedCols : Nat) (actual : String)
  /-- `failed` of `total` tasks did not succeed; `task` is the first of them and `message` its
  report. -/
  | workerFailure (failed total task : Nat) (message : String)
  /-- There is no pool to run tasks on. -/
  | threadPool (reason : String)
  /-- A reservation was refused. -/
  | outOfMemory
  /-- A parameter has a value that makes no sense. -/
  | invalidParameter (reason : String)
deriving DecidableEq

namespace TransformError

/-- The text of an error. -/
def message : TransformError → String
  | invalidDimensions rows cols =>
    s!"Invalid dimensions: {rows}x{cols} (both must be powers of two)"
  | shapeMismatch expectedRows expectedCols actual =>
    s!"Shape mismatch: expected {expectedRows}x{expectedCols}, got {actual}"
  | workerFailure failed total task message =>
    s!"{failed} of {total} worker tasks failed, first failure in task {task}: {message}"
  | threadPool reason => s!"Thread pool unavailable: {reason}"
  | outOfMemory => "Out of memory"
  | invalidParameter reason => s!"Invalid parameter: {reason}"

/-- A flat buffer holds `size` elements where a whole matrix is needed. -/
def flatMismatch (rows cols size : Nat) : TransformError :=
  shapeMismatch rows cols s!"flat buffer of {size} elements"

/-- Nested storage holds `count` rows instead of `rows`. -/
def rowCountMismatch (rows cols count : Nat) : TransformError :=
  shapeMismatch rows cols s!"{count} rows"

/-- Row `index` of nested storage holds `size` elements instead of `cols`. -/
def rowMismatch (rows cols index size : Nat) : TransformError :=
  shapeMismatch rows cols s!"row {index} has {size} elements"

/-- A line transform of `length` samples does not exist. -/
def lineLength (length : Nat) : TransformError :=
  invalidParameter s!"DCT length {length} is not a power of two"

/-- No worker is no way to run. -/
def noThreads : TransformError :=
  invalidParameter "thread count must be at least 1"

end TransformError

/-- Why a call did not end well: an error that it reports, or a fault that stops it. -/
inductive Failure where
  | error (error : TransformError)
  | fault (fault : Fault)
deriving DecidableEq

instance : MonadLift (Except Fault) (Except Failure) where
  monadLift x := x.mapError .fault

instance : MonadLift (Except TransformError) (Except Failure) where
  monadLift x := x.mapError .error

/-- A step that fails or not, and touches no state. -/
instance liftExcept {ε σ : Type} : MonadLift (Except ε) (EStateM ε σ) where
  monadLift x := fun s =>
    match x with
    | .ok a => .ok a s
    | .error e => .error e s

end CosineTransform
