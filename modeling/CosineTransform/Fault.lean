/-!
# Faults

A fault is a broken precondition: a step was asked for something that its caller has to rule out,
such as an element beyond the end of a buffer. A fault is no `TransformError`: nothing handles it,
and a caller that keeps to the documented preconditions never meets one. Two faults are part of the
interface of a line transform and have a fixed text, `Fault.wrongLength` and `Fault.smallTables`.
-/

namespace CosineTransform

/-- A precondition that did not hold. -/
inductive Fault where
  /-- A transform of lines of `length` samples was applied to a line of `samples` samples. -/
  | wrongLength (length samples : Nat)
  /-- The trigonometric tables do not reach lines of `length` samples. -/
  | smallTables (length : Nat)
  /-- Element `index` was asked of a buffer of `size` elements. -/
  | outOfRange (index size : Nat)
  /-- A difference of two indices would lie below zero. -/
  | negative (minuend subtrahend : Nat)
  /-- A stride was asked for zero parts. -/
  | zeroDivisor
  /-- A buffer was to be cut into pieces of no elements. -/
  | emptyPieces
  /-- A buffer of `actual` elements stands where `expected` elements are needed. -/
  | wrongCount (expected actual : Nat)
  /-- A block of columns ends at column `stop` of a matrix of `cols` columns. -/
  | blockOutside (stop cols : Nat)
  /-- What a task was stopped with could not be given up without being stopped again. -/
  | unwound
deriving DecidableEq

/-- The text of a fault. -/
def Fault.message : Fault → String
  | wrongLength length samples => s!"DCT of length {length} applied to {samples} samples"
  | smallTables length => s!"trig tables too small for length {length}"
  | outOfRange index size => s!"index {index} is outside a buffer of {size} elements"
  | negative minuend subtrahend => s!"{subtrahend} is larger than {minuend}"
  | zeroDivisor => "a stride over zero parts"
  | emptyPieces => "pieces of no elements"
  | wrongCount expected actual => s!"{actual} elements where {expected} are needed"
  | blockOutside stop cols => s!"a block ends at column {stop} of {cols}"
  | unwound => "a payload unwound"

end CosineTransform
