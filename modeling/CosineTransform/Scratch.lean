import CosineTransform.Columns.Split
import CosineTransform.Memory
import CosineTransform.Scalar

/-!
# Scratch space

The column pass stages its columns in one buffer, which is kept between calls and replaced only when
a call needs a longer one. Nothing is replaced before the longer one was reserved.
-/

namespace CosineTransform

/-- A buffer that is kept between calls. -/
structure Scratch (T : Type) where
  buffer : Array T
  /-- How often the buffer was replaced by a longer one. -/
  reallocations : Nat

namespace Scratch

variable {R T : Type} [Sample R T]

/-- A buffer of no elements. -/
def empty : Scratch T := ⟨#[], 0⟩

/-- The length of the buffer. -/
def capacity (s : Scratch T) : Nat := s.buffer.size

/-- How many elements the column pass of a matrix of `rows` rows needs. -/
def requiredLength (rows cols threads : Nat) : Nat :=
  (ColumnSplit.mk cols threads).scratchLength rows

/-- Makes sure of the buffer: one that is too short gives way to a blank one that just is long
enough. -/
def ensure (memory : Memory) (rows cols threads : Nat) :
    EStateM TransformError (Scratch T) Unit := do
  let required := requiredLength rows cols threads
  if (← get).capacity < required then
    memory.reserve required (Sample.bytes (T := T))
    modify fun s => { s with buffer := Array.replicate required 0 }
    modify fun s => { s with reallocations := s.reallocations + 1 }

/-- The first `length` elements of the buffer. -/
def window (s : Scratch T) (length : Nat) : Array T := s.buffer.extract 0 length

/-- The scratch space after the window of its first elements was left as `xs`. -/
def overwrite (s : Scratch T) (xs : Array T) : Scratch T :=
  { s with buffer := xs ++ s.buffer.extract xs.size }

/-- Gives the buffer up. The count of reallocations goes on. -/
def clear (s : Scratch T) : Scratch T := { s with buffer := #[] }

end Scratch

end CosineTransform
