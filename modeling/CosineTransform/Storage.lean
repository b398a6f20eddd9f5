import CosineTransform.Error
import CosineTransform.Grid
import CosineTransform.Word

/-!
# Matrix storage

A matrix is handed over either as one flat buffer of its elements row by row, or nested, as a buffer
for every row. Either can be the leading part of a longer buffer, whose remainder is not handed over
and never changes. `Storage.cells` reads the matrix out of its storage, and fails before anything is
touched if the storage has another shape; `Storage.withCells` puts a matrix back.
-/

namespace CosineTransform

/-- The storage of a matrix. -/
inductive Storage (T : Type) where
  /-- The elements row by row, and what follows them in a longer buffer. -/
  | flat (samples rest : Array T)
  /-- A buffer for every row, and the rows that follow them in a longer list. -/
  | nested (lines rest : Grid T)

namespace Storage

variable {T : Type}

/-- The storage holds exactly `rows` rows of `cols` elements. -/
def Fits (rows cols : Nat) : Storage T → Prop
  | flat samples _ => samples.size = rows * cols
  | nested lines _ => lines.Shaped rows cols

/-- The rows of a matrix of `rows` rows and `cols` columns. A flat buffer of the right length cannot
be cut into rows of no elements. -/
def cells (rows cols : Nat) : Storage T → Except Failure (Grid T)
  | flat samples _ =>
    if samples.size ≠ Word.mul rows cols then
      .error (.error (.flatMismatch rows cols samples.size))
    else (Buffer.pieces cols samples).mapError .fault
  | nested lines _ =>
    if lines.size ≠ rows then .error (.error (.rowCountMismatch rows cols lines.size))
    else
      match lines.misfit? cols with
      | some (index, size) => .error (.error (.rowMismatch rows cols index size))
      | none => .ok lines

/-- The storage with its elements replaced by those of the given rows. -/
def withCells (cells : Grid T) : Storage T → Storage T
  | flat _ rest => flat cells.flatten rest
  | nested _ rest => nested cells rest

end Storage

end CosineTransform
