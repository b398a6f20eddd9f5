import CosineTransform.Plane.Basic
import CosineTransform.Proofs.Grid

/-!
# What a plane transform is to compute

`PlaneTransform.specification` transforms every column of a matrix and then every row of the result,
each line by itself, on tables that are built for this one matrix. It knows of no workers, blocks,
scratch space or storage, and of no call before it.
-/

namespace CosineTransform

variable {α : Type}

namespace Grid

/-- The grid of `rows` rows and `cols` columns with every column replaced by what `line` makes of
it. -/
def mapColumns (rows cols : ℕ) (line : Array α → Except Fault (Array α)) (grid : Grid α) :
    Except Fault (Grid α) := do
  let images ← Buffer.tabulate cols fun c => do
    line (← Buffer.tabulate rows fun r => grid.get r c)
  Buffer.tabulate rows fun r => Buffer.tabulate cols fun c => Grid.get images c r

/-- The grid with every row replaced by what `line` makes of it. -/
def mapRows (line : Array α → Except Fault (Array α)) (grid : Grid α) : Except Fault (Grid α) :=
  Buffer.tabulate grid.size fun r => do line (← Buffer.read grid r)

variable {rows cols : ℕ} {line : Array α → Except Fault (Array α)} {image : (ℕ → α) → ℕ → α}

theorem mapColumns_ofFn (h : Computes line rows image) (x : ℕ → ℕ → α) :
    (ofFn rows cols x).mapColumns rows cols line =
      .ok (ofFn rows cols fun r c => image (fun i => x i c) r) := by
  have hcolumn (c : ℕ) (hc : c < cols) :
      (do line (← Buffer.tabulate rows fun r => (ofFn rows cols x).get r c)) =
        Except.ok (Buffer.ofFn rows (image fun i => x i c)) := by
    rw [Buffer.tabulate_eq_ok (g := fun r => x r c), ok_bind, h]
    intro r hr
    exact get_ofFn x hr hc
  rw [mapColumns, Buffer.tabulate_eq_ok hcolumn, ok_bind]
  refine Buffer.tabulate_eq_ok fun r hr => Buffer.tabulate_eq_ok fun c hc => ?_
  exact get_ofFn (fun c r => image (fun i => x i c) r) hc hr

theorem mapRows_ofFn (h : Computes line cols image) (x : ℕ → ℕ → α) :
    (ofFn rows cols x).mapRows line = .ok (ofFn rows cols fun r => image (x r)) := by
  rw [mapRows, size_ofFn]
  refine Buffer.tabulate_eq_ok ?_
  intro r hr
  rw [read_ofFn x hr, ok_bind, h]

end Grid

namespace PlaneTransform

variable {R T : Type} [Precise R] [Sample R T]

/-- The transform of a matrix of `rows` rows and `cols` columns: of every column, and then of every
row. -/
def specification (rows cols : ℕ) (direction : Direction) (scaled : Bool) (cells : Grid T) :
    Except Failure (Grid T) := do
  let tables : Tables T ← Tables.ofLength ⟨fun _ => true⟩ (max rows cols)
  let columnLine ← (LineTransform.ofLength rows : Except TransformError (LineTransform T))
  let rowLine ← (LineTransform.ofLength cols : Except TransformError (LineTransform T))
  let columns ← cells.mapColumns rows cols (columnLine.apply direction tables scaled)
  columns.mapRows (rowLine.apply direction tables scaled)

end PlaneTransform

end CosineTransform
