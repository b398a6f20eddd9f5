import CosineTransform.Columns.Pass
import CosineTransform.Proofs.Columns.Split
import CosineTransform.Proofs.Grid

/-!
# Staging columns

The number of the workers, the width of their blocks, the length of a segment and that of the whole
scratch window are computed apart from each other. `ColumnSplit.Staged` lists in what they have to
agree, so that no check of a column pass fails, and `ColumnSplit.staged_of_size` says that they do
for any window of the required length, as long as no product of sizes is lost in part.
-/

namespace CosineTransform.ColumnSplit

variable {T : Type} {s : ColumnSplit} {rows worker : ℕ}

/-- The blocks of a worker start at its share of the multiples of the width. -/
theorem mem_blocks {block : ColumnBlock} :
    block ∈ s.blocks worker ↔
      ∃ j ∈ Strided.list worker (s.cols / s.width) (max s.workers 1),
        block = ⟨j * s.width, s.width⟩ := by
  simp only [blocks, blockStarts, List.map_map, List.mem_map, Function.comp_apply, eq_comm]

/-- A block lies within the matrix, whether or not the width divides the number of columns. -/
theorem block_end_le {block : ColumnBlock} (h : block ∈ s.blocks worker) :
    block.start + block.width ≤ s.cols := by
  obtain ⟨j, hj, rfl⟩ := mem_blocks.1 h
  have hlt : j < s.cols / s.width := ((Strided.mem_list (by omega) j).1 hj).2
  exact (Grid.row_le hlt s.width).trans (Nat.div_mul_le_self _ _)

/-- A block fills the segment of its worker. -/
theorem block_width {block : ColumnBlock} (h : block ∈ s.blocks worker) :
    block.width = s.width := by
  obtain ⟨j, -, rfl⟩ := mem_blocks.1 h
  rfl

/-- In what the sizes of a column pass on `rows` rows agree, for a scratch window. -/
structure Staged (s : ColumnSplit) (rows : ℕ) (window : Array T) : Prop where
  /-- The window is cut into a segment for every worker, and nothing is left over. -/
  segments : ∃ segments, Buffer.pieces (s.segmentLength rows) window = .ok segments ∧
    Grid.Shaped s.workers (s.segmentLength rows) segments ∧ segments.flatten = window
  /-- A pass of a single worker finds a segment at the start of the window. -/
  leading : ∃ segment, Buffer.slice window 0 (s.segmentLength rows) = .ok segment
  /-- Every block lies within the matrix and fills a segment. -/
  blocks : ∀ worker < s.workers, ∀ block ∈ s.blocks worker,
    block.start + block.width ≤ s.cols ∧ block.width * rows = s.segmentLength rows
  /-- A segment is cut into the columns of a block, and nothing is left over. -/
  columns : ∀ segment : Array T, segment.size = s.segmentLength rows →
    ∃ columns, Buffer.pieces rows segment = .ok columns ∧ Grid.Shaped s.width rows columns ∧
      columns.flatten = segment

/-- The sizes agree for every window of the required length. -/
theorem staged_of_size [Zero T] (h : s.Exact rows) (hrows : 0 < rows) {window : Array T}
    (hsize : window.size = s.scratchLength rows) : s.Staged rows window where
  segments := by
    rw [h.scratchLength_eq] at hsize
    obtain ⟨x, hpieces, hflatten⟩ := Grid.pieces_eq_ok (h.segmentLength_pos hrows) hsize
    exact ⟨_, hpieces, Grid.shaped_ofFn x, hflatten⟩
  leading := by
    -- there is a worker, so the window holds at least one segment
    have hfirst := Grid.row_le h.workers_pos (s.segmentLength rows)
    refine ⟨_, Buffer.slice_eq_ok ?_⟩
    rw [hsize, h.scratchLength_eq]
    omega
  blocks := by
    intro worker _ block hblock
    exact ⟨block_end_le hblock, by rw [block_width hblock, h.segmentLength_eq]⟩
  columns := by
    intro segment hsegment
    rw [h.segmentLength_eq] at hsegment
    obtain ⟨x, hpieces, hflatten⟩ := Grid.pieces_eq_ok hrows hsegment
    exact ⟨_, hpieces, Grid.shaped_ofFn x, hflatten⟩

end CosineTransform.ColumnSplit
