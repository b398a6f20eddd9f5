import CosineTransform.Columns.Pass
import CosineTransform.Proofs.Grid

/-!
# Copies of a block

A worker copies a block of columns into its segment (`ColumnPass.gather`) and its segment back to
the block (`ColumnPass.scatter`). Both go through the cells of the block row by row, while the
segment holds the block column by column (`ColumnBlock.Holds`). Between two copies, what was copied
is as it will be in the end and all else is as it was at the start.

Nothing is asked of the elements, of the other segments, or of what the segment held before. So the
effect of a block on the matrix is that of the line transform on each of its columns
(`ColumnPass.run_steps_eq_ok`), and the two copies undo each other (`ColumnPass.copies_of_block`).
-/

namespace CosineTransform

variable {T : Type}

/-! ## States of one worker -/

/-- The matrix holds `cells`, and the segment of the worker holds `segment`. -/
def ColumnState.holding (segments : Grid T) (worker : ℕ) (cells : Grid T) (segment : Array T) :
    ColumnState T :=
  ⟨cells, segments.setIfInBounds worker segment⟩

/-- The segment holds the columns of the block, one after another. -/
structure ColumnBlock.Holds (b : ColumnBlock) (rows : ℕ) (cells : Grid T) (segment : Array T) :
    Prop where
  size : segment.size = b.width * rows
  read : ∀ j < b.width, ∀ r < rows,
    Buffer.read segment (j * rows + r) = cells.get r (b.start + j)

namespace ColumnPass

open ColumnState (holding)

section Defs

variable (p : ColumnPass T)

/-- A worker copies a block into its segment. -/
def gather (worker : ℕ) (b : ColumnBlock) : EStateM Fault (ColumnState T) Unit :=
  p.run ((.check b :: b.gather p.rows).map (worker, ·))

/-- A worker copies its segment back to a block. -/
def scatter (worker : ℕ) (b : ColumnBlock) : EStateM Fault (ColumnState T) Unit :=
  p.run ((.check b :: b.scatter p.rows).map (worker, ·))

end Defs

variable {p : ColumnPass T}

/-! ## Running steps -/

theorem run_nil (s : ColumnState T) : p.run [] s = .ok () s := rfl

theorem run_cons {worker : ℕ} {step : ColumnStep} {s s' : ColumnState T}
    (h : p.advance worker step s = .ok () s') (rest : List (ℕ × ColumnStep)) :
    p.run ((worker, step) :: rest) s = p.run rest s' := by
  change (p.advance worker step >>= fun _ => p.run rest) s = _
  rw [bind_of_ok h]

theorem run_append {first : List (ℕ × ColumnStep)} {s s' : ColumnState T}
    (h : p.run first s = .ok () s') (rest : List (ℕ × ColumnStep)) :
    p.run (first ++ rest) s = p.run rest s' := by
  have happend : p.run (first ++ rest) = p.run first >>= fun _ => p.run rest :=
    List.forM_append
  rw [happend, bind_of_ok h]

/-! ## Single steps -/

section Step

variable {worker : ℕ} {s : ColumnState T} {segment : Array T} {b : ColumnBlock}

theorem advance_check_eq_ok (hblock : b.start + b.width ≤ p.split.cols)
    (hsegment : Buffer.read s.segments worker = .ok segment)
    (hsize : segment.size = b.width * p.rows) :
    p.advance worker (.check b) s = .ok () s := by
  unfold advance
  dsimp only
  rw [if_neg (by omega), hsegment]
  exact if_neg (not_not.2 hsize)

theorem advance_fetch_eq_ok {row col slot : ℕ} {x : T} (hcell : s.cells.get row col = .ok x)
    (hslot : s.segments.missing? worker slot = none) :
    p.advance worker (.fetch row col slot) s =
      .ok () { s with segments := s.segments.set worker slot x } := by
  unfold advance
  dsimp only
  rw [hcell, hslot]

theorem advance_transform_eq_ok {column : ℕ} {image : Array T}
    (hsegment : Buffer.read s.segments worker = .ok segment)
    (himage : p.transformColumn column segment = .ok image) :
    p.advance worker (.transform column) s =
      .ok () { s with segments := s.segments.setIfInBounds worker image } := by
  unfold advance
  dsimp only
  rw [hsegment, ok_bind, himage]

theorem advance_store_eq_ok {row col slot : ℕ} {x : T} (hslot : s.segments.get worker slot = .ok x)
    (hcell : s.cells.missing? row col = none) :
    p.advance worker (.store slot row col) s =
      .ok () { s with cells := s.cells.set row col x } := by
  unfold advance
  dsimp only
  rw [hslot, hcell]

variable {segments : Grid T} (hw : worker < segments.size) {cells : Grid T}

include hw

theorem read_holding (segment : Array T) :
    Buffer.read (segments.setIfInBounds worker segment) worker = .ok segment := by
  rw [Buffer.read_setIfInBounds hw, if_pos rfl]

theorem set_holding (segment : Array T) (slot : ℕ) (x : T) :
    Grid.set (segments.setIfInBounds worker segment) worker slot x =
      segments.setIfInBounds worker (segment.setIfInBounds slot x) := by
  refine Buffer.ext_read (by simp [Grid.set]) fun w _ => ?_
  rw [Grid.read_set, Buffer.read_setIfInBounds hw, Buffer.read_setIfInBounds hw]
  split
  · rfl
  · cases Buffer.read segments w <;> rfl

theorem fetch_holding {row col slot : ℕ} {x : T} (hcell : cells.get row col = .ok x)
    (hslot : slot < segment.size) :
    p.advance worker (.fetch row col slot) (holding segments worker cells segment) =
      .ok () (holding segments worker cells (segment.setIfInBounds slot x)) := by
  have hpresent : Grid.missing? (segments.setIfInBounds worker segment) worker slot = none := by
    rw [Grid.missing?, dif_pos (by rwa [Array.size_setIfInBounds]),
      if_pos (by rwa [Array.getElem_setIfInBounds_self])]
  rw [advance_fetch_eq_ok hcell hpresent]
  exact congrArg _ (congrArg _ (set_holding hw segment slot x))

theorem store_holding {row col slot : ℕ} {x : T} (hslot : Buffer.read segment slot = .ok x)
    (hcell : cells.missing? row col = none) :
    p.advance worker (.store slot row col) (holding segments worker cells segment) =
      .ok () (holding segments worker (cells.set row col x) segment) := by
  refine advance_store_eq_ok ?_ hcell
  rw [holding, Grid.get, read_holding hw, ok_bind, hslot]

theorem transform_holding {column : ℕ} {image : Array T}
    (h : p.transformColumn column segment = .ok image) :
    p.advance worker (.transform column) (holding segments worker cells segment) =
      .ok () (holding segments worker cells image) := by
  rw [advance_transform_eq_ok (read_holding hw segment) h, holding,
    Array.setIfInBounds_setIfInBounds]
  rfl

end Step

/-! ## Copies -/

section Copies

/-- The cells of a block by row and column within the block, in the order of the copies. -/
def blockCells (rows width : ℕ) : List (ℕ × ℕ) :=
  (List.range rows).flatMap fun row => (List.range width).map (row, ·)

/-- The steps that fetch some cells of a block. -/
def fetches (rows start : ℕ) (cells : List (ℕ × ℕ)) : List ColumnStep :=
  cells.map fun cell => .fetch cell.1 (start + cell.2) (cell.2 * rows + cell.1)

/-- The steps that store some cells of a block. -/
def stores (rows start : ℕ) (cells : List (ℕ × ℕ)) : List ColumnStep :=
  cells.map fun cell => .store (cell.2 * rows + cell.1) cell.1 (start + cell.2)

theorem mem_blockCells {rows width r j : ℕ} :
    (r, j) ∈ blockCells rows width ↔ r < rows ∧ j < width := by
  simp [blockCells]

theorem gather_eq (b : ColumnBlock) (rows : ℕ) :
    b.gather rows = fetches rows b.start (blockCells rows b.width) := by
  rw [ColumnBlock.gather, fetches, blockCells, List.map_flatMap]
  simp only [List.map_map]
  rfl

theorem scatter_eq (b : ColumnBlock) (rows : ℕ) :
    b.scatter rows = stores rows b.start (blockCells rows b.width) := by
  rw [ColumnBlock.scatter, stores, blockCells, List.map_flatMap]
  simp only [List.map_map]
  rfl

/-- A slot of a segment belongs to one cell of the block. -/
theorem slot_eq_iff {rows r j k : ℕ} (hr : r < rows) :
    k = j * rows + r ↔ k % rows = r ∧ k / rows = j := by
  constructor
  · rintro rfl
    exact ⟨Grid.index_mod j hr, Grid.index_div j hr⟩
  · rintro ⟨rfl, rfl⟩
    exact (Nat.div_add_mod' k rows).symm

variable {segments : Grid T} {worker : ℕ} (hw : worker < segments.size) {cells : Grid T}
  {segment : Array T}

include hw

/-- Fetching some cells leaves the segment that has them in their slots and is otherwise as
before. -/
theorem run_fetches (start : ℕ) {filled : Array T} (list : List (ℕ × ℕ))
    (hsize : segment.size = filled.size)
    (hfetch : ∀ cell ∈ list, cell.1 < p.rows ∧ ∃ x, cells.get cell.1 (start + cell.2) = .ok x ∧
      Buffer.read filled (cell.2 * p.rows + cell.1) = .ok x)
    (hrest : ∀ k < segment.size, (k % p.rows, k / p.rows) ∉ list →
      Buffer.read segment k = Buffer.read filled k) :
    p.run ((fetches p.rows start list).map (worker, ·)) (holding segments worker cells segment) =
      .ok () (holding segments worker cells filled) := by
  -- over the cells that are left: every other slot holds what it is to hold
  induction list generalizing segment with
  | nil =>
    rw [Buffer.ext_read hsize fun k hk => hrest k hk List.not_mem_nil]
    rfl
  | cons cell list ih =>
    obtain ⟨hrow, x, hcell, hfilled⟩ := hfetch cell List.mem_cons_self
    obtain ⟨hslot, -⟩ := Buffer.read_eq_ok_iff.1 hfilled
    have hslot : cell.2 * p.rows + cell.1 < segment.size := hsize ▸ hslot
    rw [fetches, List.map_cons, List.map_cons, run_cons (fetch_holding hw hcell hslot)]
    refine ih (by rw [Array.size_setIfInBounds, hsize])
      (fun other hother => hfetch other (List.mem_cons_of_mem _ hother)) fun k hk hlater => ?_
    rw [Array.size_setIfInBounds] at hk
    rw [Buffer.read_setIfInBounds hslot]
    split
    · rename_i hsame
      rw [hsame, hfilled]
    · -- a slot that no later cell fills was filled already
      rename_i hne
      refine hrest k hk fun hmem => ?_
      rcases List.mem_cons.1 hmem with hsame | hmem
      · exact hne ((slot_eq_iff hrow).2 (Prod.ext_iff.1 hsame))
      · exact hlater hmem

/-- Storing some slots leaves the matrix that has them in their cells and is otherwise as before. -/
theorem run_stores {final : Grid T} (hshaped : cells.Shaped p.rows p.split.cols)
    (hfinal : final.Shaped p.rows p.split.cols) (start : ℕ) (list : List (ℕ × ℕ))
    (hstore : ∀ cell ∈ list, cell.1 < p.rows ∧ start + cell.2 < p.split.cols ∧
      Buffer.read segment (cell.2 * p.rows + cell.1) = final.get cell.1 (start + cell.2))
    (hrest : ∀ r < p.rows, ∀ c < p.split.cols, ¬(start ≤ c ∧ (r, c - start) ∈ list) →
      cells.get r c = final.get r c) :
    p.run ((stores p.rows start list).map (worker, ·)) (holding segments worker cells segment) =
      .ok () (holding segments worker final segment) := by
  -- over the slots that are left: every other cell holds what it is to hold
  induction list generalizing cells with
  | nil =>
    rw [hshaped.ext hfinal fun r hr c hc => hrest r hr c hc fun h => List.not_mem_nil h.2]
    rfl
  | cons cell list ih =>
    obtain ⟨hrow, hcol, hslot⟩ := hstore cell List.mem_cons_self
    obtain ⟨x, hx⟩ := hfinal.get_eq_ok hrow hcol
    rw [stores, List.map_cons, List.map_cons,
      run_cons (store_holding hw (hslot.trans hx) (hshaped.missing?_eq_none hrow hcol))]
    refine ih (hshaped.set _ _ _) (fun other hother => hstore other (List.mem_cons_of_mem _ hother))
      fun r hr c hc hlater => ?_
    rw [hshaped.get_set hrow hcol]
    split
    · rename_i hsame
      rw [hsame.1, hsame.2, hx]
    · -- a cell that no later slot is stored in was stored already
      rename_i hne
      refine hrest r hr c hc fun ⟨hle, hmem⟩ => ?_
      rcases List.mem_cons.1 hmem with hsame | hmem
      · obtain ⟨hr', hc'⟩ := Prod.ext_iff.1 hsame
        exact hne ⟨hr', by omega⟩
      · exact hlater ⟨hle, hmem⟩

/-- Transforming the first columns of a segment, one after another, leaves the images in their
places. -/
theorem run_transforms (cells : Grid T) {staged : Array T} (hsize : segment.size = staged.size)
    {count : ℕ}
    (himage : ∀ j < count, ∃ image, Buffer.slice staged (j * p.rows) p.rows = .ok image ∧
      (Buffer.slice segment (j * p.rows) p.rows >>= p.line) = .ok image) :
    ∃ mid, p.run (((List.range count).map .transform).map (worker, ·))
        (holding segments worker cells segment) = .ok () (holding segments worker cells mid) ∧
      mid.size = segment.size ∧ ∀ k, Buffer.read mid k =
        if k < count * p.rows then Buffer.read staged k else Buffer.read segment k := by
  induction count with
  | zero => exact ⟨segment, rfl, rfl, fun k => by rw [Nat.zero_mul, if_neg (Nat.not_lt_zero k)]⟩
  | succ count ih =>
    obtain ⟨mid, hrun, hmid, hread⟩ := ih fun j hj => himage j (by omega)
    obtain ⟨image, hstaged, hline⟩ := himage count (by omega)
    have hroom := Buffer.room_of_slice hstaged
    have hlength := Buffer.size_of_slice hstaged
    -- this column is still as it was in the segment
    have hslice : Buffer.slice mid (count * p.rows) p.rows =
        Buffer.slice segment (count * p.rows) p.rows := by
      rw [Buffer.slice_eq_tabulate (by omega), Buffer.slice_eq_tabulate (by omega)]
      refine Buffer.tabulate_congr fun i _ => ?_
      rw [hread, if_neg (by omega)]
    obtain ⟨next, hblit⟩ := Buffer.blit_eq_ok mid (count * p.rows) image (by omega)
    have hstep : p.transformColumn count mid = .ok next := by
      rw [transformColumn, hslice]
      obtain ⟨column, hcolumn, himage⟩ := bind_eq_ok.1 hline
      rw [hcolumn, ok_bind, himage, ok_bind, hblit]
    refine ⟨next, ?_, (Buffer.size_of_blit hblit).trans hmid, fun k => ?_⟩
    · rw [List.range_succ, List.map_append, List.map_append, run_append hrun]
      exact (run_cons (transform_holding hw hstep) []).trans (run_nil _)
    · rw [Nat.succ_mul]
      by_cases hin : count * p.rows ≤ k ∧ k < count * p.rows + p.rows
      · rw [if_pos hin.2, Buffer.read_of_blit_of_mem hblit hin.1 (by omega),
          Buffer.read_of_slice hstaged (by omega), Nat.add_sub_cancel' hin.1]
      · rw [Buffer.read_of_blit hblit (by omega), hread]
        exact if_congr (by omega) rfl rfl

end Copies

end ColumnPass

/-! ## The contents of a block -/

namespace ColumnBlock

variable {b : ColumnBlock} {rows cols : ℕ} {cells final : Grid T} {segment : Array T}

/-- The columns of a block can be held. -/
theorem exists_holds (hcells : cells.Shaped rows cols) (hblock : b.start + b.width ≤ cols) :
    ∃ segment, b.Holds rows cells segment := by
  have hcolumn (j : ℕ) (hj : j < b.width) := hcells.column_eq_ok (show b.start + j < cols by omega)
  obtain ⟨segment, hsize, hslice⟩ := Grid.exists_slices hcolumn
  refine ⟨segment, hsize, fun j hj r hr => ?_⟩
  obtain ⟨column, hcolumn, -⟩ := hcolumn j hj
  rw [← Buffer.read_of_slice ((hslice j hj).trans hcolumn) hr, Buffer.read_of_tabulate hcolumn hr]

/-- There is a matrix whose columns of the block a segment holds, and which is the same beside the
block. -/
theorem exists_scattered (hcells : cells.Shaped rows cols) (hblock : b.start + b.width ≤ cols)
    (hsize : segment.size = b.width * rows) :
    ∃ final : Grid T, final.Shaped rows cols ∧ b.Holds rows final segment ∧
      ∀ r < rows, ∀ c < cols, ¬(b.start ≤ c ∧ c < b.start + b.width) →
        cells.get r c = final.get r c := by
  have hcell (r : ℕ) (hr : r < rows) (c : ℕ) (hc : c < cols) : ∃ x,
      (if b.start ≤ c ∧ c < b.start + b.width then
          Buffer.read segment ((c - b.start) * rows + r)
        else cells.get r c) = .ok x := by
    split
    · have hslot := Grid.row_le (show c - b.start < b.width by omega) rows
      exact ⟨_, Buffer.read_eq_ok (by omega)⟩
    · exact hcells.get_eq_ok hr hc
  -- the grid is given cell by cell, so nothing is said of the order of the stores
  obtain ⟨final, hfinal, hget⟩ := Grid.exists_shaped hcell
  refine ⟨final, hfinal, ⟨hsize, fun j hj r hr => ?_⟩, fun r hr c hc hbeside => ?_⟩
  · rw [hget r hr _ (by omega), if_pos (by omega), Nat.add_sub_cancel_left]
  · rw [hget r hr c hc, if_neg hbeside]

/-- A column of the block is a piece of the segment that holds it. -/
theorem Holds.slice_eq (h : b.Holds rows cells segment) {j : ℕ} (hj : j < b.width) :
    Buffer.slice segment (j * rows) rows = cells.column rows (b.start + j) := by
  have hroom := Grid.row_le hj rows
  rw [Buffer.slice_eq_tabulate (by rw [h.size]; exact hroom)]
  exact Buffer.tabulate_congr fun r hr => h.read j hj r hr

end ColumnBlock

namespace ColumnPass

open ColumnState (holding)

variable {p : ColumnPass T} {segments : Grid T} {worker : ℕ} {cells final : Grid T}
  {segment : Array T} {b : ColumnBlock}

/-! ## Blocks -/

section Block

variable (hw : worker < segments.size) (hblock : b.start + b.width ≤ p.split.cols)

include hw hblock

/-- A block is gathered into the segment that holds its columns, whatever was there before. -/
theorem gather_eq_ok (hcells : cells.Shaped p.rows p.split.cols) {gathered : Array T}
    (h : b.Holds p.rows cells gathered) (hsize : segment.size = b.width * p.rows) :
    p.gather worker b (holding segments worker cells segment) =
      .ok () (holding segments worker cells gathered) := by
  have hcheck : p.advance worker (.check b) (holding segments worker cells segment) = .ok () _ :=
    advance_check_eq_ok hblock (read_holding hw segment) hsize
  rw [gather, List.map_cons, run_cons hcheck, gather_eq]
  refine run_fetches hw b.start _ (hsize.trans h.size.symm) ?_ ?_
  · intro ⟨r, j⟩ hcell
    obtain ⟨hr, hj⟩ := mem_blockCells.1 hcell
    obtain ⟨x, hx⟩ := hcells.get_eq_ok hr (show b.start + j < p.split.cols by omega)
    exact ⟨hr, x, hx, (h.read j hj r hr).trans hx⟩
  · -- every slot belongs to a cell of the block
    intro k hk hrest
    have hslot : k < b.width * p.rows := hsize ▸ hk
    exact absurd (mem_blockCells.2 ⟨Nat.mod_lt _ (Nat.pos_of_lt_mul_left hslot),
      Nat.div_lt_of_lt_mul (by rwa [Nat.mul_comm])⟩) hrest

/-- A block is scattered into the matrix whose columns the segment holds, and which is the same
beside the block. -/
theorem scatter_eq_ok (hcells : cells.Shaped p.rows p.split.cols)
    (hfinal : final.Shaped p.rows p.split.cols) (h : b.Holds p.rows final segment)
    (hrest : ∀ r < p.rows, ∀ c < p.split.cols, ¬(b.start ≤ c ∧ c < b.start + b.width) →
      cells.get r c = final.get r c) :
    p.scatter worker b (holding segments worker cells segment) =
      .ok () (holding segments worker final segment) := by
  have hcheck : p.advance worker (.check b) (holding segments worker cells segment) = .ok () _ :=
    advance_check_eq_ok hblock (read_holding hw segment) h.size
  rw [scatter, List.map_cons, run_cons hcheck, scatter_eq]
  -- a cell beside the block is no cell of its list
  refine run_stores hw hcells hfinal b.start _ ?_ ?_
  · intro ⟨r, j⟩ hcell
    obtain ⟨hr, hj⟩ := mem_blockCells.1 hcell
    exact ⟨hr, by omega, h.read j hj r hr⟩
  · intro r hr c hc hbeside
    refine hrest r hr c hc fun hin => hbeside ⟨hin.1, mem_blockCells.2 ⟨hr, by omega⟩⟩

/-- All that a worker does to a block is to transform its columns. -/
theorem run_steps_eq_ok (hrows : 0 < p.rows) (hcells : cells.Shaped p.rows p.split.cols)
    (hsize : segment.size = b.width * p.rows)
    (hline : ∀ j < b.width, ∃ image,
      (cells.column p.rows (b.start + j) >>= p.line) = .ok image ∧ image.size = p.rows) :
    ∃ final staged,
      p.run ((b.steps p.rows).map (worker, ·)) (holding segments worker cells segment) =
        .ok () (holding segments worker final staged) ∧
      staged.size = b.width * p.rows ∧ final.Shaped p.rows p.split.cols ∧
      ∀ c < p.split.cols, final.column p.rows c =
        if b.start ≤ c ∧ c < b.start + b.width then cells.column p.rows c >>= p.line
        else cells.column p.rows c := by
  obtain ⟨gathered, hgathered⟩ := ColumnBlock.exists_holds hcells hblock
  obtain ⟨staged, hstaged, hslice⟩ := Grid.exists_slices hline
  have hsame := hgathered.size.trans hstaged.symm
  obtain ⟨final, hfinal, hholds, hbeside⟩ :=
    ColumnBlock.exists_scattered hcells hblock hstaged
  refine ⟨final, staged, ?_, hstaged, hfinal, fun c hc => ?_⟩
  · have hsteps : b.steps p.rows = (.check b :: b.gather p.rows) ++
        (b.transforms p.rows ++ (.check b :: b.scatter p.rows)) := by
      simp only [ColumnBlock.steps, List.cons_append, List.append_assoc]
    -- what the kernel reads is what was gathered, and the images are the staged columns
    have himage (j : ℕ) (hj : j < b.width) :
        ∃ image, Buffer.slice staged (j * p.rows) p.rows = .ok image ∧
          (Buffer.slice gathered (j * p.rows) p.rows >>= p.line) = .ok image := by
      obtain ⟨image, himage, -⟩ := hline j hj
      exact ⟨image, (hslice j hj).trans himage, by rw [hgathered.slice_eq hj, himage]⟩
    obtain ⟨mid, hmid, hmidSize, hmidRead⟩ := run_transforms hw cells hsame himage
    -- every slot belongs to one of the columns, so the images fill the segment
    obtain rfl : mid = staged := by
      refine Buffer.ext_read (hmidSize.trans hsame) fun k hk => ?_
      rw [hmidRead, if_pos (by omega)]
    rw [hsteps, List.map_append, run_append (gather_eq_ok hw hblock hcells hgathered hsize),
      List.map_append, ColumnBlock.transforms, Nat.mul_div_cancel _ hrows, run_append hmid]
    exact scatter_eq_ok hw hblock hcells hfinal hholds hbeside
  · split
    · rename_i hin
      obtain ⟨j, rfl⟩ := Nat.exists_eq_add_of_le hin.1
      have hj : j < b.width := by omega
      rw [← hholds.slice_eq hj, hslice j hj]
    · rename_i hin
      exact Buffer.tabulate_congr fun r hr => (hbeside r hr c hc hin).symm

end Block

/-- A block and the segment of a worker, whatever the other segments and the rest of the matrix are.
Scattering the segment writes the columns of the block and no other cell, and gathering the block
then gives the segment back, whatever is in its place. What is gathered does not depend on what was
there either: column `j` of the block is the `j`-th piece of as many elements as there are rows, and
scattering it leaves the matrix as it is. So if the pieces are transformed in between, every column
of the block is replaced by its own transform, and every other column stays. -/
theorem copies_of_block (hworker : worker < segments.size) (hrows : 0 < p.rows)
    (hcells : cells.Shaped p.rows p.split.cols) (hfits : b.start + b.width ≤ p.split.cols)
    (hsize : segment.size = b.width * p.rows) :
    let holding := ColumnState.holding segments worker
    (∃ after, p.scatter worker b (holding cells segment) = .ok () (holding after segment) ∧
      after.Shaped p.rows p.split.cols ∧
      (∀ r < p.rows, ∀ c < p.split.cols, after.get r c =
        if b.start ≤ c ∧ c < b.start + b.width then
          Buffer.read segment ((c - b.start) * p.rows + r)
        else cells.get r c) ∧
      ∀ other : Array T, other.size = b.width * p.rows →
        p.gather worker b (holding after other) = .ok () (holding after segment)) ∧
    (∃ gathered, gathered.size = b.width * p.rows ∧
      (∀ other : Array T, other.size = b.width * p.rows →
        p.gather worker b (holding cells other) = .ok () (holding cells gathered)) ∧
      (∀ j < b.width, ∃ column, cells.column p.rows (b.start + j) = .ok column ∧
        Buffer.slice gathered (j * p.rows) p.rows = .ok column) ∧
      p.scatter worker b (holding cells gathered) = .ok () (holding cells gathered)) ∧
    ((∀ j < b.width, ∃ image,
        (cells.column p.rows (b.start + j) >>= p.line) = .ok image ∧ image.size = p.rows) →
      ∃ final staged,
        p.run ((b.steps p.rows).map (worker, ·)) (holding cells segment) =
          .ok () (holding final staged) ∧
        staged.size = b.width * p.rows ∧ final.Shaped p.rows p.split.cols ∧
        ∀ c < p.split.cols, final.column p.rows c =
          if b.start ≤ c ∧ c < b.start + b.width then cells.column p.rows c >>= p.line
          else cells.column p.rows c) := by
  refine ⟨?_, ?_, run_steps_eq_ok hworker hfits hrows hcells hsize⟩
  · obtain ⟨after, hafter, hholds, hbeside⟩ := ColumnBlock.exists_scattered hcells hfits hsize
    refine ⟨after, scatter_eq_ok hworker hfits hcells hafter hholds hbeside, hafter, ?_,
      fun other => gather_eq_ok hworker hfits hafter hholds⟩
    intro r hr c hc
    split
    · rename_i hin
      obtain ⟨j, rfl⟩ := Nat.exists_eq_add_of_le hin.1
      rw [Nat.add_sub_cancel_left, hholds.read j (by omega) r hr]
    · rename_i hin
      exact (hbeside r hr c hc hin).symm
  · obtain ⟨gathered, hholds⟩ := ColumnBlock.exists_holds hcells hfits
    -- the segment before the copy is arbitrary, so every element is overwritten
    refine ⟨gathered, hholds.size, fun other => gather_eq_ok hworker hfits hcells hholds, ?_,
      scatter_eq_ok hworker hfits hcells hcells hholds fun _ _ _ _ _ => rfl⟩
    intro j hj
    obtain ⟨column, hcolumn, -⟩ := hcells.column_eq_ok (show b.start + j < p.split.cols by omega)
    exact ⟨column, hcolumn, (hholds.slice_eq hj).trans hcolumn⟩

/-- The two middle columns of a matrix of three rows. -/
theorem copies_of_block_middle :
    let p : ColumnPass ℕ := ⟨3, ⟨4, 1⟩, fun a => .ok (a.map (100 + ·))⟩
    let b : ColumnBlock := ⟨1, 2⟩
    let cells : Grid ℕ := #[#[0, 1, 2, 3], #[4, 5, 6, 7], #[8, 9, 10, 11]]
    let segment := #[20, 21, 22, 23, 24, 25]
    (∃ after, p.scatter 0 b ⟨cells, #[segment]⟩ = .ok () ⟨after, #[segment]⟩ ∧
      after.get 1 2 = .ok 24 ∧ after.get 1 3 = .ok 7 ∧
      p.gather 0 b ⟨after, #[#[0, 0, 0, 0, 0, 0]]⟩ = .ok () ⟨after, #[segment]⟩) ∧
    ∃ final staged, p.run ((b.steps 3).map (0, ·)) ⟨cells, #[segment]⟩ =
        .ok () ⟨final, #[staged]⟩ ∧
      final.column 3 2 = .ok #[102, 106, 110] ∧ final.column 3 3 = .ok #[3, 7, 11] := by
  intro p b cells segment
  have hcells : cells.Shaped 3 4 := ⟨rfl, by decide⟩
  have hone : cells.column 3 1 = .ok #[1, 5, 9] := Buffer.tabulate_eq_ok_iff.2 ⟨rfl, by decide⟩
  have htwo : cells.column 3 2 = .ok #[2, 6, 10] := Buffer.tabulate_eq_ok_iff.2 ⟨rfl, by decide⟩
  have hthree : cells.column 3 3 = .ok #[3, 7, 11] := Buffer.tabulate_eq_ok_iff.2 ⟨rfl, by decide⟩
  have himageOne : (cells.column 3 1 >>= p.line) = .ok #[101, 105, 109] := by
    rw [hone, ok_bind]
    simp [p]
  have himageTwo : (cells.column 3 2 >>= p.line) = .ok #[102, 106, 110] := by
    rw [htwo, ok_bind]
    simp [p]
  have himage : ∀ j < 2, ∃ image : Array ℕ,
      (cells.column 3 (1 + j) >>= p.line) = .ok image ∧ image.size = 3 := by
    intro j hj
    obtain rfl | rfl : j = 0 ∨ j = 1 := by omega
    · exact ⟨_, himageOne, rfl⟩
    · exact ⟨_, himageTwo, rfl⟩
  obtain ⟨⟨after, hscatter, -, hget, hgather⟩, -, hrun⟩ :=
    @copies_of_block ℕ p #[#[]] 0 cells segment b (by decide) (by decide) hcells (by decide) rfl
  obtain ⟨final, staged, hsteps, -, -, hcolumn⟩ := hrun himage
  refine ⟨⟨after, hscatter, hget 1 (by decide) 2 (by decide), hget 1 (by decide) 3 (by decide),
    hgather _ rfl⟩, final, staged, hsteps, ?_, ?_⟩
  · exact (hcolumn 2 (by decide)).trans himageTwo
  · exact (hcolumn 3 (by decide)).trans hthree

end ColumnPass

end CosineTransform
