import CosineTransform.Proofs.Buffer
import CosineTransform.Storage
import Mathlib.Algebra.Order.Group.Nat

/-!
# Grids as functions of row and column

`Grid.ofFn` writes a grid whose rows all have one length as a function of the row and the column. On
such a grid an access within bounds succeeds, and a replaced cell is a changed value of the
function. Row by row in a flat buffer, the element in row `r` and column `c` has the index
`r * cols + c`.

A grid of a shape is determined by its cells (`Grid.Shaped.ext`), and there is one for any cells
that can be computed (`Grid.exists_shaped`), even if there is no element to extend a function with.
-/

namespace CosineTransform

variable {α : Type}

namespace Grid

/-- The grid of `rows` rows of `cols` elements with `x r c` in row `r` and column `c`. -/
def ofFn (rows cols : ℕ) (x : ℕ → ℕ → α) : Grid α :=
  Buffer.ofFn rows fun r => Buffer.ofFn cols (x r)

variable {rows cols : ℕ}

/-! ## Indices row by row -/

theorem index_div (r : ℕ) {c : ℕ} (hc : c < cols) : (r * cols + c) / cols = r := by
  rw [Nat.mul_comm, Nat.mul_add_div (by omega), Nat.div_eq_of_lt hc, add_zero]

theorem index_mod (r : ℕ) {c : ℕ} (hc : c < cols) : (r * cols + c) % cols = c := by
  rw [Nat.mul_comm, Nat.mul_add_mod, Nat.mod_eq_of_lt hc]

/-- A row ends within the elements of all rows. -/
theorem row_le {r : ℕ} (hr : r < rows) (cols : ℕ) : r * cols + cols ≤ rows * cols := by
  rw [← Nat.succ_mul]
  exact Nat.mul_le_mul_right cols hr

/-! ## Grids of a given function -/

theorem size_ofFn (x : ℕ → ℕ → α) : (ofFn rows cols x).size = rows := Buffer.size_ofFn _ _

theorem getElem_ofFn (x : ℕ → ℕ → α) (r : ℕ) (hr : r < (ofFn rows cols x).size) :
    (ofFn rows cols x)[r] = Buffer.ofFn cols (x r) := Buffer.getElem_ofFn _ _ _ _

theorem width_ofFn (hrows : 0 < rows) (x : ℕ → ℕ → α) : (ofFn rows cols x).width = cols := by
  have hrow : 0 < (ofFn rows cols x).size := by rwa [size_ofFn]
  rw [width, Array.getElem?_eq_getElem hrow]
  change (ofFn rows cols x)[0].size = cols
  rw [getElem_ofFn, Buffer.size_ofFn]

/-- Only the values within the grid matter. -/
theorem ofFn_congr {x y : ℕ → ℕ → α} (h : ∀ r < rows, ∀ c < cols, x r c = y r c) :
    ofFn rows cols x = ofFn rows cols y :=
  Buffer.ofFn_congr fun r hr => Buffer.ofFn_congr (h r hr)

theorem shaped_ofFn (x : ℕ → ℕ → α) : (ofFn rows cols x).Shaped rows cols := by
  refine ⟨size_ofFn x, fun r hr => ?_⟩
  rw [getElem_ofFn, Buffer.size_ofFn]

/-- Every grid of a shape is that of its elements. -/
theorem Shaped.eq_ofFn [Zero α] {grid : Grid α} (h : grid.Shaped rows cols) :
    ∃ x, grid = ofFn rows cols x := by
  refine ⟨fun r => Buffer.entry (grid[r]?.getD #[]), Buffer.eq_ofFn h.1 fun r hr => ?_⟩
  change grid[r] = Buffer.ofFn cols (Buffer.entry (grid[r]?.getD #[]))
  rw [Array.getElem?_eq_getElem hr, Option.getD_some, ← h.2 r hr, Buffer.ofFn_entry]

/-! ## Accesses -/

theorem read_ofFn (x : ℕ → ℕ → α) {r : ℕ} (hr : r < rows) :
    Buffer.read (ofFn rows cols x) r = .ok (Buffer.ofFn cols (x r)) := Buffer.read_ofFn _ hr

theorem get_ofFn (x : ℕ → ℕ → α) {r c : ℕ} (hr : r < rows) (hc : c < cols) :
    (ofFn rows cols x).get r c = .ok (x r c) := by
  rw [get, read_ofFn x hr, ok_bind, Buffer.read_ofFn _ hc]

/-- A grid determines the values within it. -/
theorem ofFn_inj {x y : ℕ → ℕ → α} (h : ofFn rows cols x = ofFn rows cols y) {r c : ℕ}
    (hr : r < rows) (hc : c < cols) : x r c = y r c := by
  have hget := congrArg (·.get r c) h
  rw [get_ofFn x hr hc, get_ofFn y hr hc] at hget
  exact Except.ok.inj hget

theorem missing?_ofFn (x : ℕ → ℕ → α) {r c : ℕ} (hr : r < rows) (hc : c < cols) :
    (ofFn rows cols x).missing? r c = none := by
  rw [missing?, dif_pos (by rwa [size_ofFn]), if_pos (by rwa [getElem_ofFn, Buffer.size_ofFn])]

theorem misfit?_ofFn (x : ℕ → ℕ → α) : (ofFn rows cols x).misfit? cols = none := by
  have hnone : (ofFn rows cols x).findIdx? (·.size ≠ cols) = none := by
    rw [Array.findIdx?_eq_none_iff]
    intro row hrow
    obtain ⟨r, hr, rfl⟩ := Array.getElem_of_mem hrow
    simp [getElem_ofFn]
  rw [misfit?, hnone]
  rfl

/-- Replacing a whole row. -/
theorem setIfInBounds_ofFn (x : ℕ → ℕ → α) (y : ℕ → α) (r : ℕ) :
    (ofFn rows cols x).setIfInBounds r (Buffer.ofFn cols y) =
      ofFn rows cols fun i => if i = r then y else x i := by
  rw [ofFn, Buffer.setIfInBounds_ofFn]
  exact Buffer.ofFn_congr fun i _ => (apply_ite (Buffer.ofFn cols) (i = r) y (x i)).symm

/-- Replacing a single element. -/
theorem set_ofFn (x : ℕ → ℕ → α) (r c : ℕ) (v : α) :
    (ofFn rows cols x).set r c v =
      ofFn rows cols fun i j => if i = r ∧ j = c then v else x i j := by
  unfold Grid.set
  rw [ofFn, Buffer.modify_ofFn]
  refine Buffer.ofFn_congr ?_
  intro i _
  by_cases hi : i = r
  · rw [if_pos hi, Buffer.setIfInBounds_ofFn]
    simp only [hi, true_and]
  · rw [if_neg hi]
    simp only [hi, false_and, if_false]

/-! ## Flat storage -/

/-- The rows of a flat buffer. -/
theorem pieces_ofFn (hcols : 0 < cols) (x : ℕ → α) :
    Buffer.pieces cols (Buffer.ofFn (rows * cols) x) =
      .ok (ofFn rows cols fun r c => x (r * cols + c)) := by
  rw [Buffer.pieces, if_neg (by omega), Buffer.size_ofFn]
  refine congrArg Except.ok (Buffer.eq_ofFn ?_ fun r hr => ?_)
  · rw [Array.size_ofFn, Nat.mul_div_cancel _ hcols]
  · rw [Array.size_ofFn, Nat.mul_div_cancel _ hcols] at hr
    have hle := row_le hr cols
    rw [Array.getElem_ofFn]
    refine Buffer.eq_ofFn (by simp; omega) ?_
    intro c hc
    rw [Array.getElem_extract, Buffer.getElem_ofFn]

/-- The elements of a grid row by row. -/
theorem flatten_ofFn (x : ℕ → ℕ → α) :
    (ofFn rows cols x).flatten = Buffer.ofFn (rows * cols) fun k => x (k / cols) (k % cols) := by
  induction rows with
  | zero => simp [ofFn, Buffer.ofFn]
  | succ rows ih =>
    -- the last row comes behind the elements of the others
    have hlast : ofFn (rows + 1) cols x =
        ofFn rows cols x ++ #[Buffer.ofFn cols (x rows)] := by
      refine (Buffer.eq_ofFn (by simp [size_ofFn]) fun r hr => ?_).symm
      rw [Array.getElem_append]
      split
      · exact getElem_ofFn x r _
      · have hr' : r = rows := by simp [size_ofFn] at *; omega
        simp [hr', size_ofFn]
    rw [hlast, Array.flatten_append, ih, Array.flatten_singleton, Buffer.ofFn_append, Nat.succ_mul]
    refine Buffer.ofFn_congr ?_
    intro k hk
    split
    · rfl
    · obtain ⟨c, rfl⟩ := Nat.exists_eq_add_of_le (not_lt.1 ‹_›)
      have hc : c < cols := by omega
      rw [Nat.add_sub_cancel_left, index_div rows hc, index_mod rows hc]

/-- A buffer is cut into pieces of one length. -/
theorem shaped_of_pieces {xs : Array α} {grid : Grid α} (h : Buffer.pieces cols xs = .ok grid) :
    grid.Shaped (xs.size / cols) cols := by
  rw [Buffer.pieces] at h
  split at h
  · exact nomatch h
  · obtain rfl := Except.ok.inj h
    refine ⟨Array.size_ofFn, fun r hr => ?_⟩
    rw [Array.size_ofFn] at hr
    have hroom := (row_le hr cols).trans (Nat.div_mul_le_self xs.size cols)
    rw [Array.getElem_ofFn, Array.size_extract]
    change min (r * cols + cols) xs.size - r * cols = cols
    omega

/-- A single row is the buffer of its elements. -/
theorem flatten_ofFn_one (x : ℕ → ℕ → α) : (ofFn 1 cols x).flatten = Buffer.ofFn cols (x 0) := by
  rw [flatten_ofFn, Nat.one_mul]
  refine Buffer.ofFn_congr ?_
  intro k hk
  rw [Nat.div_eq_of_lt hk, Nat.mod_eq_of_lt hk]

/-- A flat buffer of whole rows is cut into them with nothing left over. -/
theorem pieces_eq_ok [Zero α] (hcols : 0 < cols) {xs : Array α} (h : xs.size = rows * cols) :
    ∃ x, Buffer.pieces cols xs = .ok (ofFn rows cols x) ∧ (ofFn rows cols x).flatten = xs := by
  have hxs : Buffer.ofFn (rows * cols) (Buffer.entry xs) = xs := by
    rw [← h, Buffer.ofFn_entry]
  refine ⟨fun r c => Buffer.entry xs (r * cols + c), ?_, ?_⟩
  · have hpieces : Buffer.pieces cols (Buffer.ofFn (rows * cols) (Buffer.entry xs)) = _ :=
      pieces_ofFn hcols _
    rwa [hxs] at hpieces
  · rw [flatten_ofFn]
    simp only [Nat.div_add_mod']
    exact hxs

/-- A grid without a row of another length has a shape. -/
theorem shaped_of_misfit? {grid : Grid α} (hsize : grid.size = rows)
    (h : grid.misfit? cols = none) : grid.Shaped rows cols := by
  refine ⟨hsize, fun r hr => ?_⟩
  have hnone : grid.findIdx? (·.size ≠ cols) = none := by
    rcases hfind : grid.findIdx? (·.size ≠ cols) with _ | index
    · exact hfind
    · obtain ⟨hindex, -⟩ := Array.findIdx?_eq_some_iff_getElem.1 hfind
      rw [misfit?, hfind, Option.bind_some, Array.getElem?_eq_getElem hindex] at h
      exact nomatch h
  have hrow := Array.findIdx?_eq_none_iff.1 hnone grid[r] (Array.getElem_mem hr)
  simpa using hrow

/-! ## Grids of one shape -/

section Shape

variable {grid other : Grid α}

/-- The elements of column `c`. -/
def column (rows : ℕ) (grid : Grid α) (c : ℕ) : Except Fault (Array α) :=
  Buffer.tabulate rows fun r => grid.get r c

theorem Shaped.get_eq_ok (h : grid.Shaped rows cols) {r c : ℕ} (hr : r < rows) (hc : c < cols) :
    ∃ x, grid.get r c = .ok x := by
  have hrow : r < grid.size := h.1 ▸ hr
  rw [get, Buffer.read_eq_ok hrow, ok_bind, Buffer.read_eq_ok (by rw [h.2]; exact hc)]
  exact ⟨_, rfl⟩

theorem Shaped.column_eq_ok (h : grid.Shaped rows cols) {c : ℕ} (hc : c < cols) :
    ∃ column, grid.column rows c = .ok column ∧ column.size = rows := by
  have hcells : ∃ column, grid.column rows c = .ok column :=
    Buffer.exists_tabulate_eq_ok fun r hr => h.get_eq_ok hr hc
  obtain ⟨column, hcolumn⟩ := hcells
  exact ⟨column, hcolumn, (Buffer.tabulate_eq_ok_iff.1 hcolumn).1⟩

theorem Shaped.missing?_eq_none (h : grid.Shaped rows cols) {r c : ℕ} (hr : r < rows)
    (hc : c < cols) : grid.missing? r c = none := by
  rw [missing?, dif_pos (h.1 ▸ hr), if_pos (by rw [h.2]; exact hc)]

theorem Shaped.set (h : grid.Shaped rows cols) (r c : ℕ) (x : α) :
    (grid.set r c x).Shaped rows cols := by
  refine ⟨by rw [Grid.set, Array.size_modify, h.1], fun i hi => ?_⟩
  rw [Grid.set, Array.size_modify] at hi
  simp only [Grid.set, Array.getElem_modify]
  split
  · rw [Array.size_setIfInBounds, h.2]
  · exact h.2 i hi

/-- A row is replaced by one of the same length. -/
theorem Shaped.setIfInBounds (h : grid.Shaped rows cols) (r : ℕ) {row : Array α}
    (hrow : row.size = cols) : Shaped rows cols (grid.setIfInBounds r row) := by
  refine ⟨Array.size_setIfInBounds.trans h.1, fun i hi => ?_⟩
  rw [Array.size_setIfInBounds] at hi
  rw [Array.getElem_setIfInBounds hi]
  split
  · exact hrow
  · exact h.2 i hi

theorem Shaped.size_flatten [Zero α] (h : grid.Shaped rows cols) :
    grid.flatten.size = rows * cols := by
  obtain ⟨x, rfl⟩ := h.eq_ofFn
  rw [flatten_ofFn, Buffer.size_ofFn]

theorem read_set (grid : Grid α) (i j : ℕ) (x : α) (r : ℕ) :
    Buffer.read (grid.set i j x) r =
      (Buffer.read grid r).map fun row => if r = i then row.setIfInBounds j x else row := by
  rw [Buffer.read_eq_getElem?, Buffer.read_eq_getElem?, Grid.set, Array.getElem?_modify,
    Array.size_modify]
  rcases grid[r]? with _ | row
  · split <;> rfl
  · simp only [eq_comm (a := i)]
    split <;> rfl

theorem Shaped.get_set (h : grid.Shaped rows cols) {i j : ℕ} (hi : i < rows) (hj : j < cols) (x : α)
    (r c : ℕ) :
    (grid.set i j x).get r c = if r = i ∧ c = j then .ok x else grid.get r c := by
  rw [get, read_set, get]
  rcases eq_or_ne r i with rfl | hr
  · have hrow : r < grid.size := h.1 ▸ hi
    rw [Buffer.read_eq_ok hrow]
    change Buffer.read (if r = r then grid[r].setIfInBounds j x else grid[r]) c = _
    rw [if_pos rfl, Buffer.read_setIfInBounds (by rw [h.2]; exact hj)]
    simp only [true_and]
    rfl
  · simp only [hr, false_and, if_false]
    cases Buffer.read grid r <;> rfl

/-- Grids of one shape with the same cells are the same. -/
theorem Shaped.ext (h : grid.Shaped rows cols) (h' : other.Shaped rows cols)
    (hcells : ∀ r < rows, ∀ c < cols, grid.get r c = other.get r c) : grid = other := by
  refine Array.ext (h.1.trans h'.1.symm) fun r hr hr' => ?_
  refine Buffer.ext_read ((h.2 r hr).trans (h'.2 r hr').symm) fun c hc => ?_
  have hget := hcells r (h.1 ▸ hr) c (h.2 r hr ▸ hc)
  rwa [get, get, Buffer.read_eq_ok hr, Buffer.read_eq_ok hr', ok_bind, ok_bind] at hget

/-- A grid of a given function in terms of its columns. -/
theorem Shaped.eq_ofFn_iff_column (h : grid.Shaped rows cols) {x : ℕ → ℕ → α} :
    grid = ofFn rows cols x ↔ ∀ c < cols, grid.column rows c = .ok (Buffer.ofFn rows (x · c)) := by
  constructor
  · rintro rfl c hc
    exact Buffer.tabulate_eq_ok fun r hr => get_ofFn x hr hc
  · intro hcolumn
    refine h.ext (shaped_ofFn x) fun r hr c hc => ?_
    have hget : Buffer.read (Buffer.ofFn rows (x · c)) r = grid.get r c :=
      Buffer.read_of_tabulate (hcolumn c hc) hr
    rw [← hget, Buffer.read_ofFn _ hr, get_ofFn x hr hc]

/-- Lines of one length can be put one after another. -/
theorem exists_slices {width : ℕ} {line : ℕ → Except Fault (Array α)}
    (h : ∀ j < width, ∃ xs, line j = .ok xs ∧ xs.size = rows) :
    ∃ all : Array α, all.size = width * rows ∧
      ∀ j < width, Buffer.slice all (j * rows) rows = line j := by
  -- element `k` of the whole is element `k % rows` of line `k / rows`
  have helement (k : ℕ) (hk : k < width * rows) :
      ∃ x, (do Buffer.read (← line (k / rows)) (k % rows)) = .ok x := by
    obtain ⟨xs, hxs, hsize⟩ := h (k / rows) (Nat.div_lt_of_lt_mul (by rwa [Nat.mul_comm]))
    have hr : k % rows < xs.size := by
      rw [hsize]
      exact Nat.mod_lt k (Nat.pos_of_lt_mul_left hk)
    exact ⟨_, by rw [hxs, ok_bind, Buffer.read_eq_ok hr]⟩
  obtain ⟨all, hall⟩ := Buffer.exists_tabulate_eq_ok helement
  have hsize := (Buffer.tabulate_eq_ok_iff.1 hall).1
  refine ⟨all, hsize, fun j hj => ?_⟩
  obtain ⟨xs, hxs, hlength⟩ := h j hj
  have hroom := row_le hj rows
  rw [Buffer.slice_eq_tabulate (by omega), hxs, ← Buffer.tabulate_read xs, hlength]
  refine Buffer.tabulate_congr fun r hr => ?_
  rw [Buffer.read_of_tabulate hall (by omega), index_mod j hr, index_div j hr, hxs, ok_bind]

/-- There is a grid of given cells if every one of them can be computed. -/
theorem exists_shaped {f : ℕ → ℕ → Except Fault α}
    (h : ∀ r < rows, ∀ c < cols, ∃ x, f r c = .ok x) :
    ∃ grid : Grid α, grid.Shaped rows cols ∧ ∀ r < rows, ∀ c < cols, grid.get r c = f r c := by
  have hrow (r : ℕ) (hr : r < rows) : ∃ row, Buffer.tabulate cols (f r) = .ok row :=
    Buffer.exists_tabulate_eq_ok (h r hr)
  obtain ⟨grid, hgrid⟩ := Buffer.exists_tabulate_eq_ok hrow
  obtain ⟨hsize, hrows⟩ := Buffer.tabulate_eq_ok_iff.1 hgrid
  refine ⟨grid, ⟨hsize, fun r hr => (Buffer.tabulate_eq_ok_iff.1 (hrows r hr)).1⟩, ?_⟩
  intro r hr c hc
  rw [get, Buffer.read_eq_ok (by omega), ok_bind, Buffer.read_of_tabulate (hrows r (by omega)) hc]

end Shape

end Grid

/-! ## Storage -/

namespace Storage

variable {rows cols : ℕ}

/-- The number of cells is a word, in a storage whose elements are counted against it. -/
def InRange (rows cols : ℕ) : Storage α → Prop
  | flat _ _ => rows * cols < Word.count
  | nested _ _ => True

theorem inRange_of_lt (h : rows * cols < Word.count) (storage : Storage α) :
    storage.InRange rows cols := by
  cases storage with
  | flat samples rest => exact h
  | nested lines rest => exact trivial

/-- The elements of the matrix row by row. -/
def elements : Storage α → Array α
  | flat samples _ => samples
  | nested lines _ => lines.flatten

theorem elements_withCells (cells : Grid α) (storage : Storage α) :
    (storage.withCells cells).elements = cells.flatten := by
  cases storage <;> rfl

/-- A matrix that was put back has the shape that it had. -/
theorem fits_withCells (x : ℕ → ℕ → α) (storage : Storage α) :
    (storage.withCells (Grid.ofFn rows cols x)).Fits rows cols := by
  cases storage with
  | flat samples rest =>
    rw [withCells, Fits, Grid.flatten_ofFn, Buffer.size_ofFn]
  | nested lines rest => exact Grid.shaped_ofFn x

/-- What is read out of a storage has the shape that was asked for, if its cells can be counted. -/
theorem shaped_of_cells (hcols : 0 < cols) (hrange : rows * cols < Word.count)
    {storage : Storage α} {grid : Grid α} (h : storage.cells rows cols = .ok grid) :
    grid.Shaped rows cols := by
  cases storage with
  | flat samples rest =>
    rw [cells] at h
    split at h
    · exact nomatch h
    · rename_i hsize
      have hshaped := Grid.shaped_of_pieces (mapError_eq_ok.1 h)
      have hsize : samples.size = rows * cols := (not_not.1 hsize).trans (Word.mul_eq hrange)
      rwa [hsize, Nat.mul_div_cancel _ hcols] at hshaped
  | nested lines rest =>
    rw [cells] at h
    split at h
    · exact nomatch h
    · rename_i hsize
      split at h
      · exact nomatch h
      · rename_i hmisfit
        obtain rfl := Except.ok.inj h
        exact Grid.shaped_of_misfit? (not_not.1 hsize) hmisfit

/-- A matrix of the right shape is read out of its storage. -/
theorem cells_of_fits [Zero α] (hcols : 0 < cols) {storage : Storage α}
    (hrange : storage.InRange rows cols) (h : storage.Fits rows cols) :
    ∃ x, storage.cells rows cols = .ok (Grid.ofFn rows cols x) ∧
      storage.elements = (Grid.ofFn rows cols x).flatten := by
  cases storage with
  | flat samples rest =>
    have hsize : samples.size = rows * cols := h
    obtain ⟨x, hpieces, hflatten⟩ := Grid.pieces_eq_ok hcols hsize
    refine ⟨x, ?_, hflatten.symm⟩
    rw [cells, Word.mul_eq hrange, if_neg (not_not.2 hsize), hpieces]
    rfl
  | nested lines rest =>
    obtain ⟨x, rfl⟩ := Grid.Shaped.eq_ofFn h
    refine ⟨x, ?_, rfl⟩
    rw [cells, Grid.size_ofFn, if_neg (not_not.2 rfl), Grid.misfit?_ofFn]

/-- A storage of another shape is reported with the extents that were asked for. -/
theorem cells_of_not_fits {storage : Storage α} (hrange : storage.InRange rows cols)
    (h : ¬storage.Fits rows cols) :
    ∃ actual, storage.cells rows cols = .error (.error (.shapeMismatch rows cols actual)) := by
  cases storage with
  | flat samples rest =>
    rw [cells, Word.mul_eq hrange]
    exact ⟨_, if_pos h⟩
  | nested lines rest =>
    rw [cells]
    -- the number of rows is looked at before any of them
    by_cases hsize : lines.size = rows
    · rw [if_neg (not_not.2 hsize)]
      rcases hmisfit : lines.misfit? cols with _ | ⟨index, size⟩
      · exact absurd (Grid.shaped_of_misfit? hsize hmisfit) h
      · exact ⟨_, rfl⟩
    · exact ⟨_, if_pos hsize⟩

/-- Putting back the matrix that was read out changes nothing. -/
theorem withCells_of_cells {x : ℕ → ℕ → α} {storage : Storage α}
    (hcells : storage.cells rows cols = .ok (Grid.ofFn rows cols x))
    (helements : storage.elements = (Grid.ofFn rows cols x).flatten) :
    storage.withCells (Grid.ofFn rows cols x) = storage := by
  cases storage with
  | flat samples rest => exact congrArg (flat · rest) helements.symm
  | nested lines rest =>
    rw [cells] at hcells
    split at hcells
    · cases hcells
    · split at hcells
      · cases hcells
      · rw [withCells, Except.ok.inj hcells]

/-- A grid of the shape is read out of the storage that it was put into. -/
theorem cells_withCells (hcols : 0 < cols) (hrange : rows * cols < Word.count) (x : ℕ → ℕ → α)
    (storage : Storage α) :
    (storage.withCells (Grid.ofFn rows cols x)).cells rows cols = .ok (Grid.ofFn rows cols x) := by
  cases storage with
  | flat samples rest =>
    rw [withCells, cells, Grid.flatten_ofFn, Buffer.size_ofFn, Word.mul_eq hrange,
      if_neg (not_not.2 rfl), Grid.pieces_ofFn hcols]
    refine congrArg Except.ok (Grid.ofFn_congr ?_)
    intro r _ c hc
    rw [Grid.index_div r hc, Grid.index_mod r hc]
  | nested lines rest =>
    rw [withCells, cells, Grid.size_ofFn, if_neg (not_not.2 rfl), Grid.misfit?_ofFn]

end Storage

end CosineTransform
