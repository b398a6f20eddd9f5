import CosineTransform.Plane.Transform
import CosineTransform.Proofs.Columns.Pass
import CosineTransform.Proofs.Line.Transform
import CosineTransform.Proofs.Plane.Specification
import CosineTransform.Proofs.Rows.Pass
import CosineTransform.Proofs.Scratch

/-!
# Calls of a plane transform

A plane transform that was set up keeps its dimensions, its tables and its line transforms through
every call, whatever becomes of the call (`PlaneTransform.Reached.configured`); only the scratch
space changes. A call that has all it needs runs two passes
(`PlaneTransform.Configured.apply_cases`). If no product of sizes is lost in part
(`Options.InRange`), they transform every column and then every row
(`PlaneTransform.Configured.runPasses_eq`).
-/

namespace CosineTransform

/-- The products of a call are words: twice the number of its workers, and the number of cells. -/
def Options.InRange (o : Options) (rows cols : ℕ) : Prop :=
  (ColumnSplit.mk cols (o.workers rows cols)).InRange rows

theorem Options.InRange.storage {o : Options} {rows cols : ℕ} (h : o.InRange rows cols) {α : Type}
    (storage : Storage α) : storage.InRange rows cols :=
  Storage.inRange_of_lt h.cells_lt storage

/-- Surroundings with memory for everything and a pool of `threads` threads. -/
def Host.ample (threads : ℕ) (h : 0 < threads) : Host :=
  ⟨⟨fun _ => true⟩, some threads, .ok (Pool.inTurn threads h)⟩

theorem Host.ample_grants (threads : ℕ) (h : 0 < threads) (bytes : ℕ) :
    (ample threads h).memory.grants bytes = true := rfl

namespace PlaneTransform

variable {R T : Type} [Precise R] [Sample R T]

/-! ## What stays -/

/-- The transforms that any sequence of calls can leave behind, after one was set up. -/
inductive Reached (rows cols : ℕ) (options : Options) : PlaneTransform T → Prop
  | created {memory : Memory} {plane : PlaneTransform T} :
      create memory rows cols options = .ok plane → Reached rows cols options plane
  | called {plane : PlaneTransform T} (host : Host) (direction : Direction) (scaled : Bool)
      (storage : Storage T) : Reached rows cols options plane →
      Reached rows cols options (plane.apply host direction scaled storage).plane

/-- What a transform of matrices of `rows` rows and `cols` columns holds besides scratch space. -/
structure Configured (rows cols : ℕ) (options : Options) (plane : PlaneTransform T) : Prop where
  rows_eq : plane.dimensions.rows = rows
  cols_eq : plane.dimensions.cols = cols
  options_eq : plane.options = options
  threads_pos : 0 < options.threads
  tables : Tables.build (max rows cols / 4) (max rows cols) = .ok plane.tables
  rowLine : LineTransform.ofLength cols = .ok plane.rowLine
  columnLine : LineTransform.ofLength rows = .ok plane.columnLine

/-- What a transform that was set up is made of. -/
theorem create_eq_ok {memory : Memory} {rows cols : ℕ} {options : Options}
    {plane : PlaneTransform T} (h : create memory rows cols options = .ok plane) :
    Dimensions.ofExtents rows cols = .ok plane.dimensions ∧ options.validate = .ok () ∧
      (Tables.empty : Tables T).ensure memory plane.dimensions.maxExtent = .ok () plane.tables ∧
      LineTransform.ofLength cols = .ok plane.rowLine ∧
      LineTransform.ofLength rows = .ok plane.columnLine ∧
      plane.options = options ∧ plane.scratch = .empty := by
  obtain ⟨dimensions, hdimensions, h⟩ := bind_eq_ok.1 h
  obtain ⟨_, hoptions, h⟩ := bind_eq_ok.1 h
  obtain ⟨tables, htables, h⟩ := bind_eq_ok.1 h
  obtain ⟨rowLine, hrowLine, h⟩ := bind_eq_ok.1 h
  obtain ⟨columnLine, hcolumnLine, h⟩ := bind_eq_ok.1 h
  obtain rfl := Except.ok.inj h
  exact ⟨mapError_eq_ok.1 hdimensions, mapError_eq_ok.1 hoptions,
    Tables.ofLength_eq_ok_iff.1 htables,
    mapError_eq_ok.1 hrowLine, mapError_eq_ok.1 hcolumnLine, rfl, rfl⟩

theorem configured_of_create {memory : Memory} {rows cols : ℕ} {options : Options}
    {plane : PlaneTransform T} (h : create memory rows cols options = .ok plane) :
    Configured rows cols options plane := by
  obtain ⟨hdimensions, hvalid, htables, hrowLine, hcolumnLine, hoptions, -⟩ := create_eq_ok h
  obtain ⟨rfl, rfl⟩ := Dimensions.ofExtents_eq_ok_iff.1 hdimensions
  refine ⟨rfl, rfl, hoptions, ?_, Tables.build_of_ensure_empty htables, hrowLine, hcolumnLine⟩
  rw [Options.validate] at hvalid
  split at hvalid
  · exact nomatch hvalid
  · omega

/-- A transform is set up without scratch space. -/
theorem scratch_of_create {memory : Memory} {rows cols : ℕ} {options : Options}
    {plane : PlaneTransform T} (h : create memory rows cols options = .ok plane) :
    plane.scratch = .empty := by
  obtain ⟨-, -, -, -, -, -, hscratch⟩ := create_eq_ok h
  exact hscratch

/-- Where there is room for the tables, a transform is set up for all powers of two and any number
of workers. -/
theorem exists_created_of_reserved {rows cols : ℕ} (hrows : rows.isPowerOfTwo)
    (hcols : cols.isPowerOfTwo) {options : Options} (hthreads : 0 < options.threads)
    {memory : Memory}
    (hweights : memory.reserve (max rows cols / 4 + max rows cols) (Sample.bytes (T := T)) = .ok ())
    (hrotation : memory.reserve (Digits.tableLength (max rows cols / 4)) 8 = .ok ()) :
    ∃ plane : PlaneTransform T, create memory rows cols options = .ok plane := by
  have hdimensions : Dimensions.ofExtents rows cols = .ok ⟨rows, cols, hrows, hcols⟩ :=
    Dimensions.ofExtents_eq_ok_iff.2 ⟨rfl, rfl⟩
  -- the steps of the constructor, each with what it needs
  have hoptions : options.validate = .ok () := if_neg (by omega)
  obtain ⟨tables, hensure⟩ := Tables.ensure_of_reserved (t := (Tables.empty : Tables T))
    (n := max rows cols)
    (by rwa [← Nat.zero_max (max rows cols / 4), ← Nat.zero_max (max rows cols)] at hweights)
    (by rwa [← Nat.zero_max (max rows cols / 4)] at hrotation)
  have htables := Tables.ofLength_eq_ok_iff.2 hensure
  obtain ⟨rowLine, hrowLine⟩ := LineTransform.exists_ofLength (T := T) hcols
  obtain ⟨columnLine, hcolumnLine⟩ := LineTransform.exists_ofLength (T := T) hrows
  rw [create, hdimensions, hoptions, hrowLine, hcolumnLine]
  change ∃ plane, (Tables.ofLength memory (max rows cols) >>= _) = Except.ok plane
  rw [htables]
  exact ⟨_, rfl⟩

/-- Where there is memory for everything, there is room for the tables. -/
theorem exists_created {rows cols : ℕ} (hrows : rows.isPowerOfTwo) (hcols : cols.isPowerOfTwo)
    {options : Options} (hthreads : 0 < options.threads) {memory : Memory}
    (hmemory : ∀ bytes, memory.grants bytes = true) :
    ∃ plane : PlaneTransform T, create memory rows cols options = .ok plane :=
  exists_created_of_reserved hrows hcols hthreads (Memory.reserve_of_grants hmemory _ _)
    (Memory.reserve_of_grants hmemory _ _)

section Calls

variable {rows cols : ℕ} {options : Options} {plane : PlaneTransform T} (host : Host)
  (direction : Direction) (scaled : Bool) {storage : Storage T}

theorem Configured.ensure_eq (h : Configured rows cols options plane) (memory : Memory) :
    plane.tables.ensure memory plane.dimensions.maxExtent = .ok () plane.tables := by
  rw [Dimensions.maxExtent, h.rows_eq, h.cols_eq]
  exact Tables.ensure_of_built (Tables.built_of_build h.tables) memory

/-- A storage of another shape is left as it is. -/
theorem apply_of_cells_error {failure : Failure}
    (hcells : storage.cells plane.dimensions.rows plane.dimensions.cols = .error failure) :
    plane.apply host direction scaled storage = ⟨plane, storage, .error failure⟩ := by
  unfold PlaneTransform.apply
  dsimp only
  rw [hcells]

/-- Without scratch space everything is left as it is. -/
theorem apply_of_scratch_error (h : Configured rows cols options plane) {cells : Grid T}
    {error : TransformError} {left : Scratch T} (hcells : storage.cells rows cols = .ok cells)
    (hscratch : plane.scratch.ensure host.memory rows cols plane.threads = .error error left) :
    plane.apply host direction scaled storage = ⟨plane, storage, .error (.error .outOfMemory)⟩ := by
  obtain ⟨rfl, rfl, -⟩ := Scratch.ensure_eq_error hscratch
  unfold PlaneTransform.apply
  dsimp only
  rw [h.rows_eq, h.cols_eq, hcells]
  dsimp only
  rw [h.ensure_eq]
  dsimp only
  rw [hscratch]

/-- A call with all that it needs runs its two passes. -/
theorem apply_of_granted (h : Configured rows cols options plane) {cells : Grid T}
    {scratch : Scratch T} (hcells : storage.cells rows cols = .ok cells)
    (hscratch : plane.scratch.ensure host.memory rows cols plane.threads = .ok () scratch) :
    ∃ outcome, plane.runPasses host direction scaled cells
        (scratch.window (Scratch.requiredLength rows cols plane.threads)) = outcome ∧
      plane.apply host direction scaled storage =
        ⟨{ plane with scratch := scratch.overwrite outcome.window },
          storage.withCells outcome.cells, outcome.result⟩ := by
  refine ⟨_, rfl, ?_⟩
  unfold PlaneTransform.apply
  dsimp only
  rw [h.rows_eq, h.cols_eq, hcells]
  dsimp only
  rw [h.ensure_eq]
  dsimp only
  rw [hscratch]

/-- A call reports that the storage has another shape, or that it has no scratch space, and changes
nothing, or it runs its two passes. -/
theorem Configured.apply_cases (h : Configured rows cols options plane) (storage : Storage T) :
    (∃ failure, storage.cells rows cols = .error failure ∧
      plane.apply host direction scaled storage = ⟨plane, storage, .error failure⟩) ∨
    ∃ cells, storage.cells rows cols = .ok cells ∧
      ((∃ error left,
        plane.scratch.ensure host.memory rows cols plane.threads = .error error left ∧
        plane.apply host direction scaled storage =
          ⟨plane, storage, .error (.error .outOfMemory)⟩) ∨
      ∃ scratch outcome,
        plane.scratch.ensure host.memory rows cols plane.threads = .ok () scratch ∧
        plane.runPasses host direction scaled cells
          (scratch.window (Scratch.requiredLength rows cols plane.threads)) = outcome ∧
        plane.apply host direction scaled storage =
          ⟨{ plane with scratch := scratch.overwrite outcome.window },
            storage.withCells outcome.cells, outcome.result⟩) := by
  -- in the order in which a call checks what it needs
  rcases hcells : storage.cells rows cols with failure | cells
  · have hcells' := hcells
    rw [← h.rows_eq, ← h.cols_eq] at hcells'
    exact .inl ⟨failure, rfl, apply_of_cells_error host direction scaled hcells'⟩
  · refine .inr ⟨cells, rfl, ?_⟩
    rcases hscratch : plane.scratch.ensure host.memory rows cols plane.threads with
      ⟨⟨⟩, scratch⟩ | ⟨error, left⟩
    · obtain ⟨outcome, hrun, happly⟩ := apply_of_granted host direction scaled h hcells hscratch
      exact .inr ⟨scratch, outcome, rfl, hrun, happly⟩
    · exact .inl ⟨error, left, rfl, apply_of_scratch_error host direction scaled h hcells hscratch⟩

/-- A call changes nothing but the scratch space. -/
theorem Configured.apply (h : Configured rows cols options plane) (storage : Storage T) :
    Configured rows cols options (plane.apply host direction scaled storage).plane := by
  obtain ⟨failure, -, happly⟩ | ⟨cells, -, ⟨error, left, -, happly⟩ |
    ⟨scratch, outcome, -, -, happly⟩⟩ := h.apply_cases host direction scaled storage
  · rw [happly]
    exact h
  · rw [happly]
    exact h
  · rw [happly]
    exact ⟨h.rows_eq, h.cols_eq, h.options_eq, h.threads_pos, h.tables, h.rowLine, h.columnLine⟩

theorem Reached.configured (h : Reached rows cols options plane) :
    Configured rows cols options plane := by
  induction h with
  | created hcreate => exact configured_of_create hcreate
  | called host direction scaled storage _ ih => exact ih.apply host direction scaled storage

end Calls

/-! ## The two passes -/

/-- A call that is not split has a single worker. -/
theorem threads_eq_one {plane : PlaneTransform T} (h : ¬plane.isParallel = true) :
    plane.threads = 1 := if_neg h

section Passes

variable {rows cols : ℕ} {options : Options} {plane : PlaneTransform T}
  (h : Configured rows cols options plane)

include h

theorem Configured.threads_eq : plane.threads = options.workers rows cols := by
  rw [threads, h.options_eq, h.rows_eq, h.cols_eq]

theorem Configured.columnLine_length : plane.columnLine.length = rows :=
  LineTransform.length_of_ofLength h.columnLine

theorem Configured.rowLine_length : plane.rowLine.length = cols :=
  LineTransform.length_of_ofLength h.rowLine

theorem Configured.rows_isPowerOfTwo : rows.isPowerOfTwo :=
  h.rows_eq ▸ plane.dimensions.rows_isPowerOfTwo

theorem Configured.cols_isPowerOfTwo : cols.isPowerOfTwo :=
  h.cols_eq ▸ plane.dimensions.cols_isPowerOfTwo

theorem Configured.rows_pos : 0 < rows := Nat.pos_of_isPowerOfTwo h.rows_isPowerOfTwo

theorem Configured.cols_pos : 0 < cols := Nat.pos_of_isPowerOfTwo h.cols_isPowerOfTwo

/-- The tables serve every line that is no longer than an extent of the matrix. -/
theorem Configured.exists_computes {line : LineTransform T}
    (hline : line.length ≤ max rows cols) (direction : Direction) (scaled : Bool) :
    ∃ image, Computes (line.apply direction plane.tables scaled) line.length image := by
  have hbuilt := Tables.built_of_build h.tables
  obtain ⟨width, hdigits⟩ := hbuilt.digits
  exact line.exists_computes direction hdigits (hbuilt.supports hline) scaled

/-- A column image and a row image, on the tables of the transform. -/
theorem Configured.exists_images (direction : Direction) (scaled : Bool) :
    ∃ columnImage rowImage,
      Computes (plane.columnLine.apply direction plane.tables scaled) rows columnImage ∧
      Computes (plane.rowLine.apply direction plane.tables scaled) cols rowImage := by
  obtain ⟨columnImage, hcolumn⟩ := h.exists_computes
    (h.columnLine_length.le.trans (le_max_left _ _)) direction scaled
  obtain ⟨rowImage, hrow⟩ := h.exists_computes
    (h.rowLine_length.le.trans (le_max_right _ _)) direction scaled
  rw [h.columnLine_length] at hcolumn
  rw [h.rowLine_length] at hrow
  exact ⟨columnImage, rowImage, hcolumn, hrow⟩

theorem Configured.workers_pos : 0 < plane.threads := by
  rw [threads, Options.workers, h.options_eq]
  split
  · exact h.threads_pos
  · exact Nat.one_pos

omit h in
/-- The column pass over a matrix has its extents. -/
theorem columnPass_ofFn (plane : PlaneTransform T) (direction : Direction) (scaled : Bool)
    (hrows : 0 < rows) (x : ℕ → ℕ → T) :
    plane.columnPass direction scaled (Grid.ofFn rows cols x) =
      ⟨rows, ⟨cols, plane.threads⟩, plane.columnLine.apply direction plane.tables scaled⟩ := by
  rw [columnPass, Grid.size_ofFn, Grid.width_ofFn hrows]

omit h in
theorem runColumns_ofFn (plane : PlaneTransform T) (host : Host) (direction : Direction)
    (scaled : Bool) (hrows : 0 < rows) (x : ℕ → ℕ → T) (window : Array T) :
    plane.runColumns host direction scaled (Grid.ofFn rows cols x) window =
      let pass : ColumnPass T :=
        ⟨rows, ⟨cols, plane.threads⟩, plane.columnLine.apply direction plane.tables scaled⟩
      if plane.isParallel then pass.onPool host.pool 0 (Grid.ofFn rows cols x) window
      else pass.inOrder (Grid.ofFn rows cols x) window := by
  rw [runColumns, columnPass_ofFn plane direction scaled hrows]
  dsimp only
  rw [Grid.misfit?_ofFn]

theorem Configured.exact (hrange : options.InRange rows cols) :
    (ColumnSplit.mk cols plane.threads).Exact rows := by
  rw [h.threads_eq]
  exact hrange.exact h.cols_isPowerOfTwo

/-- The column pass transforms every column. -/
theorem Configured.runColumns_eq (hrange : options.InRange rows cols) (host : Host)
    (direction : Direction) (scaled : Bool)
    (hpool : plane.isParallel = true → ∃ pool, host.pool = .ok pool) {image : (ℕ → T) → ℕ → T}
    (himage : Computes (plane.columnLine.apply direction plane.tables scaled) rows image)
    (x : ℕ → ℕ → T) (u : ℕ → T) :
    ∃ window, plane.runColumns host direction scaled (Grid.ofFn rows cols x)
        (Buffer.ofFn (Scratch.requiredLength rows cols plane.threads) u) =
        ⟨Grid.ofFn rows cols fun r c => image (fun i => x i c) r, window, .ok ()⟩ ∧
      window.size = Scratch.requiredLength rows cols plane.threads := by
  have hrows := h.rows_pos
  have hexact := h.exact hrange
  let pass : ColumnPass T :=
    ⟨rows, ⟨cols, plane.threads⟩, plane.columnLine.apply direction plane.tables scaled⟩
  rw [runColumns_ofFn plane host direction scaled hrows]
  dsimp only
  by_cases hparallel : plane.isParallel
  · obtain ⟨pool, hpool⟩ := hpool hparallel
    rw [if_pos hparallel, hpool]
    exact ColumnPass.onPool_eq (p := pass) himage hrows hexact x u pool 0
  · rw [if_neg hparallel]
    refine ColumnPass.inOrder_eq (p := pass) himage hrows hexact x u ?_
    exact ColumnSplit.workers_eq_one (s := ⟨cols, plane.threads⟩) h.cols_isPowerOfTwo
      (threads_eq_one hparallel).le

/-- Without the pool that it needs a call says so, and neither pass is run. -/
theorem Configured.runPasses_of_no_pool (hrange : options.InRange rows cols) (host : Host)
    (direction : Direction) (scaled : Bool)
    (hparallel : plane.isParallel = true) {reason : String} (hpool : host.pool = .error reason)
    (x : ℕ → ℕ → T) {window : Array T}
    (hwindow : window.size = Scratch.requiredLength rows cols plane.threads) :
    plane.runPasses host direction scaled (Grid.ofFn rows cols x) window =
      ⟨Grid.ofFn rows cols x, window, .error (.error (.threadPool reason))⟩ := by
  -- the column pass comes first, and the row pass is not run after a failure
  let pass : ColumnPass T :=
    ⟨rows, ⟨cols, plane.threads⟩, plane.columnLine.apply direction plane.tables scaled⟩
  have hcolumns : plane.runColumns host direction scaled (Grid.ofFn rows cols x) window =
      ⟨Grid.ofFn rows cols x, window, .error (.error (.threadPool reason))⟩ := by
    rw [runColumns_ofFn plane host direction scaled h.rows_pos]
    dsimp only
    rw [if_pos hparallel, hpool]
    exact ColumnPass.onPool_of_no_pool (p := pass) h.rows_pos (h.exact hrange) reason 0 _ hwindow
  rw [runPasses, hcolumns]

/-- The row pass transforms every row. -/
theorem Configured.runRows_eq (host : Host) (direction : Direction) (scaled : Bool)
    (hpool : plane.isParallel = true → ∃ pool, host.pool = .ok pool) {image : (ℕ → T) → ℕ → T}
    (himage : Computes (plane.rowLine.apply direction plane.tables scaled) cols image)
    (x : ℕ → ℕ → T) :
    plane.runRows host direction scaled (Grid.ofFn rows cols x) =
      (Grid.ofFn rows cols fun r => image (x r), .ok ()) := by
  rw [runRows]
  -- a call is split or is not, and no worker number appears in the result
  by_cases hparallel : plane.isParallel
  · obtain ⟨pool, hpool⟩ := hpool hparallel
    rw [if_pos hparallel, hpool]
    exact RowPass.onPool_eq (p := plane.rowPass direction scaled) himage pool 1 h.workers_pos
      h.rows_pos x
  · rw [if_neg hparallel]
    exact RowPass.inOrder_eq (p := plane.rowPass direction scaled) himage x

/-- Where there is a pool if one is needed, the two passes end well. -/
theorem Configured.runPasses_eq (hrange : options.InRange rows cols) (host : Host)
    (direction : Direction) (scaled : Bool)
    (hpool : plane.isParallel = true → ∃ pool, host.pool = .ok pool)
    {columnImage rowImage : (ℕ → T) → ℕ → T}
    (hcolumn : Computes (plane.columnLine.apply direction plane.tables scaled) rows columnImage)
    (hrow : Computes (plane.rowLine.apply direction plane.tables scaled) cols rowImage)
    (x : ℕ → ℕ → T) (u : ℕ → T) :
    ∃ window, plane.runPasses host direction scaled (Grid.ofFn rows cols x)
        (Buffer.ofFn (Scratch.requiredLength rows cols plane.threads) u) =
        ⟨Grid.ofFn rows cols fun r => rowImage fun c => columnImage (fun i => x i c) r, window,
          .ok ()⟩ ∧
      window.size = Scratch.requiredLength rows cols plane.threads := by
  obtain ⟨window, hcolumns, hsize⟩ :=
    h.runColumns_eq hrange host direction scaled hpool hcolumn x u
  refine ⟨window, ?_, hsize⟩
  rw [runPasses, hcolumns]
  dsimp only
  rw [h.runRows_eq host direction scaled hpool hrow]

end Passes

/-- The larger of two powers of two is one. -/
theorem isPowerOfTwo_max {m n : ℕ} (hm : m.isPowerOfTwo) (hn : n.isPowerOfTwo) :
    (max m n).isPowerOfTwo := by
  rcases max_choice m n with hmax | hmax
  · rwa [hmax]
  · rwa [hmax]

/-- Over the real numbers every line of a call is a product with the matrix of its transform. -/
theorem Configured.computes_product {rows cols : ℕ} {options : Options} {plane : PlaneTransform ℝ}
    (h : Configured rows cols options plane) (direction : Direction) (scaled : Bool) {n : ℕ}
    {line : LineTransform ℝ} (hline : LineTransform.ofLength n = .ok line)
    (hn : n ≤ max rows cols) :
    Computes (line.apply direction plane.tables scaled) n (Direct.product direction scaled n) := by
  obtain ⟨K, hK⟩ := isPowerOfTwo_max h.rows_isPowerOfTwo h.cols_isPowerOfTwo
  have hbuilt := Tables.built_of_build h.tables
  rw [hK] at hbuilt hn
  obtain rfl := LineTransform.length_of_ofLength hline
  exact LineTransform.computes_product hbuilt hn (LineTransform.weighted_of_ofLength hline)
    direction scaled

end PlaneTransform

end CosineTransform
