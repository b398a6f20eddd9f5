import CosineTransform.Proofs.Plane.Transform
import CosineTransform.Proofs.Scratch

/-!
# How a call can end

There are four ways in which a call can end (`PlaneTransform.Ending`), and each of them fixes what
the call leaves: the storage has another shape, scratch space is refused, the pool is missing, or
every line is transformed. As long as no product of sizes is lost in part, no call ends in another
way (`PlaneTransform.Configured.apply_ending`).

Twice a number of threads can be lost as a whole. Then there is no worker for the columns, and only
the rows are transformed (`PlaneTransform.Configured.apply_of_no_worker`).
-/

namespace CosineTransform.PlaneTransform

variable {R T : Type} [Precise R] [Sample R T] {rows cols : ℕ} {options : Options}
  {plane : PlaneTransform T}

/-- How a call can end, for a transform of matrices of `rows` rows and `cols` columns. -/
inductive Ending (rows cols : ℕ) (plane : PlaneTransform T) (host : Host) (storage : Storage T) :
    Outcome T → Prop
  /-- The storage has another shape. Nothing is changed. -/
  | mismatched (actual : String) (hmisfit : ¬storage.Fits rows cols) :
      Ending rows cols plane host storage
        ⟨plane, storage, .error (.error (.shapeMismatch rows cols actual))⟩
  /-- Scratch space is needed and refused. Nothing is changed. -/
  | refused (hfits : storage.Fits rows cols)
      (hshort : plane.scratch.capacity < Scratch.requiredLength rows cols plane.threads)
      (hrefused : host.memory.reserve (Scratch.requiredLength rows cols plane.threads)
        (Sample.bytes (T := T)) = .error .outOfMemory) :
      Ending rows cols plane host storage ⟨plane, storage, .error (.error .outOfMemory)⟩
  /-- A pool is needed and missing. The matrix is not changed. -/
  | unpooled (scratch : Scratch T) (reason : String) (hfits : storage.Fits rows cols)
      (hscratch : plane.scratch.ensure host.memory rows cols plane.threads = .ok () scratch)
      (hparallel : plane.isParallel = true) (hpool : host.pool = .error reason) :
      Ending rows cols plane host storage
        ⟨{ plane with scratch }, storage, .error (.error (.threadPool reason))⟩
  /-- The matrix is transformed, with columns staged in the window of the scratch space. -/
  | transformed (scratch : Scratch T) (window : Array T) (image : Grid T)
      (hfits : storage.Fits rows cols)
      (hscratch : plane.scratch.ensure host.memory rows cols plane.threads = .ok () scratch)
      (hpool : plane.isParallel = true → ∃ pool, host.pool = .ok pool)
      (hsize : window.size = Scratch.requiredLength rows cols plane.threads) :
      Ending rows cols plane host storage
        ⟨{ plane with scratch := scratch.overwrite window }, storage.withCells image, .ok ()⟩

variable {host : Host} {direction : Direction} {scaled : Bool} {storage : Storage T}

/-- A call with all that it needs ends well, with every line transformed. -/
theorem Configured.apply_eq_ok (h : Configured rows cols options plane)
    (hrange : options.InRange rows cols)
    (hpool : plane.isParallel = true → ∃ pool, host.pool = .ok pool) {x : ℕ → ℕ → T}
    (hcells : storage.cells rows cols = .ok (Grid.ofFn rows cols x)) {scratch : Scratch T}
    (hscratch : plane.scratch.ensure host.memory rows cols plane.threads = .ok () scratch)
    {columnImage rowImage : (ℕ → T) → ℕ → T}
    (hcolumn : Computes (plane.columnLine.apply direction plane.tables scaled) rows columnImage)
    (hrow : Computes (plane.rowLine.apply direction plane.tables scaled) cols rowImage) :
    ∃ window : Array T, window.size = Scratch.requiredLength rows cols plane.threads ∧
      plane.apply host direction scaled storage =
        ⟨{ plane with scratch := scratch.overwrite window },
          storage.withCells (Grid.ofFn rows cols fun r =>
            rowImage fun c => columnImage (fun i => x i c) r), .ok ()⟩ := by
  obtain ⟨u, hwindow⟩ := Scratch.window_eq hscratch
  obtain ⟨outcome, hrun, happly⟩ := apply_of_granted host direction scaled h hcells hscratch
  obtain ⟨window, hpasses, hsize⟩ :=
    h.runPasses_eq hrange host direction scaled hpool hcolumn hrow x u
  rw [hwindow, hpasses] at hrun
  exact ⟨window, hsize, by rw [happly, ← hrun]⟩

/-- A call that needs a pool and has none says so. -/
theorem Configured.apply_of_no_pool (h : Configured rows cols options plane)
    (hrange : options.InRange rows cols) (hparallel : plane.isParallel = true) {reason : String}
    (hpool : host.pool = .error reason) (hfits : storage.Fits rows cols) {scratch : Scratch T}
    (hscratch : plane.scratch.ensure host.memory rows cols plane.threads = .ok () scratch) :
    plane.apply host direction scaled storage =
      ⟨{ plane with scratch }, storage, .error (.error (.threadPool reason))⟩ := by
  obtain ⟨x, hcells, helements⟩ := Storage.cells_of_fits h.cols_pos (hrange.storage _) hfits
  obtain ⟨outcome, hrun, happly⟩ := apply_of_granted host direction scaled h hcells hscratch
  rw [h.runPasses_of_no_pool hrange host direction scaled hparallel hpool x
    (Scratch.size_window hscratch)] at hrun
  -- no cell and no slot was written, so putting them back changes nothing
  rw [happly, ← hrun]
  dsimp only
  rw [scratch.overwrite_window (Scratch.requiredLength_le hscratch),
    Storage.withCells_of_cells hcells helements]

/-- A call ends in one of the four ways. -/
theorem Configured.apply_ending (h : Configured rows cols options plane)
    (hrange : options.InRange rows cols) (host : Host) (direction : Direction) (scaled : Bool)
    (storage : Storage T) :
    Ending rows cols plane host storage (plane.apply host direction scaled storage) := by
  -- the cases follow the order in which a call checks what it needs
  by_cases hfits : storage.Fits rows cols
  · obtain ⟨x, hcells, -⟩ := Storage.cells_of_fits h.cols_pos (hrange.storage _) hfits
    rcases hscratch : plane.scratch.ensure host.memory rows cols plane.threads with
      ⟨⟨⟩, scratch⟩ | ⟨error, left⟩
    case error =>
      obtain ⟨-, -, hshort, hrefused⟩ := Scratch.ensure_eq_error hscratch
      rw [apply_of_scratch_error host direction scaled h hcells hscratch]
      exact .refused hfits hshort hrefused
    by_cases hmissing : plane.isParallel = true ∧ ∃ reason, host.pool = .error reason
    · obtain ⟨hparallel, reason, hpool⟩ := hmissing
      rw [h.apply_of_no_pool hrange hparallel hpool hfits hscratch]
      exact .unpooled scratch reason hfits hscratch hparallel hpool
    · have hpool : plane.isParallel = true → ∃ pool, host.pool = .ok pool := by
        intro hparallel
        rcases hpool : host.pool with reason | pool
        · exact absurd ⟨hparallel, reason, hpool⟩ hmissing
        · exact ⟨pool, rfl⟩
      obtain ⟨columnImage, rowImage, hcolumn, hrow⟩ := h.exists_images direction scaled
      obtain ⟨window, hsize, happly⟩ := h.apply_eq_ok hrange hpool hcells hscratch hcolumn hrow
      rw [happly]
      exact .transformed scratch window _ hfits hscratch hpool hsize
  · obtain ⟨actual, hcells⟩ := Storage.cells_of_not_fits (hrange.storage _) hfits
    rw [← h.rows_eq, ← h.cols_eq] at hcells
    rw [apply_of_cells_error host direction scaled hcells, h.rows_eq, h.cols_eq]
    exact .mismatched actual hfits

/-! ## No worker -/

/-- Where no worker is left for the columns, a call needs no scratch space, transforms the rows
alone, and ends well. -/
theorem Configured.apply_of_no_worker (h : Configured rows cols options plane)
    (hnone : (ColumnSplit.mk cols plane.threads).workers = 0)
    (hsegment : 0 < (ColumnSplit.mk cols plane.threads).segmentLength rows)
    (hparallel : plane.isParallel = true) {pool : Pool} (hpool : host.pool = .ok pool)
    {x : ℕ → ℕ → T} (hcells : storage.cells rows cols = .ok (Grid.ofFn rows cols x))
    {rowImage : (ℕ → T) → ℕ → T}
    (hrow : Computes (plane.rowLine.apply direction plane.tables scaled) cols rowImage) :
    plane.apply host direction scaled storage =
      ⟨plane, storage.withCells (Grid.ofFn rows cols fun r => rowImage (x r)), .ok ()⟩ := by
  -- no worker stages anything
  have hlength : Scratch.requiredLength rows cols plane.threads = 0 := by
    rw [Scratch.requiredLength, ColumnSplit.scratchLength, hnone, Word.mul, Nat.zero_mul,
      Nat.zero_mod]
  have hscratch : plane.scratch.ensure host.memory rows cols plane.threads =
      .ok () plane.scratch := Scratch.ensure_of_le (hlength.trans_le (Nat.zero_le _))
  have hwindow : plane.scratch.window 0 = #[] := Array.extract_eq_empty_of_le (Nat.min_le_left _ _)
  obtain ⟨outcome, hrun, happly⟩ := apply_of_granted host direction scaled h hcells hscratch
  have hpool' : plane.isParallel = true → ∃ pool, host.pool = .ok pool := fun _ => ⟨pool, hpool⟩
  let pass : ColumnPass T :=
    ⟨rows, ⟨cols, plane.threads⟩, plane.columnLine.apply direction plane.tables scaled⟩
  have hcolumns : plane.runColumns host direction scaled (Grid.ofFn rows cols x) #[] =
      ⟨Grid.ofFn rows cols x, #[], .ok ()⟩ := by
    rw [runColumns_ofFn plane host direction scaled h.rows_pos]
    dsimp only
    rw [if_pos hparallel, hpool]
    exact ColumnPass.onPool_of_no_worker (p := pass) hsegment pool 0 _
  rw [hlength, hwindow, runPasses, hcolumns] at hrun
  dsimp only at hrun
  rw [h.runRows_eq host direction scaled hpool' hrow] at hrun
  rw [happly, ← hrun]
  dsimp only
  rw [← hwindow, plane.scratch.overwrite_window (Nat.zero_le _)]

theorem cells_ones :
    (Storage.flat (Buffer.ofFn (2 * 2) fun _ => (1 : ℝ)) #[]).cells 2 2 =
      .ok (Grid.ofFn 2 2 fun _ _ => 1) := by
  rw [Storage.cells, Buffer.size_ofFn, if_neg (by decide), Grid.pieces_ofFn (by decide)]
  rfl

/-- There is a transform of matrices of two rows and two columns that transforms the rows alone. -/
theorem exists_rows_alone :
    ∃ plane : PlaneTransform ℝ, create ⟨fun _ => true⟩ 2 2 ⟨1 <<< 63, 0⟩ = .ok plane ∧
      ∀ (direction : Direction) (scaled : Bool) (storage : Storage ℝ) (x : ℕ → ℕ → ℝ),
        storage.cells 2 2 = .ok (Grid.ofFn 2 2 x) →
        plane.apply (.ample 2 two_pos) direction scaled storage =
          ⟨plane, storage.withCells (Grid.ofFn 2 2 fun r =>
            Direct.product direction scaled 2 (x r)), .ok ()⟩ := by
  have htwo : Nat.isPowerOfTwo 2 := ⟨1, rfl⟩
  have hthreads : 0 < (Options.mk (1 <<< 63) 0).threads := by decide
  have hmemory (bytes : ℕ) : (Memory.mk fun _ => true).grants bytes = true := rfl
  obtain ⟨plane, hcreate⟩ := exists_created (T := ℝ) htwo htwo hthreads hmemory
  have h := configured_of_create hcreate
  refine ⟨plane, hcreate, fun direction scaled storage x hcells => ?_⟩
  have hworkers : plane.threads = 1 <<< 63 := h.threads_eq.trans (by decide)
  refine h.apply_of_no_worker ?_ ?_ ?_ rfl hcells
    (h.computes_product direction scaled h.rowLine (le_max_right 2 2))
  · rw [hworkers]
    decide
  · rw [hworkers]
    decide
  · rw [isParallel, h.options_eq, h.rows_eq, h.cols_eq]
    decide

end CosineTransform.PlaneTransform
