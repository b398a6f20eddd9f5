import CosineTransform.Proofs.Columns.Staging
import CosineTransform.Proofs.Plane.Refinement

/-!
# How calls end

A call on a matrix of the right shape meets no broken precondition and no failed worker, whatever
calls came before, as long as no product of sizes is lost in part: all that its passes check holds
beforehand (`PlaneTransform.Prepared`). What is left are the surroundings, and a call reports
exactly what it misses there, memory or the pool (`PlaneTransform.Configured.result_of_fits`). So it
ends well where nothing is missing (`PlaneTransform.fitting_calls_end_well`).
-/

namespace CosineTransform

namespace PlaneTransform

variable {R T : Type} [Precise R] [Sample R T] {rows cols : ℕ} {options : Options}
  {plane : PlaneTransform T}

/-- What the two passes of a call over the given rows rely on. -/
structure Prepared (plane : PlaneTransform T) (memory : Memory) (direction : Direction)
    (scaled : Bool) (cells : Grid T) : Prop where
  /-- The scratch space has a window whose sizes agree with the split of the columns. -/
  scratch : ∃ scratch, plane.scratch.ensure memory plane.dimensions.rows plane.dimensions.cols
      plane.threads = .ok () scratch ∧
    (plane.columnPass direction scaled cells).split.Staged
      (plane.columnPass direction scaled cells).rows
      (scratch.window (Scratch.requiredLength plane.dimensions.rows plane.dimensions.cols
        plane.threads))
  /-- The tables are large enough already, for a column as well as for a row. -/
  tables : plane.tables.ensure memory plane.dimensions.maxExtent = .ok () plane.tables ∧
    plane.tables.Supports plane.dimensions.rows ∧ plane.tables.Supports plane.dimensions.cols
  /-- The rows are those of a matrix of the dimensions of the transform. -/
  shaped : cells.Shaped plane.dimensions.rows plane.dimensions.cols ∧
    (plane.columnPass direction scaled cells).rows = plane.dimensions.rows ∧
    (plane.columnPass direction scaled cells).split.cols = plane.dimensions.cols
  /-- A column of the right length is transformed without a fault. -/
  column : ∀ a : Array T, a.size = plane.dimensions.rows →
    ∃ b, (plane.columnPass direction scaled cells).line a = .ok b ∧ b.size = plane.dimensions.rows
  /-- A row of the right length is transformed without a fault. -/
  row : ∀ a : Array T, a.size = plane.dimensions.cols →
    ∃ b, (plane.rowPass direction scaled).line a = .ok b ∧ b.size = plane.dimensions.cols

/-- Where there is room for the scratch space, a call is prepared, whatever calls came before. -/
theorem Configured.prepared (h : Configured rows cols options plane)
    (hrange : options.InRange rows cols) {memory : Memory}
    (hmemory : plane.scratch.capacity < Scratch.requiredLength rows cols plane.threads →
      memory.reserve (Scratch.requiredLength rows cols plane.threads) (Sample.bytes (T := T)) =
        .ok ())
    (direction : Direction) (scaled : Bool) (x : ℕ → ℕ → T) :
    plane.Prepared memory direction scaled (Grid.ofFn rows cols x) := by
  have hexact := h.exact hrange
  obtain rfl := h.rows_eq
  obtain rfl := h.cols_eq
  have hbuilt := Tables.built_of_build h.tables
  obtain ⟨width, hdigits⟩ := hbuilt.digits
  have hcolumn : plane.tables.Supports plane.columnLine.length := by
    rw [h.columnLine_length]
    exact hbuilt.supports (le_max_left _ _)
  have hrow : plane.tables.Supports plane.rowLine.length := by
    rw [h.rowLine_length]
    exact hbuilt.supports (le_max_right _ _)
  have hpass : plane.columnPass direction scaled
      (Grid.ofFn plane.dimensions.rows plane.dimensions.cols x) = _ :=
    plane.columnPass_ofFn direction scaled h.rows_pos x
  refine ⟨?_, ?_, ⟨Grid.shaped_ofFn x, by rw [hpass], by rw [hpass]⟩, ?_, ?_⟩
  · -- the window is cut by the same split that the length was computed from
    obtain ⟨scratch, hscratch⟩ := plane.scratch.ensure_of_reserved hmemory
    refine ⟨scratch, hscratch, ?_⟩
    rw [hpass]
    exact ColumnSplit.staged_of_size hexact h.rows_pos (Scratch.size_window hscratch)
  · rw [h.columnLine_length] at hcolumn
    rw [h.rowLine_length] at hrow
    exact ⟨h.ensure_eq memory, hcolumn, hrow⟩
  · intro a ha
    rw [← h.columnLine_length] at ha ⊢
    exact plane.columnLine.apply_isOk direction hdigits hcolumn scaled ha
  · intro a ha
    rw [← h.rowLine_length] at ha ⊢
    exact plane.rowLine.apply_isOk direction hdigits hrow scaled ha

/-- A call on a matrix of the right shape ends well, or reports that memory or the pool is missing,
and then it is. -/
theorem Configured.result_of_fits (h : Configured rows cols options plane)
    (hrange : options.InRange rows cols) (host : Host) (direction : Direction) (scaled : Bool)
    {storage : Storage T} (hfits : storage.Fits rows cols) :
    (plane.apply host direction scaled storage).result = .ok () ∨
      ((plane.apply host direction scaled storage).result = .error (.error .outOfMemory) ∧
        plane.scratch.capacity < Scratch.requiredLength rows cols plane.threads ∧
        host.memory.reserve (Scratch.requiredLength rows cols plane.threads)
          (Sample.bytes (T := T)) = .error .outOfMemory) ∨
      ∃ reason, (plane.apply host direction scaled storage).result =
          .error (.error (.threadPool reason)) ∧
        plane.isParallel = true ∧ host.pool = .error reason := by
  have hending := h.apply_ending hrange host direction scaled storage
  generalize plane.apply host direction scaled storage = outcome at hending ⊢
  -- only the ending of a storage of another shape is excluded
  cases hending with
  | mismatched actual hmisfit => exact absurd hfits hmisfit
  | refused _ hshort hrefused => exact .inr (.inl ⟨rfl, hshort, hrefused⟩)
  | unpooled scratch reason _ _ hparallel hpool => exact .inr (.inr ⟨reason, rfl, hparallel, hpool⟩)
  | transformed => exact .inl rfl

/-- Where there is room for its tables, a transform is set up for any number of workers and any
threshold. Its calls on matrices of the right shape, after whatever other calls, meet no fault and
no failed worker: they are prepared where there is room for the scratch space that is missing, and
end well where there also is a pool if one is needed. A call that does not end well reports which of
the two it misses. -/
theorem fitting_calls_end_well (hrows : rows.isPowerOfTwo) (hcols : cols.isPowerOfTwo)
    (hthreads : 0 < options.threads) (hrange : options.InRange rows cols) :
    (∀ memory : Memory,
      memory.reserve (max rows cols / 4 + max rows cols) (Sample.bytes (T := T)) = .ok () →
      memory.reserve (Digits.tableLength (max rows cols / 4)) 8 = .ok () →
      ∃ plane : PlaneTransform T, create memory rows cols options = .ok plane) ∧
    ∀ (plane : PlaneTransform T) (host : Host) (direction : Direction) (scaled : Bool)
      (storage : Storage T), Reached rows cols options plane → storage.Fits rows cols →
      ((plane.scratch.capacity < Scratch.requiredLength rows cols plane.threads →
          host.memory.reserve (Scratch.requiredLength rows cols plane.threads)
            (Sample.bytes (T := T)) = .ok ()) →
        (∃ cells, storage.cells rows cols = .ok cells ∧
          plane.Prepared host.memory direction scaled cells) ∧
        ((plane.isParallel = true → ∃ pool, host.pool = .ok pool) →
          (plane.forward host scaled storage).result = .ok () ∧
          (plane.inverse host scaled storage).result = .ok ())) ∧
      ((plane.apply host direction scaled storage).result = .ok () ∨
        ((plane.apply host direction scaled storage).result = .error (.error .outOfMemory) ∧
          plane.scratch.capacity < Scratch.requiredLength rows cols plane.threads ∧
          host.memory.reserve (Scratch.requiredLength rows cols plane.threads)
            (Sample.bytes (T := T)) = .error .outOfMemory) ∨
        ∃ reason, (plane.apply host direction scaled storage).result =
            .error (.error (.threadPool reason)) ∧
          plane.isParallel = true ∧ host.pool = .error reason) := by
  refine ⟨fun memory hweights hrotation =>
    exists_created_of_reserved hrows hcols hthreads hweights hrotation, ?_⟩
  intro plane host direction scaled storage h hfits
  have hconfigured := h.configured
  refine ⟨fun hmemory => ⟨?_, fun hpool => ⟨?_, ?_⟩⟩,
    hconfigured.result_of_fits hrange host direction scaled hfits⟩
  · obtain ⟨x, hcells, -⟩ := Storage.cells_of_fits hconfigured.cols_pos (hrange.storage _) hfits
    exact ⟨_, hcells, hconfigured.prepared hrange hmemory direction scaled x⟩
  · exact hconfigured.result_eq_ok_of_fits hrange hmemory hpool hfits .forward scaled
  · exact hconfigured.result_eq_ok_of_fits hrange hmemory hpool hfits .inverse scaled

/-- Two rows of eight numbers between three workers, after a call that reported a mismatch. -/
theorem fitting_calls_end_well_two_eight :
    ∃ (plane : PlaneTransform ℝ) (storage : Storage ℝ),
      storage = .flat (Buffer.ofFn (2 * 8) fun i => (i : ℝ)) #[] ∧ Reached 2 8 ⟨3, 1⟩ plane ∧
      (plane.forward (.ample 3 three_pos) true storage).result = .ok () ∧
      (plane.inverse (.ample 3 three_pos) true storage).result = .ok () ∧
      ∃ cells, storage.cells 2 8 = .ok cells ∧
        plane.Prepared (Host.ample 3 three_pos).memory .forward true cells := by
  obtain ⟨hcreate, hcalls⟩ := fitting_calls_end_well (T := ℝ) (⟨1, rfl⟩ : Nat.isPowerOfTwo 2)
    (⟨3, rfl⟩ : Nat.isPowerOfTwo 8) (show 0 < (Options.mk 3 1).threads from three_pos)
    ⟨by decide, by decide⟩
  obtain ⟨created, hcreated⟩ := hcreate (Host.ample 3 three_pos).memory rfl rfl
  have hfits : (Storage.flat (Buffer.ofFn (2 * 8) fun i => (i : ℝ)) #[]).Fits 2 8 :=
    Buffer.size_ofFn _ _
  have hplane := (Reached.created hcreated).called (.ample 3 three_pos) .inverse false
    (.flat #[] #[])
  obtain ⟨hgranted, -⟩ := hcalls _ (.ample 3 three_pos) .forward true _ hplane hfits
  obtain ⟨hprepared, hok⟩ := hgranted fun _ => rfl
  obtain ⟨hforward, hinverse⟩ := hok fun _ => ⟨_, rfl⟩
  exact ⟨_, _, rfl, hplane, hforward, hinverse, hprepared⟩

end PlaneTransform

end CosineTransform
