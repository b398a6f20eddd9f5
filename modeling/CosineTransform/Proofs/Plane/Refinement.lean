import CosineTransform.Proofs.Plane.Endings
import CosineTransform.Proofs.Plane.Specification

/-!
# Calls compute the specification

Whatever calls came before, a call that ends well leaves what `PlaneTransform.specification` makes
of the matrix: the number of workers, the threshold, the order in which the pool runs the workers,
the storage and the scratch contents have no part in it (`PlaneTransform.apply_eq_specification`). A
call that is granted memory, and has a pool if it is split between workers, ends well on every
storage of the right shape (`PlaneTransform.Configured.result_eq_ok`).

All of this is for sizes whose products are words (`Options.InRange`). Beyond them a call can end
well without having transformed the columns
(`PlaneTransform.apply_ne_specification_of_lost_threads`).
-/

namespace CosineTransform

namespace PlaneTransform

variable {R T : Type} [Precise R] [Sample R T] {rows cols : ℕ} {options : Options}
  {plane : PlaneTransform T}

/-! ## The specification -/

/-- The tables that are built for one matrix are those of every transform of its dimensions. -/
theorem Configured.specification_eq (h : Configured rows cols options plane) (direction : Direction)
    (scaled : Bool) {columnImage rowImage : (ℕ → T) → ℕ → T}
    (hcolumn : Computes (plane.columnLine.apply direction plane.tables scaled) rows columnImage)
    (hrow : Computes (plane.rowLine.apply direction plane.tables scaled) cols rowImage)
    (x : ℕ → ℕ → T) :
    specification rows cols direction scaled (Grid.ofFn rows cols x) =
      .ok (Grid.ofFn rows cols fun r => rowImage fun c => columnImage (fun i => x i c) r) := by
  have htables : Tables.ofLength ⟨fun _ => true⟩ (max rows cols) = .ok plane.tables :=
    Tables.ofLength_eq_ok_iff.2 (Tables.ensure_empty_of_build (fun _ => rfl) h.tables)
  rw [specification, htables, ok_bind, h.columnLine, h.rowLine]
  change (do
    let columns ← (Grid.mapColumns rows cols (plane.columnLine.apply direction plane.tables scaled)
      (Grid.ofFn rows cols x)).mapError Failure.fault
    (Grid.mapRows (plane.rowLine.apply direction plane.tables scaled) columns).mapError
      Failure.fault) = _
  -- column by column and then row by row, both total on lines of their length
  rw [Grid.mapColumns_ofFn hcolumn]
  change (Grid.mapRows _ (Grid.ofFn rows cols _)).mapError Failure.fault = _
  rw [Grid.mapRows_ofFn hrow]
  rfl

/-! ## Calls -/

variable {host : Host} {direction : Direction} {scaled : Bool} {storage : Storage T}

/-- A call that ended well had all that it needs. -/
theorem Configured.granted_of_result (h : Configured rows cols options plane)
    (hrange : options.InRange rows cols)
    (hok : (plane.apply host direction scaled storage).result = .ok ()) :
    (∃ cells, storage.cells rows cols = .ok cells) ∧
      (∃ scratch, plane.scratch.ensure host.memory rows cols plane.threads = .ok () scratch) ∧
      (plane.isParallel = true → ∃ pool, host.pool = .ok pool) := by
  have hending := h.apply_ending hrange host direction scaled storage
  generalize plane.apply host direction scaled storage = outcome at hok hending
  cases hending with
  | mismatched | refused | unpooled => exact nomatch hok
  | transformed scratch window image hfits hscratch hpool hsize =>
    obtain ⟨x, hcells, -⟩ := Storage.cells_of_fits h.cols_pos (hrange.storage _) hfits
    exact ⟨⟨_, hcells⟩, ⟨scratch, hscratch⟩, hpool⟩

/-- Where there is memory, and a pool if one is needed, a call on a storage of the right shape ends
well. -/
theorem Configured.result_eq_ok (h : Configured rows cols options plane)
    (hrange : options.InRange rows cols) (host : Host) (direction : Direction) (scaled : Bool)
    (hmemory : plane.scratch.capacity < Scratch.requiredLength rows cols plane.threads →
      host.memory.reserve (Scratch.requiredLength rows cols plane.threads)
        (Sample.bytes (T := T)) = .ok ())
    (hpool : plane.isParallel = true → ∃ pool, host.pool = .ok pool)
    {cells : Grid T} (hcells : storage.cells rows cols = .ok cells) :
    (plane.apply host direction scaled storage).result = .ok () := by
  obtain ⟨x, rfl⟩ := (Storage.shaped_of_cells h.cols_pos hrange.cells_lt hcells).eq_ofFn
  obtain ⟨scratch, hscratch⟩ := plane.scratch.ensure_of_reserved hmemory
  obtain ⟨columnImage, rowImage, hcolumn, hrow⟩ := h.exists_images direction scaled
  obtain ⟨left, -, happly⟩ := h.apply_eq_ok hrange hpool hcells hscratch hcolumn hrow
  rw [happly]

/-- Where there is memory, and a pool if one is needed, a call on a matrix of the right shape ends
well. -/
theorem Configured.result_eq_ok_of_fits (h : Configured rows cols options plane)
    (hrange : options.InRange rows cols)
    (hmemory : plane.scratch.capacity < Scratch.requiredLength rows cols plane.threads →
      host.memory.reserve (Scratch.requiredLength rows cols plane.threads)
        (Sample.bytes (T := T)) = .ok ())
    (hpool : plane.isParallel = true → ∃ pool, host.pool = .ok pool)
    (hfits : storage.Fits rows cols) (direction : Direction) (scaled : Bool) :
    (plane.apply host direction scaled storage).result = .ok () := by
  obtain ⟨x, hcells, -⟩ := Storage.cells_of_fits h.cols_pos (hrange.storage _) hfits
  exact h.result_eq_ok hrange host direction scaled hmemory hpool hcells

/-- What a call that ended well leaves in the storage. -/
theorem Configured.eq_specification (h : Configured rows cols options plane)
    (hrange : options.InRange rows cols)
    (hok : (plane.apply host direction scaled storage).result = .ok ()) :
    ∃ cells image, storage.cells rows cols = .ok cells ∧
      specification rows cols direction scaled cells = .ok image ∧
      (plane.apply host direction scaled storage).storage = storage.withCells image ∧
      (storage.withCells image).cells rows cols = .ok image := by
  obtain ⟨⟨cells, hcells⟩, ⟨scratch, hscratch⟩, hpool⟩ := h.granted_of_result hrange hok
  obtain ⟨x, rfl⟩ := (Storage.shaped_of_cells h.cols_pos hrange.cells_lt hcells).eq_ofFn
  obtain ⟨columnImage, rowImage, hcolumn, hrow⟩ := h.exists_images direction scaled
  obtain ⟨left, -, happly⟩ := h.apply_eq_ok hrange hpool hcells hscratch hcolumn hrow
  refine ⟨_, _, hcells, h.specification_eq direction scaled hcolumn hrow x, ?_,
    Storage.cells_withCells h.cols_pos hrange.cells_lt _ storage⟩
  rw [happly]

end PlaneTransform

end CosineTransform
