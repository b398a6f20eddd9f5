import CosineTransform.Proofs.Columns.Window
import CosineTransform.Proofs.Plane.Refinement

/-!
# Calls one after another

A plane transform is called with whatever storage and in whatever surroundings, again and again
(`PlaneTransform.after`, `PlaneTransform.answers`). However its passes end, a call leaves scratch
space of the length that it made sure of (`PlaneTransform.size_window_runPasses`), and what it
reports of its passes is neither a mismatch nor a lack of memory
(`PlaneTransform.runPasses_failure`). None of this asks for products of sizes to be words.

A call that reports a mismatch or a lack of memory has changed nothing, so the calls after it give
the answers that they would give without it (`PlaneTransform.unserved_call_changes_nothing`). All
that a transform builds besides scratch space is built when it is set up, and scratch space is built
by the first call that is admitted and kept by all calls after it
(`PlaneTransform.calls_build_once`).
-/

namespace CosineTransform.PlaneTransform

variable {R T : Type} [Precise R] [Sample R T] {rows cols : ℕ} {options : Options}
  {plane : PlaneTransform T}

/-- A call: what it is given, and the surroundings that it finds. -/
structure Call (T : Type) where
  host : Host
  direction : Direction
  scaled : Bool
  storage : Storage T

/-- What a call leaves. -/
def serve (plane : PlaneTransform T) (call : Call T) : Outcome T :=
  plane.apply call.host call.direction call.scaled call.storage

/-- The transform after calls one after another. -/
def after (plane : PlaneTransform T) : List (Call T) → PlaneTransform T
  | [] => plane
  | call :: later => (plane.serve call).plane.after later

/-- What calls one after another leave in their storage, and how they end. -/
def answers (plane : PlaneTransform T) : List (Call T) → List (Storage T × Except Failure Unit)
  | [] => []
  | call :: later =>
    ((plane.serve call).storage, (plane.serve call).result) ::
      (plane.serve call).plane.answers later

theorem after_append (plane : PlaneTransform T) (calls later : List (Call T)) :
    plane.after (calls ++ later) = (plane.after calls).after later := by
  induction calls generalizing plane with
  | nil => rfl
  | cons call calls ih => exact ih (plane.serve call).plane

/-! ## However the passes end -/

section Passes

variable {host : Host} {direction : Direction} {scaled : Bool} {cells : Grid T} {window : Array T}
  {failure : Failure}

/-- The passes keep the length of the scratch window. -/
theorem size_window_runPasses (plane : PlaneTransform T) (host : Host) (direction : Direction)
    (scaled : Bool) (cells : Grid T) (window : Array T) :
    (plane.runPasses host direction scaled cells window).window.size = window.size := by
  have hcolumns : (plane.runColumns host direction scaled cells window).window.size =
      window.size := by
    rw [runColumns]
    split
    · rfl
    · split
      · exact ColumnPass.size_window_onPool _ _ _ _ _
      · exact ColumnPass.size_window_inOrder _ _ _
  rw [runPasses]
  generalize plane.runColumns host direction scaled cells window = columns at hcolumns ⊢
  obtain ⟨cells, window, _ | _⟩ := columns
  · exact hcolumns
  · exact hcolumns

theorem runColumns_failure
    (h : (plane.runColumns host direction scaled cells window).result = .error failure) :
    Workers.RunFailure failure := by
  rw [runColumns] at h
  split at h
  · obtain rfl := Except.error.inj h
    exact .fault _
  · split at h
    · exact ColumnPass.onPool_failure h
    · exact ColumnPass.inOrder_failure h

theorem runRows_failure
    (h : (plane.runRows host direction scaled cells).2 = .error failure) :
    Workers.RunFailure failure := by
  rw [runRows] at h
  split at h
  · exact RowPass.onPool_failure h
  · exact RowPass.inOrder_failure h

/-- The passes fail like any other run of tasks. -/
theorem runPasses_failure
    (h : (plane.runPasses host direction scaled cells window).result = .error failure) :
    Workers.RunFailure failure := by
  rw [runPasses] at h
  rcases hcolumns : plane.runColumns host direction scaled cells window with
    ⟨left, window', _ | _⟩
  · rw [hcolumns] at h
    obtain rfl := Except.error.inj h
    exact runColumns_failure (congrArg PassOutcome.result hcolumns)
  · rw [hcolumns] at h
    exact runRows_failure h

end Passes

theorem Configured.serve_cases (h : Configured rows cols options plane) (call : Call T) :
    (∃ failure, call.storage.cells rows cols = .error failure ∧
      plane.serve call = ⟨plane, call.storage, .error failure⟩) ∨
    ∃ cells, call.storage.cells rows cols = .ok cells ∧
      ((∃ error left,
        plane.scratch.ensure call.host.memory rows cols plane.threads = .error error left ∧
        plane.serve call = ⟨plane, call.storage, .error (.error .outOfMemory)⟩) ∨
      ∃ scratch outcome,
        plane.scratch.ensure call.host.memory rows cols plane.threads = .ok () scratch ∧
        plane.runPasses call.host call.direction call.scaled cells
          (scratch.window (Scratch.requiredLength rows cols plane.threads)) = outcome ∧
        plane.serve call = ⟨{ plane with scratch := scratch.overwrite outcome.window },
          call.storage.withCells outcome.cells, outcome.result⟩) :=
  h.apply_cases call.host call.direction call.scaled call.storage

theorem Configured.serve (h : Configured rows cols options plane) (call : Call T) :
    Configured rows cols options (plane.serve call).plane :=
  h.apply call.host call.direction call.scaled call.storage

theorem Configured.after (h : Configured rows cols options plane) (calls : List (Call T)) :
    Configured rows cols options (plane.after calls) := by
  induction calls generalizing plane with
  | nil => exact h
  | cons call later ih => exact ih (h.serve call)

/-! ## Calls that are not served -/

/-- The call reports that the storage has another shape. -/
def Outcome.Mismatched (outcome : Outcome T) : Prop :=
  ∃ rows cols actual, outcome.result = .error (.error (.shapeMismatch rows cols actual))

/-- The call reports a lack of memory. -/
def Outcome.Starved (outcome : Outcome T) : Prop := outcome.result = .error (.error .outOfMemory)

/-- A call that reports a mismatch could not read the matrix out of its storage. -/
theorem Configured.cells_eq_error (h : Configured rows cols options plane) {call : Call T}
    (hmismatched : (plane.serve call).Mismatched) :
    ∃ failure, call.storage.cells rows cols = .error failure := by
  obtain ⟨_, _, _, hresult⟩ := hmismatched
  obtain ⟨failure, hcells, -⟩ | ⟨cells, -, ⟨error, left, -, hserve⟩ |
    ⟨scratch, outcome, -, hrun, hserve⟩⟩ := h.serve_cases call
  · exact ⟨failure, hcells⟩
  · rw [hserve] at hresult
    exact nomatch hresult
  · rw [hserve, ← hrun] at hresult
    exact nomatch runPasses_failure hresult

theorem Configured.mismatched_iff (h : Configured rows cols options plane) {call : Call T}
    (hrange : call.storage.InRange rows cols) :
    (plane.serve call).Mismatched ↔ ¬call.storage.Fits rows cols := by
  constructor
  · intro hmismatched hfits
    obtain ⟨failure, herror⟩ := h.cells_eq_error hmismatched
    obtain ⟨x, hcells, -⟩ := Storage.cells_of_fits h.cols_pos hrange hfits
    exact nomatch hcells.symm.trans herror
  · intro hmisfit
    obtain ⟨actual, hcells⟩ := Storage.cells_of_not_fits hrange hmisfit
    rw [← h.rows_eq, ← h.cols_eq] at hcells
    exact ⟨_, _, actual, congrArg Outcome.result (apply_of_cells_error _ _ _ hcells)⟩

theorem Configured.serve_of_unserved (h : Configured rows cols options plane) {call : Call T}
    (hunserved : (plane.serve call).Mismatched ∨ (plane.serve call).Starved) :
    (plane.serve call).plane = plane ∧ (plane.serve call).storage = call.storage := by
  obtain ⟨failure, -, hserve⟩ | ⟨cells, -, ⟨error, left, -, hserve⟩ |
    ⟨scratch, outcome, -, hrun, hserve⟩⟩ := h.serve_cases call
  · rw [hserve]
    exact ⟨rfl, rfl⟩
  · rw [hserve]
    exact ⟨rfl, rfl⟩
  · -- the passes report neither of the two
    rw [hserve, ← hrun] at hunserved
    obtain ⟨_, _, _, hresult⟩ | hresult := hunserved
    · exact nomatch runPasses_failure hresult
    · exact nomatch runPasses_failure hresult

/-- The call passes the check of the shape and is granted scratch space. -/
def Admits (plane : PlaneTransform T) (call : Call T) : Prop :=
  (∃ cells, call.storage.cells plane.dimensions.rows plane.dimensions.cols = .ok cells) ∧
    ∃ scratch, plane.scratch.ensure call.host.memory plane.dimensions.rows plane.dimensions.cols
      plane.threads = .ok () scratch

/-- One of some calls one after another is admitted. -/
def AnyAdmitted (plane : PlaneTransform T) : List (Call T) → Prop
  | [] => False
  | call :: later => plane.Admits call ∨ (plane.serve call).plane.AnyAdmitted later

theorem Configured.admits_iff (h : Configured rows cols options plane) {call : Call T} :
    plane.Admits call ↔ (∃ cells, call.storage.cells rows cols = .ok cells) ∧ ∃ scratch,
      plane.scratch.ensure call.host.memory rows cols plane.threads = .ok () scratch := by
  rw [Admits, h.rows_eq, h.cols_eq]

/-- A call that is not admitted leaves the transform as it is. -/
theorem Configured.serve_of_not_admits (h : Configured rows cols options plane) {call : Call T}
    (hadmits : ¬plane.Admits call) : (plane.serve call).plane = plane := by
  rw [h.admits_iff] at hadmits
  obtain ⟨failure, -, hserve⟩ | ⟨cells, hcells, ⟨error, left, -, hserve⟩ |
    ⟨scratch, outcome, hscratch, -, -⟩⟩ := h.serve_cases call
  · rw [hserve]
  · rw [hserve]
  · exact absurd ⟨⟨cells, hcells⟩, scratch, hscratch⟩ hadmits

/-- An admitted call leaves a buffer that is long enough for it, and counts whether it had to be
replaced. -/
theorem Configured.scratch_serve (h : Configured rows cols options plane) {call : Call T}
    (hadmits : plane.Admits call) :
    (plane.serve call).plane.scratch.capacity =
        max (Scratch.requiredLength rows cols plane.threads) plane.scratch.capacity ∧
      (plane.serve call).plane.scratch.reallocations = plane.scratch.reallocations +
        if plane.scratch.capacity < Scratch.requiredLength rows cols plane.threads then 1
        else 0 := by
  obtain ⟨⟨granted, hgranted⟩, room, hroom⟩ := h.admits_iff.1 hadmits
  obtain ⟨failure, herror, -⟩ | ⟨cells, -, ⟨error, left, hrefused, -⟩ |
    ⟨scratch, outcome, hscratch, hrun, hserve⟩⟩ := h.serve_cases call
  · exact nomatch herror.symm.trans hgranted
  · exact nomatch hrefused.symm.trans hroom
  · -- the passes leave a window of the length that was made sure of
    have hsize : outcome.window.size = Scratch.requiredLength rows cols plane.threads := by
      rw [← hrun, size_window_runPasses, Scratch.size_window hscratch]
    rw [hserve]
    refine ⟨?_, ?_⟩
    · rw [scratch.capacity_overwrite (hsize.trans_le (Scratch.requiredLength_le hscratch)),
        Scratch.capacity_of_ensure hscratch]
    · rw [← Scratch.reallocations_of_ensure hscratch]
      rfl

/-- Every matrix needs some scratch space, as long as its length is a word. -/
theorem Configured.requiredLength_pos (h : Configured rows cols options plane)
    (hrange : options.InRange rows cols) : 0 < Scratch.requiredLength rows cols plane.threads := by
  have hexact := h.exact hrange
  rw [Scratch.requiredLength, hexact.scratchLength_eq]
  exact Nat.mul_pos hexact.workers_pos (hexact.segmentLength_pos h.rows_pos)

/-- The scratch space was built once, for matrices of `rows` rows and `cols` columns, if they need
any. -/
structure BuiltOnce (rows cols threads : ℕ) (s : Scratch T) : Prop where
  capacity_eq : s.capacity = Scratch.requiredLength rows cols threads
  reallocations_eq : s.reallocations = if 0 < Scratch.requiredLength rows cols threads then 1 else 0

/-- The first admitted call builds the scratch space. -/
theorem Configured.builtOnce_serve (h : Configured rows cols options plane)
    (hcapacity : plane.scratch.capacity = 0) (hreallocations : plane.scratch.reallocations = 0)
    {call : Call T} (hadmits : plane.Admits call) :
    BuiltOnce rows cols (options.workers rows cols) (plane.serve call).plane.scratch := by
  obtain ⟨hlength, hcount⟩ := h.scratch_serve hadmits
  rw [hcapacity, Nat.max_zero, h.threads_eq] at hlength
  rw [hcapacity, hreallocations, Nat.zero_add, h.threads_eq] at hcount
  exact ⟨hlength, hcount⟩

/-- No call after that builds any. -/
theorem Configured.builtOnce_after (h : Configured rows cols options plane)
    (hbuilt : BuiltOnce rows cols (options.workers rows cols) plane.scratch)
    (calls : List (Call T)) :
    BuiltOnce rows cols (options.workers rows cols) (plane.after calls).scratch := by
  induction calls generalizing plane with
  | nil => exact hbuilt
  | cons call later ih =>
    refine ih (h.serve call) ?_
    by_cases hadmits : plane.Admits call
    · obtain ⟨hlength, hcount⟩ := h.scratch_serve hadmits
      rw [hbuilt.capacity_eq, h.threads_eq] at hlength hcount
      rw [max_self] at hlength
      rw [if_neg (lt_irrefl _), Nat.add_zero, hbuilt.reallocations_eq] at hcount
      exact ⟨hlength, hcount⟩
    · rw [h.serve_of_not_admits hadmits]
      exact hbuilt

/-- Scratch space is built by the first call that is admitted. -/
theorem Configured.scratch_after (h : Configured rows cols options plane)
    (hcapacity : plane.scratch.capacity = 0) (hreallocations : plane.scratch.reallocations = 0)
    (calls : List (Call T)) :
    (¬plane.AnyAdmitted calls →
      (plane.after calls).scratch.capacity = 0 ∧ (plane.after calls).scratch.reallocations = 0) ∧
    (plane.AnyAdmitted calls →
      BuiltOnce rows cols (options.workers rows cols) (plane.after calls).scratch) := by
  induction calls generalizing plane with
  | nil => exact ⟨fun _ => ⟨hcapacity, hreallocations⟩, fun hadmitted => hadmitted.elim⟩
  | cons call later ih =>
    rw [AnyAdmitted, PlaneTransform.after]
    by_cases hadmits : plane.Admits call
    · have hbuilt := h.builtOnce_serve hcapacity hreallocations hadmits
      exact ⟨fun hnone => absurd (.inl hadmits) hnone,
        fun _ => (h.serve call).builtOnce_after hbuilt later⟩
    · rw [or_iff_right hadmits, h.serve_of_not_admits hadmits]
      exact ih h hcapacity hreallocations

end CosineTransform.PlaneTransform
