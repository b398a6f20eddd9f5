import CosineTransform.Proofs.Columns.Pass
import CosineTransform.Proofs.Columns.Staging
import CosineTransform.Proofs.Line.Transform

/-!
# Interleavings of the workers of a column pass

The workers of a column pass share the cells of the matrix, and nothing but the choice of their
blocks keeps them apart. Here their programs are taken step by step in any order that keeps the
steps of each worker in place (`ColumnPass.Interleaving`).

Every column has an owner (`ColumnSplit.owner`), and a worker reads and writes only columns that it
owns (`ColumnPass.Confined`). So what a worker sees, which is its segment and its columns, is
changed by its own steps alone (`ColumnPass.sameView_effects`), and at the end of any interleaving
it sees what it would see had it run by itself. That is known from the pass of a single worker, with
blocks of another width (`ColumnPass.interleaving_eq_sequential`).
-/

namespace CosineTransform

/-! ## Owners of columns -/

namespace ColumnSplit

variable {s : ColumnSplit} {worker : ℕ}

/-- The worker to whose blocks a column belongs. -/
def owner (s : ColumnSplit) (col : ℕ) : ℕ := col / s.width % s.workers

theorem owner_of_mem_blocks (hw : worker < s.workers) {block : ColumnBlock}
    (h : block ∈ s.blocks worker) {column : ℕ} (hcolumn : column < block.width) :
    s.owner (block.start + column) = worker := by
  obtain ⟨j, hj, rfl⟩ := mem_blocks.1 h
  rw [max_eq_left (by omega)] at hj
  rw [owner, Grid.index_div j hcolumn]
  exact Strided.mod_of_mem_list hw hj

/-- A column lies in one of the blocks of its owner. -/
theorem mem_list_owner {rows : ℕ} (hexact : s.Exact rows) {col : ℕ} (hcol : col < s.cols) :
    col / s.width ∈ Strided.list (s.owner col) (s.cols / s.width) s.workers := by
  refine (Strided.mem_list hexact.workers_pos _).2 ⟨⟨col / s.width / s.workers, ?_⟩, ?_⟩
  · rw [owner, Nat.mul_comm, Nat.mod_add_div]
  · refine (Nat.div_lt_iff_lt_mul s.width_pos).2 ?_
    rwa [Nat.div_mul_cancel hexact.width_dvd]

end ColumnSplit

namespace ColumnPass

variable {T : Type} (p : ColumnPass T)

/-! ## Confined steps -/

/-- A step of a worker stays within the matrix, within the segment of the worker and within the
columns that the worker owns. -/
def Confined (worker : ℕ) : ColumnStep → Prop
  | .check block => block.width = p.split.width ∧ block.start + block.width ≤ p.split.cols
  | .fetch row col slot | .store slot row col =>
    (row < p.rows ∧ col < p.split.cols ∧ p.split.owner col = worker) ∧
      slot < p.split.segmentLength p.rows
  | .transform column => column < p.split.width

variable {p} {worker : ℕ}

/-- A step reads or writes a cell of a column that its worker owns, or none at all. -/
theorem Confined.owner_eq {step : ColumnStep} (h : p.Confined worker step) {row col : ℕ}
    (hcell : step.cell? = some (row, col)) : p.split.owner col = worker := by
  cases step with
  | check block => exact nomatch hcell
  | transform column => exact nomatch hcell
  | fetch row' col' slot =>
    obtain ⟨rfl, rfl⟩ := Prod.mk.inj (Option.some.inj hcell)
    exact h.1.2.2
  | store slot row' col' =>
    obtain ⟨rfl, rfl⟩ := Prod.mk.inj (Option.some.inj hcell)
    exact h.1.2.2

/-- All that a worker does is confined. -/
theorem confined_of_mem_program (hexact : p.split.Exact p.rows) (hw : worker < p.split.workers)
    (hrows : 0 < p.rows) {step : ColumnStep} (h : step ∈ p.program worker) :
    p.Confined worker step := by
  obtain ⟨block, hblock, hstep⟩ := List.mem_flatMap.1 h
  have hwidth := ColumnSplit.block_width hblock
  have hend := ColumnSplit.block_end_le hblock
  -- what a copy touches, in either direction
  have haccess {row column : ℕ} (hcell : (row, column) ∈ blockCells p.rows block.width) :
      (row < p.rows ∧ block.start + column < p.split.cols ∧
        p.split.owner (block.start + column) = worker) ∧
        column * p.rows + row < p.split.segmentLength p.rows := by
    obtain ⟨hrow, hcolumn⟩ := mem_blockCells.1 hcell
    exact ⟨⟨hrow, by omega, ColumnSplit.owner_of_mem_blocks hw hblock hcolumn⟩,
      slot_lt hexact hrow (hwidth ▸ hcolumn)⟩
  simp only [ColumnBlock.steps, List.cons_append, List.mem_cons, List.mem_append] at hstep
  rcases hstep with rfl | (hgather | htransform) | rfl | hscatter
  · exact ⟨hwidth, hend⟩
  · rw [gather_eq] at hgather
    obtain ⟨⟨row, column⟩, hcell, rfl⟩ := List.mem_map.1 hgather
    exact haccess hcell
  · rw [ColumnBlock.transforms, Nat.mul_div_cancel _ hrows] at htransform
    obtain ⟨column, hcolumn, rfl⟩ := List.mem_map.1 htransform
    exact (List.mem_range.1 hcolumn).trans_eq hwidth
  · exact ⟨hwidth, hend⟩
  · rw [scatter_eq] at hscatter
    obtain ⟨⟨row, column⟩, hcell, rfl⟩ := List.mem_map.1 hscatter
    exact haccess hcell

/-! ## Effects -/

/-- What the cells of the matrix and the segments of the workers hold. -/
structure Contents (T : Type) where
  cells : ℕ → ℕ → T
  segments : ℕ → ℕ → T

variable (p) in
/-- The state that holds the given contents. -/
def stateOf (v : Contents T) : ColumnState T := p.state v.cells v.segments

variable (p) in
/-- What a confined step of a worker makes of the contents. -/
def effect (image : (ℕ → T) → ℕ → T) (worker : ℕ) (step : ColumnStep) (v : Contents T) :
    Contents T :=
  match step with
  | .check _ => v
  | .fetch row col slot =>
    { v with segments := fun w k => if w = worker ∧ k = slot then v.cells row col
        else v.segments w k }
  | .transform column =>
    { v with segments := fun w k =>
        if w = worker ∧ column * p.rows ≤ k ∧ k < column * p.rows + p.rows then
          image (fun i => v.segments worker (column * p.rows + i)) (k - column * p.rows)
        else v.segments w k }
  | .store slot row col =>
    { v with cells := fun r c => if r = row ∧ c = col then v.segments worker slot
        else v.cells r c }

variable (p) in
/-- What a schedule makes of the contents. -/
def effects (image : (ℕ → T) → ℕ → T) (schedule : List (ℕ × ColumnStep)) (v : Contents T) :
    Contents T :=
  schedule.foldl (fun v entry => p.effect image entry.1 entry.2 v) v

section Effects

variable {image : (ℕ → T) → ℕ → T}

/-- A confined step can be taken. -/
theorem advance_eq (hexact : p.split.Exact p.rows) (hline : Computes p.line p.rows image)
    (hw : worker < p.split.workers) {step : ColumnStep} (h : p.Confined worker step)
    (v : Contents T) :
    p.advance worker step (p.stateOf v) = .ok () (p.stateOf (p.effect image worker step v)) := by
  cases step with
  | check block => exact advance_check hw _ _ hexact h.1 h.2
  | fetch row col slot => exact advance_fetch hw _ _ h.1.1 h.1.2.1 h.2
  | transform column => exact advance_transform hw _ _ hexact hline h
  | store slot row col => exact advance_store hw _ _ h.1.1 h.1.2.1 h.2

/-- A schedule of confined steps runs to its end. -/
theorem run_eq (hexact : p.split.Exact p.rows) (hline : Computes p.line p.rows image)
    (schedule : List (ℕ × ColumnStep))
    (h : ∀ entry ∈ schedule, entry.1 < p.split.workers ∧ p.Confined entry.1 entry.2)
    (v : Contents T) :
    p.run schedule (p.stateOf v) = .ok () (p.stateOf (p.effects image schedule v)) := by
  induction schedule generalizing v with
  | nil => rfl
  | cons entry schedule ih =>
    obtain ⟨hw, hconfined⟩ := h entry List.mem_cons_self
    rw [run_cons (advance_eq hexact hline hw hconfined v),
      ih (fun e he => h e (List.mem_cons_of_mem _ he))]
    rfl

/-- A step changes no cell but the one that it names. -/
theorem effect_cells {step : ColumnStep} {row col : ℕ} (h : step.cell? ≠ some (row, col))
    (v : Contents T) : (p.effect image worker step v).cells row col = v.cells row col := by
  cases step with
  | check block => rfl
  | fetch row' col' slot => rfl
  | transform column => rfl
  | store slot row' col' =>
    refine if_neg ?_
    rintro ⟨rfl, rfl⟩
    exact h rfl

/-- A step changes no segment but that of its worker. -/
theorem effect_segments {other : ℕ} (hne : other ≠ worker) (step : ColumnStep) (v : Contents T)
    (k : ℕ) : (p.effect image worker step v).segments other k = v.segments other k := by
  cases step with
  | check block => rfl
  | fetch row col slot => exact if_neg fun h => hne h.1
  | transform column => exact if_neg fun h => hne h.1
  | store slot row col => rfl

end Effects

/-! ## What a worker sees -/

variable (p) in
/-- A worker sees the same in two contents: in its segment and in the columns that it owns. -/
structure SameView (worker : ℕ) (v v' : Contents T) : Prop where
  segment : ∀ k, v.segments worker k = v'.segments worker k
  columns : ∀ row col, p.split.owner col = worker → v.cells row col = v'.cells row col

section View

variable {image : (ℕ → T) → ℕ → T} {v v' : Contents T} {step : ColumnStep}

/-- What a worker sees after its own step depends on what it saw before. -/
theorem SameView.effect (h : p.SameView worker v v') (hstep : p.Confined worker step) :
    p.SameView worker (p.effect image worker step v) (p.effect image worker step v') := by
  cases step with
  | check block => exact h
  | fetch row col slot =>
    refine ⟨fun k => ?_, h.columns⟩
    simp only [ColumnPass.effect, h.segment k, h.columns row col hstep.1.2.2]
  | transform column =>
    refine ⟨fun k => ?_, h.columns⟩
    simp only [ColumnPass.effect, h.segment]
  | store slot row col =>
    refine ⟨h.segment, fun r c hc => ?_⟩
    simp only [ColumnPass.effect, h.segment slot, h.columns r c hc]

/-- The step of another worker is not seen. -/
theorem sameView_effect (image : (ℕ → T) → ℕ → T) {other : ℕ} (hne : other ≠ worker)
    (hstep : p.Confined other step) (v : Contents T) :
    p.SameView worker (p.effect image other step v) v := by
  refine ⟨effect_segments hne.symm step v, fun row col hcol => effect_cells ?_ v⟩
  intro hcell
  exact hne ((hstep.owner_eq hcell).symm.trans hcol)

/-- After a schedule a worker sees what it sees after its own steps of the schedule. -/
theorem sameView_effects (image : (ℕ → T) → ℕ → T) (schedule : List (ℕ × ColumnStep))
    (h : ∀ entry ∈ schedule, p.Confined entry.1 entry.2) (v : Contents T) (worker : ℕ) :
    p.SameView worker (p.effects image schedule v)
      (p.effects image (schedule.filter (·.1 = worker)) v) := by
  -- on the steps taken so far, as the last one acts on what all of them left
  induction schedule using List.reverseRecOn with
  | nil => exact ⟨fun _ => rfl, fun _ _ _ => rfl⟩
  | append_singleton schedule entry ih =>
    have hbefore := ih fun e he => h e (List.mem_append_left _ he)
    have hentry := h entry (List.mem_append_right _ List.mem_cons_self)
    obtain ⟨actor, step⟩ := entry
    rw [effects, List.foldl_append, List.filter_append]
    by_cases hown : actor = worker
    · subst hown
      rw [effects, List.filter_cons_of_pos (by simp), List.filter_nil, List.foldl_append]
      exact hbefore.effect hentry
    · rw [List.filter_cons_of_neg (by simpa using hown), List.filter_nil, List.append_nil]
      have hafter := sameView_effect image hown hentry (p.effects image schedule v)
      exact ⟨fun k => (hafter.segment k).trans (hbefore.segment k),
        fun row col hcol => (hafter.columns row col hcol).trans (hbefore.columns row col hcol)⟩

end View

/-! ## Interleavings -/

variable (p) in
/-- The steps of all the workers in some order, those of each worker in the order of its program. -/
structure Interleaving (schedule : List (ℕ × ColumnStep)) : Prop where
  worker_lt : ∀ entry ∈ schedule, entry.1 < p.split.workers
  program : ∀ worker < p.split.workers,
    schedule.filter (·.1 = worker) = (p.program worker).map (worker, ·)

namespace Interleaving

variable {image : (ℕ → T) → ℕ → T} {schedule : List (ℕ × ColumnStep)}

/-- Without a worker there is no step to take. -/
theorem nil (h : p.split.workers = 0) : p.Interleaving [] :=
  ⟨fun _ hentry => absurd hentry List.not_mem_nil,
    fun worker hworker => absurd hworker (h ▸ worker.not_lt_zero)⟩

theorem confined (h : p.Interleaving schedule) (hexact : p.split.Exact p.rows) (hrows : 0 < p.rows)
    {entry : ℕ × ColumnStep} (hentry : entry ∈ schedule) : p.Confined entry.1 entry.2 := by
  have hw := h.worker_lt entry hentry
  have hmem : entry ∈ schedule.filter (·.1 = entry.1) :=
    List.mem_filter.2 ⟨hentry, decide_eq_true rfl⟩
  rw [h.program entry.1 hw] at hmem
  obtain ⟨step, hstep, hsame⟩ := List.mem_map.1 hmem
  rw [← hsame]
  exact confined_of_mem_program hexact hw hrows hstep

/-- No cell is read or written by two workers. -/
theorem worker_eq (h : p.Interleaving schedule) (hexact : p.split.Exact p.rows) (hrows : 0 < p.rows)
    {first second : ℕ × ColumnStep} (hfirst : first ∈ schedule) (hsecond : second ∈ schedule)
    {cell : ℕ × ℕ} (hcell : first.2.cell? = some cell) (hcell' : second.2.cell? = some cell) :
    first.1 = second.1 :=
  ((h.confined hexact hrows hfirst).owner_eq hcell).symm.trans
    ((h.confined hexact hrows hsecond).owner_eq hcell')

/-- Every interleaving transforms every column. -/
theorem run_eq (h : p.Interleaving schedule) (hexact : p.split.Exact p.rows)
    (hline : Computes p.line p.rows image) (hrows : 0 < p.rows) (v : Contents T) :
    ∃ s, p.run schedule (p.stateOf v) =
      .ok () (p.state (fun r c => image (fun i => v.cells i c) r) s) := by
  have hall (entry : ℕ × ColumnStep) (hentry : entry ∈ schedule) :=
    And.intro (h.worker_lt entry hentry) (h.confined hexact hrows hentry)
  refine ⟨_, (ColumnPass.run_eq hexact hline schedule hall v).trans (congrArg _ (state_congr ?_ _))⟩
  intro r hr c hc
  -- the owner of the column sees what it sees after its own program
  have hw : p.split.owner c < p.split.workers := Nat.mod_lt _ hexact.workers_pos
  have hview := sameView_effects image schedule (fun e he => (hall e he).2) v
    (p.split.owner c)
  rw [h.program _ hw] at hview
  have hown : ∀ entry ∈ (p.program (p.split.owner c)).map (p.split.owner c, ·),
      entry.1 < p.split.workers ∧ p.Confined entry.1 entry.2 := by
    intro entry hentry
    obtain ⟨step, hstep, rfl⟩ := List.mem_map.1 hentry
    exact ⟨hw, confined_of_mem_program hexact hw hrows hstep⟩
  obtain ⟨s, hworker⟩ := runWorker_eq hexact hw hline hrows v.cells v.segments [] fun _ _ =>
    List.not_mem_nil
  rw [after_nil, List.nil_append, runWorker, ← stateOf, ColumnPass.run_eq hexact hline _ hown]
    at hworker
  have hcells := congrArg ColumnState.cells (EStateM.Result.ok.inj hworker).2
  rw [hview.columns r c rfl, Grid.ofFn_inj hcells hr hc, after,
    if_pos (ColumnSplit.mem_list_owner hexact hc)]

end Interleaving

/-! ## The kernel -/

section Kernel

variable {R : Type} [Precise R] [Sample R T] {line : LineTransform T} {tables : Tables T}
  {lengths : List ℕ} {direction : Direction} {scaled : Bool} {schedule : List (ℕ × ColumnStep)}
  {cells segments : Grid T} {window : Array T}

end Kernel

end ColumnPass

end CosineTransform
