import CosineTransform.Proofs.Columns.Blocks
import CosineTransform.Proofs.Columns.Split
import CosineTransform.Proofs.Workers

/-!
# The column pass transforms every column

A worker transforms the columns of one block after the other. What carries over from one block to
the next is the set of the blocks that are done (`ColumnPass.after`): their columns are transformed
and all others are as they were at the start. The scratch segments may hold anything. Once every
block had its turn, in whatever order, every column is transformed (`ColumnPass.onPool_eq`,
`ColumnPass.inOrder_eq`). All of this is about splits of which no product is lost in part
(`ColumnSplit.Exact`); a split without workers transforms nothing
(`ColumnPass.onPool_of_no_worker`).
-/

namespace CosineTransform

variable {T : Type}

namespace ColumnPass

variable (p : ColumnPass T)

/-- The state in which the matrix holds `x` and the segments of the workers hold `s`. -/
def state (x s : ℕ → ℕ → T) : ColumnState T :=
  ⟨Grid.ofFn p.rows p.split.cols x, Grid.ofFn p.split.workers (p.split.segmentLength p.rows) s⟩

variable {p} in
/-- Only the cells of the matrix matter. -/
theorem state_congr {x y : ℕ → ℕ → T} (h : ∀ r < p.rows, ∀ c < p.split.cols, x r c = y r c)
    (s : ℕ → ℕ → T) : p.state x s = p.state y s := by
  rw [state, state, Grid.ofFn_congr h]

variable {p} in
theorem slot_lt (hexact : p.split.Exact p.rows) {r j : ℕ} (hr : r < p.rows)
    (hj : j < p.split.width) : j * p.rows + r < p.split.segmentLength p.rows := by
  rw [hexact.segmentLength_eq]
  exact (Nat.add_lt_add_left hr _).trans_le (Grid.row_le hj p.rows)

/-! ## Single steps -/

section Step

variable {p} {worker : ℕ} (hw : worker < p.split.workers) (x s : ℕ → ℕ → T)

include hw

theorem advance_check (hexact : p.split.Exact p.rows) {block : ColumnBlock}
    (hwidth : block.width = p.split.width)
    (hblock : block.start + block.width ≤ p.split.cols) :
    p.advance worker (.check block) (p.state x s) = .ok () (p.state x s) := by
  refine advance_check_eq_ok hblock (Grid.read_ofFn s hw) ?_
  rw [Buffer.size_ofFn, hwidth, hexact.segmentLength_eq]

theorem advance_fetch {row col slot : ℕ} (hrow : row < p.rows) (hcol : col < p.split.cols)
    (hslot : slot < p.split.segmentLength p.rows) :
    p.advance worker (.fetch row col slot) (p.state x s) =
      .ok () (p.state x fun w k => if w = worker ∧ k = slot then x row col else s w k) := by
  rw [state, advance_fetch_eq_ok (Grid.get_ofFn x hrow hcol) (Grid.missing?_ofFn s hw hslot),
    Grid.set_ofFn]
  rfl

theorem advance_store {row col slot : ℕ} (hrow : row < p.rows) (hcol : col < p.split.cols)
    (hslot : slot < p.split.segmentLength p.rows) :
    p.advance worker (.store slot row col) (p.state x s) =
      .ok () (p.state (fun r c => if r = row ∧ c = col then s worker slot else x r c) s) := by
  rw [state, advance_store_eq_ok (Grid.get_ofFn s hw hslot) (Grid.missing?_ofFn x hrow hcol),
    Grid.set_ofFn]
  rfl

theorem advance_transform (hexact : p.split.Exact p.rows) {image : (ℕ → T) → ℕ → T}
    (hline : Computes p.line p.rows image) {column : ℕ} (hcolumn : column < p.split.width) :
    p.advance worker (.transform column) (p.state x s) =
      .ok () (p.state x fun w k =>
        if w = worker ∧ column * p.rows ≤ k ∧ k < column * p.rows + p.rows then
          image (fun i => s worker (column * p.rows + i)) (k - column * p.rows)
        else s w k) := by
  have hfits : column * p.rows + p.rows ≤ p.split.segmentLength p.rows := by
    rw [hexact.segmentLength_eq]
    exact Grid.row_le hcolumn p.rows
  have himage : p.transformColumn column (Buffer.ofFn (p.split.segmentLength p.rows) (s worker)) =
      .ok (Buffer.ofFn (p.split.segmentLength p.rows) fun k =>
        if column * p.rows ≤ k ∧ k < column * p.rows + p.rows then
          image (fun i => s worker (column * p.rows + i)) (k - column * p.rows)
        else s worker k) := by
    unfold transformColumn
    dsimp only
    rw [Buffer.slice_ofFn _ hfits, ok_bind, hline, ok_bind, Buffer.blit_ofFn _ _ hfits]
  rw [state, advance_transform_eq_ok (Grid.read_ofFn s hw) himage, Grid.setIfInBounds_ofFn]
  refine congrArg _ (congrArg _ (Grid.ofFn_congr ?_))
  intro w _ k _
  by_cases h : w = worker
  · simp only [h, true_and, if_true]
  · simp only [h, false_and, if_false]

end Step

/-! ## Blocks -/

section Block

variable {p} {worker : ℕ} (hw : worker < p.split.workers) (x s : ℕ → ℕ → T)

/-- What a worker may change of a state: the matrix and its own segment. -/
theorem state_eq_holding (worker : ℕ) :
    p.state x s = ColumnState.holding
      (Grid.ofFn p.split.workers (p.split.segmentLength p.rows) s) worker
      (Grid.ofFn p.rows p.split.cols x)
      (Buffer.ofFn (p.split.segmentLength p.rows) (s worker)) := by
  rw [ColumnState.holding, Grid.setIfInBounds_ofFn, state]
  refine congrArg _ (Grid.ofFn_congr fun w _ k _ => ?_)
  split
  · rename_i hsame
    rw [hsame]
  · rfl

include hw

/-- The columns of a block are transformed, and all others stay. -/
theorem run_block (hexact : p.split.Exact p.rows) (start : ℕ) {image : (ℕ → T) → ℕ → T}
    (hline : Computes p.line p.rows image) (hrows : 0 < p.rows)
    (hstart : start + p.split.width ≤ p.split.cols) :
    ∃ s', p.run (((ColumnBlock.mk start p.split.width).steps p.rows).map (worker, ·))
        (p.state x s) = .ok () (p.state (fun r c =>
        if start ≤ c ∧ c < start + p.split.width then image (fun i => x i c) r else x r c) s') := by
  have hshaped : (Grid.ofFn p.rows p.split.cols x).Shaped p.rows p.split.cols := Grid.shaped_ofFn x
  have hcolumn := hshaped.eq_ofFn_iff_column.1 rfl
  have hworker : worker < (Grid.ofFn p.split.workers (p.split.segmentLength p.rows) s).size := by
    rwa [Grid.size_ofFn]
  have hsegment : (Buffer.ofFn (p.split.segmentLength p.rows) (s worker)).size =
      p.split.width * p.rows := by
    rw [Buffer.size_ofFn, hexact.segmentLength_eq]
  have himage (j : ℕ) (hj : j < p.split.width) : ∃ column : Array T,
      ((Grid.ofFn p.rows p.split.cols x).column p.rows (start + j) >>= p.line) = .ok column ∧
        column.size = p.rows := by
    rw [hcolumn _ (by omega), ok_bind, hline]
    exact ⟨_, rfl, Buffer.size_ofFn _ _⟩
  obtain ⟨final, staged, hrun, hstaged, hfinal, hcolumns⟩ := run_steps_eq_ok
    (b := ⟨start, p.split.width⟩) hworker hstart hrows hshaped hsegment himage
  obtain ⟨f, hf⟩ := Buffer.exists_eq_ofFn (hstaged ▸ Nat.mul_pos p.split.width_pos hrows)
  -- only the segment of the worker has changed
  refine ⟨fun w => if w = worker then f else s w, ?_⟩
  rw [state_eq_holding x s worker, hrun, ColumnState.holding, hf, hstaged,
    ← hexact.segmentLength_eq, state]
  congr 2
  · refine hfinal.eq_ofFn_iff_column.2 fun c hc => (hcolumns c hc).trans ?_
    rw [hcolumn c hc]
    split
    · exact hline _
    · rfl
  · exact Grid.setIfInBounds_ofFn s f worker

end Block

/-! ## Workers -/

/-- The matrix when some blocks are done: their columns are transformed. -/
def after (image : (ℕ → T) → ℕ → T) (x : ℕ → ℕ → T) (done : List ℕ) (r c : ℕ) : T :=
  if c / p.split.width ∈ done then image (fun i => x i c) r else x r c

theorem after_nil (image : (ℕ → T) → ℕ → T) (x : ℕ → ℕ → T) : p.after image x [] = x := by
  funext r c
  exact if_neg List.not_mem_nil

/-- Another block is done when its columns are transformed. -/
theorem after_append_singleton (image : (ℕ → T) → ℕ → T) (x : ℕ → ℕ → T) {done : List ℕ} {j : ℕ}
    (hj : j ∉ done) :
    (fun r c => if j * p.split.width ≤ c ∧ c < j * p.split.width + p.split.width then
        image (fun i => p.after image x done i c) r
      else p.after image x done r c) = p.after image x (done ++ [j]) := by
  funext r c
  by_cases hc : c / p.split.width = j
  · -- the columns of a block have not been transformed before
    have hin : j * p.split.width ≤ c ∧ c < j * p.split.width + p.split.width :=
      ⟨hc ▸ Nat.div_mul_le_self c _, hc ▸ Nat.lt_div_mul_add p.split.width_pos⟩
    have hsame (i : ℕ) : p.after image x done i c = x i c := by
      rw [after, hc, if_neg hj]
    rw [if_pos hin, after, hc, if_pos (List.mem_append_right _ List.mem_cons_self)]
    simp only [hsame]
  · rw [if_neg, after, after]
    · simp only [List.mem_append, List.mem_singleton, hc, or_false]
    · rintro ⟨hle, hlt⟩
      exact hc (Nat.div_eq_of_lt_le hle (by rwa [Nat.succ_mul]))

section Worker

variable {p} {worker : ℕ} {image : (ℕ → T) → ℕ → T}

/-- Blocks that were not done before are done one after another. -/
theorem run_blocks (hexact : p.split.Exact p.rows) (hw : worker < p.split.workers)
    (hline : Computes p.line p.rows image) (hrows : 0 < p.rows) (x : ℕ → ℕ → T) (blocks : List ℕ)
    (hblocks : ∀ j ∈ blocks, j < p.split.cols / p.split.width) (done : List ℕ)
    (hnodup : blocks.Nodup) (hnew : ∀ j ∈ blocks, j ∉ done) (s : ℕ → ℕ → T) :
    ∃ s', p.run ((blocks.flatMap fun j =>
        (ColumnBlock.mk (j * p.split.width) p.split.width).steps p.rows).map (worker, ·))
        (p.state (p.after image x done) s) =
      .ok () (p.state (p.after image x (done ++ blocks)) s') := by
  induction blocks generalizing done s with
  | nil => exact ⟨s, by rw [List.append_nil]; rfl⟩
  | cons j blocks ih =>
    have hend : j * p.split.width + p.split.width ≤ p.split.cols :=
      (Grid.row_le (hblocks j List.mem_cons_self) _).trans (Nat.div_mul_le_self _ _)
    have hdone : j ∉ done := hnew j List.mem_cons_self
    obtain ⟨hj, hnodup⟩ := List.nodup_cons.1 hnodup
    -- the blocks that are left stay new
    have hlater : ∀ k ∈ blocks, k ∉ done ++ [j] := by
      intro k hk hmem
      rcases List.mem_append.1 hmem with hmem | hmem
      · exact hnew k (List.mem_cons_of_mem _ hk) hmem
      · exact hj (List.mem_singleton.1 hmem ▸ hk)
    obtain ⟨s₁, hblock⟩ :=
      run_block hw (p.after image x done) s hexact (j * p.split.width) hline hrows hend
    obtain ⟨s₂, hrest⟩ :=
      ih (fun k hk => hblocks k (List.mem_cons_of_mem _ hk)) (done ++ [j]) hnodup hlater s₁
    refine ⟨s₂, ?_⟩
    rw [List.flatMap_cons, List.map_append, run_append hblock,
      after_append_singleton p image x hdone, hrest, ← List.append_cons]

/-- The blocks of a worker, by their indices. -/
theorem program_eq (hpos : 0 < p.split.workers) :
    p.program worker = (Strided.list worker (p.split.cols / p.split.width)
      p.split.workers).flatMap fun j =>
        (ColumnBlock.mk (j * p.split.width) p.split.width).steps p.rows := by
  rw [program, ColumnSplit.blocks, ColumnSplit.blockStarts, max_eq_left hpos, List.map_map,
    List.flatMap_map]
  rfl

/-- A worker does all of its blocks. -/
theorem runWorker_eq (hexact : p.split.Exact p.rows) (hw : worker < p.split.workers)
    (hline : Computes p.line p.rows image) (hrows : 0 < p.rows) (x s : ℕ → ℕ → T) (done : List ℕ)
    (hnew : ∀ j ∈ Strided.list worker (p.split.cols / p.split.width) p.split.workers, j ∉ done) :
    ∃ s', p.runWorker worker (p.state (p.after image x done) s) =
      .ok () (p.state (p.after image x
        (done ++ Strided.list worker (p.split.cols / p.split.width) p.split.workers)) s') := by
  have hpos : 0 < p.split.workers := by omega
  rw [runWorker, program_eq hpos]
  exact run_blocks hexact hw hline hrows x _ (fun j hj => ((Strided.mem_list hpos j).1 hj).2) done
    (Strided.nodup_list hpos) hnew s

/-- When every block is done, every column is transformed. -/
theorem after_all (hexact : p.split.Exact p.rows) (x s : ℕ → ℕ → T) {done : List ℕ}
    (hdone : ∀ j, j < p.split.cols / p.split.width → j ∈ done) :
    p.state (p.after image x done) s = p.state (fun r c => image (fun i => x i c) r) s := by
  refine state_congr (fun r _ c hc => ?_) s
  rw [after, if_pos]
  refine hdone _ ((Nat.div_lt_iff_lt_mul p.split.width_pos).2 ?_)
  rwa [Nat.div_mul_cancel hexact.width_dvd]

end Worker

/-! ## The pass -/

section Pass

variable {p} {image : (ℕ → T) → ℕ → T} (hline : Computes p.line p.rows image) (hrows : 0 < p.rows)
  (hexact : p.split.Exact p.rows) (x : ℕ → ℕ → T) (u : ℕ → T)

/-- What the workers leave of their segments fills the scratch window again. -/
theorem size_window (hexact : p.split.Exact p.rows) (s : ℕ → ℕ → T) (window : Array T)
    (hwindow : window.size = p.split.scratchLength p.rows) :
    ((Grid.ofFn p.split.workers (p.split.segmentLength p.rows) s).flatten ++
      window.extract (p.split.scratchLength p.rows)).size = p.split.scratchLength p.rows := by
  rw [Grid.flatten_ofFn, Array.size_append, Buffer.size_ofFn, Array.size_extract, hwindow,
    min_self, Nat.sub_self, add_zero, hexact.scratchLength_eq]

/-- Without a pool there is no pass, and the segments of the workers fill the window again. -/
theorem onPool_of_no_pool [Zero T] (hrows : 0 < p.rows) (hexact : p.split.Exact p.rows)
    (reason : String) (batch : ℕ) (cells : Grid T) {window : Array T}
    (hwindow : window.size = p.split.scratchLength p.rows) :
    p.onPool (.error reason) batch cells window =
      ⟨cells, window, .error (.error (.threadPool reason))⟩ := by
  rw [hexact.scratchLength_eq] at hwindow
  obtain ⟨segments, hpieces, hflatten⟩ := Grid.pieces_eq_ok
    (hexact.segmentLength_pos hrows) hwindow
  have hrest : window.extract (p.split.workers * p.split.segmentLength p.rows) = #[] :=
    Array.extract_empty_of_size_le_start hwindow.le
  rw [onPool, hpieces]
  dsimp only [Workers.fanOut]
  rw [hflatten, Grid.size_ofFn, hrest, Array.append_empty]

/-- A split without workers has no segments, and no column is touched. -/
theorem onPool_of_no_worker (hpos : 0 < p.split.segmentLength p.rows) (pool : Pool) (batch : ℕ)
    (cells : Grid T) : p.onPool (.ok pool) batch cells #[] = ⟨cells, #[], .ok ()⟩ := by
  have hpieces : Buffer.pieces (p.split.segmentLength p.rows) (#[] : Array T) = .ok #[] := by
    rw [Buffer.pieces, if_neg (Nat.pos_iff_ne_zero.1 hpos)]
    refine congrArg Except.ok (Array.eq_empty_of_size_eq_zero ?_)
    rw [Array.size_ofFn, Array.size_empty, Nat.zero_div]
  obtain ⟨s', order, horder, hrun, rfl⟩ := Workers.fanOut_eq_ok (Array.range 0)
    (fun worker _ => p.task worker) (motive := fun _ s => s = ⟨cells, #[]⟩) pool batch
    (s := ⟨cells, #[]⟩) rfl fun _ _ _ hi => absurd hi (by simp)
  rw [onPool, hpieces]
  dsimp only
  rw [Array.size_empty, hrun]
  simp

include hline hrows hexact

/-- The pass of one worker transforms every column. -/
theorem inOrder_eq (hone : p.split.workers = 1) :
    ∃ window, p.inOrder (Grid.ofFn p.rows p.split.cols x)
        (Buffer.ofFn (p.split.scratchLength p.rows) u) =
        ⟨Grid.ofFn p.rows p.split.cols fun r c => image (fun i => x i c) r, window, .ok ()⟩ ∧
      window.size = p.split.scratchLength p.rows := by
  have hlength : p.split.scratchLength p.rows = p.split.segmentLength p.rows := by
    rw [hexact.scratchLength_eq, hone, one_mul]
  have hstart : (⟨Grid.ofFn p.rows p.split.cols x,
      #[Buffer.ofFn (p.split.segmentLength p.rows) u]⟩ : ColumnState T) =
        p.state (p.after image x []) fun _ => u := by
    rw [after_nil, state, hone]
    rfl
  have hslice : Buffer.slice (Buffer.ofFn (p.split.scratchLength p.rows) u) 0
      (p.split.segmentLength p.rows) = .ok (Buffer.ofFn (p.split.segmentLength p.rows) u) := by
    rw [Buffer.slice_ofFn u (by omega)]
    simp only [zero_add]
  -- the blocks of the only worker are all the blocks
  have hall (j : ℕ) (hj : j < p.split.cols / p.split.width) :
      j ∈ [] ++ Strided.list 0 (p.split.cols / p.split.width) p.split.workers := by
    rw [List.nil_append, Strided.mem_list (by omega), hone]
    exact ⟨⟨j, by omega⟩, hj⟩
  obtain ⟨s, hrun⟩ := runWorker_eq hexact (show 0 < p.split.workers by omega) hline hrows x
    (fun _ => u) [] fun j _ => List.not_mem_nil
  rw [after_all hexact x s hall, ← hstart] at hrun
  refine ⟨_, ?_, size_window hexact s _ (Buffer.size_ofFn _ u)⟩
  rw [inOrder]
  dsimp only
  rw [hslice]
  dsimp only
  rw [hrun, hlength]
  rfl

/-- The pass of the workers of a pool transforms every column, in whatever order the workers run. -/
theorem onPool_eq (pool : Pool) (batch : ℕ) :
    ∃ window, p.onPool (.ok pool) batch (Grid.ofFn p.rows p.split.cols x)
        (Buffer.ofFn (p.split.scratchLength p.rows) u) =
        ⟨Grid.ofFn p.rows p.split.cols fun r c => image (fun i => x i c) r, window, .ok ()⟩ ∧
      window.size = p.split.scratchLength p.rows := by
  have hworkers := hexact.workers_pos
  have hpieces : Buffer.pieces (p.split.segmentLength p.rows)
      (Buffer.ofFn (p.split.scratchLength p.rows) u) =
      .ok (Grid.ofFn p.split.workers (p.split.segmentLength p.rows) fun w k =>
        u (w * p.split.segmentLength p.rows + k)) := by
    rw [hexact.scratchLength_eq]
    exact Grid.pieces_ofFn (hexact.segmentLength_pos hrows) u
  have hstart : (⟨Grid.ofFn p.rows p.split.cols x, Grid.ofFn p.split.workers
      (p.split.segmentLength p.rows) fun w k => u (w * p.split.segmentLength p.rows + k)⟩ :
      ColumnState T) = p.state (p.after image x []) fun w k =>
        u (w * p.split.segmentLength p.rows + k) := by
    rw [after_nil, state]
  -- the blocks of the workers that had their turn are done
  obtain ⟨final, order, horder, hrun, s, rfl⟩ := Workers.fanOut_eq_ok
    (Array.range p.split.workers) (fun worker _ => p.task worker)
    (motive := fun done state => ∃ s, state = p.state (p.after image x
      (done.flatMap (Strided.list · (p.split.cols / p.split.width) p.split.workers))) s)
    pool batch ⟨_, hstart⟩ fun done worker state hworker hnew hdone hstate => by
      obtain ⟨s, rfl⟩ := hstate
      rw [Array.size_range] at hworker hdone
      obtain ⟨s', hworkerRun⟩ := runWorker_eq hexact hworker hline hrows x s _ fun j hj =>
        Strided.not_mem_flatMap_list hworker hdone hnew hj
      refine ⟨_, ?_, s', rfl⟩
      rw [task, hworkerRun, List.flatMap_append, List.flatMap_singleton]
  rw [Array.size_range] at horder
  rw [after_all hexact x s fun j hj => (Strided.mem_flatMap_list hworkers horder).2 hj] at hrun
  refine ⟨_, ?_, size_window hexact s _ (Buffer.size_ofFn _ u)⟩
  rw [onPool, hpieces]
  dsimp only
  rw [Grid.size_ofFn, hrun, ← hexact.scratchLength_eq]
  rfl

end Pass

end ColumnPass

end CosineTransform
