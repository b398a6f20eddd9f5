import CosineTransform.Proofs.Columns.Split
import CosineTransform.Proofs.Grid
import CosineTransform.Proofs.Workers

/-!
# Dealing out the columns

Any number of columns is dealt out between any number of threads whose double is a word. The width
of a block and the number of the workers are chosen together, so that there are no more workers than
blocks (`ColumnSplit.workers_le`), and none only if there is no block. Dealt out in turns, the
blocks of all the workers are those that divide the columns from the first one on
(`ColumnSplit.flatMap_blockStarts_perm`); from that `ColumnSplit.columns_dealt_once` reads off that
no column goes to two workers, which columns go to none, and how even the shares are.
-/

namespace CosineTransform.ColumnSplit

section Dealing

variable (s : ColumnSplit) (hthreads : 2 * max s.threads 1 < Word.count)

theorem length_blockStarts (worker : ℕ) :
    (s.blockStarts worker).length =
      Strided.count worker (s.cols / s.width) (max s.workers 1) := by
  rw [blockStarts, List.length_map, Strided.list, List.length_map, List.length_range]

include hthreads

/-- Columns that go to no worker are fewer than a block. -/
theorem workers_eq_zero_iff : s.workers = 0 ↔ s.cols / s.width = 0 := by
  refine ⟨fun h => ?_, fun h => Nat.eq_zero_of_le_zero (h ▸ workers_le hthreads)⟩
  rw [workers, shape_eq hthreads] at h
  rw [width, shape_eq hthreads]
  split_ifs at * with hwide hdouble
  · change min (max s.threads 1) (s.cols / 4) = 0 at h
    change s.cols / 4 = 0
    omega
  · change max s.threads 1 = 0 at h
    omega
  · change s.cols = 0 at h
    rw [h, Nat.zero_div]

/-- All the workers together have the blocks that divide the columns, each of them once. -/
theorem flatMap_blockStarts_perm :
    ((List.range s.workers).flatMap s.blockStarts).Perm
      ((List.range (s.cols / s.width)).map (· * s.width)) := by
  -- without columns there is neither a worker nor a block
  rcases Nat.eq_zero_or_pos s.workers with hnone | hpos
  · rw [hnone, (s.workers_eq_zero_iff hthreads).1 hnone]
    exact .refl _
  · have hstarts : (List.range s.workers).flatMap s.blockStarts =
        ((List.range s.workers).flatMap
          (Strided.list · (s.cols / s.width) s.workers)).map (· * s.width) := by
      rw [List.map_flatMap]
      refine congrArg (List.flatMap · _) (funext fun worker => ?_)
      rw [blockStarts, max_eq_left hpos]
    rw [hstarts]
    exact (Strided.flatMap_list_perm hpos).map _

theorem mem_flatMap_blockStarts {start : ℕ} :
    start ∈ (List.range s.workers).flatMap s.blockStarts ↔
      ∃ j < s.cols / s.width, j * s.width = start := by
  rw [(s.flatMap_blockStarts_perm hthreads).mem_iff]
  simp only [List.mem_map, List.mem_range]

/-- The blocks that divide the columns do not overlap. -/
theorem pairwise_apart :
    ((List.range s.workers).flatMap s.blockStarts).Pairwise fun a b =>
      a + s.width ≤ b ∨ b + s.width ≤ a := by
  refine ((s.flatMap_blockStarts_perm hthreads).pairwise_iff fun h => h.symm).2 ?_
  refine List.pairwise_map.2 (List.pairwise_lt_range.imp fun {i j} hlt => .inl ?_)
  rw [← Nat.succ_mul]
  exact Nat.mul_le_mul_right _ hlt

end Dealing

/-- However many columns and threads there are, the blocks of all the workers lie apart from each
other and within the columns, and cover all the columns that fill whole blocks: for a power of two
these are all of them. No worker goes without a block or has two more than another, and the workers
stage their blocks in no more elements than the matrix has. -/
theorem columns_dealt_once (s : ColumnSplit) (hthreads : 2 * max s.threads 1 < Word.count) :
    let starts := (List.range s.workers).flatMap s.blockStarts
    (starts.Pairwise fun a b => a + s.width ≤ b ∨ b + s.width ≤ a) ∧
    (∀ start ∈ starts, start + s.width ≤ s.cols) ∧
    (∀ col, (∃ start ∈ starts, start ≤ col ∧ col < start + s.width) ↔
      col < s.width * (s.cols / s.width)) ∧
    (s.cols.isPowerOfTwo → s.width * (s.cols / s.width) = s.cols) ∧
    (∀ worker < s.workers, s.blockStarts worker ≠ []) ∧
    (∀ worker < s.workers, ∀ other < s.workers,
      (s.blockStarts worker).length ≤ (s.blockStarts other).length + 1) ∧
    ∀ rows, s.workers * s.width * rows ≤ rows * s.cols ∧ s.scratchLength rows ≤ rows * s.cols ∧
      (s.workers * s.width * rows < Word.count →
        s.scratchLength rows = s.workers * s.width * rows) := by
  intro starts
  refine ⟨s.pairwise_apart hthreads, ?_, fun col => ⟨?_, fun hcol => ?_⟩, ?_, ?_, ?_,
    fun rows => ⟨workers_mul_width_le hthreads rows, ?_, fun hstaged => ?_⟩⟩
  · intro start hstart
    obtain ⟨j, hj, rfl⟩ := (s.mem_flatMap_blockStarts hthreads).1 hstart
    exact (Grid.row_le hj s.width).trans (Nat.div_mul_le_self _ _)
  · rintro ⟨start, hstart, -, hlt⟩
    obtain ⟨j, hj, rfl⟩ := (s.mem_flatMap_blockStarts hthreads).1 hstart
    rw [Nat.mul_comm]
    exact hlt.trans_le (Grid.row_le hj s.width)
  · refine ⟨col / s.width * s.width,
      (s.mem_flatMap_blockStarts hthreads).2 ⟨col / s.width, ?_, rfl⟩,
      Nat.div_mul_le_self _ _, Nat.lt_div_mul_add s.width_pos⟩
    rwa [Nat.div_lt_iff_lt_mul s.width_pos, Nat.mul_comm]
  · intro hpow
    exact Nat.mul_div_cancel' (width_dvd hthreads hpow)
  · -- the first block of a worker has the number of the worker
    intro worker hworker
    have hfirst : 0 < Strided.count worker (s.cols / s.width) (max s.workers 1) := by
      rw [Strided.lt_count_iff (by omega), Nat.zero_mul, Nat.add_zero]
      exact hworker.trans_le (workers_le hthreads)
    rw [← List.length_pos_iff, length_blockStarts]
    exact hfirst
  · -- two workers start less than one turn apart
    intro worker _ other hother
    rw [length_blockStarts, length_blockStarts]
    exact Strided.count_le_succ (by omega)
  · rw [scratchLength_eq_mod]
    exact (Nat.mod_le _ _).trans (workers_mul_width_le hthreads rows)
  · rw [scratchLength_eq_mod, Nat.mod_eq_of_lt hstaged]

/-- Twenty columns make five blocks for three workers, who stage them in sixty elements if there are
five rows. -/
theorem columns_dealt_once_twenty :
    (List.range 3).map (⟨20, 3⟩ : ColumnSplit).blockStarts = [[0, 12], [4, 16], [8]] ∧
    (∃ start ∈ (List.range 3).flatMap (⟨20, 3⟩ : ColumnSplit).blockStarts,
      start ≤ 18 ∧ 18 < start + 4) ∧
    (⟨20, 3⟩ : ColumnSplit).scratchLength 5 = 60 := by
  obtain ⟨-, -, hcover, -, -, -, hscratch⟩ := columns_dealt_once ⟨20, 3⟩ (by decide)
  exact ⟨by decide, (hcover 18).2 (by decide), (hscratch 5).2.2 (by decide)⟩

end CosineTransform.ColumnSplit
