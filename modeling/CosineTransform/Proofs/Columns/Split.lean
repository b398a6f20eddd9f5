import CosineTransform.Columns.Split
import Mathlib.Algebra.Order.Group.Nat
import Mathlib.Tactic.SplitIfs

/-!
# Splitting a power of two columns

As long as no product of sizes is lost in part (`ColumnSplit.InRange`), the lengths of the scratch
space are the products that they stand for. If in addition the number of columns is a power of two,
the blocks leave no column over and every worker has a block (`ColumnSplit.InRange.exact`). A single
thread is a single worker in any case.
-/

namespace CosineTransform.ColumnSplit

variable {s : ColumnSplit} {rows : ℕ}

/-! ## Shape and workers -/

theorem four_dvd {n : ℕ} (h : n.isPowerOfTwo) (hlt : 2 < n) : 4 ∣ n := by
  obtain ⟨k, rfl⟩ := h
  have hk : 1 < k := (Nat.pow_lt_pow_iff_right Nat.one_lt_two).1 (by omega : 2 ^ 1 < 2 ^ k)
  exact Nat.pow_dvd_pow 2 hk

/-- The shape compares with twice the number of threads if that is a word. -/
theorem shape_eq (hthreads : 2 * max s.threads 1 < Word.count) :
    s.shape = if 2 * max s.threads 1 < s.cols then .wide
      else if s.cols = 2 * max s.threads 1 then .double
      else .single := by
  rw [shape, Word.mul_eq hthreads]

/-- The blocks cover all of the columns. -/
theorem width_dvd (hthreads : 2 * max s.threads 1 < Word.count) (h : s.cols.isPowerOfTwo) :
    s.width ∣ s.cols := by
  rw [width, shape_eq hthreads]
  split_ifs with hwide hdouble
  · exact four_dvd h (by omega)
  · exact ⟨max s.threads 1, hdouble⟩
  · exact Nat.one_dvd _

/-- There is a block for every worker. -/
theorem workers_le (hthreads : 2 * max s.threads 1 < Word.count) :
    s.workers ≤ s.cols / s.width := by
  rw [workers, width, shape_eq hthreads]
  split_ifs with hwide hdouble
  · exact min_le_right _ _
  · change max s.threads 1 ≤ s.cols / 2
    omega
  · exact (Nat.div_one s.cols).ge

theorem workers_pos (hthreads : 2 * max s.threads 1 < Word.count) (h : s.cols.isPowerOfTwo) :
    0 < s.workers := by
  have hcols := Nat.pos_of_isPowerOfTwo h
  rw [workers, shape_eq hthreads]
  split_ifs with hwide hdouble
  · have hfour := Nat.le_of_dvd hcols (four_dvd h (by omega))
    change 0 < min (max s.threads 1) (s.cols / 4)
    omega
  · change 0 < max s.threads 1
    omega
  · exact hcols

/-- A single thread is a single worker. -/
theorem workers_eq_one (h : s.cols.isPowerOfTwo) (hone : s.threads ≤ 1) : s.workers = 1 := by
  have hcols := Nat.pos_of_isPowerOfTwo h
  have hmax : max s.threads 1 = 1 := by omega
  rw [workers, shape_eq (by rw [hmax]; decide), hmax]
  split_ifs with hwide hdouble
  · have hfour := Nat.le_of_dvd hcols (four_dvd h (by omega))
    change min 1 (s.cols / 4) = 1
    omega
  · rfl
  · change s.cols = 1
    omega

/-! ## Lengths -/

/-- The workers stage no more than the whole matrix. -/
theorem workers_mul_width_le (hthreads : 2 * max s.threads 1 < Word.count) (rows : ℕ) :
    s.workers * s.width * rows ≤ rows * s.cols := by
  calc s.workers * s.width * rows
      ≤ s.cols / s.width * s.width * rows :=
        Nat.mul_le_mul_right _ (Nat.mul_le_mul_right _ (workers_le hthreads))
    _ ≤ s.cols * rows := Nat.mul_le_mul_right _ (Nat.div_mul_le_self _ _)
    _ = rows * s.cols := Nat.mul_comm _ _

/-- Whatever is lost of the length of a segment is lost of the length of all of them. -/
theorem scratchLength_eq_mod (s : ColumnSplit) (rows : ℕ) :
    s.scratchLength rows = s.workers * s.width * rows % Word.count := by
  rw [scratchLength, Word.mul, segmentLength, Word.mul, Nat.mul_mod_mod, Nat.mul_assoc]

/-- The products of a split of a matrix of `rows` rows are words: twice the number of threads, and
the number of cells. -/
structure InRange (s : ColumnSplit) (rows : ℕ) : Prop where
  threads_lt : 2 * max s.threads 1 < Word.count
  cells_lt : rows * s.cols < Word.count

/-- What the workers of a split of a matrix of `rows` rows rely on: the lengths are those of their
blocks, and each worker has a block and each column a worker. -/
structure Exact (s : ColumnSplit) (rows : ℕ) : Prop where
  width_dvd : s.width ∣ s.cols
  workers_pos : 0 < s.workers
  segmentLength_eq : s.segmentLength rows = s.width * rows
  scratchLength_eq : s.scratchLength rows = s.workers * s.segmentLength rows

theorem InRange.exact (h : s.InRange rows) (hcols : s.cols.isPowerOfTwo) : s.Exact rows := by
  have hpos := workers_pos h.threads_lt hcols
  have hle := workers_mul_width_le h.threads_lt rows
  -- a single segment is no longer than all of them
  have hsegment : s.width * rows ≤ s.workers * s.width * rows := by
    rw [Nat.mul_assoc]
    exact Nat.le_mul_of_pos_left _ hpos
  have hlength : s.segmentLength rows = s.width * rows :=
    Word.mul_eq ((hsegment.trans hle).trans_lt h.cells_lt)
  refine ⟨width_dvd h.threads_lt hcols, hpos, hlength, ?_⟩
  rw [hlength, ← Nat.mul_assoc, scratchLength_eq_mod, Nat.mod_eq_of_lt (hle.trans_lt h.cells_lt)]

/-- A single thread is always in range on a matrix whose cells are. -/
theorem inRange_one {cols : ℕ} (h : rows * cols < Word.count) :
    (⟨cols, 1⟩ : ColumnSplit).InRange rows :=
  ⟨show 2 * max 1 1 < Word.count by decide, h⟩

theorem Exact.segmentLength_pos (h : s.Exact rows) (hrows : 0 < rows) :
    0 < s.segmentLength rows := by
  rw [h.segmentLength_eq]
  exact Nat.mul_pos s.width_pos hrows

end CosineTransform.ColumnSplit
