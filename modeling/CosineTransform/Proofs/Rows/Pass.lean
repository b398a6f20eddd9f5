import CosineTransform.Proofs.Grid
import CosineTransform.Proofs.Workers
import CosineTransform.Rows.Pass

/-!
# The row pass transforms every row

A row is transformed in one step, so what carries over between steps is the set of the rows that are
done (`RowPass.after`). Once every row had its turn, in whatever order, every row is transformed
(`RowPass.onPool_eq`, `RowPass.inOrder_eq`). A pass over other rows can fail, in the ways in which
any run of tasks does (`RowPass.inOrder_failure`, `RowPass.onPool_failure`).
-/

namespace CosineTransform.RowPass

variable {T : Type} {p : RowPass T} {rows cols : ℕ} {image : (ℕ → T) → ℕ → T}

/-- The matrix when some rows are done. -/
def after (image : (ℕ → T) → ℕ → T) (x : ℕ → ℕ → T) (done : List ℕ) (r : ℕ) : ℕ → T :=
  if r ∈ done then image (x r) else x r

theorem after_nil (x : ℕ → ℕ → T) : after image x [] = x := by
  funext r
  exact if_neg List.not_mem_nil

/-- Another row is done when it is transformed. -/
theorem after_append_singleton (x : ℕ → ℕ → T) {done : List ℕ} {r : ℕ} (hr : r ∉ done) :
    (fun i => if i = r then image (after image x done r) else after image x done i) =
      after image x (done ++ [r]) := by
  funext i
  by_cases hi : i = r
  · rw [if_pos hi, hi, after, after, if_neg hr, if_pos (List.mem_append_right _ (by simp))]
  · rw [if_neg hi, after, after]
    simp only [List.mem_append, List.mem_singleton, hi, or_false]

/-- When every row is done, every row is transformed. -/
theorem after_all (x : ℕ → ℕ → T) {done : List ℕ} (hdone : ∀ r < rows, r ∈ done) :
    Grid.ofFn rows cols (after image x done) = Grid.ofFn rows cols fun r => image (x r) :=
  Grid.ofFn_congr fun r hr c _ => by rw [after, if_pos (hdone r hr)]

theorem getElem_assignments (workers rows worker : ℕ)
    (h : worker < (assignments workers rows).size) :
    (assignments workers rows)[worker] = Strided.list worker rows workers := Array.getElem_ofFn h

section Run

variable (hline : Computes p.line cols image)

include hline

theorem advance_eq (x : ℕ → ℕ → T) {r : ℕ} (hr : r < rows) :
    p.advance r (Grid.ofFn rows cols x) =
      .ok () (Grid.ofFn rows cols fun i => if i = r then image (x r) else x i) := by
  rw [advance, Grid.read_ofFn x hr, ok_bind, hline]
  dsimp only
  rw [Grid.setIfInBounds_ofFn]

/-- Rows that were not done before are done one after another. -/
theorem run_eq (x : ℕ → ℕ → T) (list : List ℕ) (hlist : ∀ r ∈ list, r < rows) (done : List ℕ)
    (hnodup : list.Nodup) (hnew : ∀ r ∈ list, r ∉ done) :
    p.run list (Grid.ofFn rows cols (after image x done)) =
      .ok () (Grid.ofFn rows cols (after image x (done ++ list))) := by
  induction list generalizing done with
  | nil =>
    rw [List.append_nil]
    rfl
  | cons r list ih =>
    have hdone : r ∉ done := hnew r List.mem_cons_self
    obtain ⟨hr, hnodup⟩ := List.nodup_cons.1 hnodup
    have hrest := ih (fun i hi => hlist i (List.mem_cons_of_mem _ hi)) (done ++ [r]) hnodup
      fun i hi hmem => by
        rcases List.mem_append.1 hmem with hmem | hmem
        · exact hnew i (List.mem_cons_of_mem _ hi) hmem
        · exact hr (List.mem_singleton.1 hmem ▸ hi)
    change (p.advance r >>= fun _ => p.run list) _ = _
    rw [bind_of_ok (advance_eq hline _ (hlist r List.mem_cons_self)),
      after_append_singleton x hdone, hrest, ← List.append_cons]

/-- The pass of one worker transforms every row. -/
theorem inOrder_eq (x : ℕ → ℕ → T) :
    p.inOrder (Grid.ofFn rows cols x) = (Grid.ofFn rows cols fun r => image (x r), .ok ()) := by
  have hrun := run_eq hline x (List.range rows) (fun r hr => List.mem_range.1 hr) []
    List.nodup_range fun r _ => List.not_mem_nil
  rw [after_nil, List.nil_append, after_all x fun r hr => List.mem_range.2 hr] at hrun
  rw [inOrder, Grid.size_ofFn, hrun]

/-- The pass of the workers of a pool transforms every row, in whatever order the workers run. -/
theorem onPool_eq (pool : Pool) (batch : ℕ) {threads : ℕ} (hthreads : 0 < threads)
    (hrows : 0 < rows) (x : ℕ → ℕ → T) :
    p.onPool (.ok pool) batch threads (Grid.ofFn rows cols x) =
      (Grid.ofFn rows cols fun r => image (x r), .ok ()) := by
  have hworkers : 0 < min threads rows := by omega
  have hsize : (assignments (min threads rows) rows).size = min threads rows := Array.size_ofFn
  -- the rows of the workers that had their turn are done
  obtain ⟨final, order, horder, hrun, rfl⟩ := Workers.fanOut_eq_ok
    (assignments (min threads rows) rows) (fun _ list => p.task list)
    (motive := fun done grid => grid = Grid.ofFn rows cols (after image x
      (done.flatMap (Strided.list · rows (min threads rows)))))
    pool batch (s := Grid.ofFn rows cols x) (by rw [List.flatMap_nil, after_nil])
    fun done worker grid hworker hnew hdone hgrid => by
      rw [hsize] at hworker hdone
      have hlist := run_eq hline x (Strided.list worker rows (min threads rows))
        (fun r hr => ((Strided.mem_list hworkers r).1 hr).2)
        (done.flatMap (Strided.list · rows (min threads rows))) (Strided.nodup_list hworkers)
        fun r hr => Strided.not_mem_flatMap_list hworker hdone hnew hr
      refine ⟨_, ?_, rfl⟩
      rw [getElem_assignments, task, hgrid, hlist, List.flatMap_append,
        List.flatMap_singleton]
  rw [hsize] at horder
  rw [after_all x fun r hr => (Strided.mem_flatMap_list hworkers horder).2 hr] at hrun
  rw [onPool, Grid.size_ofFn, hrun]

end Run

/-! ## Failures -/

theorem inOrder_failure {cells : Grid T} {failure : Failure}
    (h : (p.inOrder cells).2 = .error failure) : Workers.RunFailure failure := by
  rw [inOrder] at h
  split at h
  · exact nomatch h
  · obtain rfl := Except.error.inj h
    exact .fault _

theorem onPool_failure {pool : Except String Pool} {batch threads : ℕ} {cells : Grid T}
    {failure : Failure} (h : (p.onPool pool batch threads cells).2 = .error failure) :
    Workers.RunFailure failure := Workers.fanOut_failure h

end CosineTransform.RowPass
