import CosineTransform.Strided
import CosineTransform.Workers
import Mathlib.Algebra.Order.Group.Nat
import Mathlib.Data.List.Nodup

/-!
# Batches of tasks

Work that is dealt out in turns reaches every item once (`Strided.mem_flatMap_list`,
`Strided.not_mem_flatMap_list`). A batch of tasks that all end well ends well, and what each task
preserves holds at its end, in whatever order the pool ran them (`Workers.fanOut_eq_ok`). However
its tasks end, a batch preserves what each of them does (`Workers.fanOut_preserves`), and fails in
one of three ways (`Workers.fanOut_failure`).
-/

namespace CosineTransform

/-! ## Dealing out -/

namespace Strided

variable {first bound step x : ℕ}

theorem nodup_list (h : 0 < step) : (list first bound step).Nodup := by
  refine List.nodup_range.map ?_
  intro i j hij
  exact Nat.eq_of_mul_eq_mul_right h (Nat.add_left_cancel hij)

theorem mod_of_mem_list (h : first < step) (hx : x ∈ list first bound step) : x % step = first := by
  obtain ⟨⟨i, rfl⟩, -⟩ := (mem_list (by omega) x).1 hx
  rw [Nat.add_mul_mod_self_right, Nat.mod_eq_of_lt h]

/-- The items of all the workers together are the items, whatever the order of the workers. -/
theorem mem_flatMap_list {order : List ℕ} (h : 0 < step) (horder : order.Perm (List.range step)) :
    x ∈ order.flatMap (list · bound step) ↔ x < bound := by
  rw [List.mem_flatMap]
  constructor
  · rintro ⟨worker, -, hx⟩
    exact ((mem_list h x).1 hx).2
  · intro hx
    refine ⟨x % step, horder.mem_iff.2 (List.mem_range.2 (Nat.mod_lt x h)), ?_⟩
    refine (mem_list h x).2 ⟨⟨x / step, ?_⟩, hx⟩
    rw [Nat.mul_comm, Nat.mod_add_div]

/-- No item belongs to two workers. -/
theorem not_mem_flatMap_list {done : List ℕ} (hfirst : first < step)
    (hdone : ∀ worker ∈ done, worker < step) (hnew : first ∉ done)
    (hx : x ∈ list first bound step) : x ∉ done.flatMap (list · bound step) := by
  intro hmem
  obtain ⟨worker, hworker, hx'⟩ := List.mem_flatMap.1 hmem
  have hsame : worker = first :=
    (mod_of_mem_list (hdone worker hworker) hx').symm.trans (mod_of_mem_list hfirst hx)
  exact hnew (hsame ▸ hworker)

/-- Every item is dealt out exactly once. -/
theorem flatMap_list_perm (h : 0 < step) :
    ((List.range step).flatMap (list · bound step)).Perm (List.range bound) := by
  refine (List.perm_ext_iff_of_nodup ?_ List.nodup_range).2 fun x => ?_
  · refine List.nodup_flatMap.2 ⟨fun worker _ => nodup_list h, ?_⟩
    refine List.nodup_range.imp_of_mem ?_
    intro first other hfirst hother hne x hx hx'
    rw [← mod_of_mem_list (List.mem_range.1 hfirst) hx] at hne
    exact hne (mod_of_mem_list (List.mem_range.1 hother) hx')
  · rw [mem_flatMap_list h (.refl _), List.mem_range]

/-- No worker is dealt more than one item beyond what any other one gets. -/
theorem count_le_succ {other : ℕ} (h : other < step) :
    count first bound step ≤ count other bound step + 1 := by
  by_contra hmore
  -- the item after the last one of `other` would come before another one of `first`
  have hlast := (lt_count_iff (by omega) (count other bound step + 1)).1 (not_le.1 hmore)
  rw [Nat.succ_mul] at hlast
  exact lt_irrefl _ ((lt_count_iff (by omega) (count other bound step)).2 (by omega))

end Strided

/-! ## Running a batch -/

namespace Workers

variable {A σ : Type} {tasks : Array A} {task : ℕ → A → σ → σ × TaskOutcome}

theorem collect_done (count : ℕ) : collect (Array.replicate count .done) = .ok () := by
  have hfailures : failures (Array.replicate count .done) = [] := by
    rw [failures, List.filterMap_eq_nil_iff]
    rintro ⟨outcome, index⟩ hmem
    rw [Array.toList_replicate] at hmem
    obtain rfl := List.eq_of_mem_replicate (List.fst_mem_of_mem_zipIdx hmem)
    rfl
  have hunwinds : ¬(Array.replicate count TaskOutcome.done).toList.any (·.unwinds) = true := by
    rw [List.any_eq_true, Array.toList_replicate]
    rintro ⟨outcome, hmem, hunwinds⟩
    obtain rfl := List.eq_of_mem_replicate hmem
    exact nomatch hunwinds
  rw [collect, if_neg hunwinds, hfailures]

/-- A task that ends well leaves no trace among the outcomes. -/
theorem runTask_done {index : ℕ} (hi : index < tasks.size) {s s' : σ}
    (h : task index tasks[index] s = (s', .done)) :
    runTask tasks task (s, Array.replicate tasks.size .done) index =
      (s', Array.replicate tasks.size .done) := by
  rw [runTask, Array.getElem?_eq_getElem hi]
  dsimp only
  rw [h]
  dsimp only
  refine congrArg (Prod.mk s') (Array.ext (by simp) ?_)
  intro i hi _
  rw [Array.getElem_setIfInBounds (by simpa using hi)]
  simp

variable {motive : List ℕ → σ → Prop}

/-- What every task preserves holds after some of them, once it held before. -/
theorem foldl_runTask
    (hstep : ∀ done index s, (hi : index < tasks.size) → index ∉ done →
      (∀ k ∈ done, k < tasks.size) → motive done s →
      ∃ s', task index tasks[index] s = (s', .done) ∧ motive (done ++ [index]) s')
    (order done : List ℕ) (hnodup : (done ++ order).Nodup)
    (hlt : ∀ k ∈ done ++ order, k < tasks.size) {s : σ} (h : motive done s) :
    ∃ s', order.foldl (runTask tasks task) (s, Array.replicate tasks.size .done) =
      (s', Array.replicate tasks.size .done) ∧ motive (done ++ order) s' := by
  induction order generalizing done s with
  | nil => exact ⟨s, rfl, by rwa [List.append_nil]⟩
  | cons index order ih =>
    -- the order has every task once, so this one is not among those that are done
    have hnew : index ∉ done := fun hmem =>
      List.disjoint_of_nodup_append hnodup hmem List.mem_cons_self
    obtain ⟨s', htask, hmotive⟩ := hstep done index s (hlt index (by simp)) hnew
      (fun k hk => hlt k (List.mem_append_left _ hk)) h
    rw [List.foldl_cons, runTask_done (hlt index (by simp)) htask]
    rw [List.append_cons] at hnodup hlt ⊢
    exact ih (done ++ [index]) hnodup hlt hmotive

/-- A batch of tasks that all end well ends well, and what each of them preserves holds at its
end. -/
theorem fanOut_eq_ok (tasks : Array A) (task : ℕ → A → σ → σ × TaskOutcome)
    {motive : List ℕ → σ → Prop} (pool : Pool) (batch : ℕ) {s : σ} (h : motive [] s)
    (hstep : ∀ done index s, (hi : index < tasks.size) → index ∉ done →
      (∀ k ∈ done, k < tasks.size) → motive done s →
      ∃ s', task index tasks[index] s = (s', .done) ∧ motive (done ++ [index]) s') :
    ∃ s' order, order.Perm (List.range tasks.size) ∧
      fanOut (.ok pool) batch tasks task s = (s', .ok ()) ∧ motive order s' := by
  have hperm := pool.order_perm batch tasks.size
  obtain ⟨s', hrun, hmotive⟩ := foldl_runTask hstep (pool.order batch tasks.size) []
    (hperm.nodup_iff.2 List.nodup_range) (fun k hk => List.mem_range.1 (hperm.mem_iff.1 hk)) h
  refine ⟨s', _, hperm, ?_, hmotive⟩
  rw [fanOut]
  dsimp only
  rw [hrun]
  dsimp only
  rw [collect_done]

/-! ## Batches that can fail -/

/-- How running tasks can fail: it is stopped, the pool is missing, or failed tasks are reported. -/
inductive RunFailure : Failure → Prop
  | fault (fault : Fault) : RunFailure (.fault fault)
  | threadPool (reason : String) : RunFailure (.error (.threadPool reason))
  | workerFailure (failed total task : ℕ) (message : String) :
    RunFailure (.error (.workerFailure failed total task message))

/-- What every task preserves, a batch preserves, however its tasks end. -/
theorem fanOut_preserves (tasks : Array A) (task : ℕ → A → σ → σ × TaskOutcome)
    {motive : σ → Prop} (pool : Except String Pool) (batch : ℕ) {s : σ} (h : motive s)
    (hstep : ∀ index assignment s, motive s → motive (task index assignment s).1) :
    motive (fanOut pool batch tasks task s).1 := by
  cases pool with
  | error reason => exact h
  | ok pool =>
    -- the outcomes that are filed have no part in the state
    refine List.foldlRecOn (motive := fun (progress : σ × Array TaskOutcome) => motive progress.1)
      (pool.order batch tasks.size) (runTask tasks task)
      (b := (s, Array.replicate tasks.size .done)) h ?_
    intro progress hprogress index _
    rw [runTask]
    split
    · exact hprogress
    · exact hstep _ _ _ hprogress

/-- A batch that fails has no pool, or reports failed tasks, or was itself stopped. -/
theorem fanOut_failure {pool : Except String Pool} {batch : ℕ} {s : σ} {failure : Failure}
    (h : (fanOut pool batch tasks task s).2 = .error failure) : RunFailure failure := by
  cases pool with
  | error reason =>
    obtain rfl := Except.error.inj h
    exact .threadPool reason
  | ok pool =>
    change collect _ = _ at h
    rw [collect] at h
    split at h
    · obtain rfl := Except.error.inj h
      exact .fault _
    · split at h
      · exact nomatch h
      · obtain rfl := Except.error.inj h
        exact .workerFailure _ _ _ _

end Workers

end CosineTransform
