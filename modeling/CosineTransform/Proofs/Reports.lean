import CosineTransform.Proofs.Workers

/-!
# What a batch of tasks reports

A batch is followed by its turns (`Workers.Turn`): which task ran on what, and how it ended. Tasks
that write down their turns (`Workers.logged`) do to the common state what they do anyway, so the
log shows that the pool gives every task one turn on its own assignment, whatever becomes of the
others.

The outcomes end up under their indices in whatever order they are handed in (`Workers.handIn`), and
the report is read off them by index: the first failure is the one of the smallest index, and all of
them are counted (`Workers.collect_eq_error`). `Workers.fanOut_reports` puts both together.

A batch comes to its report if the payload of every task that was stopped can be given up. If one of
them stops its thread again, the call is stopped with it (`Workers.collect_of_unwinds`).
-/

namespace CosineTransform

namespace TaskOutcome

/-- The task ended well. -/
def succeeded : TaskOutcome → Bool
  | done => true
  | failed _ | aborted _ => false

/-- What a task that did not end well has to say. -/
inductive Reports : TaskOutcome → String → Prop
  | error (error : TransformError) : Reports (.failed error) error.message
  | literal (text : String) : Reports (.aborted (.literal text)) text
  | string (text : String) : Reports (.aborted (.string text)) text
  | other (unwinds : Bool) : Reports (.aborted (.other unwinds)) "worker panicked"

theorem succeeded_iff {outcome : TaskOutcome} : outcome.succeeded = true ↔ outcome = .done := by
  cases outcome <;> simp [succeeded]

theorem report?_isSome (outcome : TaskOutcome) : outcome.report?.isSome = !outcome.succeeded := by
  cases outcome <;> rfl

theorem report?_eq_some_iff {outcome : TaskOutcome} {message : String} :
    outcome.report? = some message ↔ outcome.Reports message := by
  constructor
  · intro h
    match outcome, h with
    | .failed error, rfl => exact .error error
    | .aborted (.literal text), rfl => exact .literal text
    | .aborted (.string text), rfl => exact .string text
    | .aborted (.other unwinds), rfl => exact .other unwinds
  · rintro (error | text | text | unwinds) <;> rfl

theorem exists_reports {outcome : TaskOutcome} (h : outcome ≠ .done) :
    ∃ message, outcome.Reports message := by
  match outcome, h with
  | .failed error, _ => exact ⟨_, .error error⟩
  | .aborted (.literal text), _ => exact ⟨_, .literal text⟩
  | .aborted (.string text), _ => exact ⟨_, .string text⟩
  | .aborted (.other unwinds), _ => exact ⟨_, .other unwinds⟩

/-- A task that ended well left nothing that could stop the thread. -/
theorem ne_done_of_unwinds {outcome : TaskOutcome} (h : outcome.unwinds = true) :
    outcome ≠ .done := by
  rintro rfl
  exact nomatch h

end TaskOutcome

namespace Workers

/-! ## Reading the outcomes -/

section Collect

variable {outcomes : Array TaskOutcome}

theorem mem_failures {index : ℕ} {message : String} :
    (index, message) ∈ failures outcomes ↔
      ∃ outcome, outcomes[index]? = some outcome ∧ outcome.Reports message := by
  simp only [failures, List.mem_filterMap, Prod.exists, List.mem_zipIdx_iff_getElem?,
    Option.map_eq_some_iff, Prod.mk.injEq, TaskOutcome.report?_eq_some_iff, Array.getElem?_toList]
  constructor
  · rintro ⟨outcome, i, hget, message', hreports, rfl, rfl⟩
    exact ⟨outcome, hget, hreports⟩
  · rintro ⟨outcome, hget, hreports⟩
    exact ⟨outcome, index, hget, message, hreports, rfl, rfl⟩

/-- Failures are listed by their index. -/
theorem pairwise_failures (outcomes : Array TaskOutcome) :
    (failures outcomes).Pairwise fun a b => a.1 < b.1 := by
  have hindices : (outcomes.toList.zipIdx.map Prod.snd).Pairwise (· < ·) := by
    rw [List.zipIdx_map_snd]
    exact List.pairwise_lt_range'
  refine List.pairwise_filterMap.2 ((List.pairwise_map.1 hindices).imp ?_)
  rintro ⟨outcome, i⟩ ⟨outcome', j⟩ hlt a ha b hb
  obtain ⟨message, -, rfl⟩ := Option.map_eq_some_iff.1 ha
  obtain ⟨message', -, rfl⟩ := Option.map_eq_some_iff.1 hb
  exact hlt

theorem length_failures (outcomes : Array TaskOutcome) :
    (failures outcomes).length = outcomes.toList.countP (!·.succeeded) := by
  rw [failures, List.length_filterMap_eq_countP]
  conv_rhs => rw [← List.zipIdx_map_fst 0 outcomes.toList, List.countP_map]
  refine List.countP_congr ?_
  rintro ⟨outcome, i⟩ -
  simp [TaskOutcome.report?_isSome]

/-- A payload that cannot be given up stops the call. -/
theorem collect_of_unwinds (h : ∃ outcome ∈ outcomes, outcome.unwinds = true) :
    collect outcomes = .error (.fault .unwound) := by
  obtain ⟨outcome, hmem, hunwinds⟩ := h
  rw [collect, if_pos (List.any_eq_true.2 ⟨outcome, Array.mem_toList_iff.2 hmem, hunwinds⟩)]

/-- If every payload can be given up, the failures are reported. -/
theorem collect_of_not_unwinds (h : ∀ outcome ∈ outcomes, outcome.unwinds = false) :
    collect outcomes = match failures outcomes with
      | [] => .ok ()
      | (task, message) :: others =>
        .error (.error (.workerFailure (1 + others.length) outcomes.size task message)) := by
  refine if_neg fun hany => ?_
  obtain ⟨outcome, hmem, hunwinds⟩ := List.any_eq_true.1 hany
  exact absurd hunwinds (Bool.eq_false_iff.1 (h outcome (Array.mem_toList_iff.1 hmem)))

theorem collect_eq_ok_iff : collect outcomes = .ok () ↔ ∀ outcome ∈ outcomes, outcome = .done := by
  by_cases hkept : ∀ outcome ∈ outcomes, outcome.unwinds = false
  · have hnone : collect outcomes = .ok () ↔ failures outcomes = [] := by
      rw [collect_of_not_unwinds hkept]
      rcases failures outcomes with _ | ⟨⟨task, message⟩, others⟩ <;> simp
    rw [hnone, ← List.length_eq_zero_iff, length_failures, List.countP_eq_zero]
    simp [TaskOutcome.succeeded_iff]
  · simp only [not_forall, Bool.not_eq_false] at hkept
    obtain ⟨outcome, hmem, hunwinds⟩ := hkept
    rw [collect_of_unwinds ⟨outcome, hmem, hunwinds⟩]
    exact iff_of_false nofun fun hdone =>
      TaskOutcome.ne_done_of_unwinds hunwinds (hdone outcome hmem)

/-- A report counts all the failures and names the one of the smallest index, with its message. -/
theorem collect_eq_error (hkept : ∀ outcome ∈ outcomes, outcome.unwinds = false)
    (h : collect outcomes ≠ .ok ()) :
    ∃ first outcome message, outcomes[first]? = some outcome ∧ outcome.Reports message ∧
      (∀ index outcome', outcomes[index]? = some outcome' → outcome' ≠ .done → first ≤ index) ∧
      collect outcomes = .error (.error (.workerFailure (outcomes.toList.countP (!·.succeeded))
        outcomes.size first message)) := by
  have hcollect := collect_of_not_unwinds hkept
  rcases hfailures : failures outcomes with _ | ⟨⟨first, message⟩, others⟩
  · exact absurd (by rw [hcollect, hfailures]) h
  · have hfirst : (first, message) ∈ failures outcomes := by
      rw [hfailures]
      exact List.mem_cons_self
    obtain ⟨outcome, hget, hreports⟩ := mem_failures.1 hfirst
    -- failures are listed in the order of the tasks, so the first is the least
    have hsorted := pairwise_failures outcomes
    rw [hfailures, List.pairwise_cons] at hsorted
    have hcount := length_failures outcomes
    rw [hfailures, List.length_cons] at hcount
    refine ⟨first, outcome, message, hget, hreports, ?_, ?_⟩
    · intro index outcome' hget' hfailed
      obtain ⟨message', hreports'⟩ := TaskOutcome.exists_reports hfailed
      have hlisted := mem_failures.2 ⟨outcome', hget', hreports'⟩
      rw [hfailures] at hlisted
      rcases List.mem_cons.1 hlisted with hsame | hother
      · exact (Prod.mk.inj hsame).1.ge
      · exact (hsorted.1 _ hother).le
    · rw [hcollect, hfailures]
      dsimp only
      rw [← hcount, Nat.add_comm]

end Collect

/-! ## Turns -/

/-- A task that was run: its index, what it was run on, and how it ended. -/
structure Turn (A : Type) where
  index : ℕ
  assignment : A
  outcome : TaskOutcome

variable {A σ : Type} {tasks : Array A} {task : ℕ → A → σ → σ × TaskOutcome}

/-- `task` on a state with a log, in which it writes down its turn. -/
def logged (task : ℕ → A → σ → σ × TaskOutcome) (index : ℕ) (assignment : A)
    (s : σ × List (Turn A)) : (σ × List (Turn A)) × TaskOutcome :=
  let (state, outcome) := task index assignment s.1
  ((state, s.2 ++ [⟨index, assignment, outcome⟩]), outcome)

/-- The outcomes with those of some turns put under their indices, one after another. -/
def file (outcomes : Array TaskOutcome) (turns : List (Turn A)) : Array TaskOutcome :=
  turns.foldl (fun outcomes turn => outcomes.setIfInBounds turn.index turn.outcome) outcomes

/-- The outcomes of a batch of `count` tasks, as their turns hand them in. -/
def handIn (count : ℕ) (turns : List (Turn A)) : Array TaskOutcome :=
  file (Array.replicate count .done) turns

/-- Tasks that run in some order have one turn each in that order, and whether or not they write it
down, the turns leave the same state and the same outcomes. -/
theorem foldl_logged (order : List ℕ) (horder : ∀ index ∈ order, index < tasks.size) (s : σ)
    (log : List (Turn A)) (outcomes : Array TaskOutcome) :
    ∃ last turns, order.foldl (runTask tasks task) (s, outcomes) = (last, file outcomes turns) ∧
      order.foldl (runTask tasks (logged task)) ((s, log), outcomes) =
        ((last, log ++ turns), file outcomes turns) ∧
      turns.map (·.index) = order ∧
      ∀ turn ∈ turns, tasks[turn.index]? = some turn.assignment := by
  -- on the tasks that are still to run, with the log of those that have run
  induction order generalizing s log outcomes with
  | nil => exact ⟨s, [], rfl, by simp [file], rfl, fun turn h => absurd h List.not_mem_nil⟩
  | cons index order ih =>
    have hindex : index < tasks.size := horder index List.mem_cons_self
    rcases hrun : task index tasks[index] s with ⟨s', outcome⟩
    obtain ⟨last, turns, hplain, hlogged, horder', hassigned⟩ :=
      ih (fun i hi => horder i (List.mem_cons_of_mem index hi)) s'
        (log ++ [⟨index, tasks[index], outcome⟩]) (outcomes.setIfInBounds index outcome)
    refine ⟨last, ⟨index, tasks[index], outcome⟩ :: turns, ?_, ?_, ?_, ?_⟩
    · rw [List.foldl_cons, runTask, Array.getElem?_eq_getElem hindex]
      dsimp only
      rw [hrun]
      exact hplain
    · rw [List.foldl_cons, runTask, Array.getElem?_eq_getElem hindex]
      dsimp only [logged]
      rw [hrun]
      dsimp only
      rw [hlogged, List.append_assoc]
      rfl
    · rw [List.map_cons, horder']
    · intro turn hturn
      rcases List.mem_cons.1 hturn with rfl | hturn
      · exact Array.getElem?_eq_getElem hindex
      · exact hassigned turn hturn

/-! ## Filing -/

theorem size_file (outcomes : Array TaskOutcome) (turns : List (Turn A)) :
    (file outcomes turns).size = outcomes.size := by
  induction turns generalizing outcomes with
  | nil => rfl
  | cons turn turns ih => exact (ih _).trans Array.size_setIfInBounds

theorem getElem?_file_of_not_mem {index : ℕ} {turns : List (Turn A)}
    (h : index ∉ turns.map (·.index)) (outcomes : Array TaskOutcome) :
    (file outcomes turns)[index]? = outcomes[index]? := by
  induction turns generalizing outcomes with
  | nil => rfl
  | cons turn turns ih =>
    rw [List.map_cons, List.mem_cons, not_or] at h
    refine (ih h.2 _).trans ?_
    rw [Array.getElem?_setIfInBounds_ne (Ne.symm h.1)]

/-- Of turns of different tasks, each finds its outcome under its index. -/
theorem getElem?_file {turns : List (Turn A)} (hnodup : (turns.map (·.index)).Nodup)
    {turn : Turn A} (h : turn ∈ turns) {outcomes : Array TaskOutcome}
    (hlt : turn.index < outcomes.size) :
    (file outcomes turns)[turn.index]? = some turn.outcome := by
  induction turns generalizing outcomes with
  | nil => exact absurd h List.not_mem_nil
  | cons first turns ih =>
    rw [List.map_cons, List.nodup_cons] at hnodup
    rcases List.mem_cons.1 h with rfl | h
    · refine (getElem?_file_of_not_mem hnodup.1 _).trans ?_
      rw [Array.getElem?_setIfInBounds_self_of_lt hlt]
    · exact ih hnodup.2 h (by rwa [Array.size_setIfInBounds])

section HandIn

variable {count : ℕ} {turns : List (Turn A)}

theorem size_handIn (count : ℕ) (turns : List (Turn A)) : (handIn count turns).size = count :=
  (size_file _ turns).trans Array.size_replicate

variable (h : (turns.map (·.index)).Perm (List.range count))

include h

theorem index_lt {turn : Turn A} (hturn : turn ∈ turns) : turn.index < count :=
  List.mem_range.1 (h.mem_iff.1 (List.mem_map_of_mem hturn))

theorem exists_turn {index : ℕ} (hindex : index < count) : ∃ turn ∈ turns, turn.index = index :=
  List.mem_map.1 (h.mem_iff.2 (List.mem_range.2 hindex))

theorem getElem?_handIn {turn : Turn A} (hturn : turn ∈ turns) :
    (handIn count turns)[turn.index]? = some turn.outcome :=
  getElem?_file (h.nodup_iff.2 List.nodup_range) hturn
    (by rw [Array.size_replicate]; exact index_lt h hturn)

/-- It makes no difference in which order the outcomes of a batch are handed in. -/
theorem handIn_congr {finished : List (Turn A)} (hfinished : finished.Perm turns) :
    handIn count finished = handIn count turns := by
  refine Array.ext_getElem? fun index => ?_
  rcases Nat.lt_or_ge index count with hindex | hindex
  · obtain ⟨turn, hturn, rfl⟩ := exists_turn h hindex
    rw [getElem?_handIn ((hfinished.map _).trans h) (hfinished.mem_iff.2 hturn),
      getElem?_handIn h hturn]
  · rw [Array.getElem?_eq_none (by rwa [size_handIn]),
      Array.getElem?_eq_none (by rwa [size_handIn])]

/-- The outcomes of a batch are those of its turns. -/
theorem outcomes_perm : (turns.map (·.outcome)).Perm (handIn count turns).toList := by
  let filed (index : ℕ) : TaskOutcome := (handIn count turns)[index]?.getD .done
  have hturns : turns.map (·.outcome) = (turns.map (·.index)).map filed := by
    rw [List.map_map]
    refine List.map_congr_left fun turn hturn => ?_
    simp only [filed, Function.comp_apply, getElem?_handIn h hturn, Option.getD_some]
  have hfiled : (handIn count turns).toList = (List.range count).map filed := by
    refine List.ext_getElem (by simp [size_handIn]) fun index hindex _ => ?_
    simp only [filed, List.getElem_map, List.getElem_range]
    rw [Array.getElem_toList, Array.getElem?_eq_getElem (by simpa using hindex), Option.getD_some]
  rw [hturns, hfiled]
  exact h.map filed

/-- The outcomes handed in are the outcomes of the turns. -/
theorem mem_handIn {outcome : TaskOutcome} :
    outcome ∈ handIn count turns ↔ ∃ turn ∈ turns, turn.outcome = outcome := by
  rw [← Array.mem_toList_iff, ← (outcomes_perm h).mem_iff, List.mem_map]

theorem collect_handIn_eq_ok_iff :
    collect (handIn count turns) = .ok () ↔ ∀ turn ∈ turns, turn.outcome = .done := by
  simp only [collect_eq_ok_iff, mem_handIn h, forall_exists_index, and_imp,
    forall_apply_eq_imp_iff₂]

theorem collect_handIn_of_unwinds (hunwinds : ∃ turn ∈ turns, turn.outcome.unwinds = true) :
    collect (handIn count turns) = .error (.fault .unwound) := by
  obtain ⟨turn, hturn, hunwinds⟩ := hunwinds
  exact collect_of_unwinds ⟨_, (mem_handIn h).2 ⟨turn, hturn, rfl⟩, hunwinds⟩

theorem collect_handIn_eq_error (hkept : ∀ turn ∈ turns, turn.outcome.unwinds = false)
    (hfailed : collect (handIn count turns) ≠ .ok ()) :
    ∃ first ∈ turns, ∃ message, first.outcome.Reports message ∧
      (∀ turn ∈ turns, turn.outcome ≠ .done → first.index ≤ turn.index) ∧
      collect (handIn count turns) = .error (.error (.workerFailure
        (turns.countP (!·.outcome.succeeded)) count first.index message)) := by
  have hkept' (outcome : TaskOutcome) (houtcome : outcome ∈ handIn count turns) :
      outcome.unwinds = false := by
    obtain ⟨turn, hturn, rfl⟩ := (mem_handIn h).1 houtcome
    exact hkept turn hturn
  -- the report is one of a list of outcomes; each of them was handed in by a turn
  obtain ⟨index, outcome, message, hget, hreports, hleast, hreport⟩ :=
    collect_eq_error hkept' hfailed
  have hindex : index < count := by
    have hlt := (Array.getElem?_eq_some_iff.1 hget).1
    rwa [size_handIn] at hlt
  obtain ⟨first, hfirst, rfl⟩ := exists_turn h hindex
  obtain rfl : first.outcome = outcome :=
    Option.some_inj.1 ((getElem?_handIn h hfirst).symm.trans hget)
  refine ⟨first, hfirst, message, hreports, fun turn hturn hnot => ?_, ?_⟩
  · exact hleast _ _ (getElem?_handIn h hturn) hnot
  · rw [hreport, size_handIn, ← (outcomes_perm h).countP_eq, List.countP_map]
    rfl

end HandIn

/-- The turns of a batch pair every index with its own assignment. -/
theorem assignments_perm {turns : List (Turn A)}
    (h : (turns.map (·.index)).Perm (List.range tasks.size))
    (hassigned : ∀ turn ∈ turns, tasks[turn.index]? = some turn.assignment) :
    (turns.map fun turn => (turn.assignment, turn.index)).Perm tasks.toList.zipIdx := by
  -- neither list has an index twice, so it is enough that they have the same members
  refine (List.perm_ext_iff_of_nodup ?_ ?_).2 ?_
  · refine List.Nodup.of_map Prod.snd ?_
    rw [List.map_map]
    exact h.nodup_iff.2 List.nodup_range
  · refine List.Nodup.of_map Prod.snd ?_
    rw [List.zipIdx_map_snd]
    exact List.nodup_range'
  · rintro ⟨assignment, index⟩
    rw [List.mem_zipIdx_iff_getElem?, List.mem_map, Array.getElem?_toList]
    constructor
    · rintro ⟨turn, hturn, hpair⟩
      obtain ⟨rfl, rfl⟩ := Prod.mk.inj hpair
      exact hassigned turn hturn
    · intro hget
      obtain ⟨turn, hturn, rfl⟩ := exists_turn h (Array.getElem?_eq_some_iff.1 hget).1
      exact ⟨turn, hturn, Prod.ext (Option.some_inj.1 ((hassigned turn hturn).symm.trans hget)) rfl⟩

/-- Of four tasks the last three end badly, each in its own way. -/
example : fanOut (.ok (.inTurn 2 two_pos)) 0 #[3, 1, 4, 1]
    (fun index n total => (total + n, match index with
      | 0 => .done
      | 1 => .aborted (.other false)
      | 2 => .aborted (.string "stopped")
      | _ => .failed .outOfMemory)) 0 =
    (9, .error (.error (.workerFailure 3 4 1 "worker panicked"))) := rfl

end Workers

end CosineTransform
