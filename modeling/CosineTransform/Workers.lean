import CosineTransform.Error

/-!
# Workers

`fanOut` runs a batch of tasks on a pool of threads and waits for all of them. Tasks act on a common
state. The pool decides in which order they do so; nothing is known of that order but that every
task has its turn once. Whatever becomes of a task, the others still run, and at the end the
failures are reported together under the index of the first failed task.

## Payloads

A task that is stopped half-way leaves a payload behind, of which `Payload.message` is read back.
After that the payload is given up. This can stop the thread again, and then the batch does not come
to its report: the call ends in a fault, and nothing is said of its common state.
-/

namespace CosineTransform

/-- What a task was stopped with. -/
inductive Payload where
  /-- A text that is part of the program. -/
  | literal (text : String)
  /-- A text that was put together when the task was stopped. -/
  | string (text : String)
  /-- Something that is no text, and whether giving it up stops the thread again. -/
  | other (unwinds : Bool)

namespace Payload

/-- The text, if the payload is part of the program. -/
def literal? : Payload → Option String
  | literal text => some text
  | string _ | other _ => none

/-- The text, if the payload was put together. -/
def string? : Payload → Option String
  | string text => some text
  | literal _ | other _ => none

/-- What is reported of a payload. -/
def message (payload : Payload) : String :=
  match payload.literal? with
  | some text => text
  | none =>
    match payload.string? with
    | some text => text
    | none => "worker panicked"

/-- Whether giving the payload up stops the thread again. -/
def unwinds : Payload → Bool
  | literal _ | string _ => false
  | other unwinds => unwinds

end Payload

/-- How a task ended. -/
inductive TaskOutcome where
  | done
  /-- The task returned an error. -/
  | failed (error : TransformError)
  /-- The task was stopped half-way. -/
  | aborted (payload : Payload)

/-- What a task that did not end well has to report. -/
def TaskOutcome.report? : TaskOutcome → Option String
  | done => none
  | failed error => some error.message
  | aborted payload => some payload.message

/-- Whether what is left of the task stops the thread again. -/
def TaskOutcome.unwinds : TaskOutcome → Bool
  | done | failed _ => false
  | aborted payload => payload.unwinds

/-- A pool of threads. -/
structure Pool where
  threads : Nat
  threads_pos : 0 < threads
  /-- In which order the tasks of a batch of `count` tasks run. -/
  order : (batch count : Nat) → List Nat
  order_perm : ∀ batch count, (order batch count).Perm (List.range count)

/-- A pool that runs the tasks of every batch one after another by their index. -/
def Pool.inTurn (threads : Nat) (h : 0 < threads) : Pool where
  threads := threads
  threads_pos := h
  order _ count := List.range count
  order_perm _ _ := .refl _

namespace Workers

variable {A σ : Type}

/-- How many threads the pool has, if there is one. -/
def threads (pool : Except String Pool) : Except TransformError Nat :=
  match pool with
  | .error reason => .error (.threadPool reason)
  | .ok pool => .ok pool.threads

/-- Runs task `index` if there is one, and keeps its outcome under its index. -/
def runTask (tasks : Array A) (task : Nat → A → σ → σ × TaskOutcome)
    (progress : σ × Array TaskOutcome) (index : Nat) : σ × Array TaskOutcome :=
  match tasks[index]? with
  | none => progress
  | some assignment =>
    let (state, outcomes) := progress
    let (state, outcome) := task index assignment state
    (state, outcomes.setIfInBounds index outcome)

/-- The indices of the tasks that did not end well, each with its report. -/
def failures (outcomes : Array TaskOutcome) : List (Nat × String) :=
  outcomes.toList.zipIdx.filterMap fun (outcome, index) => outcome.report?.map (index, ·)

/-- The result of a batch with the given outcomes. -/
def collect (outcomes : Array TaskOutcome) : Except Failure Unit :=
  if outcomes.toList.any (·.unwinds) then .error (.fault .unwound)
  else
    match failures outcomes with
    | [] => .ok ()
    | (task, message) :: others =>
      .error (.error (.workerFailure (1 + others.length) outcomes.size task message))

/-- Runs `task` on every assignment, in the order of the pool. -/
def fanOut (pool : Except String Pool) (batch : Nat) (tasks : Array A)
    (task : Nat → A → σ → σ × TaskOutcome) (state : σ) : σ × Except Failure Unit :=
  match pool with
  | .error reason => (state, .error (.error (.threadPool reason)))
  | .ok pool =>
    let start := (state, Array.replicate tasks.size TaskOutcome.done)
    let (state, outcomes) := (pool.order batch tasks.size).foldl (runTask tasks task) start
    (state, collect outcomes)

end Workers

end CosineTransform
