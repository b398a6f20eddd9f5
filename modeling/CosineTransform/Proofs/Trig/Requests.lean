import CosineTransform.Proofs.Trig.Growth

/-!
# Requests for tables

Tables are asked for lines of any lengths, one after another, with whatever memory there is at the
time (`Tables.history`). A request is granted, or refused for lack of memory and then has changed
nothing (`Tables.ensure_eq_error`), and what is left of all of them is the longest length that was
granted: the tables are those of a single request for it (`Tables.history_eq_single`).
-/

namespace CosineTransform.Tables

variable {R T : Type} [Precise R] [Sample R T]

/-- A request for tables that serve lines of `length` samples, and the memory that it finds. -/
structure Request where
  memory : Memory
  length : ℕ

/-- The tables after some requests, and the lengths that were granted, the latest first. A request
that fails leaves what it left of the tables. -/
def history : List Request → Tables T × List ℕ
  | [] => (.empty, [])
  | request :: earlier =>
    match (history earlier).1.ensure request.memory request.length with
    | .error _ left => (left, (history earlier).2)
    | .ok () next => (next, request.length :: (history earlier).2)

section Steps

variable {t next left : Tables T} {memory : Memory} {n : ℕ}

theorem history_of_granted {earlier : List Request}
    (h : (history earlier).1.ensure memory n = .ok () next) :
    history (⟨memory, n⟩ :: earlier) = (next, n :: (history (T := T) earlier).2) := by
  rw [history, h]

theorem history_of_refused {earlier : List Request} {failure : Failure}
    (h : (history (T := T) earlier).1.ensure memory n = .error failure left) :
    history (T := T) (⟨memory, n⟩ :: earlier) = (left, (history (T := T) earlier).2) := by
  rw [history, h]

end Steps

/-- Tables have grown by the lengths that were granted. -/
theorem grown_history (requests : List Request) :
    (history (T := T) requests).1.Grown (history (T := T) requests).2 := by
  induction requests with
  | nil => exact .empty
  | cons request earlier ih =>
    rcases hensure : (history (T := T) earlier).1.ensure request.memory request.length
      with ⟨⟨⟩, next⟩ | ⟨failure, left⟩
    · rw [history_of_granted hensure]
      exact ih.granted hensure
    · rw [history_of_refused hensure]
      exact ih.refused hensure

/-- Neither the order of some lengths nor their repetition matters to the longest. -/
theorem longest_congr {lengths others : List ℕ} (h : ∀ n, n ∈ others ↔ n ∈ lengths) :
    longest others = longest lengths :=
  le_antisymm (longest_le fun n hn => le_longest ((h n).1 hn))
    (longest_le fun n hn => le_longest ((h n).2 hn))

/-- After any requests the tables are those of a single one, for the longest length that was
granted. Their lengths and the lines that they serve follow from that length, neither the order nor
the repetition of the requests matters, and a refused request changes nothing. -/
theorem history_eq_single (requests : List Request) :
    let t : Tables T := (history requests).1
    let lengths := (history (T := T) requests).2
    let n := longest lengths
    (∀ memory : Memory, (∀ bytes, memory.grants bytes = true) →
      (empty : Tables T).ensure memory n = .ok () t) ∧
    (n = 0 → t = empty) ∧
    (t.quarterLength = n / 4 ∧ t.cosineLength = n ∧ t.weights.size = n / 4 + n ∧
      t.rotation[0]? = some (n / 4) ∧ t.rotation[1]? = some n) ∧
    (∀ k, t.Supports k ↔ k ≤ 1 ∨ k ≤ n) ∧
    (∀ others : List Request, (∀ k, k ∈ (history (T := T) others).2 ↔ k ∈ lengths) →
      (history others).1 = t) ∧
    ∀ (memory : Memory) (k : ℕ) (failure : Failure) (left : Tables T),
      t.ensure memory k = .error failure left →
      failure = .error .outOfMemory ∧ left = t ∧
        history (⟨memory, k⟩ :: requests) = (t, lengths) := by
  -- all of it follows from the tables being those of the longest granted length
  intro t lengths n
  have hbuild : build (n / 4) n = .ok t := (grown_history requests).build_eq
  have hbuilt := built_of_build hbuild
  refine ⟨fun memory hmemory => ensure_empty_of_build hmemory hbuild, fun hzero => ?_,
    ⟨hbuilt.quarterLength_eq, hbuilt.cosineLength_eq, ?_, rotation_of_build hbuild⟩, fun k => ?_,
    fun others hothers => ?_, fun memory k failure left h => ?_⟩
  · rw [hzero] at hbuild
    exact (Except.ok.inj hbuild).symm
  · rw [weights, Array.size_append]
    exact congrArg₂ _ hbuilt.quarterLength_eq hbuilt.cosineLength_eq
  · rw [Supports, hbuilt.quarterLength_eq, hbuilt.cosineLength_eq]
    omega
  · have hother := (grown_history (T := T) others).build_eq
    rw [longest_congr hothers] at hother
    exact Except.ok.inj (hother.symm.trans hbuild)
  · obtain ⟨hfailure, rfl⟩ := ensure_eq_error h
    exact ⟨hfailure, rfl, history_of_refused h⟩

end CosineTransform.Tables
