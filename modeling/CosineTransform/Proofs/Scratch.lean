import CosineTransform.Proofs.Buffer
import CosineTransform.Scratch
import Mathlib.Algebra.Order.Group.Nat

/-!
# Scratch space between calls

A granted request leaves the buffer as it is, or puts a blank one of the required length in its
place (`Scratch.ensure_eq_ok`); a refused one says that memory is missing, and then it is, and
nothing was replaced (`Scratch.ensure_eq_error`).

Scratch space has no other owner than its requests and `Scratch.clear`. So what was done with it
accounts for all of it, the capacity, the count of reallocations and every element
(`Scratch.Accounted`), after any actions (`Scratch.accounted_history`).
-/

namespace CosineTransform.Scratch

variable {R T : Type} [Sample R T]

/-! ## A request -/

section Request

variable {s scratch : Scratch T} {memory : Memory} {rows cols threads : ℕ}

/-- What a request does: a buffer that is long enough is reused. A shorter one stays where memory is
refused, and else gives way to a blank one. -/
theorem ensure_cases (s : Scratch T) (memory : Memory) (rows cols threads : ℕ) :
    let required := requiredLength rows cols threads
    let room := memory.reserve required (Sample.bytes (T := T))
    required ≤ s.capacity ∧ s.ensure memory rows cols threads = .ok () s ∨
    s.capacity < required ∧
      (room = .error .outOfMemory ∧
          s.ensure memory rows cols threads = .error .outOfMemory s ∨
        room = .ok () ∧ s.ensure memory rows cols threads =
          .ok () ⟨Array.replicate required 0, s.reallocations + 1⟩) := by
  intro required room
  unfold ensure
  change _ ∧ (ite _ _ _ : EStateM TransformError (Scratch T) Unit) s = _ ∨
    _ ∧ (_ ∧ (ite _ _ _ : EStateM TransformError (Scratch T) Unit) s = _ ∨
      _ ∧ (ite _ _ _ : EStateM TransformError (Scratch T) Unit) s = _)
  rcases Nat.lt_or_ge s.capacity required with hshort | hlong
  · rw [if_pos hshort]
    refine .inr ⟨hshort, ?_⟩
    -- both fields are set after the reservation, so a refusal finds them as they were
    rcases hroom : memory.reserve required (Sample.bytes (T := T)) with refusal | ⟨⟩
    · obtain rfl := (Memory.reserve_eq_error_iff.1 hroom).2
      exact .inl ⟨hroom, rfl⟩
    · exact .inr ⟨hroom, rfl⟩
  · rw [if_neg (not_lt.2 hlong)]
    exact .inl ⟨hlong, rfl⟩

/-- A buffer that is long enough is reused, and a shorter one gives way to a blank one. -/
theorem ensure_eq_ok (h : s.ensure memory rows cols threads = .ok () scratch) :
    requiredLength rows cols threads ≤ s.capacity ∧ scratch = s ∨
      s.capacity < requiredLength rows cols threads ∧
        scratch = ⟨Array.replicate (requiredLength rows cols threads) 0, s.reallocations + 1⟩ := by
  obtain ⟨hlong, hkept⟩ | ⟨hshort, ⟨-, hrefused⟩ | ⟨-, hblank⟩⟩ :=
    ensure_cases s memory rows cols threads
  · exact .inl ⟨hlong, (EStateM.Result.ok.inj (h.symm.trans hkept)).2⟩
  · exact nomatch h.symm.trans hrefused
  · exact .inr ⟨hshort, (EStateM.Result.ok.inj (h.symm.trans hblank)).2⟩

/-- Scratch space is refused for lack of memory and for nothing else, and then stays as it was. -/
theorem ensure_eq_error {error : TransformError} {left : Scratch T}
    (h : s.ensure memory rows cols threads = .error error left) :
    error = .outOfMemory ∧ left = s ∧ s.capacity < requiredLength rows cols threads ∧
      memory.reserve (requiredLength rows cols threads) (Sample.bytes (T := T)) =
        .error .outOfMemory := by
  obtain ⟨-, hkept⟩ | ⟨hshort, ⟨hroom, hrefused⟩ | ⟨-, hblank⟩⟩ :=
    ensure_cases s memory rows cols threads
  · exact nomatch h.symm.trans hkept
  · obtain ⟨rfl, rfl⟩ := EStateM.Result.error.inj (h.symm.trans hrefused)
    exact ⟨rfl, rfl, hshort, hroom⟩
  · exact nomatch h.symm.trans hblank

/-- Scratch space is granted where there is room for what is missing. -/
theorem ensure_of_reserved (s : Scratch T)
    (hroom : s.capacity < requiredLength rows cols threads →
      memory.reserve (requiredLength rows cols threads) (Sample.bytes (T := T)) = .ok ()) :
    ∃ scratch, s.ensure memory rows cols threads = .ok () scratch := by
  obtain ⟨-, hkept⟩ | ⟨hshort, ⟨hrefused, -⟩ | ⟨-, hblank⟩⟩ :=
    ensure_cases s memory rows cols threads
  · exact ⟨s, hkept⟩
  · exact nomatch (hroom hshort).symm.trans hrefused
  · exact ⟨_, hblank⟩

theorem ensure_isOk (h : ∀ bytes, memory.grants bytes = true) (s : Scratch T)
    (rows cols threads : ℕ) : ∃ scratch, s.ensure memory rows cols threads = .ok () scratch :=
  s.ensure_of_reserved fun _ => Memory.reserve_of_grants h _ _

/-- A request for no more than there is changes nothing, whatever memory there is. -/
theorem ensure_of_le (h : requiredLength rows cols threads ≤ s.capacity) :
    s.ensure memory rows cols threads = .ok () s := by
  obtain ⟨-, hkept⟩ | ⟨hshort, -⟩ := ensure_cases s memory rows cols threads
  · exact hkept
  · exact absurd hshort (not_lt.2 h)

/-- The buffer never gets shorter. -/
theorem capacity_of_ensure (h : s.ensure memory rows cols threads = .ok () scratch) :
    scratch.capacity = max (requiredLength rows cols threads) s.capacity := by
  obtain ⟨hlong, rfl⟩ | ⟨hshort, rfl⟩ := ensure_eq_ok h
  · rw [max_eq_right hlong]
  · rw [max_eq_left hshort.le]
    exact Array.size_replicate

theorem reallocations_of_ensure (h : s.ensure memory rows cols threads = .ok () scratch) :
    scratch.reallocations =
      s.reallocations + if s.capacity < requiredLength rows cols threads then 1 else 0 := by
  obtain ⟨hlong, rfl⟩ | ⟨hshort, rfl⟩ := ensure_eq_ok h
  · rw [if_neg (not_lt.2 hlong), Nat.add_zero]
  · rw [if_pos hshort]

/-- Scratch space that was made sure of is long enough. -/
theorem requiredLength_le (h : s.ensure memory rows cols threads = .ok () scratch) :
    requiredLength rows cols threads ≤ scratch.capacity := by
  rw [capacity_of_ensure h]
  exact le_max_left _ _

theorem size_window (h : s.ensure memory rows cols threads = .ok () scratch) :
    (scratch.window (requiredLength rows cols threads)).size =
      requiredLength rows cols threads := by
  have hle : requiredLength rows cols threads ≤ scratch.buffer.size := requiredLength_le h
  rw [window, Array.size_extract]
  omega

/-- The window of a call holds as much as its column pass stages. -/
theorem window_eq (h : s.ensure memory rows cols threads = .ok () scratch) :
    ∃ u, scratch.window (requiredLength rows cols threads) =
      Buffer.ofFn (requiredLength rows cols threads) u := by
  have hentry := Buffer.ofFn_entry (scratch.window (requiredLength rows cols threads))
  rw [size_window h] at hentry
  exact ⟨_, hentry.symm⟩

end Request

/-! ## Writing through a window -/

section Overwrite

variable (s : Scratch T)

theorem getElem?_window {length i : ℕ} (h : i < length) : (s.window length)[i]? = s.buffer[i]? := by
  rw [window, Array.getElem?_extract, Nat.zero_add]
  split
  · rfl
  · rw [Array.getElem?_eq_none (by omega)]

/-- Elements past the window are not written. -/
theorem getElem?_overwrite (xs : Array T) (i : ℕ) :
    (s.overwrite xs).buffer[i]? = if i < xs.size then xs[i]? else s.buffer[i]? := by
  rw [overwrite, Array.getElem?_append]
  split
  · rfl
  · rw [Array.getElem?_extract]
    split
    · congr 1
      omega
    · rw [Array.getElem?_eq_none (by omega)]

/-- A window that lies within the buffer leaves it as long as it was. -/
theorem capacity_overwrite {xs : Array T} (h : xs.size ≤ s.capacity) :
    (s.overwrite xs).capacity = s.capacity := by
  rw [capacity] at h
  rw [capacity, overwrite, Array.size_append, Array.size_extract, capacity]
  omega

/-- A window that is left as it was found changes nothing. -/
theorem overwrite_window {length : ℕ} (h : length ≤ s.capacity) :
    s.overwrite (s.window length) = s := by
  have hsize : (s.window length).size = length := by
    rw [capacity] at h
    rw [window, Array.size_extract]
    omega
  have hbuffer : (s.overwrite (s.window length)).buffer = s.buffer := by
    refine Array.ext_getElem? fun i => ?_
    rw [getElem?_overwrite, hsize]
    split
    · exact s.getElem?_window ‹_›
    · rfl
  exact congrArg (Scratch.mk · s.reallocations) hbuffer

end Overwrite

/-! ## Histories -/

/-- What the owner of scratch space can do with it. -/
inductive Action (T : Type) where
  /-- Asks for the scratch space of a column pass and, if it is granted, writes through its window:
  element `i` of a window `xs` is left as `fill xs i`. -/
  | request (memory : Memory) (rows cols threads : ℕ) (fill : Array T → ℕ → T)
  /-- Gives the buffer up. -/
  | clear

/-- What became of an action. -/
inductive Event (T : Type) where
  /-- A request was granted: the capacity that it found, the length of its window, and the elements
  that the window was left with. -/
  | granted (found required : ℕ) (left : ℕ → T)
  | refused
  | cleared

/-- The scratch space after an action, and what became of the action. -/
def act (s : Scratch T) : Action T → Scratch T × Event T
  | .request memory rows cols threads fill =>
    match s.ensure memory rows cols threads with
    | .error _ left => (left, .refused)
    | .ok () scratch =>
      let required := requiredLength rows cols threads
      let left := fill (scratch.window required)
      (scratch.overwrite (Buffer.ofFn required left), .granted s.capacity required left)
  | .clear => (s.clear, .cleared)

/-- Scratch space after some actions, and what became of each, the latest first. -/
def history : List (Action T) → Scratch T × List (Event T)
  | [] => (.empty, [])
  | action :: earlier =>
    (((history earlier).1.act action).1, ((history earlier).1.act action).2 :: (history earlier).2)

namespace Event

/-- The longest window granted since the buffer was last given up. -/
def peak : List (Event T) → ℕ
  | .granted _ required _ :: earlier => max required (peak earlier)
  | .refused :: earlier => peak earlier
  | .cleared :: _ | [] => 0

/-- A request was granted that needed more than there was. -/
def grew : Event T → Bool
  | granted found required _ => decide (found < required)
  | refused | cleared => false

/-- What element `i` was left as, if it was within reach of a window. -/
def left? (i : ℕ) : Event T → Option T
  | granted _ required left => if i < required then some (left i) else none
  | refused | cleared => none

/-- What element `i` was left as by the latest window that reached it. -/
def lastLeft? (events : List (Event T)) (i : ℕ) : Option T := events.findSome? (left? i)

end Event

/-- What was done with scratch space accounts for it. -/
structure Accounted (s : Scratch T) (events : List (Event T)) : Prop where
  capacity_eq : s.capacity = Event.peak events
  reallocations_eq : s.reallocations = events.countP Event.grew
  getElem?_eq : ∀ i < s.capacity, s.buffer[i]? = Event.lastLeft? events i

section History

variable {s scratch : Scratch T} {memory : Memory} {rows cols threads : ℕ}

theorem act_of_granted (h : s.ensure memory rows cols threads = .ok () scratch)
    (fill : Array T → ℕ → T) :
    s.act (.request memory rows cols threads fill) =
      (scratch.overwrite (Buffer.ofFn (requiredLength rows cols threads)
          (fill (scratch.window (requiredLength rows cols threads)))),
        .granted s.capacity (requiredLength rows cols threads)
          (fill (scratch.window (requiredLength rows cols threads)))) := by
  simp only [act, h]

theorem act_of_refused {error : TransformError} {left : Scratch T}
    (h : s.ensure memory rows cols threads = .error error left) (fill : Array T → ℕ → T) :
    s.act (.request memory rows cols threads fill) = (s, .refused) := by
  simp only [act, h, (ensure_eq_error h).2.1]

/-- A granted request replaces the elements of its window and no others. -/
theorem getElem?_act_of_granted (h : s.ensure memory rows cols threads = .ok () scratch)
    (fill : Array T → ℕ → T) (i : ℕ) :
    (s.act (.request memory rows cols threads fill)).1.buffer[i]? =
      if i < requiredLength rows cols threads then
        some (fill (scratch.window (requiredLength rows cols threads)) i)
      else s.buffer[i]? := by
  rw [act_of_granted h, getElem?_overwrite, Buffer.size_ofFn, Buffer.getElem?_ofFn]
  split
  · rfl
  · -- a buffer that was replaced was shorter than the window
    obtain ⟨-, rfl⟩ | ⟨hshort, rfl⟩ := ensure_eq_ok h
    · rfl
    · rw [capacity] at hshort
      rw [Array.getElem?_eq_none (by rw [Array.size_replicate]; omega),
        Array.getElem?_eq_none (by omega)]

/-- An action is accounted for by what became of it. -/
theorem Accounted.act {events : List (Event T)} (h : s.Accounted events) (action : Action T) :
    (s.act action).1.Accounted ((s.act action).2 :: events) := by
  cases action with
  | clear => exact ⟨rfl, h.reallocations_eq, fun i hi => absurd hi (Nat.not_lt_zero i)⟩
  | request memory rows cols threads fill =>
    rcases hensure : s.ensure memory rows cols threads with ⟨⟨⟩, scratch⟩ | ⟨error, left⟩
    case error =>
      rw [act_of_refused hensure]
      exact ⟨h.capacity_eq, h.reallocations_eq, h.getElem?_eq⟩
    have hget := getElem?_act_of_granted hensure fill
    rw [act_of_granted hensure] at hget ⊢
    have hcapacity := scratch.capacity_overwrite
      ((Buffer.size_ofFn _ (fill (scratch.window (requiredLength rows cols threads)))).trans_le
        (requiredLength_le hensure))
    refine ⟨?_, ?_, fun i hi => ?_⟩
    · rw [hcapacity, capacity_of_ensure hensure, Event.peak, h.capacity_eq]
    · rw [List.countP_cons, ← h.reallocations_eq, Event.grew]
      simp only [decide_eq_true_eq]
      change scratch.reallocations = _
      exact reallocations_of_ensure hensure
    · rw [hget i, Event.lastLeft?, List.findSome?_cons, Event.left?]
      split
      · rfl
      · -- an element past the window is one of the buffer that was found
        rw [hcapacity, capacity_of_ensure hensure] at hi
        exact h.getElem?_eq i (by omega)

/-- Whatever was done with scratch space accounts for it. -/
theorem accounted_history (actions : List (Action T)) :
    (history actions).1.Accounted (history actions).2 := by
  induction actions with
  | nil => exact ⟨rfl, rfl, fun i hi => absurd hi (Nat.not_lt_zero i)⟩
  | cons action earlier ih => exact ih.act action

end History

end CosineTransform.Scratch
