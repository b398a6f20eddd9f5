import CosineTransform.Error

/-!
# Memory

Tables and scratch space are reserved before they are built, and a reservation can be refused. What
is granted is a property of the surroundings, so it is a parameter of every step that reserves.
-/

namespace CosineTransform

/-- Which reservations are granted, by their number of bytes. -/
structure Memory where
  grants : Nat → Bool

namespace Memory

/-- Asks for room for `count` elements of `bytes` bytes each. -/
def reserve (memory : Memory) (count bytes : Nat) : Except TransformError Unit :=
  if memory.grants (count * bytes) then .ok () else .error .outOfMemory

theorem reserve_eq_ok_iff {memory : Memory} {count bytes : Nat} :
    memory.reserve count bytes = .ok () ↔ memory.grants (count * bytes) = true := by
  unfold reserve
  split <;> simp only [reduceCtorEq, true_iff, false_iff] <;> assumption

/-- Where there is memory for everything, no reservation is refused. -/
theorem reserve_of_grants {memory : Memory} (h : ∀ bytes, memory.grants bytes = true)
    (count bytes : Nat) : memory.reserve count bytes = .ok () :=
  reserve_eq_ok_iff.2 (h _)

/-- A refused reservation is reported as lack of memory and as nothing else. -/
theorem reserve_eq_error_iff {memory : Memory} {count bytes : Nat} {e : TransformError} :
    memory.reserve count bytes = .error e ↔
      memory.grants (count * bytes) = false ∧ e = .outOfMemory := by
  unfold reserve
  cases memory.grants (count * bytes) <;> simp [eq_comm]

end Memory

end CosineTransform
