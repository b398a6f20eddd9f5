/-!
# Strided ranges

Work that is dealt out in turns leaves every worker a strided range: the numbers from its own index
on, in steps of the number of workers, below a bound.
-/

namespace CosineTransform.Strided

/-- How many of the numbers `first`, `first + step`, … lie below `bound`, for a positive step. -/
def count (first bound step : Nat) : Nat := (bound - first + (step - 1)) / step

/-- The numbers `first`, `first + step`, … below `bound`. -/
def list (first bound step : Nat) : List Nat :=
  (List.range (count first bound step)).map fun i => first + i * step

theorem lt_count_iff {first bound step : Nat} (h : 0 < step) (i : Nat) :
    i < count first bound step ↔ first + i * step < bound := by
  rw [count, Nat.lt_div_iff_mul_lt h]
  omega

/-- A number belongs to a strided range exactly when it is reached from the first one in whole
steps and lies below the bound. -/
theorem mem_list {first bound step : Nat} (h : 0 < step) (x : Nat) :
    x ∈ list first bound step ↔ (∃ i, x = first + i * step) ∧ x < bound := by
  simp only [list, List.mem_map, List.mem_range, lt_count_iff h]
  constructor
  · rintro ⟨i, hi, rfl⟩
    exact ⟨⟨i, rfl⟩, hi⟩
  · rintro ⟨⟨i, rfl⟩, hx⟩
    exact ⟨i, hx, rfl⟩

end CosineTransform.Strided
