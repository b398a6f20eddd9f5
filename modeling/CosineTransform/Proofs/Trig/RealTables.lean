import CosineTransform.Proofs.Reals
import CosineTransform.Proofs.Trig.ScaledTables

/-!
# The tables over the real numbers

In exact arithmetic every entry of the tables is the value of a trigonometric function.
`Twiddles.Level` lists these values for a twiddle level by the angles of its own size. Scaling is
exact, so a level has them wherever it stands (`Twiddles.Level.of_computed`). `Cosines.entry_eq` is
the same for the cosine table, whose upper half is computed as sines.
-/

namespace CosineTransform

open Buffer (entry)
open Real (pi)

/-- Nothing is rounded, at any magnitude. -/
theorem exactScaling_real (limit : ℕ) : ExactScaling (fun _ : ℝ => True) limit where
  mul_comm := mul_comm
  mul_two_mul a b _ _ := mul_left_comm a _ b
  two_mul_div a b _ _ := by
    rw [← mul_div_assoc, mul_div_mul_left _ _ (by norm_num)]
  cast_two_mul k _ := Nat.cast_mul 2 k
  moderate_cast _ _ _ := trivial
  moderate_arctan := trivial
  moderate_step _ _ _ := trivial

namespace Twiddles

/-! ## Twiddle levels -/

/-- The step between the angles of a level: an eighth of a circle in `size` parts. -/
noncomputable def angle (size : ℕ) : ℝ := pi / 4 / size

theorem step_eq (size : ℕ) : (step size : ℝ) = angle size := by
  change Real.arctan 1 / size = pi / 4 / size
  rw [Real.arctan_one]

/-- The entries of a level of size `size` that starts at `start`. -/
structure Level (w : Array ℝ) (start size : ℕ) : Prop where
  one : entry w start = 1
  diagonal : entry w (start + 1) = Real.cos (pi / 4)
  cosine : size = 4 → entry w (start + 2) = Real.cos (pi / 8)
  sine : size = 4 → entry w (start + 3) = Real.sin (pi / 8)
  double : 4 < size → entry w (start + 2) = 1 / 2 / Real.cos (2 * angle size)
  triple : 4 < size → entry w (start + 3) = 1 / 2 / Real.cos (6 * angle size)
  stored : ∀ j, 4 ∣ j → 4 ≤ j → j < size → ∀ m < 4,
    entry w (start + j + m) = quadruple (j * angle size) m

theorem cos_angle_mul_self {size : ℕ} (h : 0 < size) :
    Real.cos (angle size * size) = Real.cos (pi / 4) := by
  have hsize : (size : ℝ) ≠ 0 := by positivity
  rw [angle, div_mul_cancel₀ _ hsize]

theorem angle_four_mul_two : angle 4 * 2 = pi / 8 := by
  unfold angle
  push_cast
  ring

/-- A level that has the computed entries has their values. -/
theorem Level.of_computed {w : Array ℝ} {start size : ℕ} (hsize : 0 < size)
    (h : Computed w start size) : Level w start size := by
  -- entry by entry, with the computed step for the angle
  refine ⟨h.one, ?_, ?_, ?_, ?_, ?_, ?_⟩
  · refine h.diagonal.trans ?_
    exact (congrArg (fun t : ℝ => Real.cos (t * size)) (step_eq size)).trans
      (cos_angle_mul_self hsize)
  · intro hfour
    refine (h.cosine hfour).trans ?_
    change Real.cos ((step 4 : ℝ) * (2 : ℕ)) = _
    rw [step_eq, Nat.cast_ofNat, angle_four_mul_two]
  · intro hfour
    refine (h.sine hfour).trans ?_
    change Real.sin ((step 4 : ℝ) * (2 : ℕ)) = _
    rw [step_eq, Nat.cast_ofNat, angle_four_mul_two]
  · intro hlarge
    refine (h.double hlarge).trans ?_
    change 1 / 2 / Real.cos ((step size : ℝ) * (2 : ℕ)) = _
    rw [step_eq, Nat.cast_ofNat, mul_comm]
  · intro hlarge
    refine (h.triple hlarge).trans ?_
    change 1 / 2 / Real.cos ((step size : ℝ) * (6 : ℕ)) = _
    rw [step_eq, Nat.cast_ofNat, mul_comm]
  · intro j hdvd hj hlt m hm
    refine (h.stored j hdvd hj hlt m hm).trans ?_
    change quadruple ((step size : ℝ) * j) m = _
    rw [step_eq, mul_comm]

end Twiddles

/-! ## Rotation cosines -/

namespace Cosines

theorem step_eq (count : ℕ) : (step count : ℝ) = pi / 4 / (count / 2 : ℕ) := by
  change Real.arctan 1 / (count / 2 : ℕ) = _
  rw [Real.arctan_one]

theorem diagonal_eq {count : ℕ} (h : 1 < count) : (diagonal count : ℝ) = Real.cos (pi / 4) := by
  have hmiddle : ((count / 2 : ℕ) : ℝ) ≠ 0 := by
    exact_mod_cast show count / 2 ≠ 0 by omega
  change Real.cos ((step count : ℝ) * (count / 2 : ℕ)) = _
  rw [step_eq, div_mul_cancel₀ _ hmiddle]

theorem entry_zero {count : ℕ} {c : Array ℝ} (h : Table count c) (hcount : 1 < count) :
    entry c 0 = Real.cos (pi / 4) := h.zero.trans (diagonal_eq hcount)

/-- Entry `k` of a table of an even number of entries is half the cosine of `k` parts of a quarter
circle. -/
theorem entry_eq {count : ℕ} {c : Array ℝ} (h : Table count c) (heven : 2 ∣ count) {k : ℕ}
    (hk : 0 < k) (hlt : k < count) : entry c k = Real.cos (pi / 2 * (k / count)) / 2 := by
  obtain ⟨middle, rfl⟩ := heven
  have hhalf : 2 * middle / 2 = middle := by omega
  have hmiddle : (middle : ℝ) ≠ 0 := by
    exact_mod_cast show middle ≠ 0 by omega
  have hangle (j : ℕ) : pi / 4 / middle * j = pi / 2 * (j / (2 * middle : ℕ)) := by
    push_cast
    field_simp
    ring
  rcases Nat.lt_trichotomy k middle with hlow | rfl | hhigh
  · refine (h.rising k hk (by omega)).trans ?_
    change 1 / 2 * Real.cos ((step (2 * middle) : ℝ) * k) = _
    rw [step_eq, hhalf, hangle]
    ring
  · have hmiddleEntry := h.middle
    rw [hhalf] at hmiddleEntry
    refine hmiddleEntry.trans ?_
    change 1 / 2 * (diagonal (2 * k) : ℝ) = _
    rw [diagonal_eq (by omega), ← hangle, div_mul_cancel₀ _ hmiddle]
    ring
  · -- the angle is the complement of one in the lower half
    obtain ⟨j, hj, rfl⟩ : ∃ j, 0 < j ∧ k = 2 * middle - j := ⟨2 * middle - k, by omega, by omega⟩
    refine (h.falling j hj (by omega)).trans ?_
    change 1 / 2 * Real.sin ((step (2 * middle) : ℝ) * j) = _
    have hcomplement : pi / 2 * ((2 * middle - j : ℕ) / (2 * middle : ℕ)) =
        pi / 2 - pi / 2 * (j / (2 * middle : ℕ)) := by
      rw [Nat.cast_sub (by omega)]
      push_cast
      field_simp
    rw [step_eq, hhalf, hangle, hcomplement, Real.cos_pi_div_two_sub]
    ring

end Cosines

end CosineTransform
