import CosineTransform.Proofs.Fourier.Dft
import CosineTransform.Proofs.Line.Kernel
import CosineTransform.Proofs.Line.Stages
import CosineTransform.Proofs.Trig.RealTables

/-!
# The stages over the real numbers

With a cosine table whose length is a multiple of the length of the line, the rotation stage is the
linear map `rotation` (`rotate_eq_rotation`), and the split is `exchange` on complex numbers
(`split_eq_exchange`): one formula for every point but the first, be it in the lower half, in the
upper half or in the middle.
-/

namespace CosineTransform

open Buffer (entry ofFn)
open Real (pi)
open scoped ComplexConjugate

/-- A cosine table of an even number of entries. -/
structure Cosines.EvenTable (c : Array ℝ) : Prop where
  one_lt : 1 < c.size
  even : 2 ∣ c.size
  table : Cosines.Table c.size c

namespace Stage

/-! ## The cosine table -/

section Table

variable {c : Array ℝ} {n k : ℕ}

/-- The strided entries of the table are the halved cosines of the angles of rotation. -/
theorem entry_cosine (h : Cosines.EvenTable c) (hdvd : n ∣ c.size) (hpos : 0 < k) (hk : k < n) :
    entry c (k * (c.size / n)) = Real.cos (turnAngle n k) / 2 := by
  have hsize := h.one_lt
  have hstride := Nat.mul_div_cancel' hdvd
  have hstride_pos : 0 < c.size / n := Nat.div_pos (Nat.le_of_dvd (by omega) hdvd) (by omega)
  have hlt : k * (c.size / n) < c.size := by
    conv_rhs => rw [← hstride]
    exact Nat.mul_lt_mul_of_pos_right hk hstride_pos
  rw [Cosines.entry_eq h.table h.even (Nat.mul_pos hpos hstride_pos) hlt]
  -- the stride cancels, so every long table holds the angles of the line
  have hangle : pi / 2 * ((k * (c.size / n) : ℕ) / (c.size : ℝ)) = turnAngle n k := by
    have hn' : (n : ℝ) ≠ 0 := by
      exact_mod_cast show n ≠ 0 by omega
    have hstride' : ((c.size / n : ℕ) : ℝ) ≠ 0 := by exact_mod_cast hstride_pos.ne'
    conv_lhs => rw [← hstride]
    rw [Nat.mul_div_cancel_left _ (by omega : 0 < n), turnAngle]
    push_cast
    field_simp
  rw [hangle]

theorem entry_sine (h : Cosines.EvenTable c) (hdvd : n ∣ c.size) (hpos : 0 < k) (hk : k < n) :
    entry c (c.size - k * (c.size / n)) = Real.sin (turnAngle n k) / 2 := by
  have hindex : c.size - k * (c.size / n) = (n - k) * (c.size / n) := by
    rw [Nat.sub_mul, Nat.mul_div_cancel' hdvd]
  rw [hindex, entry_cosine h hdvd (by omega) (by omega), turnAngle_sub (by omega) hk.le,
    Real.cos_pi_div_two_sub]

/-- A rotated sample is a sample of the rotation. -/
theorem rotated_eq (h : Cosines.EvenTable c) (hdvd : n ∣ c.size) (hk : k < n) (x : ℕ → ℝ) :
    rotated c n x k = rotation n x k := by
  have hn' : (n : ℝ) ≠ 0 := by
    exact_mod_cast show n ≠ 0 by omega
  rw [rotated, rotation]
  dsimp only
  split
  · rfl
  split
  · rename_i hmiddle
    -- the middle sample is its own counterpart
    have hangle : turnAngle n k = pi / 4 := by
      rw [turnAngle, ← hmiddle]
      have hk' : (k : ℝ) ≠ 0 := by
        exact_mod_cast show k ≠ 0 by omega
      push_cast
      field_simp
      norm_num
    rw [Cosines.entry_zero h.table h.one_lt, hangle, show n - k = k by omega, Real.sin_pi_div_four,
      Real.cos_pi_div_four]
    change x k * (√2 / 2) = _
    ring
  split
  · rw [entry_cosine h hdvd (by omega) hk, entry_sine h hdvd (by omega) hk]
    change (Real.cos _ / 2 - Real.sin _ / 2) * x k +
      (Real.cos _ / 2 + Real.sin _ / 2) * x (n - k) = _
    ring
  · rw [entry_cosine h hdvd (by omega) (by omega), entry_sine h hdvd (by omega) (by omega),
      turnAngle_sub (by omega) hk.le, Real.cos_pi_div_two_sub, Real.sin_pi_div_two_sub]
    change (Real.sin _ / 2 + Real.cos _ / 2) * x (n - k) -
      (Real.sin _ / 2 - Real.cos _ / 2) * x k = _
    ring

theorem rotate_eq_rotation (h : Cosines.EvenTable c) (hdvd : n ∣ c.size) (x : ℕ → ℝ) :
    rotate c (ofFn n x) = .ok (ofFn n (rotation n x)) := by
  have hsize : 0 < c.size := Nat.zero_lt_of_lt h.one_lt
  rw [rotate_eq_ok (Nat.pos_of_dvd_of_pos hdvd hsize) (Nat.le_of_dvd hsize hdvd)]
  exact congrArg Except.ok (Buffer.ofFn_congr fun k hk => rotated_eq h hdvd hk x)

end Table

/-! ## The split on complex numbers -/

/-- The factor of the share that point `k` of `m` points exchanges. -/
noncomputable def weight (sign : Sign) (m k : ℕ) : ℂ :=
  (1 + sign.unit * sign.circle (turnAngle m (2 * k))) / 2

/-- Point `k` of `m` split points. -/
noncomputable def exchange (sign : Sign) (m : ℕ) (z : ℕ → ℂ) (k : ℕ) : ℂ :=
  if k = 0 then z 0 else z k - (z k - conj (z (m - k))) * weight sign m k

/-- The points exchange shares that are each other's conjugates. -/
theorem conj_weight (sign : Sign) {m k : ℕ} (hk : k < m) :
    conj (weight sign m k) = weight sign m (m - k) := by
  have hangle : turnAngle m (2 * (m - k)) = pi + -turnAngle m (2 * k) := by
    have hm' : (m : ℝ) ≠ 0 := by
      exact_mod_cast show m ≠ 0 by omega
    rw [turnAngle, turnAngle]
    push_cast [Nat.cast_sub hk.le]
    field_simp
    ring
  rw [weight, weight, hangle, Sign.circle_add, Sign.circle_pi, map_div₀, map_add, map_mul, map_one,
    Sign.conj_unit, Sign.conj_circle, Complex.conj_ofNat]
  ring

theorem weight_middle (sign : Sign) {m k : ℕ} (hk : 0 < k) (hmiddle : 2 * k = m) :
    weight sign m k = 0 := by
  have hangle : turnAngle m (2 * k) = pi / 2 := by
    have hk' : (k : ℝ) ≠ 0 := by positivity
    rw [turnAngle, ← hmiddle]
    push_cast
    field_simp
  rw [weight, hangle, Sign.circle_pi_div_two, Sign.unit_mul_unit]
  norm_num

section Split

variable {c : Array ℝ} {m k : ℕ}

/-- The share is the difference to the conjugated counterpart, turned and halved. -/
theorem share_eq (sign : Sign) (h : Cosines.EvenTable c) (hdvd : m ∣ c.size) (hpos : 0 < k)
    (hk : 2 * k < m) (z : ℕ → ℂ) :
    share sign c m (fun i => .ofComplex (z i)) k =
      .ofComplex ((z k - conj (z (m - k))) * weight sign m k) := by
  have hindex : k * (2 * c.size / m) = 2 * k * (c.size / m) := by
    rw [Nat.mul_div_assoc 2 hdvd]
    ring
  have hdifference : (⟨(z k).re - (z (m - k)).re, (z k).im + (z (m - k)).im⟩ : Point ℝ) =
      .ofComplex (z k - conj (z (m - k))) := by
    simp [Point.ofComplex]
  have hweight : (((1 / 2 - Real.sin (turnAngle m (2 * k)) / 2 : ℝ) : ℂ) +
      sign.unit * (Real.cos (turnAngle m (2 * k)) / 2 : ℝ)) = weight sign m k := by
    rw [weight, Sign.circle_eq, mul_add, ← mul_assoc, Sign.unit_mul_unit]
    push_cast
    ring
  rw [share, hindex, entry_cosine h hdvd (by omega) hk, entry_sine h hdvd (by omega) hk]
  change Point.weigh sign
    ⟨1 / 2 - Real.sin (turnAngle m (2 * k)) / 2, Real.cos (turnAngle m (2 * k)) / 2⟩
    ⟨(z k).re - (z (m - k)).re, (z k).im + (z (m - k)).im⟩ = _
  rw [hdifference, Point.weigh_eq_turn, Point.turn_eq_ofComplex, hweight]

/-- A split point is a point of the exchange. -/
theorem separated_eq (sign : Sign) (h : Cosines.EvenTable c) (hdvd : m ∣ c.size) (hk : k < m)
    (z : ℕ → ℂ) :
    separated sign c m (fun i => .ofComplex (z i)) k = .ofComplex (exchange sign m z k) := by
  rw [separated, exchange]
  rcases Nat.eq_zero_or_pos k with rfl | hpos
  · rw [if_pos (.inl rfl), if_pos rfl]
  rw [if_neg hpos.ne']
  split
  · rename_i hmiddle
    rw [weight_middle sign hpos (by omega), mul_zero, sub_zero]
  split
  · rename_i hlow
    rw [share_eq sign h hdvd hpos hlow, Point.ofComplex_sub]
    rfl
  · have hconj : z k - (z k - conj (z (m - k))) * weight sign m k =
        z k + conj ((z (m - k) - conj (z (m - (m - k)))) * weight sign m (m - k)) := by
      rw [map_mul, map_sub, Complex.conj_conj, conj_weight sign (by omega), Nat.sub_sub_self hk.le]
      ring
    rw [share_eq sign h hdvd (by omega) (by omega), hconj,
      Point.ofComplex_add_conj]
    rfl

theorem split_eq_exchange (sign : Sign) (h : Cosines.EvenTable c) (hdvd : m ∣ c.size) (z : ℕ → ℂ) :
    split sign c (ofFn m fun i => .ofComplex (z i)) =
      .ok (ofFn m fun k => .ofComplex (exchange sign m z k)) := by
  have hsize : 0 < c.size := Nat.zero_lt_of_lt h.one_lt
  have hle := Nat.le_of_dvd hsize hdvd
  rw [split_eq_ok sign (Nat.pos_of_dvd_of_pos hdvd hsize) (by omega)]
  exact congrArg Except.ok (Buffer.ofFn_congr fun k hk => separated_eq sign h hdvd hk z)

end Split

end Stage

end CosineTransform
