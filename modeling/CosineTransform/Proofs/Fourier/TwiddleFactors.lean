import CosineTransform.Fourier.TwiddleFactor
import CosineTransform.Proofs.Trig.RealTables

/-!
# Reading twiddle factors

A butterfly over `4 * s` points reads the level of size `s`, which takes the last `2 * s` entries of
the table down to the smaller levels behind it. If the table has that many entries, no index of the
first quarter leads beyond it (`read_isOk`).

Over the real numbers the factor read at index `j` is the one at the angle `2 π j / (4 s)`
(`read_eq_ok`), on each of the routes: the angle zero, the eighth of a circle, the one odd index of
sixteen points, a stored angle, the angle between two of these, and an angle past the eighth.
-/

namespace CosineTransform.TwiddleFactor

open Buffer (entry)
open Real (pi)

/-! ## Bounds -/

section Bounds

variable {T : Type} [Scalar T] {w : Array T} {s : ℕ}

theorem anchor_zero (w : Array T) (points : ℕ) : anchor w points 0 = .ok unit := if_pos rfl

theorem anchor_diagonal (hs : 2 ≤ s) (hw : 2 * s ≤ w.size) :
    anchor w (4 * s) (s / 2) =
      .ok ⟨⟨entry w (w.size - 2 * s + 1), entry w (w.size - 2 * s + 1)⟩,
        ⟨-entry w (w.size - 2 * s + 1), entry w (w.size - 2 * s + 1)⟩⟩ := by
  rw [anchor, if_neg (by omega), show 4 * s / 2 = 2 * s by omega, Index.sub_eq_ok hw, ok_bind,
    if_pos (by omega), Buffer.read_eq_entry (by omega)]
  rfl

theorem anchor_stored {j : ℕ} (hj : j ≠ 0) (hlt : j < s / 2) (hw : 2 * s ≤ w.size) :
    anchor w (4 * s) j =
      .ok ⟨⟨entry w (w.size - 2 * s + 2 * j), entry w (w.size - 2 * s + 2 * j + 1)⟩,
        ⟨entry w (w.size - 2 * s + 2 * j + 2), -entry w (w.size - 2 * s + 2 * j + 3)⟩⟩ := by
  rw [anchor, if_neg hj, show 4 * s / 2 = 2 * s by omega, Index.sub_eq_ok hw, ok_bind,
    if_neg (by omega), Buffer.read_eq_entry (by omega), ok_bind, Buffer.read_eq_entry (by omega),
    ok_bind, Buffer.read_eq_entry (by omega), ok_bind, Buffer.read_eq_entry (by omega)]
  rfl

theorem anchor_isOk {j : ℕ} (hs : 2 ≤ s) (hj : j ≤ s / 2) (hw : 2 * s ≤ w.size) :
    ∃ f, anchor w (4 * s) j = .ok f := by
  rcases Nat.eq_zero_or_pos j with rfl | hpos
  · exact ⟨_, anchor_zero w _⟩
  · rcases Nat.eq_or_lt_of_le hj with rfl | hlt
    · exact ⟨_, anchor_diagonal hs hw⟩
    · exact ⟨_, anchor_stored (by omega) hlt hw⟩

theorem firstOctant_anchor {j : ℕ} (h : j % 2 = 0 ∨ j = s / 2) :
    firstOctant w (4 * s) j = anchor w (4 * s) j := by
  rw [firstOctant, if_pos (by omega)]

/-- The only odd index below the eighth of sixteen points. -/
theorem firstOctant_sixteen (hw : 8 ≤ w.size) :
    firstOctant w 16 1 =
      .ok ⟨⟨entry w (w.size - 8 + 2), entry w (w.size - 8 + 3)⟩,
        ⟨entry w (w.size - 8 + 3), entry w (w.size - 8 + 2)⟩⟩ := by
  rw [firstOctant, if_neg (by omega), show 16 / 2 = 8 by rfl, Index.sub_eq_ok hw, ok_bind,
    Buffer.read_eq_entry (by omega), ok_bind, Buffer.read_eq_entry (by omega)]
  rfl

theorem firstOctant_between {j : ℕ} {low high : TwiddleFactor T} (hodd : j % 2 ≠ 0)
    (hlt : j < s / 2) (hs : 4 < s) (hw : 2 * s ≤ w.size)
    (hlow : anchor w (4 * s) (j - 1) = .ok low) (hhigh : anchor w (4 * s) (j + 1) = .ok high) :
    firstOctant w (4 * s) j =
      .ok (between low high (entry w (w.size - 2 * s + 2)) (entry w (w.size - 2 * s + 3))) := by
  rw [firstOctant, if_neg (by omega), show 4 * s / 2 = 2 * s by omega, Index.sub_eq_ok hw, ok_bind,
    Buffer.read_eq_entry (by omega), ok_bind, Buffer.read_eq_entry (by omega), ok_bind,
    if_neg (by omega), hlow, ok_bind, hhigh]
  rfl

theorem firstOctant_isOk {j : ℕ} (hs : 2 ≤ s) (hj : j ≤ s / 2) (hw : 2 * s ≤ w.size) :
    ∃ f, firstOctant w (4 * s) j = .ok f := by
  by_cases heven : j % 2 = 0 ∨ j = s / 2
  · rw [firstOctant_anchor heven]
    exact anchor_isOk hs hj hw
  · obtain ⟨hodd, hne⟩ := not_or.1 heven
    obtain ⟨low, hlow⟩ := anchor_isOk (j := j - 1) hs (by omega) hw
    obtain ⟨high, hhigh⟩ := anchor_isOk (j := j + 1) hs (by omega) hw
    rw [firstOctant, if_neg (by omega), show 4 * s / 2 = 2 * s by omega, Index.sub_eq_ok hw,
      ok_bind, Buffer.read_eq_entry (by omega), ok_bind, Buffer.read_eq_entry (by omega), ok_bind,
      hlow, hhigh]
    split <;> exact ⟨_, rfl⟩

/-- A factor of the first quarter is read without a fault. Four points need no table. -/
theorem read_isOk {j : ℕ} (hj : j < s) (hw : 2 ≤ s → 2 * s ≤ w.size) :
    ∃ f, read w (4 * s) j = .ok f := by
  by_cases hs : 2 ≤ s
  · rw [read]
    split
    · -- past the diagonal the factor is reflected
      obtain ⟨f, hf⟩ := firstOctant_isOk (j := s - j) hs (by omega) (hw hs)
      rw [show 4 * s / 4 = s by omega, Index.sub_eq_ok (by omega), ok_bind, hf]
      exact ⟨_, rfl⟩
    · exact firstOctant_isOk hs (by omega) (hw hs)
  · obtain rfl : s = 1 := by omega
    obtain rfl : j = 0 := by omega
    exact ⟨unit, rfl⟩

/-! ## Tables that share a level -/

section Shared

variable {w' : Array T} {k : ℕ} (hw : 2 * 2 ^ k ≤ w.size) (hw' : 2 * 2 ^ k ≤ w'.size)
  (h : ∀ i < 2 ^ k, entry w (w.size - 2 * 2 ^ k + i) = entry w' (w'.size - 2 * 2 ^ k + i))

include hw hw' h

theorem anchor_congr (hk : 1 ≤ k) {j : ℕ} (hj : j ≤ 2 ^ k / 2)
    (heven : j % 2 = 0 ∨ j = 2 ^ k / 2) :
    anchor w (4 * 2 ^ k) j = anchor w' (4 * 2 ^ k) j := by
  have htwo : 2 ^ 1 ≤ 2 ^ k := Nat.pow_le_pow_right (by omega) hk
  rcases Nat.eq_zero_or_pos j with rfl | hpos
  · rw [anchor_zero, anchor_zero]
  · rcases Nat.eq_or_lt_of_le hj with rfl | hlt
    · rw [anchor_diagonal htwo hw, anchor_diagonal htwo hw', h 1 (by omega)]
    · have hend := Twiddles.add_four_le (j := 2 * j) (k := k) (by omega) (by omega) (by omega)
      rw [anchor_stored (by omega) hlt hw, anchor_stored (by omega) hlt hw']
      simp only [add_assoc]
      rw [h _ (by omega), h _ (by omega), h _ (by omega), h _ (by omega)]

theorem firstOctant_congr (hk : 1 ≤ k) {j : ℕ} (hj : j ≤ 2 ^ k / 2) :
    firstOctant w (4 * 2 ^ k) j = firstOctant w' (4 * 2 ^ k) j := by
  by_cases heven : j % 2 = 0 ∨ j = 2 ^ k / 2
  · rw [firstOctant_anchor heven, firstOctant_anchor heven, anchor_congr hw hw' h hk hj heven]
  · obtain ⟨hodd, hne⟩ := not_or.1 heven
    have hk2 : 1 < k := (Nat.pow_lt_pow_iff_right one_lt_two).1 (by omega : 2 ^ 1 < 2 ^ k)
    -- a level of four has one odd angle, and stores it
    rcases Nat.eq_or_lt_of_le hk2 with rfl | hk3
    · obtain rfl : j = 1 := by omega
      have hfirst : entry w (w.size - 8 + 2) = entry w' (w'.size - 8 + 2) := h 2 (by omega)
      have hsecond : entry w (w.size - 8 + 3) = entry w' (w'.size - 8 + 3) := h 3 (by omega)
      refine (firstOctant_sixteen hw).trans (Eq.trans ?_ (firstOctant_sixteen hw').symm)
      rw [hfirst, hsecond]
    · have hlarge : 2 ^ 3 ≤ 2 ^ k := Nat.pow_le_pow_right (by omega) hk3
      have hlowEven := anchor_congr hw hw' h hk (j := j - 1) (by omega) (by omega)
      have hhighEven := anchor_congr hw hw' h hk (j := j + 1) (by omega) (by omega)
      obtain ⟨low, hlow⟩ := anchor_isOk (j := j - 1) (by omega) (by omega) hw
      obtain ⟨high, hhigh⟩ := anchor_isOk (j := j + 1) (by omega) (by omega) hw
      rw [firstOctant_between hodd (by omega) (by omega) hw hlow hhigh,
        firstOctant_between hodd (by omega) (by omega) hw' (hlowEven ▸ hlow) (hhighEven ▸ hhigh),
        h 2 (by omega), h 3 (by omega)]

end Shared

/-- A factor depends on the level of its size alone. -/
theorem read_congr {w' : Array T} {k : ℕ} (hw : 1 ≤ k → 2 * 2 ^ k ≤ w.size)
    (hw' : 1 ≤ k → 2 * 2 ^ k ≤ w'.size)
    (h : 1 ≤ k → ∀ i < 2 ^ k,
      entry w (w.size - 2 * 2 ^ k + i) = entry w' (w'.size - 2 * 2 ^ k + i))
    {j : ℕ} (hj : j < 2 ^ k) : read w (4 * 2 ^ k) j = read w' (4 * 2 ^ k) j := by
  rcases Nat.eq_zero_or_pos k with rfl | hk
  · obtain rfl : j = 0 := by simpa using hj
    rfl
  · rw [read, read]
    split
    · rw [show 4 * 2 ^ k / 4 = 2 ^ k by omega, Index.sub_eq_ok hj.le, ok_bind, ok_bind,
        firstOctant_congr (hw hk) (hw' hk) (h hk) hk (by omega)]
    · exact firstOctant_congr (hw hk) (hw' hk) (h hk) hk (by omega)

end Bounds

/-! ## Angles -/

/-- The factor at an angle. -/
noncomputable def ofAngle (t : ℝ) : TwiddleFactor ℝ :=
  ⟨⟨Real.cos t, Real.sin t⟩, ⟨Real.cos (3 * t), Real.sin (3 * t)⟩⟩

theorem unit_eq_ofAngle : (unit : TwiddleFactor ℝ) = ofAngle 0 := by
  rw [ofAngle, mul_zero, Real.cos_zero, Real.sin_zero]
  rfl

theorem diagonal_eq_ofAngle :
    (⟨⟨Real.cos (pi / 4), Real.cos (pi / 4)⟩, ⟨-Real.cos (pi / 4), Real.cos (pi / 4)⟩⟩ :
      TwiddleFactor ℝ) = ofAngle (pi / 4) := by
  have htriple : 3 * (pi / 4) = pi - pi / 4 := by ring
  rw [ofAngle, htriple, Real.cos_pi_sub, Real.sin_pi_sub, Real.sin_pi_div_four,
    Real.cos_pi_div_four]

/-- Reflection in the diagonal takes an angle to its complement. -/
theorem reflect_ofAngle (t : ℝ) : (ofAngle t).reflect = ofAngle (pi / 2 - t) := by
  have htriple : 3 * (pi / 2 - t) = pi - (3 * t - pi / 2) := by ring
  rw [ofAngle, ofAngle, htriple, Real.cos_pi_sub, Real.sin_pi_sub, Real.cos_sub_pi_div_two,
    Real.sin_sub_pi_div_two, Real.cos_pi_div_two_sub, Real.sin_pi_div_two_sub]
  rfl

theorem cos_mean {t d : ℝ} (h : Real.cos d ≠ 0) :
    (Real.cos (t - d) + Real.cos (t + d)) * (1 / 2 / Real.cos d) = Real.cos t := by
  rw [Real.cos_sub, Real.cos_add]
  field_simp
  ring

theorem sin_mean {t d : ℝ} (h : Real.cos d ≠ 0) :
    (Real.sin (t - d) + Real.sin (t + d)) * (1 / 2 / Real.cos d) = Real.sin t := by
  rw [Real.sin_sub, Real.sin_add]
  field_simp
  ring

/-- The factor between two at the same distance on either side. -/
theorem between_ofAngle {t d : ℝ} (hsingle : Real.cos d ≠ 0) (htriple : Real.cos (3 * d) ≠ 0) :
    between (ofAngle (t - d)) (ofAngle (t + d)) (1 / 2 / Real.cos d) (1 / 2 / Real.cos (3 * d)) =
      ofAngle t := by
  rw [ofAngle, ofAngle, mul_sub, mul_add]
  change (⟨⟨(Real.cos (t - d) + Real.cos (t + d)) * (1 / 2 / Real.cos d),
      (Real.sin (t - d) + Real.sin (t + d)) * (1 / 2 / Real.cos d)⟩,
    ⟨(Real.cos (3 * t - 3 * d) + Real.cos (3 * t + 3 * d)) * (1 / 2 / Real.cos (3 * d)),
      (Real.sin (3 * t - 3 * d) + Real.sin (3 * t + 3 * d)) * (1 / 2 / Real.cos (3 * d))⟩⟩ :
    TwiddleFactor ℝ) = _
  rw [cos_mean hsingle, sin_mean hsingle, cos_mean htriple, sin_mean htriple, ofAngle]

section Level

variable {w : Array ℝ} {k : ℕ}

/-- The angle of index `j` among `4 * s` points. -/
noncomputable def indexAngle (s j : ℕ) : ℝ := 2 * pi * j / (4 * s : ℕ)

theorem indexAngle_eq (s j : ℕ) : indexAngle s j = j * (2 * Twiddles.angle s) := by
  unfold indexAngle Twiddles.angle
  rcases Nat.eq_zero_or_pos s with rfl | hs
  · simp
  · have hs' : (s : ℝ) ≠ 0 := by positivity
    push_cast
    field_simp

theorem indexAngle_half {s : ℕ} (heven : 2 ∣ s) (hs : 0 < s) : indexAngle s (s / 2) = pi / 4 := by
  obtain ⟨r, rfl⟩ := heven
  have hr : (r : ℝ) ≠ 0 := by
    exact_mod_cast show r ≠ 0 by omega
  rw [show 2 * r / 2 = r by omega, indexAngle]
  push_cast
  field_simp

/-- A level provides the factor of every even index up to an eighth of a circle. -/
theorem anchor_eq_ok (hk : 1 ≤ k) (hw : 2 * 2 ^ k ≤ w.size)
    (h : Twiddles.Level w (w.size - 2 * 2 ^ k) (2 ^ k)) {j : ℕ} (hj : j ≤ 2 ^ k / 2)
    (heven : j % 2 = 0 ∨ j = 2 ^ k / 2) :
    anchor w (4 * 2 ^ k) j = .ok (ofAngle (indexAngle (2 ^ k) j)) := by
  have htwo : 2 ^ 1 ≤ 2 ^ k := Nat.pow_le_pow_right (by omega) hk
  rcases Nat.eq_zero_or_pos j with rfl | hpos
  · rw [anchor_zero, unit_eq_ofAngle, indexAngle_eq, Nat.cast_zero, zero_mul]
  · rcases Nat.eq_or_lt_of_le hj with rfl | hlt
    · rw [anchor_diagonal htwo hw, h.diagonal,
        indexAngle_half (dvd_pow_self 2 (by omega)) (by omega), ← diagonal_eq_ofAngle]
    · have hstored := h.stored (2 * j) (by omega) (by omega) (by omega)
      have hangle : ((2 * j : ℕ) : ℝ) * Twiddles.angle (2 ^ k) = indexAngle (2 ^ k) j := by
        rw [indexAngle_eq]
        push_cast
        ring
      rw [hangle] at hstored
      have hcos := hstored 0 (by omega)
      rw [add_zero] at hcos
      rw [anchor_stored (by omega) hlt hw, hcos, hstored 1 (by omega), hstored 2 (by omega),
        hstored 3 (by omega)]
      change Except.ok (⟨⟨Real.cos _, Real.sin _⟩,
        ⟨Real.cos ((3 : ℕ) * _), - -Real.sin ((3 : ℕ) * _)⟩⟩ : TwiddleFactor ℝ) = _
      rw [neg_neg, Nat.cast_ofNat]
      rfl

/-- The angle of an index below the eighth, and that of three times the index, have a cosine. -/
theorem cos_step_ne_zero {s : ℕ} (hs : 8 ≤ s) {m : ℝ} (hm : 0 ≤ m) (hm' : m ≤ 3) :
    Real.cos (m * (2 * Twiddles.angle s)) ≠ 0 := by
  have hs' : (8 : ℝ) ≤ s := by exact_mod_cast hs
  have hpi := Real.pi_pos
  have hangle : 0 < Twiddles.angle s := by
    unfold Twiddles.angle
    positivity
  have hbound : Twiddles.angle s * 32 ≤ pi := by
    unfold Twiddles.angle
    rw [div_mul_eq_mul_div, div_le_iff₀ (by linarith)]
    nlinarith
  -- all of these angles lie strictly within a quarter turn
  refine (Real.cos_pos_of_mem_Ioo ⟨?_, ?_⟩).ne'
  · have : 0 ≤ m * (2 * Twiddles.angle s) := by positivity
    linarith
  · have : m * (2 * Twiddles.angle s) ≤ 3 * (2 * Twiddles.angle s) :=
      mul_le_mul_of_nonneg_right hm' (by linarith)
    linarith

/-- A level provides the factor of every index up to an eighth of a circle. -/
theorem firstOctant_eq_ok (hk : 1 ≤ k) (hw : 2 * 2 ^ k ≤ w.size)
    (h : Twiddles.Level w (w.size - 2 * 2 ^ k) (2 ^ k)) {j : ℕ} (hj : j ≤ 2 ^ k / 2) :
    firstOctant w (4 * 2 ^ k) j = .ok (ofAngle (indexAngle (2 ^ k) j)) := by
  by_cases heven : j % 2 = 0 ∨ j = 2 ^ k / 2
  · rw [firstOctant_anchor heven, anchor_eq_ok hk hw h hj heven]
  · obtain ⟨hodd, hne⟩ := not_or.1 heven
    have hk2 : 1 < k := (Nat.pow_lt_pow_iff_right one_lt_two).1 (by omega : 2 ^ 1 < 2 ^ k)
    rcases Nat.eq_or_lt_of_le hk2 with rfl | hk3
    · -- sixteen points
      obtain rfl : j = 1 := by omega
      have hangle : indexAngle (2 ^ 2) 1 = pi / 8 := by
        unfold indexAngle
        push_cast
        ring
      have htriple : 3 * (pi / 8) = pi / 2 - pi / 8 := by ring
      rw [hangle, ofAngle, htriple, Real.cos_pi_div_two_sub, Real.sin_pi_div_two_sub,
        ← h.cosine rfl, ← h.sine rfl]
      exact firstOctant_sixteen hw
    · -- an index between two even ones
      have hlarge : 2 ^ 3 ≤ 2 ^ k := Nat.pow_le_pow_right (by omega) hk3
      have hlow := anchor_eq_ok hk hw h (j := j - 1) (by omega) (by omega)
      have hhigh := anchor_eq_ok hk hw h (j := j + 1) (by omega) (by omega)
      have hlowAngle : indexAngle (2 ^ k) (j - 1) =
          indexAngle (2 ^ k) j - 2 * Twiddles.angle (2 ^ k) := by
        rw [indexAngle_eq, indexAngle_eq, Nat.cast_sub (by omega)]
        push_cast
        ring
      have hhighAngle : indexAngle (2 ^ k) (j + 1) =
          indexAngle (2 ^ k) j + 2 * Twiddles.angle (2 ^ k) := by
        rw [indexAngle_eq, indexAngle_eq]
        push_cast
        ring
      have hsix : 6 * Twiddles.angle (2 ^ k) = 3 * (2 * Twiddles.angle (2 ^ k)) := by ring
      have hsingle := cos_step_ne_zero hlarge (m := 1) (by norm_num) (by norm_num)
      have htriple := cos_step_ne_zero hlarge (m := 3) (by norm_num) le_rfl
      rw [one_mul] at hsingle
      rw [firstOctant_between hodd (by omega) (by omega) hw hlow hhigh, h.double (by omega),
        h.triple (by omega), hlowAngle, hhighAngle, hsix, between_ofAngle hsingle htriple]

/-- A level provides the factor of every index of the first quarter. -/
theorem read_eq_ok (hw : 1 ≤ k → 2 * 2 ^ k ≤ w.size)
    (h : 1 ≤ k → Twiddles.Level w (w.size - 2 * 2 ^ k) (2 ^ k)) {j : ℕ} (hj : j < 2 ^ k) :
    read w (4 * 2 ^ k) j = .ok (ofAngle (indexAngle (2 ^ k) j)) := by
  rcases Nat.eq_zero_or_pos k with rfl | hk
  · obtain rfl : j = 0 := by simpa using hj
    have hangle : indexAngle (2 ^ 0) 0 = 0 := by simp [indexAngle]
    rw [hangle, ← unit_eq_ofAngle]
    rfl
  · rw [read]
    split
    · -- past the eighth the factor is that of the complement, reflected
      have hopposite : pi / 2 - indexAngle (2 ^ k) (2 ^ k - j) = indexAngle (2 ^ k) j := by
        have hs : ((2 ^ k : ℕ) : ℝ) ≠ 0 := by positivity
        unfold indexAngle
        rw [Nat.cast_sub hj.le, Nat.cast_mul]
        field_simp
        ring
      rw [show 4 * 2 ^ k / 4 = 2 ^ k by omega, Index.sub_eq_ok hj.le, ok_bind,
        firstOctant_eq_ok hk (hw hk) (h hk) (by omega), ok_bind, reflect_ofAngle, hopposite]
      rfl
    · exact firstOctant_eq_ok hk (hw hk) (h hk) (by omega)

end Level

end CosineTransform.TwiddleFactor
