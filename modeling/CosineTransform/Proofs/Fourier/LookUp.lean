import CosineTransform.Proofs.Line.Transform

/-!
# Looking up twiddle factors

`TwiddleFactor.lookUp` is a single look-up with one route for each kind of index, and the two
neighbours of an odd index are looked up in the same way. As these are even, or the eighth itself,
it descends once, and is the reading of the first octant (`TwiddleFactor.firstOctant_eq_lookUp`).

Tables whose longest granted length is a power of two hold the factors of every butterfly over half
as many points or fewer, whatever else was asked of them (`TwiddleFactor.read_eq_unit_points`).
-/

namespace CosineTransform.TwiddleFactor

open Real (pi)

/-! ## Descending to the neighbours -/

section LookUp

variable {T : Type} [Scalar T]

/-- The factor at an index up to an eighth of `points`. Both neighbours of an odd index are even. -/
def lookUp (w : Array T) (points j : ℕ) : Except Fault (TwiddleFactor T) :=
  if j = 0 then .ok unit
  else do
    let start ← Index.sub w.size (points / 2)
    if j = points / 8 then
      let r ← Buffer.read w (start + 1)
      return ⟨⟨r, r⟩, ⟨-r, r⟩⟩
    else if points = 16 then
      let cosine ← Buffer.read w (start + 2)
      let sine ← Buffer.read w (start + 3)
      return ⟨⟨cosine, sine⟩, ⟨sine, cosine⟩⟩
    else if j % 2 = 0 then
      let single : Point T := ⟨← Buffer.read w (start + 2 * j), ← Buffer.read w (start + 2 * j + 1)⟩
      let re ← Buffer.read w (start + 2 * j + 2)
      let im ← Buffer.read w (start + 2 * j + 3)
      return ⟨single, ⟨re, -im⟩⟩
    else
      let low ← lookUp w points (j - 1)
      let high ← lookUp w points (j + 1)
      let first ← Buffer.read w (start + 2)
      let second ← Buffer.read w (start + 3)
      return between low high first second
termination_by j % 2

variable {w : Array T} {s j : ℕ}

/-- The look-up of an index between two neighbours that have an entry. -/
theorem lookUp_between (hodd : j % 2 ≠ 0) (hlt : j < s / 2) (hs : 4 < s) (hw : 2 * s ≤ w.size)
    {low high : TwiddleFactor T} (hlow : lookUp w (4 * s) (j - 1) = .ok low)
    (hhigh : lookUp w (4 * s) (j + 1) = .ok high) :
    lookUp w (4 * s) j = .ok (between low high (Buffer.entry w (w.size - 2 * s + 2))
      (Buffer.entry w (w.size - 2 * s + 3))) := by
  rw [lookUp, if_neg (by omega), show 4 * s / 2 = 2 * s by omega, Index.sub_eq_ok hw, ok_bind,
    if_neg (by omega), if_neg (by omega), if_neg hodd, hlow, ok_bind, hhigh, ok_bind,
    Buffer.read_eq_entry (by omega), ok_bind, Buffer.read_eq_entry (by omega)]
  rfl

/-- An even index, or the eighth itself, does not descend. -/
theorem anchor_eq_lookUp (hj : j ≤ s / 2) (heven : j % 2 = 0 ∨ j = s / 2) :
    anchor w (4 * s) j = lookUp w (4 * s) j := by
  unfold anchor lookUp
  split
  · rfl
  refine bind_congr fun start => ?_
  split
  · rfl
  · rw [if_neg (by omega), if_pos (by omega)]

/-- Descending to the neighbours of an odd index is reading their anchors, on any table. -/
theorem firstOctant_eq_lookUp (hj : j ≤ s / 2) :
    firstOctant w (4 * s) j = lookUp w (4 * s) j := by
  by_cases heven : j % 2 = 0 ∨ j = s / 2
  · rw [firstOctant_anchor heven, anchor_eq_lookUp hj heven]
  obtain ⟨hodd, hne⟩ := not_or.1 heven
  rcases Nat.lt_or_ge w.size (2 * s) with hshort | hw
  · -- the table ends before the level, and both notice it first
    have hstart : Index.sub w.size (4 * s / 2) = .error (.negative w.size (4 * s / 2)) :=
      if_neg (by omega)
    rw [firstOctant, lookUp, if_neg (by omega), if_neg (by omega), hstart, error_bind, error_bind]
  rcases eq_or_ne s 4 with rfl | hs
  · obtain rfl : j = 1 := by omega
    refine (firstOctant_sixteen hw).trans ?_
    rw [lookUp, if_neg (by omega), Index.sub_eq_ok hw, ok_bind, if_neg (by omega), if_pos rfl,
      Buffer.read_eq_entry (by omega), ok_bind, Buffer.read_eq_entry (by omega)]
    rfl
  · obtain ⟨low, hlow⟩ := anchor_isOk (j := j - 1) (by omega) (by omega) hw
    obtain ⟨high, hhigh⟩ := anchor_isOk (j := j + 1) (by omega) (by omega) hw
    rw [firstOctant_between hodd (by omega) (by omega) hw hlow hhigh]
    rw [anchor_eq_lookUp (by omega) (by omega)] at hlow hhigh
    exact (lookUp_between hodd (by omega) (by omega) hw hlow hhigh).symm

end LookUp

/-! ## Over the real numbers -/

/-- Whatever was asked of the tables, as long as the longest length that they were granted is a
power of two: a butterfly over a power of two points, at most half as many as that length, reads the
points at the angles `t` and `3 * t` of the unit circle, and up to the eighth of a circle the
look-up finds the same. -/
theorem read_eq_unit_points {tables : Tables ℝ} {lengths : List ℕ} (ht : tables.Grown lengths)
    (hlongest : (Tables.longest lengths).isPowerOfTwo) {points : ℕ} (hpow : points.isPowerOfTwo)
    (hfour : 4 ≤ points) (hfit : points ≤ Tables.longest lengths / 2) {j : ℕ}
    (hj : j < points / 4) :
    let t := 2 * pi * j / points
    let factor : TwiddleFactor ℝ :=
      ⟨⟨Real.cos t, Real.sin t⟩, ⟨Real.cos (3 * t), Real.sin (3 * t)⟩⟩
    read tables.twiddles points j = .ok factor ∧
      (j ≤ points / 8 → lookUp tables.twiddles points j = .ok factor) := by
  intro t factor
  obtain ⟨K, hK, hbuilt⟩ := ht.built_longest hlongest
  obtain ⟨r, rfl⟩ := hpow
  rw [hK] at hfit
  obtain ⟨q, rfl⟩ : ∃ q, r = q + 2 :=
    Nat.exists_eq_add_of_le' ((Nat.pow_le_pow_iff_right one_lt_two).1 hfour)
  -- the butterfly goes over four times the size of its level
  have hsize : 2 ^ (q + 2) = 4 * 2 ^ q := by rw [pow_add, mul_comm]; rfl
  have hlevel : q + 3 ≤ K := by
    refine (Nat.pow_le_pow_iff_right one_lt_two).1 ?_
    rw [pow_succ]
    omega
  have hread : read tables.twiddles (2 ^ (q + 2)) j = .ok factor := by
    have hfactor := LineTransform.read_twiddles hbuilt hlevel q le_rfl j (by omega)
    rwa [← hsize, indexAngle, ← hsize] at hfactor
  refine ⟨hread, fun hlow => ?_⟩
  rw [hsize] at hread hlow ⊢
  rw [← firstOctant_eq_lookUp (by omega), ← hread, read, if_neg (by omega)]

/-- The fifth factor of 32 points on tables for 64 samples: past the eighth, the reflection of one
between a stored factor and that of the eighth. -/
theorem read_eq_unit_points_thirty_two :
    ∃ tables : Tables ℝ, tables.Grown [64] ∧
      read tables.twiddles 32 5 =
        .ok ⟨⟨Real.cos (5 * pi / 16), Real.sin (5 * pi / 16)⟩,
          ⟨Real.cos (15 * pi / 16), Real.sin (15 * pi / 16)⟩⟩ := by
  obtain ⟨tables, ht⟩ := Tables.exists_grown (T := ℝ) [64]
  have hread := (read_eq_unit_points ht ⟨6, rfl⟩ (⟨5, rfl⟩ : Nat.isPowerOfTwo 32) (by norm_num)
    (by decide) (j := 5) (by norm_num)).1
  have hangle : 2 * pi * (5 : ℕ) / (32 : ℕ) = 5 * pi / 16 := by
    push_cast
    ring
  have htriple : 3 * (5 * pi / 16) = 15 * pi / 16 := by ring
  rw [hangle, htriple] at hread
  exact ⟨tables, ht, hread⟩

end CosineTransform.TwiddleFactor
