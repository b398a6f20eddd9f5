import CosineTransform.Proofs.Direct
import CosineTransform.Proofs.Fourier.Transform
import CosineTransform.Proofs.Line.RealFourier
import CosineTransform.Proofs.Trig.Growth

/-!
# Line transforms

On tables that support its length a line transform never leaves its bounds, whatever the type of
the samples (`LineTransform.apply_isOk`). Over the real numbers it is the direct sum, in either
direction (`LineTransform.runForward_eq_ok`, `LineTransform.runInverse_eq_ok`), as soon as the
tables are those of a power of two that is no shorter than the line.
-/

namespace CosineTransform.LineTransform

open Buffer (entry ofFn)
open Stage (rotation kernel turnAngle)

section Length

variable {R T : Type} [Precise R] [Sample R T] {n : ℕ} {line : LineTransform T}

theorem length_of_ofLength (h : ofLength n = .ok line) : line.length = n := by
  rw [ofLength] at h
  split at h
  · rw [← Except.ok.inj h]
  · exact nomatch h

theorem exists_ofLength (h : n.isPowerOfTwo) : ∃ line : LineTransform T, ofLength n = .ok line :=
  ⟨_, dif_pos h⟩

/-- A power of two samples, and not one alone, are folded into a power of two points. -/
theorem exists_eq_two_mul (hpow : n.isPowerOfTwo) (h : n ≠ 1) : ∃ p, n = 2 * 2 ^ p := by
  obtain ⟨k, hk⟩ := hpow
  cases k with
  | zero => exact absurd hk h
  | succ p => exact ⟨p, by rw [hk, pow_succ']⟩

theorem exists_length_eq (h : line.length ≠ 1) : ∃ p, line.length = 2 * 2 ^ p :=
  exists_eq_two_mul line.length_isPowerOfTwo h

end Length

/-! ## No fault -/

section Totality

variable {R T : Type} [Precise R] [Sample R T] (line : LineTransform T) {tables : Tables T}
  {width p : ℕ}

theorem runForward_isOk (hd : Digits.Levels tables.rotation width)
    (hw : 2 ^ p / 2 ≤ tables.twiddles.size) (hc : 2 * 2 ^ p ≤ tables.cosines.size) (scaled : Bool)
    (x : ℕ → T) : ∃ y, line.runForward tables scaled (ofFn (2 * 2 ^ p) x) =
      .ok (ofFn (2 * 2 ^ p) y) := by
  have hpos := Nat.two_pow_pos p
  rw [runForward, Stage.fold_eq_ok, ok_bind, Stage.split_eq_ok _ hpos (by omega), ok_bind]
  obtain ⟨z, hz⟩ := Fourier.transform_isOk .negative hw hd _
  rw [hz, ok_bind, Stage.interleave_ofFn, Stage.rotate_eq_ok (by omega) hc, ok_bind,
    normalizeIf_eq_ok _ _ (by omega)]
  exact ⟨_, rfl⟩

theorem runInverse_isOk (hd : Digits.Levels tables.rotation width)
    (hw : 2 ^ p / 2 ≤ tables.twiddles.size) (hc : 2 * 2 ^ p ≤ tables.cosines.size) (scaled : Bool)
    (x : ℕ → T) : ∃ y, line.runInverse tables scaled (ofFn (2 * 2 ^ p) x) =
      .ok (ofFn (2 * 2 ^ p) y) := by
  have hpos := Nat.two_pow_pos p
  rw [runInverse, normalizeIf_eq_ok _ _ (by omega), ok_bind, Stage.rotate_eq_ok (by omega) hc,
    ok_bind, Stage.pairs_eq_ok, ok_bind]
  obtain ⟨z, hz⟩ := Fourier.transform_isOk .positive hw hd _
  rw [hz, ok_bind, Stage.split_eq_ok _ hpos (by omega), ok_bind, Stage.unfold_eq_ok]
  exact ⟨_, rfl⟩

/-- On tables that support its length, a transform ends without a fault and keeps the length. -/
theorem apply_isOk (direction : Direction) (hd : Digits.Levels tables.rotation width)
    (hs : tables.Supports line.length) (scaled : Bool) {a : Array T} (ha : a.size = line.length) :
    ∃ b, line.apply direction tables scaled a = .ok b ∧ b.size = line.length := by
  unfold LineTransform.apply
  rw [if_neg (not_not.2 ha)]
  by_cases hone : line.length = 1
  · exact ⟨a, if_pos hone, ha⟩
  · obtain ⟨p, hlength⟩ := exists_length_eq hone
    have hlarge : ¬line.length ≤ 1 := by
      have hpos := Nat.two_pow_pos p
      omega
    have hsizes : line.length / 4 ≤ tables.twiddles.size ∧ line.length ≤ tables.cosines.size :=
      hs.resolve_left hlarge
    have hline : ofFn (2 * 2 ^ p) (entry a) = a := by
      rw [← hlength, ← ha, Buffer.ofFn_entry]
    rw [if_neg hone, if_pos hs]
    cases direction with
    | forward =>
      obtain ⟨y, hy⟩ := line.runForward_isOk (p := p) hd (by omega) (by omega) scaled (entry a)
      rw [hline] at hy
      exact ⟨_, hy, by rw [Buffer.size_ofFn, hlength]⟩
    | inverse =>
      obtain ⟨y, hy⟩ := line.runInverse_isOk (p := p) hd (by omega) (by omega) scaled (entry a)
      rw [hline] at hy
      exact ⟨_, hy, by rw [Buffer.size_ofFn, hlength]⟩

/-- On tables that support its length, a transform is a function of the line. -/
theorem exists_computes (direction : Direction) (hd : Digits.Levels tables.rotation width)
    (hs : tables.Supports line.length) (scaled : Bool) :
    ∃ image, Computes (line.apply direction tables scaled) line.length image := by
  have hrun (y : ℕ → T) : ∃ z, line.apply direction tables scaled (ofFn line.length y) =
      .ok (ofFn line.length z) := by
    obtain ⟨b, hb, hsize⟩ :=
      line.apply_isOk direction hd hs scaled (Buffer.size_ofFn line.length y)
    refine ⟨entry b, ?_⟩
    rw [← hsize, Buffer.ofFn_entry, hsize, hb]
  choose image himage using hrun
  exact ⟨image, himage⟩

end Totality

/-! ## Over the real numbers -/

section Real

variable {line : LineTransform ℝ} {tables : Tables ℝ} {K p : ℕ}

/-- The tables of a power of two hold the cosines of every shorter line. -/
theorem evenTable (h : tables.Built (2 ^ K / 4) (2 ^ K)) (hK : 0 < K) :
    Cosines.EvenTable tables.cosines := by
  have hsize : tables.cosines.size = 2 ^ K := h.cosineLength_eq
  have hone : 1 < 2 ^ K := Nat.one_lt_two_pow hK.ne'
  refine ⟨by omega, ?_, ?_⟩
  · rw [hsize]
    exact dvd_pow_self 2 hK.ne'
  · rw [hsize]
    exact h.cosineTable hone

/-- The tables of a power of two hold the twiddle factors of every shorter line. -/
theorem read_twiddles (h : tables.Built (2 ^ K / 4) (2 ^ K)) (hp : p + 1 ≤ K) :
    ∀ q, q + 2 ≤ p → ∀ j < 2 ^ q, TwiddleFactor.read tables.twiddles (4 * 2 ^ q) j =
      .ok (.ofAngle (TwiddleFactor.indexAngle (2 ^ q) j)) := by
  intro q hq j hj
  refine TwiddleFactor.read_eq_ok (fun _ => h.two_mul_le_size (by omega)) (fun hpos => ?_) hj
  exact .of_computed (Nat.two_pow_pos q)
    (h.computed (exactScaling_real (2 ^ K)) (fun _ => rfl) le_rfl hpos (by omega))

/-- The weights of a scaled transform. -/
structure Weighted (line : LineTransform ℝ) : Prop where
  scale : line.scale = √(2 / line.length)
  dcScale : line.dcScale = 1 / √2

/-- The transform of a length has the weights of that length. -/
theorem weighted_of_ofLength {n : ℕ} (h : ofLength n = .ok line) : line.Weighted := by
  rw [ofLength] at h
  split at h
  · obtain rfl := Except.ok.inj h
    refine ⟨?_, rfl⟩
    change √((2 : ℕ) / (n : ℝ)) = _
    rw [Nat.cast_ofNat]
  · exact nomatch h

/-- What the stages before the normalization compute. -/
theorem runForward_eq_ok (h : tables.Built (2 ^ K / 4) (2 ^ K)) (hp : p + 1 ≤ K) (scaled : Bool)
    (x : ℕ → ℝ) :
    line.runForward tables scaled (ofFn (2 * 2 ^ p) x) =
      line.normalizeIf scaled (ofFn (2 * 2 ^ p) fun k =>
        ∑ j ∈ Finset.range (2 * 2 ^ p), x j * Direct.wave (2 * 2 ^ p) j k) := by
  have htable := evenTable h (by omega)
  obtain ⟨width, hdigits⟩ := h.digits
  have hdvd := h.dvd_cosines hp
  -- the parts of the transformed points are the samples before the rotation
  have hsum : (fun k => if k % 2 = 0 then
        (Point.ofComplex (dft .negative (2 ^ p) (Stage.exchange .negative (2 ^ p)
          (Stage.foldPoint (2 ^ p) x)) (k / 2))).re
      else (Point.ofComplex (dft .negative (2 ^ p) (Stage.exchange .negative (2 ^ p)
          (Stage.foldPoint (2 ^ p) x)) (k / 2))).im) =
      fun t => ∑ j ∈ Finset.range (2 * 2 ^ p), x j * kernel (2 * 2 ^ p) j t :=
    funext fun t => Stage.sum_mul_kernel_left (Nat.two_pow_pos p) x t
  rw [runForward, Stage.fold_eq_foldPoint, ok_bind,
    Stage.split_eq_exchange .negative htable ((Dvd.intro_left 2 rfl).trans hdvd), ok_bind,
    Fourier.transform_eq_ok .negative (read_twiddles h hp) hdigits, ok_bind,
    Stage.interleave_ofFn, hsum, Stage.rotate_eq_rotation htable hdvd, ok_bind]
  refine congrArg _ (Buffer.ofFn_congr ?_)
  intro k hk
  rw [Stage.rotation_sum]
  refine Finset.sum_congr rfl ?_
  intro j _
  rw [Stage.rotation_kernel hk, Direct.wave_eq]

/-- What the stages after the normalization compute. -/
theorem runInverse_eq_ok (h : tables.Built (2 ^ K / 4) (2 ^ K)) (hp : p + 1 ≤ K) {scaled : Bool}
    {x y : ℕ → ℝ}
    (hy : line.normalizeIf scaled (ofFn (2 * 2 ^ p) x) = .ok (ofFn (2 * 2 ^ p) y)) :
    line.runInverse tables scaled (ofFn (2 * 2 ^ p) x) =
      .ok (ofFn (2 * 2 ^ p) fun k =>
        ∑ j ∈ Finset.range (2 * 2 ^ p), y j * Direct.wave (2 * 2 ^ p) k j) := by
  have htable := evenTable h (by omega)
  obtain ⟨width, hdigits⟩ := h.digits
  have hdvd := h.dvd_cosines hp
  rw [runInverse, hy, ok_bind, Stage.rotate_eq_rotation htable hdvd, ok_bind,
    Stage.pairs_eq_pairPoint, ok_bind,
    Fourier.transform_eq_ok .positive (read_twiddles h hp) hdigits, ok_bind,
    Stage.split_eq_exchange .positive htable ((Dvd.intro_left 2 rfl).trans hdvd), ok_bind,
    Stage.unfold_eq_ok]
  refine congrArg Except.ok (Buffer.ofFn_congr ?_)
  intro k hk
  refine (Stage.sum_mul_kernel_right (Nat.two_pow_pos p) (rotation (2 * 2 ^ p) y) hk).trans ?_
  -- the rotation is moved over to the kernel
  simp only [mul_comm _ (kernel _ _ _)]
  rw [Stage.sum_mul_rotation]
  refine Finset.sum_congr rfl ?_
  intro j hj
  rw [Stage.rotation_kernel (Finset.mem_range.1 hj), Direct.wave_eq, mul_comm]

/-- The normalization weights the frequencies of a line. -/
theorem normalizeIf_weighted (hw : line.Weighted) (scaled : Bool) (x : ℕ → ℝ) :
    line.normalizeIf scaled (ofFn line.length x) = .ok (ofFn line.length fun k =>
      x k * Direct.weightOf scaled line.length k) := by
  rw [normalizeIf_eq_ok _ _ (Nat.pos_of_isPowerOfTwo line.length_isPowerOfTwo)]
  refine congrArg Except.ok (Buffer.ofFn_congr ?_)
  intro k _
  rw [Direct.weightOf, hw.scale, hw.dcScale]
  cases scaled
  · exact (mul_one _).symm
  · rw [if_pos rfl, if_pos rfl]
    split
    · rename_i hk
      rw [hk]
      exact mul_assoc _ _ _
    · rfl

/-- On the tables of a power of two that is no shorter than the line, a transform is the direct sum
of its direction. -/
theorem apply_eq_direct (h : tables.Built (2 ^ K / 4) (2 ^ K)) (hlength : line.length ≤ 2 ^ K)
    (hw : line.Weighted) (direction : Direction) (scaled : Bool) {a : Array ℝ}
    (ha : a.size = line.length) :
    line.apply direction tables scaled a = .ok (Direct.run direction scaled a) := by
  unfold LineTransform.apply
  rw [if_neg (not_not.2 ha)]
  by_cases hone : line.length = 1
  · -- the only sample is its own transform
    have hone' : a.size = 1 := ha.trans hone
    rw [if_pos hone]
    refine congrArg Except.ok (Eq.symm ?_)
    conv_rhs => rw [← Buffer.ofFn_entry a]
    cases direction with
    | forward =>
      refine (Direct.forward_eq scaled a).trans (Buffer.ofFn_congr ?_)
      intro k hk
      obtain rfl : k = 0 := by omega
      rw [hone', Finset.sum_range_one, Direct.weightOf_one, Direct.wave_zero_right, mul_one,
        mul_one]
    | inverse =>
      refine (Direct.inverse_eq scaled a).trans (Buffer.ofFn_congr ?_)
      intro k hk
      obtain rfl : k = 0 := by omega
      rw [hone', Finset.sum_range_one, Direct.weightOf_one, Direct.wave_zero_right, one_mul,
        mul_one]
  · obtain ⟨p, hfold⟩ := exists_length_eq hone
    have hpK : p + 1 ≤ K := by
      refine (Nat.pow_le_pow_iff_right one_lt_two).1 ?_
      rwa [pow_succ', ← hfold]
    have hline : a = ofFn (2 * 2 ^ p) (entry a) := by
      rw [← hfold, ← ha, Buffer.ofFn_entry]
    have hnormalize := normalizeIf_weighted hw scaled
    rw [hfold] at hnormalize
    rw [if_neg hone, if_pos (h.supports hlength)]
    cases direction with
    | forward =>
      rw [Direct.run, Direct.forward_eq, ha, hfold]
      conv_lhs => rw [hline]
      exact (runForward_eq_ok h hpK scaled _).trans (hnormalize _)
    | inverse =>
      rw [Direct.run, Direct.inverse_eq, ha, hfold]
      conv_lhs => rw [hline]
      refine (runInverse_eq_ok h hpK (hnormalize (entry a))).trans ?_
      simp only [mul_comm (entry a _)]

/-- On these tables a transform is the product with its matrix. -/
theorem computes_product (h : tables.Built (2 ^ K / 4) (2 ^ K)) (hlength : line.length ≤ 2 ^ K)
    (hw : line.Weighted) (direction : Direction) (scaled : Bool) :
    Computes (line.apply direction tables scaled) line.length
      (Direct.product direction scaled line.length) := by
  intro x
  rw [apply_eq_direct h hlength hw direction scaled (Buffer.size_ofFn _ x), Direct.run_ofFn]

end Real

end CosineTransform.LineTransform
