import CosineTransform.Proofs.Fourier.Butterflies
import CosineTransform.Proofs.Line.Transform

/-!
# The Fourier transform of a buffer

Over the real numbers, on tables that have seen any sequence of requests for powers of two, one of
them for at least twice as many samples as there are points, the points of a buffer are replaced by
their discrete Fourier transform, in natural order and for either sign of the exponent, and the same
is left by the transform in place. The sums are written out in `transform_eq_sum`.
-/

namespace CosineTransform.Fourier

open Buffer (entry ofFn)
open Real (pi)

/-- Output `k` is the sum of the points `x j` times `exp (± 2 π i j k / 2 ^ p)`. -/
theorem transform_eq_sum {tables : Tables ℝ} {lengths : List ℕ} (ht : tables.Grown lengths)
    (hpow : ∀ n ∈ lengths, n.isPowerOfTwo) {p : ℕ} (hlong : ∃ n ∈ lengths, 2 * 2 ^ p ≤ n)
    (sign : Sign) {a : Array ℝ} (ha : a.size = 2 * 2 ^ p) :
    ∃ b, Stage.onPoints (transform sign tables) a = .ok b ∧
      InPlace.transform sign tables a = .ok () b ∧ b.size = a.size ∧
      ∀ k < 2 ^ p, (⟨entry b (2 * k), entry b (2 * k + 1)⟩ : ℂ) =
        ∑ j ∈ Finset.range (2 ^ p), (⟨entry a (2 * j), entry a (2 * j + 1)⟩ : ℂ) *
          Complex.exp (sign.unit * (2 * pi * j * k / 2 ^ p)) := by
  obtain ⟨n, hn, hle⟩ := hlong
  obtain ⟨K, hbuilt, hmax⟩ := ht.built hpow (List.ne_nil_of_mem hn)
  obtain ⟨width, hdigits⟩ := hbuilt.digits
  have hfit : 2 * 2 ^ p ≤ 2 ^ K := hle.trans (hmax n hn)
  have hp : p + 1 ≤ K := (Nat.pow_le_pow_iff_right one_lt_two).1 (by rwa [pow_succ'])
  have hrun := Stage.onPoints_eq_ok (x := entry a)
    (transform_eq_ok sign (LineTransform.read_twiddles hbuilt hp) hdigits
      (Stage.pairPoint (entry a)))
  have htwiddles : 2 ^ p / 2 ≤ tables.twiddles.size := by
    have hpos := Nat.two_pow_pos p
    have hquarter := ((hbuilt.supports hfit).resolve_left (by omega)).1
    rw [Tables.quarterLength] at hquarter
    omega
  have hplace := InPlace.transform_eq_ok sign htwiddles hdigits hrun
  rw [← ha, Buffer.ofFn_entry, ha] at hrun hplace
  refine ⟨_, hrun, hplace, by rw [Buffer.size_ofFn, ha], ?_⟩
  intro k hk
  rw [Buffer.entry_ofFn _ (by omega), Buffer.entry_ofFn _ (by omega), if_pos (by omega),
    if_neg (by omega), Nat.mul_div_cancel_left k two_pos, show (2 * k + 1) / 2 = k by omega]
  change dft sign (2 ^ p) (Stage.pairPoint (entry a)) k = _
  refine Finset.sum_congr rfl ?_
  intro j _
  rw [Stage.pairPoint, Sign.circle]
  push_cast
  rfl

theorem isPowerOfTwo_of_mem_requests : ∀ n ∈ [2, 16], n.isPowerOfTwo := by
  intro n hn
  rcases List.mem_pair.1 hn with rfl | rfl
  · exact ⟨1, rfl⟩
  · exact ⟨4, rfl⟩

/-- Four points on tables that were asked for sixteen samples and then for two, and the output to
which each of them contributes after another quarter turn. -/
theorem transform_eq_sum_four :
    ∃ tables : Tables ℝ, tables.Grown [2, 16] ∧ ∃ b : Array ℝ,
      InPlace.transform .positive tables #[1, 2, 3, 5, 8, 13, 21, 34] = .ok () b ∧
      b.size = 8 ∧ entry b 2 = 22 ∧ entry b 3 = -29 := by
  obtain ⟨tables, ht⟩ := Tables.exists_grown (T := ℝ) [2, 16]
  obtain ⟨b, -, hb, hsize, hsum⟩ := transform_eq_sum ht isPowerOfTwo_of_mem_requests (p := 2)
    ⟨16, by simp, by norm_num⟩ .positive (a := #[1, 2, 3, 5, 8, 13, 21, 34]) rfl
  have hquarter (j : ℕ) : Complex.exp (Sign.positive.unit * (2 * pi * j * (1 : ℕ) / 2 ^ 2)) =
      Complex.I ^ j := by
    have hangle : Sign.positive.unit * (2 * pi * j * (1 : ℕ) / 2 ^ 2) =
        j * (pi / 2 * Complex.I) := by
      rw [Sign.unit]
      push_cast
      ring
    rw [hangle, Complex.exp_nat_mul, Complex.exp_pi_div_two_mul_I]
  have hvalue := hsum 1 (by norm_num)
  simp only [hquarter] at hvalue
  norm_num [Finset.sum_range_succ, entry, Complex.ext_iff, pow_succ] at hvalue
  exact ⟨tables, ht, b, hb, hsize, hvalue⟩

end CosineTransform.Fourier
