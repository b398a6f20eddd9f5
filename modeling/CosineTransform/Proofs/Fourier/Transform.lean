import CosineTransform.Fourier.SplitRadix
import CosineTransform.Proofs.Fourier.Dft
import CosineTransform.Proofs.Fourier.TwiddleFactors

/-!
# The split-radix transform

`splitRadix_add_two` is one step of the recursion as an equation, for any type of samples. Two
inductions follow it: the recursion never leaves its bounds (`splitRadix_isOk`), and over the real
numbers it computes the discrete Fourier transform with the bits of every output index reversed
(`splitRadix_eq_ok`), because reversed bits put its half and its two quarters in a row
(`dft_reverseBits`). Reversing them once more puts the outputs into natural order
(`transform_eq_ok`).
-/

namespace CosineTransform.Fourier

open Buffer (ofFn)
open Digits (reverseBits)

/-! ## One step of the recursion -/

section Step

variable {T : Type} [Scalar T]

/-- The difference of points `j` and `j + 2 * q` of `4 * q` points. -/
def difference (q : ℕ) (z : ℕ → Point T) (j : ℕ) : Point T := z j - z (j + 2 * q)

/-- Point `j` of the quarter that gives the outputs with index `4 * k + 1`. -/
def third (sign : Sign) (q : ℕ) (factor : ℕ → TwiddleFactor T) (z : ℕ → Point T) (j : ℕ) :
    Point T :=
  ((difference q z j).quarterTurn sign (difference q z (j + q))).turn sign (factor j).single

/-- Point `j` of the quarter that gives the outputs with index `4 * k + 3`. -/
def fourth (sign : Sign) (q : ℕ) (factor : ℕ → TwiddleFactor T) (z : ℕ → Point T) (j : ℕ) :
    Point T :=
  ((difference q z j).quarterTurn sign.flip (difference q z (j + q))).turn sign (factor j).triple

theorem splitRadix_zero (sign : Sign) (w : Array T) (a : Array (Point T)) :
    splitRadix sign w 0 a = .ok a := rfl

theorem splitRadix_one (sign : Sign) (w : Array T) (z : ℕ → Point T) :
    splitRadix sign w 1 (ofFn 2 z) =
      .ok (ofFn 2 fun i => if i = 0 then z 0 + z 1 else z 0 - z 1) := by
  rw [splitRadix, Buffer.read_ofFn z (by omega), ok_bind, Buffer.read_ofFn z (by omega)]
  rfl

theorem splitRadix_add_two {sign : Sign} {w : Array T} {p : ℕ} {z : ℕ → Point T}
    {factor : ℕ → TwiddleFactor T}
    (h : ∀ j < 2 ^ p, TwiddleFactor.read w (4 * 2 ^ p) j = .ok (factor j)) :
    splitRadix sign w (p + 2) (ofFn (2 ^ (p + 2)) z) = (do
      return (← splitRadix sign w (p + 1) (ofFn (2 ^ (p + 1)) fun i => z i + z (i + 2 * 2 ^ p))) ++
        (← splitRadix sign w p (ofFn (2 ^ p) (third sign (2 ^ p) factor z))) ++
        (← splitRadix sign w p (ofFn (2 ^ p) (fourth sign (2 ^ p) factor z)))) := by
  have hsize : 2 ^ (p + 2) = 4 * 2 ^ p := by ring
  have hhalf : 2 ^ (p + 1) = 2 * 2 ^ p := by ring
  have hread (i : ℕ) (hi : i < 4 * 2 ^ p) : Buffer.read (ofFn (4 * 2 ^ p) z) i = .ok (z i) :=
    Buffer.read_ofFn z hi
  have hdifference (i : ℕ) (hi : i < 2 * 2 ^ p) :
      (do return (← Buffer.read (ofFn (4 * 2 ^ p) z) i) -
        (← Buffer.read (ofFn (4 * 2 ^ p) z) (i + 2 * 2 ^ p))) =
        Except.ok (difference (2 ^ p) z i) := by
    rw [hread i (by omega), hread (i + 2 * 2 ^ p) (by omega)]
    rfl
  -- the three parts are tabulated one after another, from reads that all succeed
  rw [splitRadix, hsize, hhalf, Nat.one_shiftLeft]
  beta_reduce
  rw [Buffer.tabulate_eq_ok (g := fun i => z i + z (i + 2 * 2 ^ p)), ok_bind,
    Buffer.tabulate_eq_ok (g := third sign (2 ^ p) factor z), ok_bind,
    Buffer.tabulate_eq_ok (g := fourth sign (2 ^ p) factor z), ok_bind]
  · intro j hj
    rw [show 2 * (2 * 2 ^ p) = 4 * 2 ^ p by ring, h j hj, ok_bind, hdifference j (by omega),
      ok_bind, hdifference (j + 2 ^ p) (by omega)]
    rfl
  · intro j hj
    rw [show 2 * (2 * 2 ^ p) = 4 * 2 ^ p by ring, h j hj, ok_bind, hdifference j (by omega),
      ok_bind, hdifference (j + 2 ^ p) (by omega)]
    rfl
  · intro i hi
    rw [hread i (by omega), hread (i + 2 * 2 ^ p) (by omega)]
    rfl

/-- A half and two quarters in a row. -/
theorem ofFn_append_append {α : Type} (p : ℕ) (half third fourth : ℕ → α) :
    ofFn (2 ^ (p + 1)) half ++ ofFn (2 ^ p) third ++ ofFn (2 ^ p) fourth =
      ofFn (2 ^ (p + 2)) fun r =>
        if r < 2 ^ (p + 1) then half r
        else if r < 2 ^ (p + 1) + 2 ^ p then third (r - 2 ^ (p + 1))
        else fourth (r - 2 ^ (p + 1) - 2 ^ p) := by
  rw [Buffer.ofFn_append, Buffer.ofFn_append,
    show 2 ^ (p + 1) + 2 ^ p + 2 ^ p = 2 ^ (p + 2) by ring]
  refine Buffer.ofFn_congr ?_
  intro r _
  split_ifs with hthird hhalf hhalf
  · rfl
  · rfl
  · omega
  · rw [Nat.sub_sub]

/-- One function gives all the factors of a step, so that the step is an equation. -/
theorem exists_factors {w : Array T} {p : ℕ} (hw : 2 * 2 ^ p ≤ w.size) :
    ∃ factor : ℕ → TwiddleFactor T,
      ∀ j < 2 ^ p, TwiddleFactor.read w (4 * 2 ^ p) j = .ok (factor j) := by
  have hfactor (j : ℕ) : ∃ f, j < 2 ^ p → TwiddleFactor.read w (4 * 2 ^ p) j = .ok f := by
    by_cases hj : j < 2 ^ p
    · obtain ⟨f, hf⟩ := TwiddleFactor.read_isOk hj fun _ => hw
      exact ⟨f, fun _ => hf⟩
    · exact ⟨.unit, fun h => absurd h hj⟩
  choose factor hfactor using hfactor
  exact ⟨factor, hfactor⟩

/-- With enough twiddle levels the recursion ends without a fault. -/
theorem splitRadix_isOk (sign : Sign) {w : Array T} {p : ℕ} (hw : 2 ^ p / 2 ≤ w.size)
    (z : ℕ → Point T) : ∃ z', splitRadix sign w p (ofFn (2 ^ p) z) = .ok (ofFn (2 ^ p) z') := by
  induction p using Nat.twoStepInduction generalizing z with
  | zero => exact ⟨z, rfl⟩
  | one => exact ⟨_, splitRadix_one sign w z⟩
  | more p ihQuarter ihHalf =>
    rw [show 2 ^ (p + 2) / 2 = 2 * 2 ^ p by rw [pow_add]; omega] at hw
    obtain ⟨factor, hfactor⟩ := exists_factors hw
    obtain ⟨half, hhalf⟩ := ihHalf (by rw [pow_succ]; omega) fun i => z i + z (i + 2 * 2 ^ p)
    obtain ⟨low, hlow⟩ := ihQuarter (by omega) (third sign (2 ^ p) factor z)
    obtain ⟨high, hhigh⟩ := ihQuarter (by omega) (fourth sign (2 ^ p) factor z)
    rw [splitRadix_add_two hfactor, hhalf, ok_bind, hlow, ok_bind, hhigh, ok_bind,
      ofFn_append_append]
    exact ⟨_, rfl⟩

/-- The recursion depends on the factors that it reads. -/
theorem splitRadix_congr (sign : Sign) {w w' : Array T} {p : ℕ}
    (h : ∀ q, q + 2 ≤ p → ∀ j < 2 ^ q, ∃ f, TwiddleFactor.read w (4 * 2 ^ q) j = .ok f ∧
      TwiddleFactor.read w' (4 * 2 ^ q) j = .ok f) (z : ℕ → Point T) :
    splitRadix sign w p (ofFn (2 ^ p) z) = splitRadix sign w' p (ofFn (2 ^ p) z) := by
  induction p using Nat.twoStepInduction generalizing z with
  | zero => rfl
  | one => rfl
  | more p ihQuarter ihHalf =>
    -- beyond the quarter nothing is known of a factor, and none is read
    have hfactor (j : ℕ) : ∃ f, j < 2 ^ p → TwiddleFactor.read w (4 * 2 ^ p) j = .ok f ∧
        TwiddleFactor.read w' (4 * 2 ^ p) j = .ok f := by
      by_cases hj : j < 2 ^ p
      · obtain ⟨f, hf⟩ := h p le_rfl j hj
        exact ⟨f, fun _ => hf⟩
      · exact ⟨.unit, fun h => absurd h hj⟩
    choose factor hfactor using hfactor
    rw [splitRadix_add_two fun j hj => (hfactor j hj).1,
      splitRadix_add_two fun j hj => (hfactor j hj).2,
      ihHalf fun q hq => h q (by omega), ihQuarter fun q hq => h q (by omega),
      ihQuarter fun q hq => h q (by omega)]

end Step

/-! ## Natural order -/

/-- Reversing the bits of every index is its own inverse as a rearrangement. -/
theorem reverseOrder_eq_ok {α : Type} {table : Array ℕ} {width : ℕ} (h : Digits.Levels table width)
    (p : ℕ) (z : ℕ → α) :
    reverseOrder table (ofFn (2 ^ p) z) = .ok (ofFn (2 ^ p) fun i => z (reverseBits p i)) := by
  rw [reverseOrder, Buffer.size_ofFn]
  split
  · rename_i hsmall
    -- fewer than four points are left in order, as reversing one bit changes nothing
    have hp : p < 2 := (Nat.pow_lt_pow_iff_right one_lt_two).1 (by omega : 2 ^ p < 2 ^ 2)
    refine congrArg Except.ok (Buffer.ofFn_congr ?_)
    intro i hi
    rw [Digits.reverseBits_of_lt_two hp hi]
  · rw [Nat.log2_two_pow]
    refine Buffer.tabulate_eq_ok ?_
    intro i hi
    rw [Digits.reverseIndex_eq_ok h hi, ok_bind, Buffer.read_ofFn z (Digits.reverseBits_lt p i)]

section Totality

variable {T : Type} [Scalar T]

/-- On tables with enough twiddle levels, points are transformed without a fault. -/
theorem transform_isOk (sign : Sign) {tables : Tables T} {width p : ℕ}
    (hw : 2 ^ p / 2 ≤ tables.twiddles.size) (hd : Digits.Levels tables.rotation width)
    (z : ℕ → Point T) :
    ∃ z', transform sign tables (ofFn (2 ^ p) z) = .ok (ofFn (2 ^ p) z') := by
  obtain ⟨z', hz'⟩ := splitRadix_isOk sign hw z
  rw [transform, Buffer.size_ofFn, Nat.log2_two_pow, hz', ok_bind, reverseOrder_eq_ok hd]
  exact ⟨_, rfl⟩

/-- Points are transformed alike on tables with the same factors, however wide the levels of
reversed digits are. -/
theorem transform_congr (sign : Sign) {tables tables' : Tables T} {width width' p : ℕ}
    (hw : 2 ^ p / 2 ≤ tables.twiddles.size) (hd : Digits.Levels tables.rotation width)
    (hd' : Digits.Levels tables'.rotation width')
    (h : ∀ q, q + 2 ≤ p → ∀ j < 2 ^ q, ∃ f,
      TwiddleFactor.read tables.twiddles (4 * 2 ^ q) j = .ok f ∧
      TwiddleFactor.read tables'.twiddles (4 * 2 ^ q) j = .ok f) (z : ℕ → Point T) :
    transform sign tables (ofFn (2 ^ p) z) = transform sign tables' (ofFn (2 ^ p) z) := by
  obtain ⟨z', hz'⟩ := splitRadix_isOk sign hw z
  rw [transform, transform, Buffer.size_ofFn, Nat.log2_two_pow, ← splitRadix_congr sign h, hz',
    ok_bind, ok_bind, reverseOrder_eq_ok hd, reverseOrder_eq_ok hd']

end Totality

/-! ## Over the real numbers -/

theorem third_ofComplex (sign : Sign) (q : ℕ) (x : ℕ → ℂ) (j : ℕ) :
    third sign q (fun j => .ofAngle (TwiddleFactor.indexAngle q j)) (fun i => .ofComplex (x i)) j =
      .ofComplex (quarterOne sign q x j) := by
  rw [third, quarterOne, difference, difference, ← Point.ofComplex_sub, ← Point.ofComplex_sub,
    Point.quarterTurn_ofComplex, TwiddleFactor.ofAngle, Point.turn_ofComplex,
    TwiddleFactor.indexAngle]

theorem fourth_ofComplex (sign : Sign) (q : ℕ) (x : ℕ → ℂ) (j : ℕ) :
    fourth sign q (fun j => .ofAngle (TwiddleFactor.indexAngle q j)) (fun i => .ofComplex (x i)) j =
      .ofComplex (quarterThree sign q x j) := by
  rw [fourth, quarterThree, difference, difference, ← Point.ofComplex_sub, ← Point.ofComplex_sub,
    Point.quarterTurn_ofComplex, TwiddleFactor.ofAngle, Point.turn_ofComplex,
    TwiddleFactor.indexAngle]

/-- In the order of reversed bits, the outputs with an even index come first, and then those of the
two quarters. -/
theorem dft_reverseBits (sign : Sign) (x : ℕ → ℂ) {p r : ℕ} (hr : r < 4 * 2 ^ p) :
    dft sign (4 * 2 ^ p) x (reverseBits (p + 2) r) =
      if r < 2 ^ (p + 1) then
        dft sign (2 ^ (p + 1)) (fun i => x i + x (i + 2 * 2 ^ p)) (reverseBits (p + 1) r)
      else if r < 2 ^ (p + 1) + 2 ^ p then
        dft sign (2 ^ p) (quarterOne sign (2 ^ p) x) (reverseBits p (r - 2 ^ (p + 1)))
      else
        dft sign (2 ^ p) (quarterThree sign (2 ^ p) x)
          (reverseBits p (r - 2 ^ (p + 1) - 2 ^ p)) := by
  have hpos := Nat.two_pow_pos p
  have hhalf : 2 ^ (p + 1) = 2 * 2 ^ p := by ring
  -- outputs with last bit 0, with last bits 01 and with last bits 11
  split_ifs with hlow hmiddle
  · rw [Digits.reverseBits_succ_of_lt hlow, show 4 * 2 ^ p = 2 * (2 * 2 ^ p) by ring,
      dft_even sign (by omega), hhalf]
  · obtain ⟨i, rfl⟩ := Nat.exists_eq_add_of_le (not_lt.1 hlow)
    have hi : i < 2 ^ p := by omega
    rw [Nat.add_sub_cancel_left, Digits.reverseBits_succ_add (by omega),
      Digits.reverseBits_succ_of_lt hi, ← dft_one sign x hpos]
    congr 1
    ring
  · obtain ⟨i, rfl⟩ := Nat.exists_eq_add_of_le (not_lt.1 hmiddle)
    have hi : i < 2 ^ p := by omega
    rw [Nat.add_assoc, Nat.add_sub_cancel_left, Nat.add_sub_cancel_left,
      Digits.reverseBits_succ_add (by omega), Digits.reverseBits_succ_add hi,
      ← dft_three sign x hpos]
    congr 1
    ring

/-- With its levels in place, the recursion computes the transform in the order of reversed bits. -/
theorem splitRadix_eq_ok (sign : Sign) {w : Array ℝ} {p : ℕ}
    (hw : ∀ q, q + 2 ≤ p → ∀ j < 2 ^ q,
      TwiddleFactor.read w (4 * 2 ^ q) j = .ok (.ofAngle (TwiddleFactor.indexAngle (2 ^ q) j)))
    (x : ℕ → ℂ) :
    splitRadix sign w p (ofFn (2 ^ p) fun i => .ofComplex (x i)) =
      .ok (ofFn (2 ^ p) fun r => .ofComplex (dft sign (2 ^ p) x (reverseBits p r))) := by
  -- along the recursion: each part leaves the outputs of its own transform in reversed order
  induction p using Nat.twoStepInduction generalizing x with
  | zero =>
    rw [splitRadix_zero]
    refine congrArg Except.ok (Buffer.ofFn_congr ?_)
    intro r hr
    obtain rfl : r = 0 := by simpa using hr
    exact congrArg Point.ofComplex (dft_one_zero sign x).symm
  | one =>
    rw [pow_one, splitRadix_one, ← Point.ofComplex_add, ← Point.ofComplex_sub]
    refine congrArg Except.ok (Buffer.ofFn_congr ?_)
    intro r hr
    interval_cases r
    · rw [if_pos rfl]
      exact congrArg Point.ofComplex (dft_two_zero sign x).symm
    · rw [if_neg one_ne_zero]
      exact congrArg Point.ofComplex (dft_two_one sign x).symm
  | more p ihQuarter ihHalf =>
    have hfour : 2 ^ (p + 2) = 4 * 2 ^ p := by ring
    have hhalf := ihHalf (fun q hq => hw q (by omega)) fun i => x i + x (i + 2 * 2 ^ p)
    have hone := ihQuarter (fun q hq => hw q (by omega)) (quarterOne sign (2 ^ p) x)
    have hthree := ihQuarter (fun q hq => hw q (by omega)) (quarterThree sign (2 ^ p) x)
    simp only [Point.ofComplex_add] at hhalf
    rw [splitRadix_add_two (hw p le_rfl), funext (third_ofComplex sign (2 ^ p) x),
      funext (fourth_ofComplex sign (2 ^ p) x), hhalf, ok_bind, hone, ok_bind, hthree, ok_bind,
      ofFn_append_append]
    refine congrArg Except.ok (Buffer.ofFn_congr ?_)
    intro r hr
    rw [hfour] at hr ⊢
    rw [dft_reverseBits sign x hr, apply_ite Point.ofComplex, apply_ite Point.ofComplex]

/-- The transform of `2 ^ p` points is their discrete Fourier transform, in natural order. -/
theorem transform_eq_ok (sign : Sign) {tables : Tables ℝ} {width p : ℕ}
    (hw : ∀ q, q + 2 ≤ p → ∀ j < 2 ^ q, TwiddleFactor.read tables.twiddles (4 * 2 ^ q) j =
      .ok (.ofAngle (TwiddleFactor.indexAngle (2 ^ q) j)))
    (hd : Digits.Levels tables.rotation width) (x : ℕ → ℂ) :
    transform sign tables (ofFn (2 ^ p) fun i => .ofComplex (x i)) =
      .ok (ofFn (2 ^ p) fun k => .ofComplex (dft sign (2 ^ p) x k)) := by
  rw [transform, Buffer.size_ofFn, Nat.log2_two_pow, splitRadix_eq_ok sign hw, ok_bind,
    reverseOrder_eq_ok hd]
  refine congrArg Except.ok (Buffer.ofFn_congr ?_)
  intro k hk
  rw [Digits.reverseBits_reverseBits hk]

end CosineTransform.Fourier
