import CosineTransform.Proofs.Fourier.NaturalOrder
import CosineTransform.Proofs.InPlace

/-!
# The Fourier transform in place

A butterfly takes four points at equal distances, and leaves what it makes of them in their places.
No two butterflies of a step share a point, so when all of them are done a half and two quarters
stand in a row (`InPlace.inRow`). The next steps run on these slices of the buffer. At the end the
points are exchanged into natural order.
-/

namespace CosineTransform.InPlace

open Buffer (ofFn readPoint writePoint)
open Digits (reverseBits)
open CosineTransform.Fourier (third fourth)
open Point (parts)

variable {T : Type} {q : ℕ}

/-! ## Slices -/

section Slices

/-- Point `r` of a half and two quarters of `4 * q` points in a row. -/
def inRow (q : ℕ) (half low high : ℕ → Point T) (r : ℕ) : Point T :=
  if r < 2 * q then half r else if r < 3 * q then low (r - 2 * q) else high (r - 3 * q)

variable {program : InPlace T Unit} {part result half low high : ℕ → Point T}

theorem onHalf_eq_ok
    (h : program (ofFn (2 * (2 * q)) (parts part)) = .ok () (ofFn (2 * (2 * q)) (parts result))) :
    onSlice (2 * 0) (2 * (2 * q)) program (ofFn (2 * (4 * q)) (parts (inRow q part low high))) =
      .ok () (ofFn (2 * (4 * q)) (parts (inRow q result low high))) := by
  have hslice (half : ℕ → Point T) : ∀ i < 2 * q, inRow q half low high (0 + i) = half i := by
    intro i hi
    rw [inRow, if_pos (by omega), Nat.zero_add]
  refine onSlice_parts (by omega) ?_ ?_
  · intro i _ hi
    rw [inRow, inRow, if_neg (by omega : ¬i < 2 * q), if_neg (by omega : ¬i < 2 * q)]
  · rwa [Point.ofFn_parts_congr (hslice part), Point.ofFn_parts_congr (hslice result)]

theorem onLow_eq_ok
    (h : program (ofFn (2 * q) (parts part)) = .ok () (ofFn (2 * q) (parts result))) :
    onSlice (2 * (2 * q)) (2 * q) program (ofFn (2 * (4 * q)) (parts (inRow q half part high))) =
      .ok () (ofFn (2 * (4 * q)) (parts (inRow q half result high))) := by
  have hslice (low : ℕ → Point T) : ∀ i < q, inRow q half low high (2 * q + i) = low i := by
    intro i hi
    rw [inRow, if_neg (by omega), if_pos (by omega), Nat.add_sub_cancel_left]
  -- the other two parts of the row lie beside the slice
  refine onSlice_parts (by omega) ?_ ?_
  · intro i _ hi
    rcases Nat.lt_or_ge i (2 * q) with hlow | hhigh
    · rw [inRow, inRow, if_pos hlow, if_pos hlow]
    · rw [inRow, inRow, if_neg (by omega), if_neg (by omega), if_neg (by omega),
        if_neg (by omega)]
  · rwa [Point.ofFn_parts_congr (hslice part), Point.ofFn_parts_congr (hslice result)]

theorem onHigh_eq_ok
    (h : program (ofFn (2 * q) (parts part)) = .ok () (ofFn (2 * q) (parts result))) :
    onSlice (2 * (3 * q)) (2 * q) program (ofFn (2 * (4 * q)) (parts (inRow q half low part))) =
      .ok () (ofFn (2 * (4 * q)) (parts (inRow q half low result))) := by
  have hslice (high : ℕ → Point T) : ∀ i < q, inRow q half low high (3 * q + i) = high i := by
    intro i hi
    rw [inRow, if_neg (by omega), if_neg (by omega), Nat.add_sub_cancel_left]
  refine onSlice_parts (by omega) ?_ ?_
  · intro i hm hi
    rcases Nat.lt_or_ge i (2 * q) with hlow | hhigh
    · rw [inRow, inRow, if_pos hlow, if_pos hlow]
    · rw [inRow, inRow, if_neg (by omega), if_pos (by omega), if_neg (by omega),
        if_pos (by omega)]
  · rwa [Point.ofFn_parts_congr (hslice part), Point.ofFn_parts_congr (hslice result)]

end Slices

variable [Scalar T]

/-! ## Butterflies -/

/-- The butterfly on points `j`, `j + q`, `j + 2 * q` and `j + 3 * q` of `4 * q` points. -/
def butterflyAt (sign : Sign) (w : Array T) (q j : ℕ) (a : Array T) : Except Fault (Array T) := do
  let factor ← TwiddleFactor.read w (4 * q) j
  let first ← readPoint a (2 * j)
  let second ← readPoint a (2 * (j + q))
  let third ← readPoint a (2 * (j + 2 * q))
  let fourth ← readPoint a (2 * (j + q + 2 * q))
  let even := first - third
  let odd := second - fourth
  let a ← writePoint a (2 * j) (first + third)
  let a ← writePoint a (2 * (j + q)) (second + fourth)
  let a ← writePoint a (2 * (j + 2 * q)) ((even.quarterTurn sign odd).turn sign factor.single)
  writePoint a (2 * (j + q + 2 * q)) ((even.quarterTurn sign.flip odd).turn sign factor.triple)

section Butterflies

/-- Point `r` of the points `z` after the first `turns` butterflies. -/
def spreading (sign : Sign) (q : ℕ) (factor : ℕ → TwiddleFactor T) (z : ℕ → Point T)
    (turns r : ℕ) : Point T :=
  if r < turns ∨ q ≤ r ∧ r < q + turns ∨ 2 * q ≤ r ∧ r < 2 * q + turns ∨
      3 * q ≤ r ∧ r < 3 * q + turns then
    inRow q (fun i => z i + z (i + 2 * q)) (third sign q factor z) (fourth sign q factor z) r
  else z r

variable {sign : Sign} {factor : ℕ → TwiddleFactor T} {w : Array T}

theorem butterflyAt_eq_ok {j : ℕ} (h : TwiddleFactor.read w (4 * q) j = .ok (factor j))
    (hj : j < q) (z : ℕ → Point T) :
    butterflyAt sign w q j (ofFn (2 * (4 * q)) (parts (spreading sign q factor z j))) =
      .ok (ofFn (2 * (4 * q)) (parts (spreading sign q factor z (j + 1)))) := by
  -- the four points of this turn have not been written yet
  have huntouched (r : ℕ) (hr : r = j ∨ r = j + q ∨ r = j + 2 * q ∨ r = j + q + 2 * q) :
      spreading sign q factor z j r = z r := by
    rw [spreading, if_neg (by omega)]
  rw [butterflyAt, h, ok_bind, Buffer.readPoint_parts _ (by omega), ok_bind,
    Buffer.readPoint_parts _ (by omega), ok_bind, Buffer.readPoint_parts _ (by omega), ok_bind,
    Buffer.readPoint_parts _ (by omega), ok_bind]
  dsimp only
  rw [Buffer.writePoint_parts _ _ (by omega), ok_bind, Buffer.writePoint_parts _ _ (by omega),
    ok_bind, Buffer.writePoint_parts _ _ (by omega), ok_bind,
    Buffer.writePoint_parts _ _ (by omega), huntouched j (by omega),
    huntouched (j + q) (by omega), huntouched (j + 2 * q) (by omega),
    huntouched (j + q + 2 * q) (by omega)]
  refine congrArg Except.ok (Point.ofFn_parts_congr ?_)
  intro r hr
  -- which of the four it is, or a point of another turn
  split_ifs with hfourth hthird hsecond hfirst
  · rw [spreading, if_pos (by omega), inRow, if_neg (by omega), if_neg (by omega), hfourth,
      show j + q + 2 * q - 3 * q = j by omega]
    rfl
  · rw [spreading, if_pos (by omega), inRow, if_neg (by omega), if_pos (by omega), hthird,
      Nat.add_sub_cancel]
    rfl
  · rw [spreading, if_pos (by omega), inRow, if_pos (by omega), hsecond]
  · rw [spreading, if_pos (by omega), inRow, if_pos (by omega), hfirst]
  · exact if_congr (by omega) rfl rfl

theorem butterflies_eq_ok (h : ∀ j < q, TwiddleFactor.read w (4 * q) j = .ok (factor j))
    (z : ℕ → Point T) :
    loop (butterflyAt sign w q) q (ofFn (2 * (4 * q)) (parts z)) =
      .ok () (ofFn (2 * (4 * q)) (parts (inRow q (fun i => z i + z (i + 2 * q))
        (third sign q factor z) (fourth sign q factor z)))) := by
  refine loop_eq_ok (fun j => ofFn (2 * (4 * q)) (parts (spreading sign q factor z j))) ?_ ?_ ?_
  · refine Point.ofFn_parts_congr fun r _ => ?_
    rw [spreading, if_neg (by omega)]
  · refine Point.ofFn_parts_congr fun r _ => ?_
    rw [spreading, if_pos (by omega)]
  · intro j hj
    exact butterflyAt_eq_ok (h j hj) hj z

end Butterflies

/-! ## The recursion -/

/-- `Fourier.splitRadix` in place. -/
def splitRadix (sign : Sign) (w : Array T) : (p : ℕ) → InPlace T Unit
  | 0 => pure ()
  | 1 => turn fun a => do
    let first ← readPoint a (2 * 0)
    let second ← readPoint a (2 * 1)
    let a ← writePoint a (2 * 0) (first + second)
    writePoint a (2 * 1) (first - second)
  | p + 2 => do
    let quarter := 2 ^ p
    loop (butterflyAt sign w quarter) quarter
    onSlice (2 * 0) (2 * (2 * quarter)) (splitRadix sign w (p + 1))
    onSlice (2 * (2 * quarter)) (2 * quarter) (splitRadix sign w p)
    onSlice (2 * (3 * quarter)) (2 * quarter) (splitRadix sign w p)

theorem splitRadix_one (sign : Sign) (w : Array T) (z : ℕ → Point T) :
    splitRadix sign w 1 (ofFn (2 * 2) (parts z)) =
      .ok () (ofFn (2 * 2) (parts fun i => if i = 0 then z 0 + z 1 else z 0 - z 1)) := by
  refine turn_eq_ok ?_
  rw [Buffer.readPoint_parts _ two_pos, ok_bind, Buffer.readPoint_parts _ one_lt_two, ok_bind,
    Buffer.writePoint_parts _ _ two_pos, ok_bind, Buffer.writePoint_parts _ _ one_lt_two]
  refine congrArg Except.ok (Point.ofFn_parts_congr ?_)
  intro i hi
  rcases eq_or_ne i 0 with rfl | hne
  · rfl
  · rw [if_pos (by omega), if_neg hne]

/-- With enough twiddle levels the recursion ends without a fault, and leaves the points of
`Fourier.splitRadix`. -/
theorem splitRadix_isOk (sign : Sign) {w : Array T} {p : ℕ} (hw : 2 ^ p / 2 ≤ w.size)
    (z : ℕ → Point T) :
    ∃ z', Fourier.splitRadix sign w p (ofFn (2 ^ p) z) = .ok (ofFn (2 ^ p) z') ∧
      splitRadix sign w p (ofFn (2 * 2 ^ p) (parts z)) = .ok () (ofFn (2 * 2 ^ p) (parts z')) := by
  -- the half is one step shorter and the quarters are two
  induction p using Nat.twoStepInduction generalizing z with
  | zero => exact ⟨z, rfl, rfl⟩
  | one => exact ⟨_, Fourier.splitRadix_one sign w z, splitRadix_one sign w z⟩
  | more p ihQuarter ihHalf =>
    have hhalfSize : 2 ^ (p + 1) = 2 * 2 ^ p := pow_succ' 2 p
    have hsize : 2 ^ (p + 2) = 4 * 2 ^ p := by ring
    obtain ⟨factor, hfactor⟩ := Fourier.exists_factors (by omega : 2 * 2 ^ p ≤ w.size)
    obtain ⟨half, hhalf, hhalf'⟩ := ihHalf (by omega) fun i => z i + z (i + 2 * 2 ^ p)
    obtain ⟨low, hlow, hlow'⟩ := ihQuarter (by omega) (third sign (2 ^ p) factor z)
    obtain ⟨high, hhigh, hhigh'⟩ := ihQuarter (by omega) (fourth sign (2 ^ p) factor z)
    refine ⟨inRow (2 ^ p) half low high, ?_, ?_⟩
    · rw [Fourier.splitRadix_add_two hfactor, hhalf, ok_bind, hlow, ok_bind, hhigh, ok_bind]
      refine congrArg Except.ok ((Fourier.ofFn_append_append p half low high).trans ?_)
      refine Buffer.ofFn_congr fun r _ => ?_
      rw [inRow, show r - 2 ^ (p + 1) - 2 ^ p = r - 3 * 2 ^ p by omega, hhalfSize,
        show 2 * 2 ^ p + 2 ^ p = 3 * 2 ^ p by ring]
    · rw [hhalfSize] at hhalf'
      rw [hsize, splitRadix, bind_of_ok (butterflies_eq_ok hfactor z),
        bind_of_ok (onHalf_eq_ok hhalf'), bind_of_ok (onLow_eq_ok hlow')]
      exact onHigh_eq_ok hhigh'

/-! ## Natural order -/

omit [Scalar T] in
/-- Parts that are gathered are those of the points at the reversed indices. -/
theorem gathered_parts (p : ℕ) (z : ℕ → Point T) (t : ℕ) :
    Fourier.gathered p (parts z) t = parts (fun i => z (reverseBits p i)) t := by
  unfold Fourier.gathered parts
  dsimp only
  rw [Nat.mul_add_mod, Nat.mod_mod, Nat.mul_add_div two_pos,
    Nat.div_eq_of_lt (Nat.mod_lt t two_pos), Nat.add_zero]

/-- `Fourier.transform` in place. -/
def transform (sign : Sign) (tables : Tables T) : InPlace T Unit := do
  let points := (← get).size / 2
  splitRadix sign tables.twiddles points.log2
  Fourier.exchangeOrder tables.rotation

/-- On tables with enough twiddle levels, the points are replaced by those of the transform. -/
theorem transform_isOk (sign : Sign) {tables : Tables T} {width p : ℕ}
    (hw : 2 ^ p / 2 ≤ tables.twiddles.size) (hd : Digits.Levels tables.rotation width)
    (z : ℕ → Point T) :
    ∃ z', Fourier.transform sign tables (ofFn (2 ^ p) z) = .ok (ofFn (2 ^ p) z') ∧
      transform sign tables (ofFn (2 * 2 ^ p) (parts z)) =
        .ok () (ofFn (2 * 2 ^ p) (parts z')) := by
  obtain ⟨z', hz', hplace⟩ := splitRadix_isOk sign hw z
  refine ⟨fun i => z' (reverseBits p i), ?_, ?_⟩
  · rw [Fourier.transform, Buffer.size_ofFn, Nat.log2_two_pow, hz', ok_bind,
      Fourier.reverseOrder_eq_ok hd]
  · rw [transform, get_bind, Buffer.size_ofFn, Nat.mul_div_cancel_left _ two_pos,
      Nat.log2_two_pow, bind_of_ok hplace, Fourier.exchangeOrder_eq_ok hd,
      funext (gathered_parts p z')]

/-- A buffer of samples is left with what the transform makes of the points in it. -/
theorem transform_eq_ok (sign : Sign) {tables : Tables T} {width p : ℕ}
    (hw : 2 ^ p / 2 ≤ tables.twiddles.size) (hd : Digits.Levels tables.rotation width)
    {x : ℕ → T} {b : Array T}
    (h : Stage.onPoints (Fourier.transform sign tables) (ofFn (2 * 2 ^ p) x) = .ok b) :
    transform sign tables (ofFn (2 * 2 ^ p) x) = .ok () b := by
  obtain ⟨z, hz, hplace⟩ := transform_isOk sign hw hd fun i => ⟨x (2 * i), x (2 * i + 1)⟩
  rw [funext (Point.parts_pairs x)] at hplace
  rw [Stage.onPoints_eq_ok hz] at h
  rw [hplace, ← Except.ok.inj h]
  rfl

end CosineTransform.InPlace
