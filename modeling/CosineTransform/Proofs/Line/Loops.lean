import CosineTransform.Proofs.InPlace
import CosineTransform.Proofs.Line.Stages

/-!
# The stages in place

Each stage of a line transform as a loop over the buffer of the line. Between any two turns some
elements are those of the line and the others are those of the result, and no turn reads an element
that an earlier one has overwritten. So a loop leaves what its stage makes of the line.
-/

namespace CosineTransform.InPlace

open Buffer (ofFn readPoint writePoint)
open Point (parts)
open Stage (partner holder rotated separated)

/-! ## Pairing samples -/

section Pairing

variable {R T : Type} [Sample R T]

/-- Puts the sum and the difference of samples `2 * i` and `2 * i - 1` into the place of point
`i`. -/
def foldAt (i : ℕ) (a : Array T) : Except Fault (Array T) := do
  let even ← Buffer.read a (2 * i)
  let odd ← Buffer.read a (← Index.sub (2 * i) 1)
  let a ← Buffer.write a (2 * i + 1) (even - odd)
  Buffer.write a (2 * i) (even + odd)

/-- `Stage.fold` from the last point down. The last sample is overwritten first, and is kept for
point `0`. -/
def fold : InPlace T Unit := do
  let points := (← get).size / 2
  let last ← reading fun a => do Buffer.read a (← Index.sub a.size 1)
  loop (fun t => foldAt (points - 1 - t)) (points - 1)
  turn fun a => do
    let first ← Buffer.read a 0
    let a ← Buffer.write a 1 (first - last)
    Buffer.write a 0 (first + last)

/-- Takes samples `2 * i - 1` and `2 * i` apart again. -/
def unfoldAt (i : ℕ) (a : Array T) : Except Fault (Array T) := do
  let re ← Buffer.read a (2 * i)
  let im ← Buffer.read a (2 * i + 1)
  let a ← Buffer.write a (← Index.sub (2 * i) 1) (re - im)
  Buffer.write a (2 * i) (re + im)

/-- `Stage.unfold` from the first point up. The last sample is known from point `0`, and is written
when the last point has been read. -/
def unfold : InPlace T Unit := do
  let points := (← get).size / 2
  let last ← reading fun a => do return (← Buffer.read a 0) - (← Buffer.read a 1)
  turn fun a => do Buffer.write a 0 ((← Buffer.read a 0) + (← Buffer.read a 1))
  loop (fun t => unfoldAt (t + 1)) (points - 1)
  turn fun a => do Buffer.write a (← Index.sub a.size 1) last

variable {m : ℕ}

/-- Element `k` once the samples from `low` on are folded. -/
def folding (x : ℕ → T) (low k : ℕ) : T :=
  if low ≤ k then if k % 2 = 0 then x k + x (k - 1) else x (k - 1) - x (k - 2) else x k

theorem foldAt_eq_ok {i : ℕ} (x : ℕ → T) (hpos : 0 < i) (hi : i < m) :
    foldAt i (ofFn (2 * m) (folding x (2 * (i + 1)))) = .ok (ofFn (2 * m) (folding x (2 * i))) := by
  rw [foldAt, Buffer.read_ofFn _ (by omega), ok_bind, Index.sub_eq_ok (by omega), ok_bind,
    Buffer.read_ofFn _ (by omega), ok_bind, Buffer.write_ofFn _ _ (by omega), ok_bind,
    Buffer.write_ofFn _ _ (by omega)]
  refine congrArg Except.ok (Buffer.ofFn_congr ?_)
  intro k _
  unfold folding
  rw [if_neg (by omega : ¬2 * (i + 1) ≤ 2 * i), if_neg (by omega : ¬2 * (i + 1) ≤ 2 * i - 1)]
  -- the step writes the two samples of pair `i`, which no later step reads
  rcases eq_or_ne k (2 * i) with rfl | heven
  · rw [if_pos rfl, if_pos le_rfl, if_pos (by omega)]
  · rw [if_neg heven]
    rcases eq_or_ne k (2 * i + 1) with rfl | hodd
    · rw [if_pos rfl, if_pos (by omega), if_neg (by omega)]
      rfl
    · rw [if_neg hodd]
      exact if_congr (by omega) rfl rfl

/-- Folded from the last sample down to sample `2`, with point `0` written at the end. -/
theorem fold_parts (x : ℕ → T) (k : ℕ) :
    (if k = 0 then x 0 + x (2 * m - 1) else if k = 1 then x 0 - x (2 * m - 1)
      else folding x 2 k) =
      parts (fun i => ⟨x (2 * i) + x (partner m i), x (2 * i) - x (partner m i)⟩) k := by
  obtain ⟨i, rfl | rfl⟩ : ∃ i, k = 2 * i ∨ k = 2 * i + 1 := ⟨k / 2, by omega⟩
  · rw [Point.parts_even]
    dsimp only [partner]
    rcases Nat.eq_zero_or_pos i with rfl | hpos
    · rfl
    · rw [if_neg (by omega), if_neg (by omega), if_neg (by omega), folding, if_pos (by omega),
        if_pos (by omega)]
  · -- only the first pair is written outside the loop
    rw [Point.parts_odd]
    dsimp only [partner]
    rcases Nat.eq_zero_or_pos i with rfl | hpos
    · rfl
    · rw [if_neg (by omega), if_neg (by omega), if_neg (by omega), folding, if_pos (by omega),
        if_neg (by omega)]
      rfl

theorem fold_eq_ok (hm : 0 < m) (x : ℕ → T) :
    fold (ofFn (2 * m) x) = .ok () (ofFn (2 * m) (parts fun i =>
      ⟨x (2 * i) + x (partner m i), x (2 * i) - x (partner m i)⟩)) := by
  have hlast : Buffer.read (ofFn (2 * m) x) (2 * m - 1) = .ok (x (2 * m - 1)) :=
    Buffer.read_ofFn x (by omega)
  have hloop : loop (fun t => foldAt (m - 1 - t)) (m - 1) (ofFn (2 * m) x) =
      .ok () (ofFn (2 * m) (folding x 2)) := by
    -- the loop runs downwards: after `t` steps the pairs from `m - t` on are folded
    refine loop_eq_ok (fun t => ofFn (2 * m) (folding x (2 * (m - t)))) ?_ ?_ ?_
    · refine Buffer.ofFn_congr fun k hk => ?_
      rw [folding, if_neg (by omega)]
    · rw [show 2 * (m - (m - 1)) = 2 by omega]
    · intro t ht
      rw [show m - t = m - 1 - t + 1 by omega, show m - (t + 1) = m - 1 - t by omega]
      exact foldAt_eq_ok x (by omega) (by omega)
  rw [fold, get_bind, Buffer.size_ofFn, Nat.mul_div_cancel_left m two_pos,
    bind_of_ok (reading_eq_ok (x := x (2 * m - 1)) ?_), bind_of_ok hloop]
  · refine turn_eq_ok ?_
    rw [Buffer.read_ofFn _ (by omega), ok_bind, Buffer.write_ofFn _ _ (by omega), ok_bind,
      Buffer.write_ofFn _ _ (by omega)]
    refine congrArg Except.ok (Buffer.ofFn_congr ?_)
    intro k _
    exact fold_parts x k
  · rw [Buffer.size_ofFn, Index.sub_eq_ok (by omega), ok_bind, hlast]

/-- Sample `k` of the line that was folded into the points `z`. -/
def unfolded (m : ℕ) (z : ℕ → Point T) (k : ℕ) : T :=
  if k % 2 = 0 then (z (k / 2)).re + (z (k / 2)).im
  else (z (holder m k)).re - (z (holder m k)).im

theorem unfoldAt_eq_ok {i : ℕ} (z : ℕ → Point T) (hi : i + 1 < m) :
    unfoldAt (i + 1)
        (ofFn (2 * m) fun k => if k ≤ 2 * i then unfolded m z k else parts z k) =
      .ok (ofFn (2 * m) fun k => if k ≤ 2 * (i + 1) then unfolded m z k else parts z k) := by
  rw [unfoldAt, Buffer.read_ofFn _ (by omega), ok_bind, Buffer.read_ofFn _ (by omega), ok_bind,
    Index.sub_eq_ok (by omega), ok_bind, Buffer.write_ofFn _ _ (by omega), ok_bind,
    Buffer.write_ofFn _ _ (by omega), if_neg (by omega), if_neg (by omega), Point.parts_even,
    Point.parts_odd]
  refine congrArg Except.ok (Buffer.ofFn_congr ?_)
  intro k _
  rcases eq_or_ne k (2 * (i + 1)) with rfl | heven
  · rw [if_pos rfl, if_pos le_rfl, unfolded, if_pos (by omega),
      Nat.mul_div_cancel_left (i + 1) two_pos]
  · rw [if_neg heven]
    rcases eq_or_ne k (2 * (i + 1) - 1) with rfl | hodd
    · -- a step writes an even sample and the odd one below it, of the same point
      have hholder : holder m (2 * (i + 1) - 1) = i + 1 := by
        rw [holder, if_neg (by omega)]
        omega
      rw [if_pos rfl, if_pos (by omega), unfolded, if_neg (by omega), hholder]
    · rw [if_neg hodd]
      exact if_congr (by omega) rfl rfl

theorem unfold_eq_ok (hm : 0 < m) (z : ℕ → Point T) :
    unfold (ofFn (2 * m) (parts z)) = .ok () (ofFn (2 * m) (unfolded m z)) := by
  have hre : Buffer.read (ofFn (2 * m) (parts z)) 0 = .ok (z 0).re :=
    (Buffer.read_ofFn _ (by omega)).trans (congrArg _ (Point.parts_even z 0))
  have him : Buffer.read (ofFn (2 * m) (parts z)) 1 = .ok (z 0).im :=
    (Buffer.read_ofFn _ (by omega)).trans (congrArg _ (Point.parts_odd z 0))
  have hloop : loop (fun t => unfoldAt (t + 1)) (m - 1)
      (ofFn (2 * m) fun k => if k = 0 then (z 0).re + (z 0).im else parts z k) =
      .ok () (ofFn (2 * m) fun k => if k ≤ 2 * (m - 1) then unfolded m z k else parts z k) := by
    -- the loop runs upwards, so a point is read before its second half is overwritten
    refine loop_eq_ok
      (fun t => ofFn (2 * m) fun k => if k ≤ 2 * t then unfolded m z k else parts z k) ?_ rfl ?_
    · refine Buffer.ofFn_congr fun k _ => ?_
      rcases eq_or_ne k 0 with rfl | hk
      · rfl
      · rw [if_neg (by omega), if_neg hk]
    · intro t ht
      exact unfoldAt_eq_ok z (by omega)
  rw [unfold, get_bind, Buffer.size_ofFn, Nat.mul_div_cancel_left m two_pos,
    bind_of_ok (reading_eq_ok (x := (z 0).re - (z 0).im) ?_),
    bind_of_ok (turn_eq_ok (b := ofFn (2 * m) fun k =>
      if k = 0 then (z 0).re + (z 0).im else parts z k) ?_), bind_of_ok hloop]
  · refine turn_eq_ok ?_
    rw [Buffer.size_ofFn, Index.sub_eq_ok (by omega), ok_bind, Buffer.write_ofFn _ _ (by omega)]
    refine congrArg Except.ok (Buffer.ofFn_congr ?_)
    intro k hk
    -- the last sample belongs to the first point, read before the loop
    rcases eq_or_ne k (2 * m - 1) with rfl | hlast
    · have hholder : holder m (2 * m - 1) = 0 := by
        rw [holder, if_pos (by omega)]
      rw [if_pos rfl, unfolded, if_neg (by omega), hholder]
    · rw [if_neg hlast, if_pos (by omega)]
  · rw [hre, ok_bind, him, ok_bind, Buffer.write_ofFn _ _ (by omega)]
  · rw [hre, ok_bind, him]
    rfl

end Pairing

/-! ## Rotation -/

section Rotation

variable {R T : Type} [Sample R T]

/-- Turns samples `j` and `n - j` by an angle of `j` steps. -/
def rotateAt (c : Array T) (stride j : ℕ) (a : Array T) : Except Fault (Array T) := do
  let opposite ← Index.sub a.size j
  let cosine ← Buffer.read c (j * stride)
  let sine ← Buffer.read c (← Index.sub c.size (j * stride))
  let near ← Buffer.read a j
  let far ← Buffer.read a opposite
  let a ← Buffer.write a j ((cosine - sine) * near + (cosine + sine) * far)
  Buffer.write a opposite ((cosine + sine) * near - (cosine - sine) * far)

/-- `Stage.rotate`, pair by pair from the ends to the middle. -/
def rotate (c : Array T) : InPlace T Unit := do
  let middle := (← get).size / 2
  let stride ← reading fun a => Index.div c.size a.size
  loop (fun t => rotateAt c stride (t + 1)) (middle - 1)
  turn fun a => do Buffer.write a middle ((← Buffer.read a middle) * (← Buffer.read c 0))

variable {c : Array T} {m : ℕ}

theorem rotateAt_eq_ok {j : ℕ} (x : ℕ → T) (hc : 2 * m ≤ c.size) (hj : j + 1 < m) :
    rotateAt c (c.size / (2 * m)) (j + 1)
        (ofFn (2 * m) (inPairs (2 * m) (rotated c (2 * m) x) x j)) =
      .ok (ofFn (2 * m) (inPairs (2 * m) (rotated c (2 * m) x) x (j + 1))) := by
  have hpair : 2 * (j + 1) < 2 * m := by omega
  obtain ⟨hpos, hlt⟩ := Stage.mul_stride_lt (by omega) hc (by omega : 0 < j + 1) (by omega)
  rw [rotateAt, Buffer.size_ofFn, Index.sub_eq_ok (by omega), ok_bind, Buffer.read_eq_entry hlt,
    ok_bind, Index.sub_eq_ok hlt.le, ok_bind, Buffer.read_eq_entry (by omega), ok_bind,
    Buffer.read_ofFn _ (by omega), ok_bind, Buffer.read_ofFn _ (by omega), ok_bind,
    Buffer.write_ofFn _ _ (by omega), ok_bind, Buffer.write_ofFn _ _ (by omega),
    inPairs_near _ _ hpair, inPairs_far _ _ hpair]
  refine congrArg Except.ok (Buffer.ofFn_congr ?_)
  intro k _
  -- both samples of the pair are read before either is written
  refine Eq.trans ?_ (inPairs_succ _ _ hpair k)
  refine if_congr Iff.rfl ?_ (if_congr Iff.rfl ?_ rfl)
  · rw [rotated, if_neg (by omega), if_neg (by omega), if_neg (by omega),
      Nat.sub_sub_self (by omega)]
  · rw [rotated, if_neg (by omega), if_neg (by omega), if_pos (by omega)]

theorem rotate_eq_ok (hm : 0 < m) (hc : 2 * m ≤ c.size) (x : ℕ → T) :
    rotate c (ofFn (2 * m) x) = .ok () (ofFn (2 * m) (rotated c (2 * m) x)) := by
  have hloop : loop (fun t => rotateAt c (c.size / (2 * m)) (t + 1)) (m - 1) (ofFn (2 * m) x) =
      .ok () (ofFn (2 * m) (inPairs (2 * m) (rotated c (2 * m) x) x (m - 1))) := by
    refine loop_eq_ok
      (fun t => ofFn (2 * m) (inPairs (2 * m) (rotated c (2 * m) x) x t)) ?_ rfl ?_
    · exact Buffer.ofFn_congr fun k hk => inPairs_zero _ _ hk
    · intro t ht
      exact rotateAt_eq_ok x hc (by omega)
  rw [rotate, get_bind, Buffer.size_ofFn, Nat.mul_div_cancel_left m two_pos,
    bind_of_ok (reading_eq_ok (x := c.size / (2 * m)) ?_), bind_of_ok hloop]
  · refine turn_eq_ok ?_
    rw [Buffer.read_ofFn _ (by omega), ok_bind, Buffer.read_eq_entry (by omega), ok_bind,
      Buffer.write_ofFn _ _ (by omega)]
    refine congrArg Except.ok (Buffer.ofFn_congr ?_)
    intro k _
    -- the middle sample and sample `0` are in no pair
    unfold inPairs
    rcases eq_or_ne k m with rfl | hmiddle
    · rw [if_pos rfl, if_neg (by omega), rotated, if_neg (by omega), if_pos rfl]
    · rw [if_neg hmiddle]
      rcases Nat.eq_zero_or_pos k with rfl | hpos
      · rw [if_neg (by omega), rotated, if_pos rfl]
      · rw [if_pos (by omega)]
  · rw [Buffer.size_ofFn, Index.div_eq_ok (by omega)]

end Rotation

/-! ## Splitting -/

section Splitting

variable {R T : Type} [Precise R] [Sample R T]

/-- Points `i` and `m - i` exchange a turned share of their difference. -/
def splitAt (sign : Sign) (c : Array T) (stride i : ℕ) (a : Array T) : Except Fault (Array T) := do
  let opposite ← Index.sub a.size (2 * i)
  let sine ← Buffer.read c (← Index.sub c.size (i * stride))
  let cosine ← Buffer.read c (i * stride)
  let near ← readPoint a (2 * i)
  let far ← readPoint a opposite
  let weight : Point T := ⟨Sample.round Precise.half - sine, cosine⟩
  let share := Point.weigh sign weight ⟨near.re - far.re, near.im + far.im⟩
  let a ← writePoint a (2 * i) ⟨near.re - share.re, near.im - share.im⟩
  writePoint a opposite ⟨far.re + share.re, far.im - share.im⟩

/-- `Stage.split`, pair by pair from the ends to the middle. -/
def split (sign : Sign) (c : Array T) : InPlace T Unit := do
  let points := (← get).size / 2
  let stride ← reading fun _ => Index.div (2 * c.size) points
  loop (fun t => splitAt sign c stride (t + 1)) ((points - 1) / 2)

variable {sign : Sign} {c : Array T} {m : ℕ}

theorem splitAt_eq_ok {i : ℕ} (z : ℕ → Point T) (hc : m ≤ 2 * c.size) (hi : 2 * (i + 1) < m) :
    splitAt sign c (2 * c.size / m) (i + 1)
        (ofFn (2 * m) (parts (inPairs m (separated sign c m z) z i))) =
      .ok (ofFn (2 * m) (parts (inPairs m (separated sign c m z) z (i + 1)))) := by
  obtain ⟨hpos, hlt⟩ := Stage.mul_stride_lt_half (by omega) hc (by omega : 0 < i + 1) hi
  rw [splitAt, Buffer.size_ofFn, Index.sub_eq_ok (by omega), ok_bind, Index.sub_eq_ok hlt.le,
    ok_bind, Buffer.read_eq_entry (by omega), ok_bind, Buffer.read_eq_entry hlt, ok_bind,
    ← Nat.mul_sub, Buffer.readPoint_parts _ (by omega), ok_bind,
    Buffer.readPoint_parts _ (by omega), ok_bind]
  dsimp only
  rw [Buffer.writePoint_parts _ _ (by omega), ok_bind, Buffer.writePoint_parts _ _ (by omega),
    inPairs_near _ _ hi, inPairs_far _ _ hi]
  refine congrArg Except.ok (Point.ofFn_parts_congr ?_)
  intro k _
  -- both points of the pair are read before either is written
  refine Eq.trans ?_ (inPairs_succ _ _ hi k)
  refine if_congr Iff.rfl ?_ (if_congr Iff.rfl ?_ rfl)
  · rw [separated, if_neg (by omega), if_neg (by omega), Nat.sub_sub_self (by omega)]
    rfl
  · rw [separated, if_neg (by omega), if_pos (by omega)]
    rfl

theorem split_eq_ok (hm : 0 < m) (hc : m ≤ 2 * c.size) (z : ℕ → Point T) :
    split sign c (ofFn (2 * m) (parts z)) =
      .ok () (ofFn (2 * m) (parts (separated sign c m z))) := by
  rw [split, get_bind, Buffer.size_ofFn, Nat.mul_div_cancel_left m two_pos,
    bind_of_ok (reading_eq_ok (x := 2 * c.size / m) (Index.div_eq_ok hm))]
  refine loop_eq_ok
    (fun t => ofFn (2 * m) (parts (inPairs m (separated sign c m z) z t))) ?_ ?_ ?_
  · exact Point.ofFn_parts_congr fun k hk => inPairs_zero _ _ hk
  · -- a point without a partner is its own image
    refine Point.ofFn_parts_congr fun k _ => ?_
    rw [inPairs]
    split
    · rfl
    · rw [separated, if_pos (by omega)]
  · intro t ht
    exact splitAt_eq_ok z hc (by omega)

end Splitting

end CosineTransform.InPlace
