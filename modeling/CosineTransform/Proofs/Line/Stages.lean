import CosineTransform.Line.Stages
import CosineTransform.Line.Transform
import CosineTransform.Proofs.Buffer
import Mathlib.Tactic.Ring

/-!
# The stages as equations

Each stage of a line transform keeps to its bounds, so that on a buffer of a given function it is
the buffer of another one. The functions are read off the stages once, here, for any type of
samples; `rotated` and `separated` name those of the two stages that take a table of cosines.
-/

namespace CosineTransform.Stage

open Buffer (ofFn entry)

/-! ## Pairing samples -/

section Pairing

variable {R T : Type} (m : ℕ) (x : ℕ → T) (z : ℕ → Point T)

/-- The sample that is paired with sample `2 * i` of `2 * m` samples. -/
def partner (i : ℕ) : ℕ := if i = 0 then 2 * m - 1 else 2 * i - 1

/-- The point that holds sample `k` of `2 * m` samples, for an odd `k`. -/
def holder (k : ℕ) : ℕ := if k + 1 = 2 * m then 0 else (k + 1) / 2

theorem fold_eq_ok [Sample R T] :
    fold (ofFn (2 * m) x) = .ok (ofFn m fun i =>
      ⟨x (2 * i) + x (partner m i), x (2 * i) - x (partner m i)⟩) := by
  rw [fold, Buffer.size_ofFn, Nat.mul_div_cancel_left m two_pos]
  refine Buffer.tabulate_eq_ok ?_
  intro i hi
  have hpartner : partner m i < 2 * m := by
    unfold partner
    split <;> omega
  rw [Buffer.read_ofFn x (by omega), ok_bind]
  change (Buffer.read (ofFn (2 * m) x) (partner m i) >>= _) = _
  rw [Buffer.read_ofFn x hpartner]
  rfl

theorem unfold_eq_ok [Sample R T] :
    unfold (ofFn m z) = .ok (ofFn (2 * m) fun k =>
      if k % 2 = 0 then (z (k / 2)).re + (z (k / 2)).im
      else (z (holder m k)).re - (z (holder m k)).im) := by
  rw [unfold, Buffer.size_ofFn]
  refine Buffer.tabulate_eq_ok ?_
  intro k hk
  split
  · rw [Buffer.read_ofFn z (by omega)]
    rfl
  · have hholder : holder m k < m := by
      unfold holder
      split <;> omega
    change (Buffer.read (ofFn m z) (holder m k) >>= _) = _
    rw [Buffer.read_ofFn z hholder]
    rfl

theorem pairs_eq_ok :
    pairs (ofFn (2 * m) x) = .ok (ofFn m fun i => ⟨x (2 * i), x (2 * i + 1)⟩) := by
  rw [pairs, Buffer.size_ofFn, Nat.mul_div_cancel_left m two_pos]
  refine Buffer.tabulate_eq_ok ?_
  intro i hi
  rw [Buffer.read_ofFn x (by omega), ok_bind, Buffer.read_ofFn x (by omega)]
  rfl

theorem interleave_ofFn :
    interleave (ofFn m z) = ofFn (2 * m) fun k =>
      if k % 2 = 0 then (z (k / 2)).re else (z (k / 2)).im := by
  induction m with
  | zero => rfl
  | succ m ih =>
    -- over the number of points: another point adds a pair of samples at the end
    have hlast : ofFn (m + 1) z = ofFn m z ++ ofFn 1 fun _ => z m := by
      rw [Buffer.ofFn_append]
      refine Buffer.ofFn_congr ?_
      intro i hi
      split
      · rfl
      · rw [show i = m by omega]
    have hpair : interleave (ofFn 1 fun _ => z m) =
        ofFn 2 fun k => if k = 0 then (z m).re else (z m).im := rfl
    rw [interleave] at ih hpair ⊢
    rw [hlast, Array.flatMap_append, ih, hpair, Buffer.ofFn_append]
    refine Buffer.ofFn_congr ?_
    intro k hk
    split
    · rfl
    · rw [show k / 2 = m by omega]
      split_ifs <;> first | rfl | omega

end Pairing

/-! ## Points in a buffer of samples -/

section Points

variable {T : Type} {f : Array (Point T) → Except Fault (Array (Point T))}

/-- Applies `f` to the points whose parts stand in a buffer, and leaves the points of the result in
their place. -/
def onPoints (f : Array (Point T) → Except Fault (Array (Point T))) (a : Array T) :
    Except Fault (Array T) := do
  return interleave (← f (← pairs a))

theorem onPoints_eq_ok {m : ℕ} {x : ℕ → T} {z : ℕ → Point T}
    (h : f (ofFn m fun i => ⟨x (2 * i), x (2 * i + 1)⟩) = .ok (ofFn m z)) :
    onPoints f (ofFn (2 * m) x) =
      .ok (ofFn (2 * m) fun k => if k % 2 = 0 then (z (k / 2)).re else (z (k / 2)).im) := by
  rw [onPoints, pairs_eq_ok, ok_bind, h, ok_bind, interleave_ofFn]
  rfl

end Points

/-! ## Cosine tables -/

section Cosines

variable {R T : Type} [Sample R T]

/-- Two tables hold the same cosines for a line of `n` samples, each at a stride of its own. -/
structure SameCosines (n : ℕ) (c d : Array T) : Prop where
  dvd_left : n ∣ c.size
  dvd_right : n ∣ d.size
  le_left : n ≤ c.size
  le_right : n ≤ d.size
  entry_eq : ∀ k < n, entry c (k * (c.size / n)) = entry d (k * (d.size / n))

/-- Entries are the same as well when they are counted from the end of the tables. -/
theorem SameCosines.entry_sub {n : ℕ} {c d : Array T} (h : SameCosines n c d) {k : ℕ} (hk : 0 < k)
    (hkn : k ≤ n) :
    entry c (c.size - k * (c.size / n)) = entry d (d.size - k * (d.size / n)) := by
  have hreflect {size : ℕ} (hdvd : n ∣ size) : size - k * (size / n) = (n - k) * (size / n) := by
    rw [Nat.sub_mul, Nat.mul_div_cancel' hdvd]
  rw [hreflect h.dvd_left, hreflect h.dvd_right]
  exact h.entry_eq _ (by omega)

end Cosines

/-! ## Strides -/

/-- The strides of the samples of a line end within the table that they go through. -/
theorem mul_stride_lt {size n j : ℕ} (hn : 0 < n) (hsize : n ≤ size) (hpos : 0 < j) (hj : j < n) :
    0 < j * (size / n) ∧ j * (size / n) < size := by
  have hstride : 0 < size / n := Nat.div_pos hsize hn
  exact ⟨Nat.mul_pos hpos hstride,
    (Nat.mul_lt_mul_of_pos_right hj hstride).trans_le (Nat.mul_div_le size n)⟩

/-- Points take half as many strides, which are twice as long. -/
theorem mul_stride_lt_half {size m i : ℕ} (hm : 0 < m) (hsize : m ≤ 2 * size) (hpos : 0 < i)
    (hi : 2 * i < m) : 0 < i * (2 * size / m) ∧ i * (2 * size / m) < size := by
  have hwhole := mul_stride_lt hm hsize (Nat.mul_pos two_pos hpos) hi
  rw [Nat.mul_assoc] at hwhole
  omega

/-! ## Rotation -/

section Rotation

variable {R T : Type} [Sample R T]

/-- Sample `k` of a rotated line of `n` samples. -/
def rotated (c : Array T) (n : ℕ) (x : ℕ → T) (k : ℕ) : T :=
  let cosine (j : ℕ) := entry c (j * (c.size / n))
  let sine (j : ℕ) := entry c (c.size - j * (c.size / n))
  if k = 0 then x 0
  else if 2 * k = n then x k * entry c 0
  else if 2 * k < n then
    (cosine k - sine k) * x k + (cosine k + sine k) * x (n - k)
  else
    (cosine (n - k) + sine (n - k)) * x (n - k) - (cosine (n - k) - sine (n - k)) * x k

/-- A line is rotated with any table that has an entry for each of its samples. -/
theorem rotate_eq_ok {c : Array T} {n : ℕ} (hn : 0 < n) (hc : n ≤ c.size) (x : ℕ → T) :
    rotate c (ofFn n x) = .ok (ofFn n (rotated c n x)) := by
  rw [rotate, Buffer.size_ofFn, Index.div_eq_ok hn, ok_bind]
  refine Buffer.tabulate_eq_ok ?_
  intro k hk
  unfold rotated
  split
  · rw [Buffer.read_ofFn x hn]
  split
  · rw [Buffer.read_ofFn x hk, ok_bind, Buffer.read_eq_entry (by omega)]
    rfl
  · rcases Nat.lt_or_ge (2 * k) n with hlow | hhigh
    · obtain ⟨hpos, hlt⟩ := mul_stride_lt hn hc (by omega : 0 < k) hk
      rw [min_eq_left (by omega)]
      dsimp only
      rw [Buffer.read_ofFn x hk, ok_bind, Buffer.read_ofFn x (by omega), ok_bind,
        Buffer.read_eq_entry hlt, ok_bind, Index.sub_eq_ok hlt.le, ok_bind,
        Buffer.read_eq_entry (by omega), ok_bind, if_pos rfl, if_pos hlow]
      rfl
    · -- the upper one of a pair reads its cosines at the index of the lower one
      obtain ⟨hpos, hlt⟩ := mul_stride_lt hn hc (by omega : 0 < n - k) (by omega)
      rw [min_eq_right (by omega)]
      dsimp only
      rw [Buffer.read_ofFn x (by omega), ok_bind, Nat.sub_sub_self hk.le, Buffer.read_ofFn x hk,
        ok_bind, Buffer.read_eq_entry hlt, ok_bind, Index.sub_eq_ok hlt.le, ok_bind,
        Buffer.read_eq_entry (by omega), ok_bind, if_neg (by omega), if_neg (by omega)]
      rfl

/-- The rotation of a line depends on the cosines of its own angles. -/
theorem rotated_congr {c d : Array T} {n : ℕ} (h : SameCosines n c d) (x : ℕ → T) {k : ℕ}
    (hk : k < n) : rotated c n x k = rotated d n x k := by
  have hfirst := h.entry_eq 0 (by omega)
  rw [zero_mul, zero_mul] at hfirst
  unfold rotated
  dsimp only
  split
  · rfl
  split
  · rw [hfirst]
  split
  · rw [h.entry_eq k hk, h.entry_sub (by omega) hk.le]
  · rw [h.entry_eq (n - k) (by omega), h.entry_sub (by omega) (by omega)]

theorem rotate_congr {c d : Array T} {n : ℕ} (hn : 0 < n) (h : SameCosines n c d) (x : ℕ → T) :
    rotate c (ofFn n x) = rotate d (ofFn n x) := by
  rw [rotate_eq_ok hn h.le_left, rotate_eq_ok hn h.le_right,
    Buffer.ofFn_congr fun k hk => rotated_congr h x hk]

end Rotation

/-! ## Splitting -/

section Splitting

variable {R T : Type} [Precise R] [Sample R T]

/-- The turned share of the difference of points `i` and `m - i` that they exchange. -/
def share (sign : Sign) (c : Array T) (m : ℕ) (z : ℕ → Point T) (i : ℕ) : Point T :=
  Point.weigh sign
    ⟨Sample.round Precise.half - entry c (c.size - i * (2 * c.size / m)),
      entry c (i * (2 * c.size / m))⟩
    ⟨(z i).re - (z (m - i)).re, (z i).im + (z (m - i)).im⟩

/-- Point `k` of `m` split points. -/
def separated (sign : Sign) (c : Array T) (m : ℕ) (z : ℕ → Point T) (k : ℕ) : Point T :=
  if k = 0 ∨ 2 * k = m then z k
  else if 2 * k < m then
    ⟨(z k).re - (share sign c m z k).re, (z k).im - (share sign c m z k).im⟩
  else
    ⟨(z k).re + (share sign c m z (m - k)).re, (z k).im - (share sign c m z (m - k)).im⟩

/-- Points are split with any table that has an entry for each two of them. -/
theorem split_eq_ok (sign : Sign) {c : Array T} {m : ℕ} (hm : 0 < m) (hc : m ≤ 2 * c.size)
    (z : ℕ → Point T) : split sign c (ofFn m z) = .ok (ofFn m (separated sign c m z)) := by
  rw [split, Buffer.size_ofFn, Index.div_eq_ok hm, ok_bind]
  refine Buffer.tabulate_eq_ok ?_
  intro k hk
  unfold separated
  split
  · rw [Buffer.read_ofFn z hk]
  · rcases Nat.lt_or_ge (2 * k) m with hlow | hhigh
    · obtain ⟨hpos, hlt⟩ := mul_stride_lt_half hm hc (by omega : 0 < k) hlow
      rw [min_eq_left (by omega)]
      dsimp only
      rw [Buffer.read_ofFn z hk, ok_bind, Buffer.read_ofFn z (by omega), ok_bind,
        Index.sub_eq_ok hlt.le, ok_bind, Buffer.read_eq_entry (by omega), ok_bind,
        Buffer.read_eq_entry hlt, ok_bind, if_pos rfl, if_pos hlow]
      rfl
    · -- the upper one of a pair reads its cosines at the index of the lower one
      obtain ⟨hpos, hlt⟩ := mul_stride_lt_half hm hc (by omega : 0 < m - k) (by omega)
      rw [min_eq_right (by omega)]
      dsimp only
      rw [Buffer.read_ofFn z (by omega), ok_bind, Buffer.read_ofFn z (by omega), ok_bind,
        Index.sub_eq_ok hlt.le, ok_bind, Buffer.read_eq_entry (by omega), ok_bind,
        Buffer.read_eq_entry hlt, ok_bind, if_neg (by omega), if_neg (by omega), share,
        Nat.sub_sub_self hk.le]
      rfl

/-- The share of a point depends on the cosines of its own angle. -/
theorem share_congr (sign : Sign) {c d : Array T} {m : ℕ} (h : SameCosines (2 * m) c d)
    (z : ℕ → Point T) {i : ℕ} (hi : 0 < i) (him : 2 * i < m) :
    share sign c m z i = share sign d m z i := by
  have hstride {size : ℕ} (hdvd : 2 * m ∣ size) :
      i * (2 * size / m) = 4 * i * (size / (2 * m)) := by
    obtain ⟨r, rfl⟩ := hdvd
    rw [Nat.mul_div_cancel_left r (by omega), show 2 * (2 * m * r) = m * (4 * r) by ring,
      Nat.mul_div_cancel_left _ (by omega)]
    ring
  rw [share, share, hstride h.dvd_left, hstride h.dvd_right, h.entry_eq _ (by omega),
    h.entry_sub (by omega) (by omega)]

/-- The split of points depends on the cosines of their own angles. -/
theorem separated_congr (sign : Sign) {c d : Array T} {m : ℕ} (h : SameCosines (2 * m) c d)
    (z : ℕ → Point T) {k : ℕ} (hk : k < m) :
    separated sign c m z k = separated sign d m z k := by
  unfold separated
  split
  · rfl
  split
  · rw [share_congr sign h z (by omega) (by omega)]
  · rw [share_congr sign h z (by omega) (by omega)]

theorem split_congr (sign : Sign) {c d : Array T} {m : ℕ} (hm : 0 < m)
    (h : SameCosines (2 * m) c d) (z : ℕ → Point T) :
    split sign c (ofFn m z) = split sign d (ofFn m z) := by
  have hc := h.le_left
  have hd := h.le_right
  rw [split_eq_ok sign hm (by omega), split_eq_ok sign hm (by omega),
    Buffer.ofFn_congr fun k hk => separated_congr sign h z hk]

end Splitting

end CosineTransform.Stage

namespace CosineTransform.LineTransform

open Buffer (ofFn)

variable {R T : Type} [Sample R T]

/-- The weight of sample `k` of a line, if it is scaled. -/
theorem normalizeIf_eq_ok (line : LineTransform T) (scaled : Bool) {n : ℕ} (hn : 0 < n)
    (x : ℕ → T) :
    line.normalizeIf scaled (ofFn n x) = .ok (ofFn n fun k =>
      if scaled then if k = 0 then x 0 * line.scale * line.dcScale else x k * line.scale
      else x k) := by
  cases scaled
  · rfl
  · have hread : Buffer.read ((ofFn n x).map (· * line.scale)) 0 = .ok (x 0 * line.scale) := by
      rw [Buffer.map_ofFn, Buffer.read_ofFn _ hn]
      rfl
    rw [normalizeIf, if_pos rfl, normalize, hread, ok_bind, Buffer.map_ofFn,
      Buffer.write_ofFn _ _ hn]
    rfl

end CosineTransform.LineTransform
