import CosineTransform.Proofs.Fourier.Butterflies
import CosineTransform.Proofs.Line.Loops
import CosineTransform.Proofs.Line.Transform
import CosineTransform.Proofs.Trig.Words

/-!
# Line transforms in place

`LineTransform.runInPlace` transforms a line in the buffer that holds it, stage by stage in loops.
Every element that it reads or writes, every difference of indices and every stride is checked. It
has two preconditions, which it looks at before anything else. Where they hold no check fails, and
the buffer is left with what `LineTransform.apply` makes of the line
(`LineTransform.runInPlace_eq`).

`LineTransform.faults_iff` is the result for tables with any history of requests.
-/

namespace CosineTransform.LineTransform

open Buffer (entry ofFn)
open Point (parts)
open Tables (longest)

variable {R T : Type} [Precise R] [Sample R T] (line : LineTransform T)

/-- The forward transform of a line that is long enough to be folded, in place. -/
def forwardInPlace (tables : Tables T) (scaled : Bool) : InPlace T Unit := do
  InPlace.fold
  InPlace.split .negative tables.cosines
  InPlace.transform .negative tables
  InPlace.rotate tables.cosines
  InPlace.turn (line.normalizeIf scaled)

/-- The inverse transform of a line that is long enough to be folded, in place. -/
def inverseInPlace (tables : Tables T) (scaled : Bool) : InPlace T Unit := do
  InPlace.turn (line.normalizeIf scaled)
  InPlace.rotate tables.cosines
  InPlace.transform .positive tables
  InPlace.split .positive tables.cosines
  InPlace.unfold

/-- `apply` in place. -/
def runInPlace (direction : Direction) (tables : Tables T) (scaled : Bool) : InPlace T Unit := do
  let samples := (← get).size
  if samples ≠ line.length then throw (.wrongLength line.length samples)
  else if line.length = 1 then return ()
  else if tables.Supports line.length then
    match direction with
    | .forward => line.forwardInPlace tables scaled
    | .inverse => line.inverseInPlace tables scaled
  else throw (.smallTables line.length)

section Stages

variable {tables : Tables T} {width p : ℕ} (hd : Digits.Levels tables.rotation width)
  (hw : 2 ^ p / 2 ≤ tables.twiddles.size) (hc : 2 * 2 ^ p ≤ tables.cosines.size) (scaled : Bool)
  (x : ℕ → T)

include hd hw hc

theorem forwardInPlace_isOk :
    ∃ y, line.runForward tables scaled (ofFn (2 * 2 ^ p) x) = .ok (ofFn (2 * 2 ^ p) y) ∧
      line.forwardInPlace tables scaled (ofFn (2 * 2 ^ p) x) = .ok () (ofFn (2 * 2 ^ p) y) := by
  have hpos := Nat.two_pow_pos p
  obtain ⟨z, hz, hplace⟩ := InPlace.transform_isOk .negative hw hd
    (Stage.separated .negative tables.cosines (2 ^ p) fun i =>
      ⟨x (2 * i) + x (Stage.partner (2 ^ p) i), x (2 * i) - x (Stage.partner (2 ^ p) i)⟩)
  have hrotate := Stage.rotate_eq_ok (by omega) hc (parts z)
  obtain ⟨y, hscale⟩ : ∃ y, line.normalizeIf scaled (ofFn (2 * 2 ^ p)
      (Stage.rotated tables.cosines (2 * 2 ^ p) (parts z))) = .ok (ofFn (2 * 2 ^ p) y) :=
    ⟨_, line.normalizeIf_eq_ok scaled (by omega) _⟩
  refine ⟨y, ?_, ?_⟩
  · rw [runForward, Stage.fold_eq_ok, ok_bind, Stage.split_eq_ok _ hpos (by omega), ok_bind, hz,
      ok_bind, Stage.interleave_ofFn]
    exact bind_eq_ok.2 ⟨_, hrotate, hscale⟩
  · -- the same four stages, each in place on what the one before it left
    rw [forwardInPlace, bind_of_ok (InPlace.fold_eq_ok hpos x),
      bind_of_ok (InPlace.split_eq_ok hpos (by omega) _), bind_of_ok hplace,
      bind_of_ok (InPlace.rotate_eq_ok hpos hc _)]
    exact InPlace.turn_eq_ok hscale

theorem inverseInPlace_isOk :
    ∃ y, line.runInverse tables scaled (ofFn (2 * 2 ^ p) x) = .ok (ofFn (2 * 2 ^ p) y) ∧
      line.inverseInPlace tables scaled (ofFn (2 * 2 ^ p) x) = .ok () (ofFn (2 * 2 ^ p) y) := by
  have hpos := Nat.two_pow_pos p
  obtain ⟨s, hscale⟩ : ∃ s, line.normalizeIf scaled (ofFn (2 * 2 ^ p) x) =
      .ok (ofFn (2 * 2 ^ p) s) := ⟨_, line.normalizeIf_eq_ok scaled (by omega) x⟩
  -- in place, the rotated samples are taken for points as they stand
  have hpoints : ofFn (2 * 2 ^ p) (Stage.rotated tables.cosines (2 * 2 ^ p) s) =
      ofFn (2 * 2 ^ p) (parts fun i =>
        ⟨Stage.rotated tables.cosines (2 * 2 ^ p) s (2 * i),
          Stage.rotated tables.cosines (2 * 2 ^ p) s (2 * i + 1)⟩) :=
    Buffer.ofFn_congr fun k _ => (Point.parts_pairs _ k).symm
  obtain ⟨z, hz, hplace⟩ := InPlace.transform_isOk .positive hw hd _
  refine ⟨InPlace.unfolded (2 ^ p) (Stage.separated .positive tables.cosines (2 ^ p) z), ?_, ?_⟩
  · rw [runInverse, hscale, ok_bind, Stage.rotate_eq_ok (by omega) hc, ok_bind,
      Stage.pairs_eq_ok, ok_bind, hz, ok_bind, Stage.split_eq_ok _ hpos (by omega), ok_bind,
      Stage.unfold_eq_ok]
    rfl
  · rw [inverseInPlace, bind_of_ok (InPlace.turn_eq_ok hscale),
      bind_of_ok (InPlace.rotate_eq_ok hpos hc _), hpoints, bind_of_ok hplace,
      bind_of_ok (InPlace.split_eq_ok hpos (by omega) _)]
    exact InPlace.unfold_eq_ok hpos _

end Stages

/-- In place or not, a transform has the same precondition faults and the same result. -/
theorem runInPlace_eq {tables : Tables T} {width : ℕ} (hd : Digits.Levels tables.rotation width)
    (direction : Direction) (scaled : Bool) (a : Array T) :
    line.runInPlace direction tables scaled a =
      match line.apply direction tables scaled a with
      | .error fault => .error fault a
      | .ok b => .ok () b := by
  unfold runInPlace LineTransform.apply
  rw [InPlace.get_bind]
  split
  · rfl
  rename_i hsize
  split
  · rfl
  rename_i hone
  split
  · rename_i hs
    obtain ⟨p, hlength⟩ := exists_length_eq hone
    -- a line of more than one sample is a folded one, of `2 ^ p` points
    have hsizes : line.length / 4 ≤ tables.twiddles.size ∧ line.length ≤ tables.cosines.size := by
      have hpos := Nat.two_pow_pos p
      exact hs.resolve_left (by omega)
    have hline : ofFn (2 * 2 ^ p) (entry a) = a := by
      rw [← hlength, ← not_not.1 hsize, Buffer.ofFn_entry]
    cases direction with
    | forward =>
      obtain ⟨y, hy, hplace⟩ :=
        line.forwardInPlace_isOk (p := p) hd (by omega) (by omega) scaled (entry a)
      rw [hline] at hy hplace
      dsimp only
      rw [hy, hplace]
    | inverse =>
      obtain ⟨y, hy, hplace⟩ :=
        line.inverseInPlace_isOk (p := p) hd (by omega) (by omega) scaled (entry a)
      rw [hline] at hy hplace
      dsimp only
      rw [hy, hplace]
  · rfl

/-- The two faults of a transform are the preconditions that it checks itself. -/
theorem apply_eq_error_iff {tables : Tables T} {width : ℕ}
    (hd : Digits.Levels tables.rotation width) {direction : Direction} {scaled : Bool} {a : Array T}
    {fault : Fault} :
    line.apply direction tables scaled a = .error fault ↔
      a.size ≠ line.length ∧ fault = .wrongLength line.length a.size ∨
      a.size = line.length ∧ ¬tables.Supports line.length ∧ fault = .smallTables line.length := by
  by_cases hsize : a.size = line.length
  · by_cases hs : tables.Supports line.length
    · obtain ⟨b, hb, -⟩ := line.apply_isOk direction hd hs scaled hsize
      rw [hb]
      exact iff_of_false nofun (by tauto)
    · -- tables of any size serve a single sample
      have hone : line.length ≠ 1 := fun hone => hs (.inl hone.le)
      have herror : line.apply direction tables scaled a = .error (.smallTables line.length) := by
        unfold LineTransform.apply
        rw [if_neg (not_not.2 hsize), if_neg hone, if_neg hs]
      rw [herror, Except.error.injEq, eq_comm]
      tauto
  · have herror : line.apply direction tables scaled a =
        .error (.wrongLength line.length a.size) := by
      unfold LineTransform.apply
      rw [if_pos hsize]
    rw [herror, Except.error.injEq, eq_comm]
    tauto

theorem size_of_apply {tables : Tables T} {width : ℕ} (hd : Digits.Levels tables.rotation width)
    {direction : Direction} {scaled : Bool} {a b : Array T}
    (h : line.apply direction tables scaled a = .ok b) : b.size = a.size := by
  -- a transform that ends well has neither of the two faults
  have hnone (fault : Fault) : line.apply direction tables scaled a ≠ .error fault := by
    rw [h]
    exact nofun
  simp only [ne_eq, line.apply_eq_error_iff hd] at hnone
  have hsize : a.size = line.length := by
    by_contra hsize
    exact hnone _ (.inl ⟨hsize, rfl⟩)
  have hs : tables.Supports line.length := by
    by_contra hs
    exact hnone _ (.inr ⟨hsize, hs, rfl⟩)
  obtain ⟨c, hc, hlength⟩ := line.apply_isOk direction hd hs scaled hsize
  rw [Except.ok.inj (h.symm.trans hc), hlength, hsize]

/-- Whatever was asked of the tables, a transform faults for a line of another length or for one of
several samples that is longer than any length the tables were granted, and leaves the data as it
is. Any other line is replaced by its transform: no access leaves its buffer or table, no difference
of indices is negative, no stride is over zero parts, and in words of 64 bits no shift is refused.
-/
theorem faults_iff {tables : Tables T} {lengths : List ℕ} (ht : tables.Grown lengths) {n : ℕ}
    (hn : n.isPowerOfTwo) (direction : Direction) (scaled : Bool) (a : Array T) :
    ∃ line : LineTransform T, ofLength n = .ok line ∧
      ((∃ fault, line.apply direction tables scaled a = .error fault) ↔
        a.size ≠ n ∨ 1 < n ∧ longest lengths < n) ∧
      (∀ fault, line.apply direction tables scaled a = .error fault →
        (fault = if a.size ≠ n then .wrongLength n a.size else .smallTables n) ∧
        line.runInPlace direction tables scaled a = .error fault a) ∧
      (∀ b, line.apply direction tables scaled a = .ok b →
        b.size = a.size ∧ line.runInPlace direction tables scaled a = .ok () b) ∧
      (line.forward tables scaled a = line.apply .forward tables scaled a ∧
        line.inverse tables scaled a = line.apply .inverse tables scaled a) ∧
      ((∀ k ∈ lengths, k < 2 ^ 64) → 2 < n → n ≤ longest lengths → ∀ i < n / 2, ∃ r,
        Digits.reverseIndex tables.rotation (n / 2).log2 i = .ok r ∧
        Digits.reverseWord 64 tables.rotation (n / 2).log2 i = some r) := by
  obtain ⟨line, hline⟩ := exists_ofLength (T := T) hn
  obtain rfl := length_of_ofLength hline
  obtain ⟨width, hd⟩ := (Tables.built_of_build ht.build_eq).digits
  have hs := ht.supports_iff line.length
  refine ⟨line, hline, ?_, fun fault hfault => ⟨?_, ?_⟩, fun b hb => ⟨?_, ?_⟩, ⟨rfl, rfl⟩, ?_⟩
  · simp only [line.apply_eq_error_iff hd, exists_or, exists_and_left, exists_eq, and_true, hs]
    omega
  · rcases (line.apply_eq_error_iff hd).1 hfault with ⟨hsize, rfl⟩ | ⟨hsize, -, rfl⟩
    · rw [if_pos hsize]
    · rw [if_neg (not_not.2 hsize)]
  · rw [line.runInPlace_eq hd, hfault]
  · exact line.size_of_apply hd hb
  · rw [line.runInPlace_eq hd, hb]
  · intro hword hlong hle i hi
    obtain ⟨p, hlength⟩ := exists_length_eq (show line.length ≠ 1 by omega)
    obtain ⟨width, hnarrow, hwidth⟩ := ht.exists_levels hword
    -- all numbers that a reversal meets are below the longest request, hence words
    have hfit : 2 ^ p < 2 ^ 64 := by
      have hlt := Tables.longest_lt (by norm_num) hword
      omega
    rw [hlength, Nat.mul_div_cancel_left _ two_pos] at hi
    rw [hlength, Nat.mul_div_cancel_left _ two_pos, Nat.log2_two_pow]
    have hbits := ((Nat.pow_lt_pow_iff_right one_lt_two).1 hfit).le
    have hpos : p ≠ 0 := Nat.one_lt_two_pow_iff.1 (by omega)
    exact ⟨_, Digits.reverseIndex_eq_ok hnarrow hi,
      Digits.reverseWord_eq_some hnarrow (by omega) (by omega) hbits hi⟩

/-- Tables that were asked for seven and then for twelve samples transform a line of eight samples,
and leave one of sixteen as it is. -/
theorem faults_iff_eight_sixteen :
    ∃ tables : Tables ℝ, tables.Grown [12, 7] ∧
      (∃ line : LineTransform ℝ, ofLength 8 = .ok line ∧
        ∃ b, line.runInPlace .inverse tables true (Array.replicate 8 1) = .ok () b ∧ b.size = 8) ∧
      ∃ line : LineTransform ℝ, ofLength 16 = .ok line ∧
        line.runInPlace .forward tables false (Array.replicate 16 1) =
          .error (.smallTables 16) (Array.replicate 16 1) := by
  obtain ⟨tables, ht⟩ := Tables.exists_grown (T := ℝ) [12, 7]
  obtain ⟨line, hline, hfaults, -, hresult, -⟩ :=
    faults_iff ht (⟨3, rfl⟩ : Nat.isPowerOfTwo 8) .inverse true (Array.replicate 8 1)
  obtain ⟨longer, hlonger, hfaults', hfault, -⟩ :=
    faults_iff ht (⟨4, rfl⟩ : Nat.isPowerOfTwo 16) .forward false (Array.replicate 16 1)
  refine ⟨tables, ht, ⟨line, hline, ?_⟩, longer, hlonger, ?_⟩
  · rcases hb : line.apply .inverse tables true (Array.replicate 8 1) with fault | b
    · simp [longest, hb] at hfaults
    · obtain ⟨hsize, hplace⟩ := hresult b hb
      exact ⟨b, hplace, by simpa using hsize⟩
  · obtain ⟨fault, herror⟩ := hfaults'.2 (.inr (by decide))
    obtain ⟨rfl, hplace⟩ := hfault fault herror
    rw [if_neg (by simp)] at hplace
    exact hplace

end CosineTransform.LineTransform
