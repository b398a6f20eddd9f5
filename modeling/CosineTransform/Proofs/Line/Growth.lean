import CosineTransform.Proofs.Line.Transform
import CosineTransform.Proofs.Trig.Rounding

/-!
# Growing tables keep every result

Tables grow when a longer line is announced, and then everything in them is built anew. A line
transform reads a longer table at other places, the cosines at a wider stride and the twiddle levels
behind more levels than before, and reverses bits through wider digits. Where scaling is exact it
finds the same values there, so its result is the same in every bit
(`LineTransform.apply_eq_of_grown`).
-/

namespace CosineTransform

open Buffer (ofFn entry)

variable {R T : Type} [Precise R] [Sample R T]

namespace Tables

/-- Two tables serve lines of `2 * 2 ^ p` samples, and alike. -/
structure Alike (p : ℕ) (t t' : Tables T) : Prop where
  factors : ∀ q, q + 2 ≤ p → ∀ j < 2 ^ q, ∃ f,
    TwiddleFactor.read t.twiddles (4 * 2 ^ q) j = .ok f ∧
    TwiddleFactor.read t'.twiddles (4 * 2 ^ q) j = .ok f
  cosines : Stage.SameCosines (2 * 2 ^ p) t.cosines t'.cosines
  digits : (∃ width, Digits.Levels t.rotation width) ∧ ∃ width, Digits.Levels t'.rotation width
  twiddles_size : 2 ^ p / 2 ≤ t.twiddles.size

section Scaling

variable {moderate : R → Prop} {limit : ℕ} (hscale : ExactScaling moderate limit)

include hscale

/-- A table of a power of two holds the cosines of a shorter one at its stride. -/
theorem Built.entry_cosines {t : Tables T} {K L : ℕ} (h : t.Built (2 ^ K / 4) (2 ^ K))
    (hlimit : 2 ^ K ≤ limit) (hL : 1 ≤ L) (hLK : L ≤ K) {d : Array T}
    (hd : Cosines.Table (2 ^ L) d) {k : ℕ} (hk : k < 2 ^ L) :
    entry t.cosines (k * (t.cosines.size / 2 ^ L)) = entry d k := by
  have hpow : 2 ^ K = 2 ^ (K - L) * 2 ^ L := by
    rw [← pow_add, Nat.sub_add_cancel hLK]
  have hsize : t.cosines.size / 2 ^ L = 2 ^ (K - L) := by
    rw [← cosineLength, h.cosineLength_eq, hpow, Nat.mul_div_cancel _ (Nat.two_pow_pos L)]
  have htable := h.cosineTable (Nat.one_lt_two_pow (by omega))
  rw [hpow] at htable hlimit
  rw [hsize, mul_comm]
  exact Cosines.entry_mul hscale (dvd_pow_self 2 (by omega)) hlimit htable hd hk

variable {t t' : Tables T} {K K' p : ℕ} (h : t.Built (2 ^ K / 4) (2 ^ K))
  (h' : t'.Built (2 ^ K' / 4) (2 ^ K')) (hlimit : 2 ^ K ≤ limit) (hlimit' : 2 ^ K' ≤ limit)
  (hp : p + 1 ≤ K) (hp' : p + 1 ≤ K')

include h h' hlimit hlimit' hp hp'

theorem Built.sameCosines : Stage.SameCosines (2 * 2 ^ p) t.cosines t'.cosines := by
  have hsize : 0 < t.cosines.size := (Nat.two_pow_pos K).trans_eq h.cosineLength_eq.symm
  have hsize' : 0 < t'.cosines.size := (Nat.two_pow_pos K').trans_eq h'.cosineLength_eq.symm
  refine ⟨h.dvd_cosines hp, h'.dvd_cosines hp', Nat.le_of_dvd hsize (h.dvd_cosines hp),
    Nat.le_of_dvd hsize' (h'.dvd_cosines hp'), fun k hk => ?_⟩
  -- both are compared with the table of the very length of the line
  obtain ⟨d, -, -, hd⟩ := Cosines.build_eq_ok (T := T) (2 ^ (p + 1))
  have htable := hd (Nat.one_lt_two_pow (by omega))
  rw [← pow_succ'] at hk ⊢
  rw [h.entry_cosines hscale hlimit (by omega) hp htable hk,
    h'.entry_cosines hscale hlimit' (by omega) hp' htable hk]

/-- The tables of two powers of two are alike for all the lines that both serve. -/
theorem Built.alike (hround : ∀ y : R, (Sample.round Precise.half : T) / Sample.round y =
      Sample.round (Precise.half / y)) : Alike p t t' := by
  have hcosines := h.sameCosines hscale h' hlimit hlimit' hp hp'
  have hquarter : t.twiddles.size = t.cosines.size / 4 :=
    h.quarterLength_eq.trans (congrArg (· / 4) h.cosineLength_eq.symm)
  have hle := hcosines.le_left
  refine ⟨fun q hq j hj => ?_, hcosines, ⟨h.digits, h'.digits⟩, by omega⟩
  obtain ⟨f, hf⟩ := TwiddleFactor.read_isOk hj fun _ => h.two_mul_le_size (q := q) (by omega)
  refine ⟨f, hf, (TwiddleFactor.read_congr (fun _ => h'.two_mul_le_size (by omega))
    (fun _ => h.two_mul_le_size (by omega)) (fun hpos i hi => ?_) hj).trans hf⟩
  exact (h'.computed hscale hround hlimit' hpos (by omega)).entry_eq
    (h.computed hscale hround hlimit hpos (by omega)) hi

end Scaling

end Tables

namespace LineTransform

variable {line : LineTransform T} {tables tables' : Tables T} {p : ℕ}

theorem runForward_congr (h : Tables.Alike p tables tables') (scaled : Bool) (x : ℕ → T) :
    line.runForward tables scaled (ofFn (2 * 2 ^ p) x) =
      line.runForward tables' scaled (ofFn (2 * 2 ^ p) x) := by
  have hpos := Nat.two_pow_pos p
  have hc := h.cosines.le_left
  obtain ⟨⟨width, hd⟩, ⟨width', hd'⟩⟩ := h.digits
  rw [runForward, runForward, Stage.fold_eq_ok, ok_bind, ok_bind,
    ← Stage.split_congr .negative hpos h.cosines, Stage.split_eq_ok _ hpos (by omega), ok_bind,
    ok_bind, ← Fourier.transform_congr .negative h.twiddles_size hd hd' h.factors]
  obtain ⟨z, hz⟩ := Fourier.transform_isOk .negative h.twiddles_size hd
    (Stage.separated .negative tables.cosines (2 ^ p) _)
  rw [hz, ok_bind, ok_bind, Stage.interleave_ofFn, Stage.rotate_congr (by omega) h.cosines]

theorem runInverse_congr (h : Tables.Alike p tables tables') (scaled : Bool) (x : ℕ → T) :
    line.runInverse tables scaled (ofFn (2 * 2 ^ p) x) =
      line.runInverse tables' scaled (ofFn (2 * 2 ^ p) x) := by
  have hpos := Nat.two_pow_pos p
  obtain ⟨⟨width, hd⟩, ⟨width', hd'⟩⟩ := h.digits
  rw [runInverse, runInverse, normalizeIf_eq_ok _ _ (by omega), ok_bind, ok_bind,
    ← Stage.rotate_congr (by omega) h.cosines, Stage.rotate_eq_ok (by omega) h.cosines.le_left,
    ok_bind, ok_bind, Stage.pairs_eq_ok, ok_bind, ok_bind,
    ← Fourier.transform_congr .positive h.twiddles_size hd hd' h.factors]
  obtain ⟨z, hz⟩ := Fourier.transform_isOk .positive h.twiddles_size hd fun i =>
    (⟨Stage.rotated tables.cosines (2 * 2 ^ p) _ (2 * i),
      Stage.rotated tables.cosines (2 * 2 ^ p) _ (2 * i + 1)⟩ : Point T)
  rw [hz, ok_bind, ok_bind, Stage.split_congr .positive hpos h.cosines]

/-- Tables that are alike for the length of a transform give the same results. -/
theorem apply_congr (hline : line.length = 2 * 2 ^ p) (h : Tables.Alike p tables tables')
    (hs : tables.Supports line.length) (hs' : tables'.Supports line.length) (direction : Direction)
    (scaled : Bool) {a : Array T} (ha : a.size = line.length) :
    line.apply direction tables scaled a = line.apply direction tables' scaled a := by
  have hsamples : ofFn (2 * 2 ^ p) (entry a) = a := by
    rw [← hline, ← ha, Buffer.ofFn_entry]
  unfold LineTransform.apply
  rw [if_pos hs, if_pos hs', ← hsamples]
  cases direction with
  | forward => rw [runForward_congr h]
  | inverse => rw [runInverse_congr h]

section Grown

variable {moderate : R → Prop} {limit n : ℕ} {lengths lengths' : List ℕ}

/-- Where scaling is exact and halves are divided exactly, the history of the tables has no part in
the result of a transform: tables that were asked for its length alone give the same samples as
tables that grew to any power of two. -/
theorem apply_eq_of_grown (hscale : ExactScaling moderate limit)
    (hround : ∀ y : R, (Sample.round Precise.half : T) / Sample.round y =
      Sample.round (Precise.half / y))
    (hn : n.isPowerOfTwo) (ht : tables.Grown lengths) (ht' : tables'.Grown lengths')
    (hpow : (Tables.longest lengths).isPowerOfTwo) (hpow' : (Tables.longest lengths').isPowerOfTwo)
    (hle : n ≤ Tables.longest lengths) (hle' : n ≤ Tables.longest lengths')
    (hlimit : Tables.longest lengths ≤ limit) (hlimit' : Tables.longest lengths' ≤ limit)
    (direction : Direction) (scaled : Bool) {x : Array T} (hx : x.size = n) :
    ∃ (line : LineTransform T) (y : Array T), ofLength n = .ok line ∧ y.size = n ∧
      line.apply direction tables scaled x = .ok y ∧
      line.apply direction tables' scaled x = .ok y := by
  obtain ⟨line, hline⟩ := exists_ofLength (T := T) hn
  obtain rfl := length_of_ofLength hline
  obtain ⟨K, hK⟩ := hpow
  obtain ⟨K', hK'⟩ := hpow'
  have hbuilt := Tables.built_of_build ht.build_eq
  have hbuilt' := Tables.built_of_build ht'.build_eq
  rw [hK] at hbuilt hle hlimit
  rw [hK'] at hbuilt' hle' hlimit'
  have hs := hbuilt.supports hle
  have hs' := hbuilt'.supports hle'
  obtain ⟨width, hdigits⟩ := hbuilt.digits
  obtain ⟨y, hy, hsize⟩ := line.apply_isOk direction hdigits hs scaled hx
  refine ⟨line, y, hline, hsize, hy, ?_⟩
  by_cases hone : line.length = 1
  · -- the tables are not looked at
    rw [← hy]
    unfold LineTransform.apply
    rw [if_neg (not_not.2 hx), if_neg (not_not.2 hx), if_pos hone, if_pos hone]
  · obtain ⟨p, hlength⟩ := exists_length_eq hone
    have hfold {K : ℕ} (hle : line.length ≤ 2 ^ K) : p + 1 ≤ K := by
      refine (Nat.pow_le_pow_iff_right one_lt_two).1 ?_
      rwa [pow_succ', ← hlength]
    have halike := hbuilt.alike hscale hbuilt' hlimit hlimit' (hfold hle) (hfold hle') hround
    rw [← hy, apply_congr hlength halike hs hs' direction scaled hx]

/-- Thirty-two samples with as many bits as in double precision, on tables for as many and on tables
that grew from eight over one hundred to two hundred and fifty-six. -/
theorem apply_eq_of_grown_thirty_two :
    ∃ tables tables' : Tables (Binary 52), tables.Grown [256, 100, 8] ∧ tables'.Grown [32] ∧
      ∃ (line : LineTransform (Binary 52)) (y : Array (Binary 52)), ofLength 32 = .ok line ∧
        line.apply .forward tables true (ofFn 32 fun i => (i : Binary 52)) = .ok y ∧
        line.apply .forward tables' true (ofFn 32 fun i => (i : Binary 52)) = .ok y := by
  obtain ⟨tables, ht⟩ := Tables.exists_grown (T := Binary 52) [256, 100, 8]
  obtain ⟨tables', ht'⟩ := Tables.exists_grown (T := Binary 52) [32]
  obtain ⟨line, y, hline, -, hy, hy'⟩ := apply_eq_of_grown (Binary.exactScaling 52 256)
    (fun _ => rfl) (n := 32) ⟨5, rfl⟩ ht ht' ⟨8, rfl⟩ ⟨5, rfl⟩ (by decide) (by decide) (by decide)
    (by decide) .forward true (Buffer.size_ofFn 32 fun i => (i : Binary 52))
  exact ⟨tables, tables', ht, ht', line, y, hline, hy, hy'⟩

end Grown

end LineTransform

end CosineTransform
