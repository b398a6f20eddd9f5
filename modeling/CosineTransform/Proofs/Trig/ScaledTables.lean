import CosineTransform.Proofs.Trig.Growth
import CosineTransform.Proofs.Trig.Scaling

/-!
# The tables of two lengths

Where scaling is exact, a longer table of a power of two holds every entry of a shorter one.

A twiddle level is the same in every table, although only the top level is computed from its angles:
`Twiddles.Computed` lists the entries that a level would have as a top level, and each level that
follows another has them as well (`Twiddles.Computed.next`), so all levels of a table have them
(`Tables.Built.computed`). Cosines are all computed from their angles, and those of a shorter table
stand at a stride in a longer one (`Cosines.entry_mul`).
-/

namespace CosineTransform

open Buffer (entry)

namespace Twiddles

/-! ## Twiddle levels -/

section Level

variable {R T : Type} [Precise R] [Sample R T]

/-- The level of size `size` at `start` has the entries that are computed from the angles of its own
size. -/
structure Computed (w : Array T) (start size : ℕ) : Prop where
  one : entry w start = 1
  diagonal : entry w (start + 1) = Sample.round (Precise.cos ((step size : R) * (size : R)))
  cosine : size = 4 →
    entry w (start + 2) = Sample.round (Precise.cos ((step 4 : R) * ((2 : ℕ) : R)))
  sine : size = 4 →
    entry w (start + 3) = Sample.round (Precise.sin ((step 4 : R) * ((2 : ℕ) : R)))
  double : 4 < size → entry w (start + 2) =
    Sample.round (Precise.half / Precise.cos ((step size : R) * ((2 : ℕ) : R)))
  triple : 4 < size → entry w (start + 3) =
    Sample.round (Precise.half / Precise.cos ((step size : R) * ((6 : ℕ) : R)))
  stored : ∀ j, 4 ∣ j → 4 ≤ j → j < size → ∀ m < 4,
    entry w (start + j + m) = Sample.round (quadruple ((step size : R) * (j : R)) m)

/-- The quadruples of a level end where the level ends. -/
theorem add_four_le {j k : ℕ} (hdvd : 4 ∣ j) (hj : 4 ≤ j) (hlt : j < 2 ^ k) : j + 4 ≤ 2 ^ k := by
  have hk : 1 < k := (Nat.pow_lt_pow_iff_right one_lt_two).1 (by omega : 2 ^ 1 < 2 ^ k)
  obtain ⟨i, hi⟩ : 2 ^ 2 ∣ 2 ^ k := pow_dvd_pow 2 hk
  omega

/-- A level is determined by its size, wherever it stands. -/
theorem Computed.entry_eq {w w' : Array T} {start start' k : ℕ} (h : Computed w start (2 ^ k))
    (h' : Computed w' start' (2 ^ k)) {i : ℕ} (hi : i < 2 ^ k) :
    entry w (start + i) = entry w' (start' + i) := by
  by_cases hstored : 4 ≤ i
  · have hdvd : 4 ∣ i / 4 * 4 := Nat.dvd_mul_left 4 _
    rw [show i = i / 4 * 4 + i % 4 by omega, ← add_assoc, ← add_assoc,
      h.stored _ hdvd (by omega) (by omega) _ (by omega),
      h'.stored _ hdvd (by omega) (by omega) _ (by omega)]
  · -- a header of four entries belongs to a level of at least four
    have hsize (hi' : 2 ≤ i) : 2 ^ k = 4 ∨ 4 < 2 ^ k := by
      have hk : 1 < k := (Nat.pow_lt_pow_iff_right one_lt_two).1 (by omega : 2 ^ 1 < 2 ^ k)
      have hfour : 2 ^ 2 ≤ 2 ^ k := Nat.pow_le_pow_right (by omega) hk
      omega
    rcases (by omega : i = 0 ∨ i = 1 ∨ i = 2 ∨ i = 3) with rfl | rfl | rfl | rfl
    · exact h.one.trans h'.one.symm
    · exact h.diagonal.trans h'.diagonal.symm
    · rcases hsize le_rfl with hfour | hlarge
      · exact (h.cosine hfour).trans (h'.cosine hfour).symm
      · exact (h.double hlarge).trans (h'.double hlarge).symm
    · rcases hsize (by omega) with hfour | hlarge
      · exact (h.sine hfour).trans (h'.sine hfour).symm
      · exact (h.triple hlarge).trans (h'.triple hlarge).symm

/-- A level does not depend on what lies behind it. -/
theorem Computed.congr {w next : Array T} {start k : ℕ} (h : Computed w start (2 ^ k)) (hk : 1 ≤ k)
    (hkept : ∀ i < start + 2 ^ k, entry next i = entry w i) : Computed next start (2 ^ k) := by
  have htwo : 2 ^ 1 ≤ 2 ^ k := Nat.pow_le_pow_right (by omega) hk
  refine ⟨?_, ?_, ?_, ?_, ?_, ?_, ?_⟩
  · rw [hkept _ (by omega), h.one]
  · rw [hkept _ (by omega), h.diagonal]
  · intro hfour
    rw [hkept _ (by omega), h.cosine hfour]
  · intro hfour
    rw [hkept _ (by omega), h.sine hfour]
  · intro hlarge
    rw [hkept _ (by omega), h.double hlarge]
  · intro hlarge
    rw [hkept _ (by omega), h.triple hlarge]
  · intro j hdvd hj hlt m hm
    have hend := add_four_le hdvd hj hlt
    rw [hkept _ (by omega), h.stored j hdvd hj hlt m hm]

/-- A table that starts with the top level starts with a level that is computed. -/
theorem computed_top {w : Array T} {size : ℕ}
    (h : ∀ i < (topLevel size : Array T).size, entry w i = entry (topLevel size) i) :
    Computed w 0 size := by
  have hcount := size_topLevel (T := T) size
  have hhead (i : ℕ) (hi : i < 2) : entry w i = entry (topLevel size) i :=
    h i (by rw [hcount]; split_ifs <;> omega)
  refine ⟨?_, ?_, ?_, ?_, ?_, ?_, ?_⟩
  · rw [hhead 0 (by omega), entry_topLevel_zero]
  · rw [hhead 1 (by omega), entry_topLevel_one]
  · -- a level of four has its second pair instead of factors
    rintro rfl
    rw [h 2 (by rw [hcount]; decide)]
    rfl
  · rintro rfl
    rw [h 3 (by rw [hcount]; decide)]
    rfl
  · intro hlarge
    rw [h 2 (by rw [hcount, if_neg (by omega), if_pos hlarge]; omega), topLevel_of_four_lt hlarge,
      Buffer.entry_append, if_pos (by simp)]
    rfl
  · intro hlarge
    rw [h 3 (by rw [hcount, if_neg (by omega), if_pos hlarge]; omega), topLevel_of_four_lt hlarge,
      Buffer.entry_append, if_pos (by simp)]
    rfl
  · intro j hdvd hj hlt m hm
    have hlarge : 4 < size := by omega
    obtain ⟨i, rfl⟩ : ∃ i, j = 4 + 4 * i := ⟨j / 4 - 1, by omega⟩
    have hindex : 4 * i + m < quadrupleCount size := by
      unfold quadrupleCount
      omega
    rw [zero_add, add_assoc,
      h _ (by rw [hcount, if_neg (by omega), if_pos hlarge]; omega),
      entry_topLevel_quadruple hlarge hindex, show (4 * i + m) / 4 * 4 = 4 * i by omega,
      show (4 * i + m) % 4 = m by omega]

/-- In a table of `2 ^ K` entries, all the levels from that of size `size` at `start` up to the top
are in place. -/
def LevelsFrom (K start size : ℕ) (w : Array T) : Prop :=
  ∃ k, 1 ≤ k ∧ size = 2 ^ k ∧ start + 2 * 2 ^ k = 2 ^ K ∧
    entry w 1 = Sample.round (Precise.cos ((step 1 : R) * ((1 : ℕ) : R))) ∧
    ∀ j, k ≤ j → j < K → Computed w (2 ^ K - 2 * 2 ^ j) (2 ^ j)

section Scaling

variable {moderate : R → Prop} {limit : ℕ} (hscale : ExactScaling moderate limit)
  (hround : ∀ y : R, (Sample.round Precise.half : T) / Sample.round y =
    Sample.round (Precise.half / y))

include hscale hround

/-- The level below a level takes its entries from it and has those of its own angles. -/
theorem Computed.next {w next : Array T} {start k : ℕ} (h : Computed w start (2 ^ (k + 1)))
    (hfirst : entry w 1 = Sample.round (Precise.cos ((step 1 : R) * ((1 : ℕ) : R))))
    (hnext : NextLevel start (2 ^ (k + 1)) w next) (hlimit : 2 * 2 ^ (k + 1) ≤ limit) :
    Computed next (start + 2 ^ (k + 1)) (2 ^ k) := by
  have hpos := Nat.two_pow_pos k
  have hhalf : 2 ^ (k + 1) / 2 = 2 ^ k := by omega
  -- an angle of the level below stands twice as far into the level above
  have hstored {j : ℕ} (hdvd : 2 ∣ j) (hj : 2 ≤ j) (hlt : j < 2 ^ k) {m : ℕ} (hm : m < 4) :
      entry w (start + (2 * j + m)) = Sample.round (quadruple ((step (2 ^ k) : R) * (j : R)) m) := by
    rw [← add_assoc, h.stored (2 * j) (by omega) (by omega) (by omega) m hm, pow_succ',
      hscale.step_two_mul hpos (by omega) (by omega) (by omega)]
  refine ⟨hnext.one, ?_, ?_, ?_, ?_, ?_, ?_⟩
  · rw [hnext.diagonal, hfirst, hscale.step_mul_self (by omega)]
  · intro hfour
    rw [hnext.cosine (by omega)]
    exact (hstored (m := 0) ⟨1, rfl⟩ le_rfl (by omega) (by omega)).trans (by rw [hfour]; rfl)
  · intro hfour
    rw [hnext.sine (by omega)]
    exact (hstored (m := 1) ⟨1, rfl⟩ le_rfl (by omega) (by omega)).trans (by rw [hfour]; rfl)
  · intro hlarge
    have hquadruple := hstored (m := 0) ⟨1, rfl⟩ le_rfl (by omega) (by omega)
    rw [hnext.double (by omega)]
    exact (congrArg _ hquadruple).trans (hround _)
  · intro hlarge
    have hquadruple := hstored (m := 2) ⟨1, rfl⟩ le_rfl (by omega) (by omega)
    have hsix := hscale.three_mul_step hpos (by omega) (by omega)
    rw [hnext.triple (by omega), ← hsix]
    exact (congrArg _ hquadruple).trans (hround _)
  · intro j hdvd hj hlt m hm
    have hend := add_four_le hdvd hj hlt
    obtain ⟨i, rfl⟩ : ∃ i, j = 4 + 4 * i := ⟨j / 4 - 1, by omega⟩
    have hindex : 4 * i + m < quadrupleCount (2 ^ (k + 1) / 2) := by
      unfold quadrupleCount
      omega
    have hsource : 8 * (1 + (4 * i + m) / 4) + (4 * i + m) % 4 = 2 * (4 + 4 * i) + m := by omega
    have hentry := hnext.quadruple (by omega) (4 * i + m) hindex (by omega)
    rw [hsource, hstored (by omega) (by omega) hlt hm, add_assoc] at hentry
    rw [add_assoc, add_assoc 4, hentry]

omit hscale hround in
theorem levelsFrom_top {K : ℕ} (hK : 2 ≤ K) (hscale : ExactScaling moderate limit)
    (hlimit : 2 ^ K ≤ limit) {w : Array T}
    (hw : ∀ i < (topLevel (2 ^ K / 2) : Array T).size, entry w i = entry (topLevel (2 ^ K / 2)) i) :
    LevelsFrom K 0 (2 ^ K / 2) w := by
  have hK' : 2 ^ K = 2 * 2 ^ (K - 1) := by
    rw [← pow_succ']
    congr 1
    omega
  have hhalf : 2 ^ K / 2 = 2 ^ (K - 1) := by omega
  rw [hhalf] at hw ⊢
  have htop := computed_top hw
  refine ⟨K - 1, by omega, rfl, by omega, ?_, ?_⟩
  · rw [← hscale.step_mul_self (by omega : 2 ^ (K - 1) ≤ limit), ← htop.diagonal]
  · intro j hj hjK
    obtain rfl : j = K - 1 := by omega
    rwa [show 2 ^ K - 2 * 2 ^ (K - 1) = 0 by omega]

/-- The loop writes the levels from the top down, each in its place. -/
theorem LevelsFrom.next {K start size : ℕ} (hlimit : 2 ^ K ≤ limit) {w next : Array T}
    (hlarge : 2 < size) (h : LevelsFrom K start size w) (hnext : NextLevel start size w next) :
    LevelsFrom K (start + size) (size / 2) next := by
  obtain ⟨k, hk, rfl, hstart, hfirst, hlevels⟩ := h
  have hk1 : 1 < k := (Nat.pow_lt_pow_iff_right one_lt_two).1 (by omega : 2 ^ 1 < 2 ^ k)
  have hkK : k < K := by
    have hpos := Nat.two_pow_pos k
    exact (Nat.pow_lt_pow_iff_right one_lt_two).1 (by omega : 2 ^ k < 2 ^ K)
  obtain ⟨k, rfl⟩ : ∃ k', k = k' + 1 := ⟨k - 1, by omega⟩
  have hprev := hlevels (k + 1) le_rfl hkK
  rw [show 2 ^ K - 2 * 2 ^ (k + 1) = start by omega] at hprev
  refine ⟨k, by omega, by omega, by omega, by rw [hnext.kept 1 (by omega), hfirst], ?_⟩
  intro j hj hjK
  rcases Nat.eq_or_lt_of_le hj with rfl | hj
  · rw [show 2 ^ K - 2 * 2 ^ k = start + 2 ^ (k + 1) by omega]
    exact hprev.next hscale hround hfirst hnext (by omega)
  · -- the levels above are not written again
    have hpow : 2 ^ (k + 1) ≤ 2 ^ j := Nat.pow_le_pow_right (by omega) hj
    have htop : 2 ^ (j + 1) ≤ 2 ^ K := Nat.pow_le_pow_right (by omega) hjK
    exact (hlevels j hj hjK).congr (by omega) fun i hi => hnext.kept i (by omega)

/-- In a table whose length is a power of two, every level stands where it is looked for. -/
theorem computed_of_build {K : ℕ} (hlimit : 2 ^ K ≤ limit) {w : Array T}
    (h : build (2 ^ K) = .ok w) {k : ℕ} (hk : 1 ≤ k) (hlt : k < K) :
    Computed w (2 ^ K - 2 * 2 ^ k) (2 ^ k) := by
  have hquarter : 2 ^ 2 ≤ 2 ^ K := Nat.pow_le_pow_right (by omega) (by omega)
  obtain ⟨last, start, size, hrun, -, hsize, k', hk', rfl, -, -, hlevels⟩ :=
    build_induction (motive := LevelsFrom K) (by omega)
      (fun w _ hw => levelsFrom_top (by omega) hscale hlimit hw)
      fun _ _ _ _ hlarge h hnext => h.next hscale hround hlimit hlarge hnext
  obtain rfl := Except.ok.inj (h.symm.trans hrun)
  have hone : k' < 2 := (Nat.pow_lt_pow_iff_right one_lt_two).1 (by omega : 2 ^ k' < 2 ^ 2)
  exact hlevels k (by omega) hlt

end Scaling

end Level

end Twiddles

/-! ## Rotation cosines -/

namespace Cosines

variable {R T : Type} [Precise R] [Sample R T] {moderate : R → Prop} {limit : ℕ}

/-- The angles of a table are the multiples of a step of half as many parts. -/
theorem step_eq_step (count : ℕ) : (step count : R) = Twiddles.step (count / 2) := rfl

/-- A table that is longer by a power of two holds the entries of the shorter one at a stride. -/
theorem entry_mul (hscale : ExactScaling moderate limit) {n a : ℕ} (heven : 2 ∣ n)
    (hlimit : 2 ^ a * n ≤ limit) {c d : Array T} (hc : Table (2 ^ a * n) c) (hd : Table n d) {k : ℕ}
    (hk : k < n) : entry c (2 ^ a * k) = entry d k := by
  obtain ⟨m, rfl⟩ := heven
  have hpos := Nat.two_pow_pos a
  have hhalf : 2 ^ a * (2 * m) / 2 = 2 ^ a * m := by
    rw [Nat.mul_left_comm, Nat.mul_div_cancel_left _ two_pos]
  have hhalf' : 2 * m / 2 = m := Nat.mul_div_cancel_left m two_pos
  have hle : 2 ^ a * m ≤ limit := (Nat.mul_le_mul_left _ (by omega)).trans hlimit
  have hlow {j : ℕ} (hjm : j < m) : 2 ^ a * j < 2 ^ a * (2 * m) / 2 := by
    rw [hhalf]
    exact Nat.mul_lt_mul_of_pos_left hjm hpos
  -- both tables meet the angle of `j` parts
  have hangle {j : ℕ} (hj : 0 < j) (hjm : j ≤ m) :
      (step (2 ^ a * (2 * m)) : R) * ((2 ^ a * j : ℕ) : R) = step (2 * m) * (j : R) := by
    rw [step_eq_step, step_eq_step, hhalf, hhalf']
    exact hscale.step_mul (by omega) hj a hle ((Nat.mul_le_mul_left _ hjm).trans hle)
  have hdiagonal : (diagonal (2 ^ a * (2 * m)) : R) = diagonal (2 * m) := by
    rw [diagonal, diagonal, hhalf, hhalf', hangle (by omega) le_rfl]
  rcases Nat.eq_zero_or_pos k with rfl | hkpos
  · rw [mul_zero, hc.zero, hd.zero, hdiagonal]
  rcases Nat.lt_trichotomy k m with hkm | rfl | hkm
  · rw [hc.rising _ (Nat.mul_pos hpos hkpos) (hlow hkm), hd.rising k hkpos (by omega),
      hangle hkpos hkm.le]
  · have hcmiddle := hc.middle
    have hdmiddle := hd.middle
    rw [hhalf] at hcmiddle
    rw [hhalf'] at hdmiddle
    rw [hcmiddle, hdmiddle, hdiagonal]
  · -- past the middle the entries are counted from the end
    obtain ⟨j, hj, rfl⟩ : ∃ j, 0 < j ∧ k = 2 * m - j := ⟨2 * m - k, by omega, by omega⟩
    rw [Nat.mul_sub, hc.falling _ (Nat.mul_pos hpos hj) (hlow (by omega)),
      hd.falling j hj (by omega), hangle hj (by omega)]

end Cosines

/-! ## Tables of a power of two -/

namespace Tables.Built

variable {R T : Type} [Precise R] [Sample R T] {K p q : ℕ} {t : Tables T}

/-- There are as many cosines for each sample of a shorter line. -/
theorem dvd_cosines (h : t.Built (2 ^ K / 4) (2 ^ K)) (hp : p + 1 ≤ K) :
    2 * 2 ^ p ∣ t.cosines.size := by
  have hsize : t.cosines.size = 2 ^ K := h.cosineLength_eq
  rw [hsize, ← pow_succ']
  exact pow_dvd_pow 2 hp

theorem size_twiddles (h : t.Built (2 ^ K / 4) (2 ^ K)) (hK : 2 ≤ K) :
    t.twiddles.size = 2 ^ (K - 2) := by
  have hpow : 2 ^ K = 2 ^ (K - 2) * 2 ^ 2 := by
    rw [← pow_add]
    congr 1
    omega
  exact h.quarterLength_eq.trans (by omega)

/-- The levels for all lines of the length of the tables fit into them. -/
theorem two_mul_le_size (h : t.Built (2 ^ K / 4) (2 ^ K)) (hq : q + 3 ≤ K) :
    2 * 2 ^ q ≤ t.twiddles.size := by
  rw [h.size_twiddles (by omega), ← pow_succ']
  exact Nat.pow_le_pow_right two_pos (by omega)

/-- Every level stands where it is looked for, with the entries of its own angles. -/
theorem computed {moderate : R → Prop} {limit : ℕ} (hscale : ExactScaling moderate limit)
    (hround : ∀ y : R, (Sample.round Precise.half : T) / Sample.round y =
      Sample.round (Precise.half / y))
    (h : t.Built (2 ^ K / 4) (2 ^ K)) (hlimit : 2 ^ K ≤ limit) (hpos : 1 ≤ q) (hq : q + 3 ≤ K) :
    Twiddles.Computed t.twiddles (t.twiddles.size - 2 * 2 ^ q) (2 ^ q) := by
  have hsize := h.size_twiddles (by omega)
  have hle : 2 ^ (K - 2) ≤ 2 ^ K := Nat.pow_le_pow_right two_pos (by omega)
  have hbuild := h.twiddles
  rw [← h.quarterLength_eq, quarterLength, hsize] at hbuild
  rw [hsize]
  exact Twiddles.computed_of_build hscale hround (hle.trans hlimit) hbuild hpos (by omega)

end Tables.Built

end CosineTransform
