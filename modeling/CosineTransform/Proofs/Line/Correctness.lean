import CosineTransform.Proofs.Line.Transform

/-!
# Line transforms are cosine transforms

The two transforms of a line, over the real numbers and on tables that have seen any sequence of
requests for powers of two, one of them for at least the length of the line. The outcome is the
direct sum, which is written out beside it.
-/

namespace CosineTransform.LineTransform

variable {n : ℕ}

/-- A transform of the length of a line is the direct sum, on all tables that once were asked for as
much. -/
theorem apply_eq_direct_of_grown {line : LineTransform ℝ} (hw : line.Weighted) {tables : Tables ℝ}
    {lengths : List ℕ} (ht : tables.Grown lengths) (hpow : ∀ k ∈ lengths, k.isPowerOfTwo)
    (hlong : ∃ k ∈ lengths, line.length ≤ k) (direction : Direction) (scaled : Bool) {x : Array ℝ}
    (hx : x.size = line.length) :
    line.apply direction tables scaled x = .ok (Direct.run direction scaled x) := by
  obtain ⟨k, hk, hle⟩ := hlong
  obtain ⟨K, hbuilt, hmax⟩ := ht.built hpow (List.ne_nil_of_mem hk)
  exact apply_eq_direct hbuilt (hle.trans (hmax k hk)) hw direction scaled hx

/-- The forward transform of a line is its DCT-II. -/
theorem forward_eq_direct (hn : n.isPowerOfTwo) {tables : Tables ℝ} {lengths : List ℕ}
    (ht : tables.Grown lengths) (hpow : ∀ k ∈ lengths, k.isPowerOfTwo)
    (hlong : ∃ k ∈ lengths, n ≤ k) (scaled : Bool) {x : Array ℝ} (hx : x.size = n) :
    ∃ (line : LineTransform ℝ) (y : Array ℝ), ofLength n = .ok line ∧
      line.forward tables scaled x = .ok y ∧ y = Direct.forward scaled x ∧ y.size = n ∧
      ∀ k, (hk : k < y.size) → y[k] =
        (∑ j : Fin x.size, x[j] * Real.cos (Real.pi * (2 * j + 1) * k / (2 * n))) *
          if scaled then if k = 0 then √(2 / n) * (1 / √2) else √(2 / n) else 1 := by
  obtain ⟨line, hline⟩ := exists_ofLength (T := ℝ) hn
  have hlength := length_of_ofLength hline
  have hw := weighted_of_ofLength hline
  refine ⟨line, _, hline, ?_, rfl, ?_, fun k hk => ?_⟩
  · rw [← hlength] at hlong hx
    exact apply_eq_direct_of_grown hw ht hpow hlong .forward scaled hx
  · rw [Direct.size_forward, hx]
  · rw [Direct.getElem_forward]
    subst hx
    rfl

theorem isPowerOfTwo_of_mem_pair : ∀ k ∈ [2, 8], k.isPowerOfTwo := by
  intro k hk
  rcases List.mem_pair.1 hk with rfl | rfl
  · exact ⟨1, rfl⟩
  · exact ⟨3, rfl⟩

/-- Four samples on tables that were asked for eight and then for two. -/
theorem forward_eq_direct_four :
    ∃ tables : Tables ℝ, tables.Grown [2, 8] ∧ ∃ (line : LineTransform ℝ) (y : Array ℝ),
      ofLength 4 = .ok line ∧ line.forward tables true #[1, 2, 3, 5] = .ok y ∧
      y = Direct.forward true #[1, 2, 3, 5] := by
  obtain ⟨tables, ht⟩ := Tables.exists_grown (T := ℝ) [2, 8]
  obtain ⟨line, y, hline, hrun, hy, -, -⟩ := forward_eq_direct (n := 4) ⟨2, rfl⟩ ht
    isPowerOfTwo_of_mem_pair ⟨8, by simp, by norm_num⟩ true (x := #[1, 2, 3, 5]) rfl
  exact ⟨tables, ht, line, y, hline, hrun, hy⟩

/-- The inverse transform of a line is its DCT-III. -/
theorem inverse_eq_direct (hn : n.isPowerOfTwo) {tables : Tables ℝ} {lengths : List ℕ}
    (ht : tables.Grown lengths) (hpow : ∀ k ∈ lengths, k.isPowerOfTwo)
    (hlong : ∃ k ∈ lengths, n ≤ k) (scaled : Bool) {x : Array ℝ} (hx : x.size = n) :
    ∃ (line : LineTransform ℝ) (y : Array ℝ), ofLength n = .ok line ∧
      line.inverse tables scaled x = .ok y ∧ y = Direct.inverse scaled x ∧ y.size = n ∧
      ∀ k, (hk : k < y.size) → y[k] =
        ∑ j : Fin x.size,
          (if scaled then if j.val = 0 then √(2 / n) * (1 / √2) else √(2 / n) else 1) * x[j] *
            Real.cos (Real.pi * j * (2 * k + 1) / (2 * n)) := by
  obtain ⟨line, hline⟩ := exists_ofLength (T := ℝ) hn
  have hlength := length_of_ofLength hline
  have hw := weighted_of_ofLength hline
  refine ⟨line, _, hline, ?_, rfl, ?_, fun k hk => ?_⟩
  · rw [← hlength] at hlong hx
    exact apply_eq_direct_of_grown hw ht hpow hlong .inverse scaled hx
  · rw [Direct.size_inverse, hx]
  · rw [Direct.getElem_inverse]
    subst hx
    refine Finset.sum_congr rfl ?_
    intro j _
    -- the angle is written with its factors in another order
    rw [Direct.wave, mul_right_comm Real.pi]
    rfl

/-- Four samples on tables that were asked for eight and then for two. -/
theorem inverse_eq_direct_four :
    ∃ tables : Tables ℝ, tables.Grown [2, 8] ∧ ∃ (line : LineTransform ℝ) (y : Array ℝ),
      ofLength 4 = .ok line ∧ line.inverse tables true #[1, 2, 3, 5] = .ok y ∧
      y = Direct.inverse true #[1, 2, 3, 5] := by
  obtain ⟨tables, ht⟩ := Tables.exists_grown (T := ℝ) [2, 8]
  obtain ⟨line, y, hline, hrun, hy, -, -⟩ := inverse_eq_direct (n := 4) ⟨2, rfl⟩ ht
    isPowerOfTwo_of_mem_pair ⟨8, by simp, by norm_num⟩ true (x := #[1, 2, 3, 5]) rfl
  exact ⟨tables, ht, line, y, hline, hrun, hy⟩

end CosineTransform.LineTransform
