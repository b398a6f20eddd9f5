import CosineTransform.Proofs.Trig.RealTables

/-!
# The entries of the tables

A caller meets the tables of a power of two entry by entry. Over the real numbers a first request
for `n` samples leaves `n / 4` twiddles and `n` cosines, and every one of them that a transform
reads is a value of a trigonometric function: those of a level are listed by `Twiddles.Valued`,
whatever level it is, and cosine `k` is half the cosine of `k` parts of a quarter circle
(`Tables.entries_of_first_request`).
-/

namespace CosineTransform

open Buffer (entry)
open Real (pi)

namespace Twiddles

/-- The entries at `start` in a table are those of a level of size `size`, whose neighbouring angles
differ by `step`. -/
structure Valued (w : Array ℝ) (start size : ℕ) (step : ℝ) : Prop where
  one : w[start]? = some 1
  diagonal : w[start + 1]? = some (Real.cos (pi / 4))
  four : size = 4 →
    w[start + 2]? = some (Real.cos (pi / 8)) ∧ w[start + 3]? = some (Real.sin (pi / 8))
  factors : 8 ≤ size →
    w[start + 2]? = some (1 / (2 * Real.cos (2 * step))) ∧
    w[start + 3]? = some (1 / (2 * Real.cos (6 * step)))
  stored : 8 ≤ size → ∀ j, 4 ∣ j → 4 ≤ j → j < size →
    w[start + j]? = some (Real.cos (j * step)) ∧
    w[start + j + 1]? = some (Real.sin (j * step)) ∧
    w[start + j + 2]? = some (Real.cos (3 * j * step)) ∧
    w[start + j + 3]? = some (-Real.sin (3 * j * step))

theorem angle_eq (size : ℕ) : angle size = pi / (4 * size) := div_div pi 4 size

/-- A level that ends within its table has the entries that are listed. -/
theorem Level.valued {w : Array ℝ} {start k : ℕ} (h : Level w start (2 ^ k)) (hk : 1 ≤ k)
    (hroom : start + 2 ^ k ≤ w.size) : Valued w start (2 ^ k) (angle (2 ^ k)) := by
  -- every entry is in range, so reading it is no default
  have hread {i : ℕ} {x : ℝ} (hi : i < start + 2 ^ k) (hx : entry w i = x) : w[i]? = some x := by
    rw [Buffer.getElem?_eq_some_entry (by omega), hx]
  have htwo : 2 ^ 1 ≤ 2 ^ k := Nat.pow_le_pow_right two_pos hk
  refine ⟨hread (by omega) h.one, hread (by omega) h.diagonal, ?_, ?_, ?_⟩
  · intro hfour
    exact ⟨hread (by omega) (h.cosine hfour), hread (by omega) (h.sine hfour)⟩
  · intro hlarge
    rw [← div_div, ← div_div]
    exact ⟨hread (by omega) (h.double (by omega)), hread (by omega) (h.triple (by omega))⟩
  · intro _ j hdvd hj hlt
    have hend := add_four_le hdvd hj hlt
    have hstored := h.stored j hdvd hj hlt
    rw [mul_assoc]
    exact ⟨hread (by omega) (hstored 0 (by omega)), hread (by omega) (hstored 1 (by omega)),
      hread (by omega) (hstored 2 (by omega)), hread (by omega) (hstored 3 (by omega))⟩

end Twiddles

namespace Tables

variable {K : ℕ} {t : Tables ℝ}

/-- Every level of the tables of a power of two has the entries that are listed. -/
theorem Built.valued (h : t.Built (2 ^ K / 4) (2 ^ K)) {q : ℕ} (hpos : 1 ≤ q) (hq : q + 3 ≤ K) :
    Twiddles.Valued t.twiddles (2 ^ K / 4 - 2 * 2 ^ q) (2 ^ q) (Twiddles.angle (2 ^ q)) := by
  have hsize : t.twiddles.size = 2 ^ K / 4 := h.quarterLength_eq
  have hroom := h.two_mul_le_size hq
  have hcomputed := h.computed (exactScaling_real (2 ^ K)) (fun _ => rfl) le_rfl hpos hq
  rw [hsize] at hroom hcomputed
  exact (Twiddles.Level.of_computed (Nat.two_pow_pos q) hcomputed).valued hpos (by omega)

/-- The cosines of the tables of a power of two. -/
theorem Built.cosine_entries (h : t.Built (2 ^ K / 4) (2 ^ K)) (hK : 1 ≤ K) :
    t.cosines[0]? = some (Real.cos (pi / 4)) ∧
    ∀ k : ℕ, 1 ≤ k → k < 2 ^ K →
      t.cosines[k]? = some (Real.cos (pi * k / (2 * (2 ^ K : ℕ))) / 2) := by
  have hsize : t.cosines.size = 2 ^ K := h.cosineLength_eq
  have hcount : 1 < 2 ^ K := Nat.one_lt_two_pow (by omega)
  have htable := h.cosineTable hcount
  have heven : 2 ∣ 2 ^ K := dvd_pow_self 2 (by omega)
  refine ⟨?_, fun k hk hlt => ?_⟩
  · rw [Buffer.getElem?_eq_some_entry (by omega), Cosines.entry_zero htable hcount]
  · rw [Buffer.getElem?_eq_some_entry (by omega), Cosines.entry_eq htable heven hk hlt,
      div_mul_div_comm]

/-- A first request for a power of two leaves one and the same tables, however much memory there is
beyond what it needs. Their levels and their cosines are these values. -/
theorem entries_of_first_request {n : ℕ} (hpow : n.isPowerOfTwo) (hn : 2 ≤ n) :
    ∃ t : Tables ℝ,
      (∀ memory : Memory, (∀ bytes, memory.grants bytes = true) →
        (empty : Tables ℝ).ensure memory n = .ok () t) ∧
      (∀ (memory : Memory) (next : Tables ℝ), empty.ensure memory n = .ok () next → next = t) ∧
      t.twiddles.size = n / 4 ∧ t.cosines.size = n ∧
      (∀ size : ℕ, size.isPowerOfTwo → 2 ≤ size → size ≤ n / 4 / 2 →
        Twiddles.Valued t.twiddles (n / 4 - 2 * size) size (pi / (4 * size))) ∧
      t.cosines[0]? = some (Real.cos (pi / 4)) ∧
      ∀ k : ℕ, 1 ≤ k → k < n → t.cosines[k]? = some (Real.cos (pi * k / (2 * n)) / 2) := by
  obtain ⟨K, rfl⟩ := hpow
  have hK : 1 ≤ K := (Nat.pow_le_pow_iff_right one_lt_two).1 hn
  obtain ⟨t, ht⟩ := build_eq_ok (T := ℝ) (2 ^ K / 4) (2 ^ K)
  have hbuilt := built_of_build ht
  refine ⟨t, fun memory hmemory => ensure_empty_of_build hmemory ht, fun memory next hnext => ?_,
    hbuilt.quarterLength_eq, hbuilt.cosineLength_eq, ?_, hbuilt.cosine_entries hK⟩
  · exact Except.ok.inj ((build_of_ensure_empty hnext).symm.trans ht)
  · rintro _ ⟨q, rfl⟩ hsize hle
    have hq : 1 ≤ q := (Nat.pow_le_pow_iff_right one_lt_two).1 hsize
    have hfit : q + 3 ≤ K := by
      refine (Nat.pow_le_pow_iff_right one_lt_two).1 ?_
      rw [pow_add]
      omega
    rw [← Twiddles.angle_eq]
    exact hbuilt.valued hq hfit

/-- The tables for 64 samples have levels of sizes eight, four and two. -/
theorem entries_of_first_request_sixty_four :
    ∃ t : Tables ℝ, (empty : Tables ℝ).ensure ⟨fun _ => true⟩ 64 = .ok () t ∧
      Twiddles.Valued t.twiddles 0 8 (pi / 32) ∧
      t.cosines[1]? = some (Real.cos (pi / 128) / 2) := by
  obtain ⟨t, hgranted, -, -, -, hlevels, -, hcosines⟩ :=
    entries_of_first_request (⟨6, rfl⟩ : Nat.isPowerOfTwo 64) (by norm_num)
  have hlevel := hlevels 8 ⟨3, rfl⟩ (by norm_num) (by norm_num)
  have hcosine := hcosines 1 le_rfl (by norm_num)
  norm_num at hlevel hcosine
  exact ⟨t, hgranted _ fun _ => rfl, hlevel, hcosine⟩

end Tables

end CosineTransform
