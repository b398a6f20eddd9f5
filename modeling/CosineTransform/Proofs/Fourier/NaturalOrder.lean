import CosineTransform.Proofs.Fourier.Transform
import CosineTransform.Proofs.InPlace
import CosineTransform.Proofs.Line.Stages
import CosineTransform.Proofs.Trig.Growth
import CosineTransform.Proofs.Trig.Words
import Mathlib.Logic.Equiv.Basic

/-!
# Putting points into natural order

The points of a transform come out in the order of reversed bits. `Fourier.reverseOrder` gathers
each point of the natural order from where it stands. `Fourier.exchangeOrder` does the same in
place, on a buffer that holds the two parts of every point: an index and its reversal are exchanged
when the loop comes to the smaller one of the two.

That the loop gathers is an invariant of its turns (`Fourier.exchanged`), and holds because reversal
is its own inverse. `points_at_reversed_index` is the result for tables with any history.
-/

namespace CosineTransform

open Buffer (ofFn)
open Digits (reverseBits)

variable {α : Type}

/-! ## Exchanging elements -/

namespace Buffer

/-- `xs` with elements `i` and `j` exchanged. -/
def exchange (xs : Array α) (i j : ℕ) : Except Fault (Array α) :=
  if h : i < xs.size ∧ j < xs.size then .ok (xs.swap i j h.1 h.2)
  else .error (.outOfRange (max i j) xs.size)

theorem exchange_ofFn {count i j : ℕ} (f : ℕ → α) (hi : i < count) (hj : j < count) :
    exchange (ofFn count f) i j = .ok (ofFn count fun k => f (Equiv.swap i j k)) := by
  rw [exchange, dif_pos (by rw [size_ofFn]; exact ⟨hi, hj⟩)]
  refine congrArg Except.ok (eq_ofFn (by simp) ?_)
  intro k hk
  rw [Array.getElem_swap, Equiv.swap_apply_def]
  simp only [getElem_ofFn]
  split_ifs <;> rfl

end Buffer

namespace Fourier

/-- One turn of the loop: both parts of the points at `i` and at the reversed index are exchanged,
unless they were when the loop came to the reversed index. -/
def exchangeAt (digits : Array ℕ) (bits i : ℕ) (a : Array α) : Except Fault (Array α) := do
  let j ← Digits.reverseIndex digits bits i
  if i < j then
    let a ← Buffer.exchange a (2 * i) (2 * j)
    Buffer.exchange a (2 * i + 1) (2 * j + 1)
  else return a

/-- `reverseOrder` in place, on a buffer that holds the parts of the points in order. -/
def exchangeOrder (digits : Array ℕ) : InPlace α Unit := do
  let points := (← get).size / 2
  if points ≤ 2 then return ()
  else InPlace.loop (exchangeAt digits points.log2) points

/-- Element `t` of a buffer of `2 ^ p` points, each of which was gathered from the reversed index.
-/
def gathered (p : ℕ) (x : ℕ → α) (t : ℕ) : α := x (2 * reverseBits p (t / 2) + t % 2)

/-- Gathered twice, every point is back. -/
theorem gathered_gathered {p t : ℕ} (x : ℕ → α) (ht : t < 2 * 2 ^ p) :
    gathered p (gathered p x) t = x t := by
  unfold gathered
  rw [show (2 * reverseBits p (t / 2) + t % 2) / 2 = reverseBits p (t / 2) by omega,
    Digits.reverseBits_reverseBits (by omega),
    show 2 * (t / 2) + (2 * reverseBits p (t / 2) + t % 2) % 2 = t by omega]

/-! ## The turns of the loop -/

/-- Exchanging both parts of two points exchanges the points. -/
theorem exchange_parts {n i j : ℕ} (x : ℕ → α) (hi : i < n) (hj : j < n) :
    (do
      let a ← Buffer.exchange (ofFn (2 * n) x) (2 * i) (2 * j)
      Buffer.exchange a (2 * i + 1) (2 * j + 1)) =
      .ok (ofFn (2 * n) fun t => x (2 * Equiv.swap i j (t / 2) + t % 2)) := by
  rw [Buffer.exchange_ofFn x (by omega) (by omega), ok_bind,
    Buffer.exchange_ofFn _ (by omega) (by omega)]
  refine congrArg Except.ok (Buffer.ofFn_congr ?_)
  intro t _
  refine congrArg x ?_
  simp only [Equiv.swap_apply_def]
  split_ifs <;> omega

/-- Element `t` of the buffer of `2 ^ p` points after the first turns. A point has been exchanged as
soon as the loop has come to its index or to the reversed one. -/
def exchanged (p : ℕ) (x : ℕ → α) (turns t : ℕ) : α :=
  if min (t / 2) (reverseBits p (t / 2)) < turns then gathered p x t else x t

/-- A turn exchanges the point that it comes to, unless that was exchanged before. -/
theorem exchanged_succ {p i t : ℕ} (x : ℕ → α) (hi : i < 2 ^ p) (ht : t < 2 * 2 ^ p) :
    exchanged p x (i + 1) t =
      if i < reverseBits p i then
        exchanged p x i (2 * Equiv.swap i (reverseBits p i) (t / 2) + t % 2)
      else exchanged p x i t := by
  obtain ⟨s, part, hpart, rfl⟩ : ∃ s part, part < 2 ∧ t = 2 * s + part :=
    ⟨t / 2, t % 2, Nat.mod_lt _ two_pos, by omega⟩
  have hback := Digits.reverseBits_reverseBits hi
  have hpoint (k : ℕ) : (2 * k + part) / 2 = k := by omega
  have hpart' (k : ℕ) : (2 * k + part) % 2 = part := by omega
  -- reversal is its own inverse, so no other point goes to `i`
  have hother (hne : s ≠ reverseBits p i) : reverseBits p s ≠ i := by
    rintro rfl
    exact hne (Digits.reverseBits_reverseBits (by omega)).symm
  unfold exchanged gathered
  simp only [hpoint, hpart']
  by_cases hlt : i < reverseBits p i
  · rw [if_pos hlt]
    rcases eq_or_ne s i with rfl | hsi
    · rw [Equiv.swap_apply_left, hback, if_pos (by omega), if_neg (by omega)]
    · rcases eq_or_ne s (reverseBits p i) with rfl | hsr
      · rw [Equiv.swap_apply_right, hback, if_pos (by omega), if_neg (by omega)]
      · have hne := hother hsr
        rw [Equiv.swap_apply_of_ne_of_ne hsi hsr]
        exact if_congr (by omega) rfl rfl
  · rw [if_neg hlt]
    by_cases hturn : min s (reverseBits p s) = i
    · -- a point that has its turn without an exchange keeps its place
      have hsi : s = i := by
        by_contra hsi
        have hne := hother (by omega)
        omega
      have hfix : reverseBits p i = i := by
        rw [hsi] at hturn
        omega
      rw [hsi, hfix, ite_self, ite_self]
    · exact if_congr (by omega) rfl rfl

section Loop

variable {table : Array ℕ} {width : ℕ} (h : Digits.Levels table width)

include h

theorem exchangeAt_eq_ok {p i : ℕ} (x : ℕ → α) (hi : i < 2 ^ p) :
    exchangeAt table p i (ofFn (2 * 2 ^ p) (exchanged p x i)) =
      .ok (ofFn (2 * 2 ^ p) (exchanged p x (i + 1))) := by
  rw [exchangeAt, Digits.reverseIndex_eq_ok h hi, ok_bind]
  split
  · rename_i hlt
    rw [exchange_parts _ hi (Digits.reverseBits_lt p i)]
    refine congrArg Except.ok (Buffer.ofFn_congr ?_)
    intro t ht
    rw [exchanged_succ x hi ht, if_pos hlt]
  · rename_i hge
    refine congrArg Except.ok (Buffer.ofFn_congr ?_)
    intro t ht
    rw [exchanged_succ x hi ht, if_neg hge]

/-- The loop gathers every point from the reversed index. -/
theorem exchangeOrder_eq_ok (p : ℕ) (x : ℕ → α) :
    exchangeOrder table (ofFn (2 * 2 ^ p) x) = .ok () (ofFn (2 * 2 ^ p) (gathered p x)) := by
  rw [exchangeOrder, InPlace.get_bind, Buffer.size_ofFn, Nat.mul_div_cancel_left _ two_pos]
  split
  · rename_i hsmall
    have hp : p < 2 := (Nat.pow_lt_pow_iff_right one_lt_two).1 (by omega : 2 ^ p < 2 ^ 2)
    refine congrArg (EStateM.Result.ok ()) (Buffer.ofFn_congr ?_)
    intro t ht
    rw [gathered, Digits.reverseBits_of_lt_two hp (by omega), Nat.div_add_mod]
  · rw [Nat.log2_two_pow]
    -- after `turns` turns the pairs with a lower index among them are exchanged
    refine InPlace.loop_eq_ok (fun turns => ofFn (2 * 2 ^ p) (exchanged p x turns)) ?_ ?_ ?_
    · refine Buffer.ofFn_congr fun t _ => ?_
      rw [exchanged, if_neg (Nat.not_lt_zero _)]
    · refine Buffer.ofFn_congr fun t ht => ?_
      rw [exchanged, if_pos (by omega)]
    · intro i hi
      exact exchangeAt_eq_ok h x hi

/-- The points of a buffer are gathered to the same places. -/
theorem onPoints_reverseOrder (p : ℕ) (x : ℕ → α) :
    Stage.onPoints (reverseOrder table) (ofFn (2 * 2 ^ p) x) =
      .ok (ofFn (2 * 2 ^ p) (gathered p x)) := by
  rw [Stage.onPoints_eq_ok (reverseOrder_eq_ok h p _)]
  refine congrArg Except.ok (Buffer.ofFn_congr ?_)
  intro t _
  rw [gathered]
  rcases Nat.mod_two_eq_zero_or_one t with heven | hodd
  · rw [if_pos heven, heven]
    rfl
  · rw [if_neg (by omega), hodd]

end Loop

/-! ## Tables with any history -/

variable {R T : Type} [Precise R] [Sample R T]

/-- Through tables with any history, an index of any width is reversed bit by bit, in words of 64
bits as well. Points of any kind then go from the reversed indices to their own, gathered or
exchanged in place, and go back when this is done once more. -/
theorem points_at_reversed_index {tables : Tables T} {lengths : List ℕ}
    (ht : tables.Grown lengths) :
    (∀ bits index, index < 2 ^ bits → ∃ r,
      Digits.reverseIndex tables.rotation bits index = .ok r ∧ r < 2 ^ bits ∧
      (∀ i < bits, r.testBit i = index.testBit (bits - 1 - i)) ∧
      ((∀ n ∈ lengths, n < 2 ^ 64) → 1 ≤ bits → bits ≤ 64 →
        Digits.reverseWord 64 tables.rotation bits index = some r)) ∧
    ∀ (α : Type) (p : ℕ) (v : Array α), v.size = 2 * 2 ^ p → ∃ u,
      Stage.onPoints (reverseOrder tables.rotation) v = .ok u ∧
      exchangeOrder tables.rotation v = .ok () u ∧ u.size = v.size ∧
      (∀ i < 2 ^ p, ∀ r, Digits.reverseIndex tables.rotation p i = .ok r →
        u[2 * i]? = v[2 * r]? ∧ u[2 * i + 1]? = v[2 * r + 1]?) ∧
      Stage.onPoints (reverseOrder tables.rotation) u = .ok v ∧
      exchangeOrder tables.rotation u = .ok () v := by
  obtain ⟨width, hdigits⟩ := (Tables.built_of_build ht.build_eq).digits
  refine ⟨fun bits index hindex => ?_, fun α p v hv => ?_⟩
  · refine ⟨reverseBits bits index, Digits.reverseIndex_eq_ok hdigits hindex,
      Digits.reverseBits_lt bits index, fun i hi => Digits.testBit_reverseBits hi index, ?_⟩
    intro hword hpos hbits
    obtain ⟨width, hnarrow, hwidth⟩ := ht.exists_levels hword
    exact Digits.reverseWord_eq_some hnarrow (by omega) hpos hbits hindex
  · have hpos : 0 < v.size := hv ▸ Nat.mul_pos two_pos (Nat.two_pow_pos p)
    obtain ⟨x, hx⟩ := Buffer.exists_eq_ofFn hpos
    rw [hv] at hx
    subst hx
    -- reversing bits twice gives back the index, so each point goes back to its place
    have htwice := Buffer.ofFn_congr fun t ht => gathered_gathered (p := p) x ht
    refine ⟨_, onPoints_reverseOrder hdigits p x, exchangeOrder_eq_ok hdigits p x,
      by rw [Buffer.size_ofFn, Buffer.size_ofFn], ?_, ?_, ?_⟩
    · intro i hi r hr
      rw [Digits.reverseIndex_eq_ok hdigits hi] at hr
      obtain rfl := Except.ok.inj hr
      have hlt := Digits.reverseBits_lt p i
      simp only [Buffer.getElem?_ofFn, gathered]
      rw [if_pos (by omega), if_pos (by omega), if_pos (by omega), if_pos (by omega),
        Nat.mul_div_cancel_left i two_pos, show 2 * i % 2 = 0 by omega,
        show (2 * i + 1) / 2 = i by omega, show (2 * i + 1) % 2 = 1 by omega]
      exact ⟨rfl, rfl⟩
    · rw [onPoints_reverseOrder hdigits, htwice]
    · rw [exchangeOrder_eq_ok hdigits, htwice]

/-- Tables that were asked for twelve and then for three hundred samples have digits of two bits, so
that the three bits of an index below eight are one whole digit and half of another. -/
theorem points_at_reversed_index_eight :
    ∃ tables : Tables ℝ, tables.Grown [300, 12] ∧
      (∃ r, Digits.reverseIndex tables.rotation 3 6 = .ok r ∧ r < 2 ^ 3 ∧
        (∀ i < 3, r.testBit i = (6).testBit (3 - 1 - i)) ∧
        Digits.reverseWord 64 tables.rotation 3 6 = some r) ∧
      ∃ u, exchangeOrder tables.rotation (Array.range 16) = .ok () u ∧
        exchangeOrder tables.rotation u = .ok () (Array.range 16) := by
  obtain ⟨tables, ht⟩ := Tables.exists_grown (T := ℝ) [300, 12]
  obtain ⟨hindex, hpoints⟩ := points_at_reversed_index ht
  obtain ⟨r, hr, hlt, hbit, hword⟩ := hindex 3 6 (by norm_num)
  obtain ⟨u, -, hu, -, -, -, hback⟩ := hpoints ℕ 3 (Array.range 16) (by simp)
  have hwords : ∀ n ∈ [300, 12], n < 2 ^ 64 := by decide
  exact ⟨tables, ht, ⟨r, hr, hlt, hbit, hword hwords (by norm_num) (by norm_num)⟩, u, hu, hback⟩

end Fourier

end CosineTransform
