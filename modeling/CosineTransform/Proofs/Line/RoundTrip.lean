import CosineTransform.Proofs.Line.Loops
import CosineTransform.Proofs.Line.Transform

/-!
# Stages that undo each other

The two directions of a line transform run the same stages in opposite orders, and each stage is
undone by its counterpart, up to a factor of its own. Over the real numbers the rotation is its own
counterpart (`Stage.rotation_rotation`), the split of one sign that of the other
(`Stage.exchange_exchange`), and taking the folded samples apart doubles the line
(`Stage.unfolded_folded`). The loops that work in the buffer of the line obey the same laws, as they
leave what the stages give (`Stage.stages_undone`).
-/

namespace CosineTransform.Stage

open Buffer (entry ofFn)
open Point (parts)
open scoped ComplexConjugate

/-! ## The laws -/

/-- Rotated twice, a sample is halved: its own share comes back with half the sum of the squares of
a cosine and a sine, and that of its counterpart cancels. -/
theorem rotation_rotation {n k : ℕ} (hk : k < n) (x : ℕ → ℝ) :
    rotation n (rotation n x) k = if k = 0 then x k else x k / 2 := by
  rcases Nat.eq_zero_or_pos k with rfl | hpos
  · rfl
  have hcircle := Real.sin_sq_add_cos_sq (turnAngle n k)
  rw [if_neg hpos.ne', rotation, if_neg hpos.ne', rotation, if_neg hpos.ne', rotation,
    if_neg (by omega), Nat.sub_sub_self hk.le, turnAngle_sub (by omega) hk.le,
    Real.cos_pi_div_two_sub, Real.sin_pi_div_two_sub]
  linear_combination x k / 2 * hcircle

/-- The shares of the two signs take back what the other one gives. -/
theorem weight_add_weight_flip (sign : Sign) (m k : ℕ) :
    weight sign m k + weight sign.flip m k = 2 * weight sign m k * weight sign.flip m k := by
  have hcircle :
      sign.circle (turnAngle m (2 * k)) * sign.flip.circle (turnAngle m (2 * k)) = 1 := by
    rw [Sign.circle, Sign.circle, ← Complex.exp_add, Sign.unit_flip, ← add_mul, add_neg_cancel,
      zero_mul, Complex.exp_zero]
  have hunit := sign.unit_mul_unit
  rw [weight, weight, Sign.unit_flip]
  linear_combination (1 / 2 : ℂ) * hcircle * sign.unit * sign.unit +
    (1 / 2 : ℂ) * hunit

/-- The difference that a point exchanges is turned by the exchange. -/
theorem exchange_sub_conj (sign : Sign) {m k : ℕ} (hpos : 0 < k) (hk : k < m) (z : ℕ → ℂ) :
    exchange sign m z k - conj (exchange sign m z (m - k)) =
      (z k - conj (z (m - k))) * (1 - 2 * weight sign m k) := by
  rw [exchange, if_neg hpos.ne', exchange, if_neg (by omega), Nat.sub_sub_self hk.le, map_sub,
    map_mul, map_sub, Complex.conj_conj, conj_weight sign (by omega), Nat.sub_sub_self hk.le]
  ring

/-- The exchange of the other sign undoes an exchange. -/
theorem exchange_exchange (sign : Sign) {m k : ℕ} (hk : k < m) (z : ℕ → ℂ) :
    exchange sign.flip m (exchange sign m z) k = z k := by
  rcases Nat.eq_zero_or_pos k with rfl | hpos
  · rfl
  have hweights := weight_add_weight_flip sign m k
  rw [exchange, if_neg hpos.ne', exchange_sub_conj sign hpos hk, exchange, if_neg hpos.ne']
  linear_combination (conj (z (m - k)) - z k) * hweights

/-- The point that holds an odd sample pairs it. -/
theorem partner_holder {m k : ℕ} (hodd : k % 2 ≠ 0) : partner m (holder m k) = k := by
  unfold partner holder
  split_ifs <;> omega

/-- Sums and differences taken apart give twice the samples. -/
theorem unfolded_folded (m k : ℕ) (x : ℕ → ℝ) :
    InPlace.unfolded m (fun i => ⟨x (2 * i) + x (partner m i), x (2 * i) - x (partner m i)⟩) k =
      2 * x k := by
  rw [InPlace.unfolded]
  split
  · rw [show 2 * (k / 2) = k by omega]
    ring
  · rename_i hodd
    rw [partner_holder hodd]
    ring

/-! ## On buffers -/

section Buffers

variable {c : Array ℝ} {m n : ℕ}

theorem rotate_rotate (h : Cosines.EvenTable c) (hdvd : n ∣ c.size) (x : ℕ → ℝ) :
    (rotate c (ofFn n x) >>= rotate c) =
      .ok (ofFn n fun k => if k = 0 then x k else x k / 2) := by
  rw [rotate_eq_rotation h hdvd, ok_bind, rotate_eq_rotation h hdvd]
  exact congrArg Except.ok (Buffer.ofFn_congr fun k hk => rotation_rotation hk x)

theorem split_split (sign : Sign) (h : Cosines.EvenTable c) (hdvd : m ∣ c.size) (z : ℕ → ℂ) :
    (split sign c (ofFn m fun i => .ofComplex (z i)) >>= split sign.flip c) =
      .ok (ofFn m fun i => .ofComplex (z i)) := by
  rw [split_eq_exchange sign h hdvd, ok_bind, split_eq_exchange sign.flip h hdvd]
  refine congrArg Except.ok (Buffer.ofFn_congr fun k hk => ?_)
  rw [exchange_exchange sign hk]

theorem fold_unfold (m : ℕ) (x : ℕ → ℝ) :
    (fold (ofFn (2 * m) x) >>= unfold) = .ok (ofFn (2 * m) fun k => 2 * x k) := by
  rw [fold_eq_ok, ok_bind, unfold_eq_ok]
  exact congrArg Except.ok (Buffer.ofFn_congr fun k _ => unfolded_folded m k x)

end Buffers

end CosineTransform.Stage

namespace CosineTransform.InPlace

open Buffer (ofFn)
open Point (parts)
open Stage (exchange)

/-! ## In the buffer of the line -/

variable {c : Array ℝ} {m : ℕ}

theorem rotate_eq_rotation (h : Cosines.EvenTable c) (hm : 0 < m) (hdvd : 2 * m ∣ c.size)
    (x : ℕ → ℝ) :
    rotate c (ofFn (2 * m) x) = .ok () (ofFn (2 * m) (Stage.rotation (2 * m) x)) := by
  have hc := Nat.le_of_dvd (Nat.zero_lt_of_lt h.one_lt) hdvd
  rw [rotate_eq_ok hm hc]
  exact congrArg _ (Buffer.ofFn_congr fun k hk => Stage.rotated_eq h hdvd hk x)

theorem split_eq_exchange (sign : Sign) (h : Cosines.EvenTable c) (hm : 0 < m) (hdvd : m ∣ c.size)
    (z : ℕ → ℂ) :
    split sign c (ofFn (2 * m) (parts fun i => .ofComplex (z i))) =
      .ok () (ofFn (2 * m) (parts fun k => .ofComplex (exchange sign m z k))) := by
  have hc := Nat.le_of_dvd (Nat.zero_lt_of_lt h.one_lt) hdvd
  rw [split_eq_ok hm (by omega)]
  exact congrArg _ (Point.ofFn_parts_congr fun k hk => Stage.separated_eq sign h hdvd hk z)

theorem rotate_rotate (h : Cosines.EvenTable c) (hm : 0 < m) (hdvd : 2 * m ∣ c.size) (x : ℕ → ℝ) :
    (do rotate c; rotate c : InPlace ℝ Unit) (ofFn (2 * m) x) =
      .ok () (ofFn (2 * m) fun k => if k = 0 then x k else x k / 2) := by
  rw [bind_of_ok (rotate_eq_rotation h hm hdvd x), rotate_eq_rotation h hm hdvd]
  exact congrArg _ (Buffer.ofFn_congr fun k hk => Stage.rotation_rotation hk x)

theorem split_split (sign : Sign) (h : Cosines.EvenTable c) (hm : 0 < m) (hdvd : m ∣ c.size)
    (z : ℕ → ℂ) :
    (do split sign c; split sign.flip c : InPlace ℝ Unit)
        (ofFn (2 * m) (parts fun i => .ofComplex (z i))) =
      .ok () (ofFn (2 * m) (parts fun i => .ofComplex (z i))) := by
  rw [bind_of_ok (split_eq_exchange sign h hm hdvd z), split_eq_exchange sign.flip h hm hdvd]
  refine congrArg _ (Point.ofFn_parts_congr fun k hk => ?_)
  rw [Stage.exchange_exchange sign hk]

theorem fold_unfold (hm : 0 < m) (x : ℕ → ℝ) :
    (do fold; unfold : InPlace ℝ Unit) (ofFn (2 * m) x) =
      .ok () (ofFn (2 * m) fun k => 2 * x k) := by
  rw [bind_of_ok (fold_eq_ok hm x), unfold_eq_ok hm]
  exact congrArg _ (Buffer.ofFn_congr fun k _ => Stage.unfolded_folded m k x)

end CosineTransform.InPlace

namespace CosineTransform.Stage

open Buffer (entry ofFn)
open Point (parts)

/-! ## On the tables of any requests -/

/-- On tables whose longest granted length is a power of two, and for every line of a power of two
samples that is no longer: the rotation taken twice keeps sample `0` and halves every other one, the
splits of the two signs undo each other in either order, and the samples that are folded and taken
apart are doubled. The loops in the buffer of the line leave the same. -/
theorem stages_undone {tables : Tables ℝ} {lengths : List ℕ} (ht : tables.Grown lengths)
    (hlongest : (Tables.longest lengths).isPowerOfTwo) {n : ℕ} (hpow : n.isPowerOfTwo)
    (htwo : 2 ≤ n) (hfit : n ≤ Tables.longest lengths) {a : Array ℝ} (ha : a.size = n) :
    let c := tables.cosines
    let halved := a.mapIdx fun k x => if k = 0 then x else x / 2
    let doubled := a.map (2 * ·)
    ((rotate c a >>= rotate c) = .ok halved ∧
      (do InPlace.rotate c; InPlace.rotate c : InPlace ℝ Unit) a = .ok () halved) ∧
    (∀ sign : Sign,
      (∀ z : Array (Point ℝ), z.size = n / 2 → (split sign c z >>= split sign.flip c) = .ok z) ∧
      (do InPlace.split sign c; InPlace.split sign.flip c : InPlace ℝ Unit) a = .ok () a) ∧
    (fold a >>= unfold) = .ok doubled ∧
      (do InPlace.fold; InPlace.unfold : InPlace ℝ Unit) a = .ok () doubled := by
  intro c halved doubled
  obtain ⟨K, hK, hbuilt⟩ := ht.built_longest hlongest
  obtain ⟨p, rfl⟩ := LineTransform.exists_eq_two_mul hpow (by omega)
  have hp : p + 1 ≤ K := (Nat.pow_le_pow_iff_right one_lt_two).1 (by rw [pow_succ']; omega)
  have htable := LineTransform.evenTable hbuilt (by omega)
  have hdvd := hbuilt.dvd_cosines hp
  have hhalf : 2 ^ p ∣ c.size := (Dvd.intro_left 2 rfl).trans hdvd
  have hpos := Nat.two_pow_pos p
  have hline : ofFn (2 * 2 ^ p) (entry a) = a := by rw [← ha, Buffer.ofFn_entry]
  have hpoints : ofFn (2 * 2 ^ p) (parts fun i => .ofComplex (pairPoint (entry a) i)) = a :=
    (Buffer.ofFn_congr fun k _ => Point.parts_pairs (entry a) k).trans hline
  -- both results in the form in which the stages leave them
  have hhalved :
      ofFn (2 * 2 ^ p) (fun k => if k = 0 then entry a k else entry a k / 2) = halved := by
    refine (Buffer.eq_ofFn (by rw [Array.size_mapIdx, ha]) fun k hk => ?_).symm
    rw [Array.getElem_mapIdx, Buffer.entry_eq_getElem]
  have hdoubled : ofFn (2 * 2 ^ p) (fun k => 2 * entry a k) = doubled :=
    (Buffer.map_ofFn (entry a) (2 * ·) _).symm.trans (congrArg _ hline)
  refine ⟨⟨?_, ?_⟩, fun sign => ⟨fun z hz => ?_, ?_⟩, ?_, ?_⟩
  · rw [← hhalved, ← rotate_rotate htable hdvd, hline]
  · rw [← hhalved, ← InPlace.rotate_rotate htable hpos hdvd, hline]
  · rw [Nat.mul_div_cancel_left _ two_pos] at hz
    obtain ⟨w, hw⟩ := Buffer.exists_eq_ofFn (hz ▸ hpos)
    rw [hw, hz]
    exact split_split sign htable hhalf fun i => ⟨(w i).re, (w i).im⟩
  · have hsplit := InPlace.split_split sign htable hpos hhalf (pairPoint (entry a))
    rwa [hpoints] at hsplit
  · rw [← hdoubled, ← fold_unfold, hline]
  · rw [← hdoubled, ← InPlace.fold_unfold hpos, hline]

/-- Eight samples on tables that were asked for seven and then for sixteen. -/
theorem stages_undone_eight :
    ∃ tables : Tables ℝ, tables.Grown [16, 7] ∧
      (rotate tables.cosines #[1, 2, 3, 5, 8, 13, 21, 34] >>= rotate tables.cosines) =
        .ok #[1, 1, 3 / 2, 5 / 2, 4, 13 / 2, 21 / 2, 17] ∧
      (do InPlace.split .negative tables.cosines; InPlace.split .positive tables.cosines :
        InPlace ℝ Unit) #[1, 2, 3, 5, 8, 13, 21, 34] = .ok () #[1, 2, 3, 5, 8, 13, 21, 34] ∧
      (do InPlace.fold; InPlace.unfold : InPlace ℝ Unit) #[1, 2, 3, 5, 8, 13, 21, 34] =
        .ok () #[2, 4, 6, 10, 16, 26, 42, 68] := by
  obtain ⟨tables, ht⟩ := Tables.exists_grown (T := ℝ) [16, 7]
  obtain ⟨⟨hrotate, -⟩, hsplit, -, hfold⟩ := stages_undone ht ⟨4, rfl⟩
    (⟨3, rfl⟩ : Nat.isPowerOfTwo 8) (by norm_num) (by decide)
    (a := #[1, 2, 3, 5, 8, 13, 21, 34]) rfl
  refine ⟨tables, ht, ?_, (hsplit .negative).2, ?_⟩
  · rw [hrotate]
    norm_num
  · rw [hfold]
    norm_num

end CosineTransform.Stage
