import CosineTransform.Proofs.Buffer
import CosineTransform.Trig.Digits
import Mathlib.Tactic.IntervalCases
import Mathlib.Tactic.Ring

/-!
# Bit reversal through a table of digits

`reverseBits` can be taken apart at either end of an index, or anywhere between
(`reverseBits_add`), and is its own inverse on indices of the given width.

`build_eq_ok` fills every level of the digit reversal table, whatever the length asked for, and
`reverseIndex_eq_ok` reads the reversal of an index of any width back from it.
-/

namespace CosineTransform.Digits

/-! ## Reversing bits -/

theorem reverseBits_succ (bits index : ℕ) :
    reverseBits (bits + 1) index = index % 2 * 2 ^ bits + reverseBits bits (index / 2) := by
  rw [reverseBits, Nat.shiftLeft_eq]

theorem reverseBits_lt (bits index : ℕ) : reverseBits bits index < 2 ^ bits := by
  induction bits generalizing index with
  | zero => simp [reverseBits]
  | succ bits ih =>
    have hlow : index % 2 * 2 ^ bits ≤ 1 * 2 ^ bits := Nat.mul_le_mul_right _ (by omega)
    have hrest := ih (index / 2)
    rw [reverseBits_succ, pow_succ]
    omega

@[simp]
theorem reverseBits_zero_right (bits : ℕ) : reverseBits bits 0 = 0 := by
  induction bits with
  | zero => rfl
  | succ bits ih => rw [reverseBits_succ, Nat.zero_mod, Nat.zero_div, ih, zero_mul, zero_add]

/-- The low bits of an index end up above the reversal of the others. -/
theorem reverseBits_add (low high index : ℕ) :
    reverseBits (low + high) index =
      reverseBits low index * 2 ^ high + reverseBits high (index / 2 ^ low) := by
  induction low generalizing index with
  | zero => simp [reverseBits]
  | succ low ih =>
    rw [Nat.add_right_comm, reverseBits_succ, reverseBits_succ, ih, Nat.div_div_eq_div_mul,
      ← pow_succ']
    ring

/-- Only the low bits of an index are looked at. -/
theorem reverseBits_mod (bits index : ℕ) :
    reverseBits bits (index % 2 ^ bits) = reverseBits bits index := by
  induction bits generalizing index with
  | zero => rfl
  | succ bits ih =>
    have hlow : index % 2 ^ (bits + 1) % 2 = index % 2 :=
      Nat.mod_mod_of_dvd _ (dvd_pow_self 2 (by omega))
    have hrest : index % 2 ^ (bits + 1) / 2 = index / 2 % 2 ^ bits := by
      rw [pow_succ', Nat.mod_mul_right_div_self]
    rw [reverseBits_succ, reverseBits_succ, hlow, hrest, ih]

/-- With its highest bit clear, an index reverses to an even number. -/
theorem reverseBits_succ_of_lt {bits index : ℕ} (h : index < 2 ^ bits) :
    reverseBits (bits + 1) index = 2 * reverseBits bits index := by
  rw [reverseBits_add, Nat.div_eq_of_lt h, reverseBits_zero_right]
  ring

/-- The highest bit of an index is the lowest of its reversal. -/
theorem reverseBits_succ_add {bits index : ℕ} (h : index < 2 ^ bits) :
    reverseBits (bits + 1) (2 ^ bits + index) = 2 * reverseBits bits index + 1 := by
  have hlow : reverseBits bits (2 ^ bits + index) = reverseBits bits index := by
    rw [← reverseBits_mod, Nat.add_mod_left, reverseBits_mod]
  have htop : (2 ^ bits + index) / 2 ^ bits = 1 := by
    rw [Nat.add_div_left _ (Nat.two_pow_pos _), Nat.div_eq_of_lt h]
  rw [reverseBits_add, hlow, htop]
  simp only [reverseBits, Nat.shiftLeft_eq]
  ring

/-- The bits above an index become zeros below its reversal. -/
theorem reverseBits_of_lt {bits width index : ℕ} (h : index < 2 ^ bits) (hle : bits ≤ width) :
    reverseBits width index = reverseBits bits index * 2 ^ (width - bits) := by
  obtain ⟨high, rfl⟩ := Nat.exists_eq_add_of_le hle
  rw [reverseBits_add, Nat.div_eq_of_lt h, reverseBits_zero_right, add_zero,
    Nat.add_sub_cancel_left]

/-- Each bit stands as far from the low end as it stood from the high end. -/
theorem testBit_reverseBits {bits i : ℕ} (h : i < bits) (index : ℕ) :
    (reverseBits bits index).testBit i = index.testBit (bits - 1 - i) := by
  induction bits generalizing index with
  | zero => omega
  | succ bits ih =>
    rw [reverseBits_succ, Nat.mul_comm, Nat.testBit_two_pow_mul_add _ (reverseBits_lt bits _)]
    split
    · rename_i hlow
      rw [ih hlow, Nat.testBit_div_two, show bits + 1 - 1 - i = bits - 1 - i + 1 by omega]
    · obtain rfl : i = bits := by omega
      rw [Nat.sub_self, show i + 1 - 1 - i = 0 by omega, Nat.testBit_zero, Nat.testBit_zero,
        Nat.mod_mod]

/-- One bit or none is its own reversal. -/
theorem reverseBits_of_lt_two {bits index : ℕ} (hbits : bits < 2) (h : index < 2 ^ bits) :
    reverseBits bits index = index := by
  interval_cases bits
  · obtain rfl : index = 0 := by simpa using h
    rfl
  · interval_cases index <;> rfl

/-- Reversal is its own inverse. -/
theorem reverseBits_reverseBits {bits index : ℕ} (h : index < 2 ^ bits) :
    reverseBits bits (reverseBits bits index) = index := by
  induction bits generalizing index with
  | zero =>
    have : index = 0 := by simpa using h
    rw [this]
    rfl
  | succ bits ih =>
    have hhalf : index / 2 < 2 ^ bits := by
      rw [pow_succ] at h
      omega
    have hrev := reverseBits_lt bits (index / 2)
    rw [reverseBits_succ bits index]
    -- the first bit comes last, where the second reversal finds it
    rcases Nat.mod_two_eq_zero_or_one index with hbit | hbit
    · rw [hbit, zero_mul, zero_add, reverseBits_succ_of_lt hrev, ih hhalf]
      omega
    · rw [hbit, one_mul, reverseBits_succ_add hrev, ih hhalf]
      omega

/-! ## The table -/

/-- The levels of `table` up to `width` hold the reversals of all digits of their width. -/
def Filled (table : Array ℕ) (width : ℕ) : Prop :=
  ∀ q, 1 ≤ q → q ≤ width → ∀ k < 2 ^ q,
    Buffer.entry table (2 ^ q + k) = 8 * 2 ^ q * reverseBits q k

/-- A table whose levels end with the filled one of `width`. -/
structure Levels (table : Array ℕ) (width : ℕ) : Prop where
  size_eq : table.size = 2 ^ (width + 1)
  filled : Filled table width

/-- The widest level is within the table. -/
theorem Levels.read_eq_ok {table : Array ℕ} {width : ℕ} (h : Levels table width)
    (hwidth : 1 ≤ width)
    {k : ℕ} (hk : k < 2 ^ width) :
    Buffer.read table (2 ^ width + k) = .ok (8 * 2 ^ width * reverseBits width k) := by
  rw [Buffer.read_eq_entry (by rw [h.size_eq, pow_succ]; omega), h.filled width hwidth le_rfl k hk]

/-- The widest level has a power of two for its size. -/
theorem widest_eq (q span : ℕ) : ∃ width, q ≤ width ∧ widest (2 ^ q) span = 2 ^ width := by
  induction span using Nat.strong_induction_on generalizing q with
  | _ span ih =>
    rw [widest]
    split
    · obtain ⟨width, hle, heq⟩ := ih (span / 4) (by omega) (q + 1)
      rw [← pow_succ']
      exact ⟨width, by omega, heq⟩
    · exact ⟨q, le_rfl, rfl⟩

/-- A level and its copy with the lowest bit of the digit set make the next level. -/
theorem Filled.succ {table wider : Array ℕ} {q : ℕ} (h : Filled table q)
    (hkept : ∀ i < 2 * 2 ^ q, Buffer.entry wider i = Buffer.entry table i)
    (heven : ∀ k < 2 ^ q, Buffer.entry wider (2 * 2 ^ q + k) =
      4 * (8 * 2 ^ q * reverseBits q k))
    (hodd : ∀ k < 2 ^ q, Buffer.entry wider (2 * 2 ^ q + (2 ^ q + k)) =
      4 * (8 * 2 ^ q * reverseBits q k) + 16 * 2 ^ q) :
    Filled wider (q + 1) := by
  intro q' hpos hle k hk
  rcases Nat.lt_or_ge q' (q + 1) with hlt | hge
  · have hlevel : 2 ^ (q' + 1) ≤ 2 ^ (q + 1) := Nat.pow_le_pow_right (by omega) (by omega)
    rw [hkept _ (by rw [pow_succ, pow_succ] at hlevel; omega)]
    exact h q' hpos (by omega) k hk
  · obtain rfl : q' = q + 1 := by omega
    rw [pow_succ'] at hk ⊢
    -- the two halves of the new level differ in the upper bit of the index
    rcases Nat.lt_or_ge k (2 ^ q) with hlow | hhigh
    · rw [heven k hlow, reverseBits_succ_of_lt hlow]
      ring
    · obtain ⟨k, rfl⟩ := Nat.exists_eq_add_of_le hhigh
      have hk' : k < 2 ^ q := by omega
      rw [hodd k hk', reverseBits_succ_add hk']
      ring

/-- The level above a filled one is written in one piece. -/
theorem Filled.of_blit {table wider : Array ℕ} {q : ℕ} (h : Filled table q)
    (hblit : Buffer.blit table (2 * 2 ^ q) (Buffer.ofFn (2 ^ q + 2 ^ q) fun i =>
      if i < 2 ^ q then ((4 * ·) ∘ fun k => 8 * 2 ^ q * reverseBits q k) i
      else ((· + 16 * 2 ^ q) ∘ (4 * ·) ∘ fun k => 8 * 2 ^ q * reverseBits q k) (i - 2 ^ q)) =
        .ok wider) :
    Filled wider (q + 1) := by
  have hentry := Buffer.entry_of_blit hblit
  rw [Buffer.size_ofFn] at hentry
  apply h.succ
  · intro i hi
    rw [hentry, if_neg (by omega)]
  · intro k hk
    rw [hentry, if_pos (by omega), Nat.add_sub_cancel_left, Buffer.entry_ofFn _ (by omega),
      if_pos hk]
    rfl
  · intro k hk
    rw [hentry, if_pos (by omega), Nat.add_sub_cancel_left, Buffer.entry_ofFn _ (by omega),
      if_neg (by omega), Nat.add_sub_cancel_left]
    rfl

/-- Widening a table goes up to its last level and fills them all. -/
theorem widen_eq_ok {q span : ℕ} {table : Array ℕ} (hq : 1 ≤ q)
    (hsize : table.size = 2 * widest (2 ^ q) span) (h : Filled table q) :
    ∃ wider width, widen (2 ^ q) span table = .ok wider ∧ wider.size = table.size ∧
      Levels wider width := by
  induction span using Nat.strong_induction_on generalizing q table with
  | _ span ih =>
    rw [widest] at hsize
    rw [widen]
    split at hsize
    · rename_i hspan
      rw [if_pos hspan]
      obtain ⟨width, hle, hwidest⟩ := widest_eq (q + 1) (span / 4)
      rw [pow_succ'] at hwidest
      have hroom : 2 * (2 * 2 ^ q) ≤ table.size := by
        rw [hsize, hwidest, ← pow_succ']
        exact Nat.mul_le_mul_left 2 (Nat.pow_le_pow_right (by omega) hle)
      -- the level of width `q`, by the reversals that it holds
      have hlevel : Buffer.slice table (2 ^ q) (2 ^ q) =
          .ok (Buffer.ofFn (2 ^ q) fun k => 8 * 2 ^ q * reverseBits q k) := by
        rw [Buffer.slice_eq_ok (by omega)]
        exact congrArg _ (Buffer.ofFn_congr fun k hk => h q hq le_rfl k hk)
      simp only [hlevel, ok_bind, Buffer.map_ofFn, Buffer.ofFn_append]
      obtain ⟨wider, hblit⟩ := Buffer.blit_eq_ok table (2 * 2 ^ q)
        (Buffer.ofFn (2 ^ q + 2 ^ q) fun i =>
          if i < 2 ^ q then ((4 * ·) ∘ fun k => 8 * 2 ^ q * reverseBits q k) i
          else ((· + 16 * 2 ^ q) ∘ (4 * ·) ∘ fun k => 8 * 2 ^ q * reverseBits q k) (i - 2 ^ q))
        (by rw [Buffer.size_ofFn]; omega)
      have hfilled := h.of_blit hblit
      rw [hblit, ok_bind, ← pow_succ']
      have hwider := Buffer.size_of_blit hblit
      rw [← pow_succ'] at hsize
      obtain ⟨result, width, hrun, hresult, hlevels⟩ :=
        ih (span / 4) (by omega) (by omega) (hwider.trans hsize) hfilled
      exact ⟨result, width, hrun, hresult.trans hwider, hlevels⟩
    · rename_i hspan
      rw [if_neg hspan]
      exact ⟨table, q, rfl, rfl, by rw [hsize, pow_succ'], h⟩

/-- From its first level on, a table of the right size is filled whatever it held. -/
theorem widen_start_eq_ok {quarter : ℕ} {table : Array ℕ}
    (hsize : table.size = 2 * widest 2 quarter) :
    ∃ start wider width, Buffer.blit table 2 #[0, 16] = .ok start ∧
      widen 2 quarter start = .ok wider ∧ wider.size = table.size ∧ Levels wider width := by
  obtain ⟨width, hle, hwidest⟩ := widest_eq 1 quarter
  rw [pow_one] at hwidest
  have hroom : 2 * 2 ^ 1 ≤ 2 * 2 ^ width :=
    Nat.mul_le_mul_left 2 (Nat.pow_le_pow_right (by omega) hle)
  obtain ⟨start, hblit⟩ := Buffer.blit_eq_ok table 2 #[0, 16] (by simp [hsize, hwidest]; omega)
  have hstart := Buffer.size_of_blit hblit
  -- the first level is written as it is
  have hfilled : Filled start 1 := by
    intro q hpos hle k hk
    obtain rfl : q = 1 := by omega
    rw [Buffer.entry_of_blit hblit]
    interval_cases k <;> rfl
  obtain ⟨wider, width, hrun, hwider, hlevels⟩ := widen_eq_ok le_rfl (hstart.trans hsize) hfilled
  exact ⟨start, wider, width, hblit, hrun, hwider.trans hstart, hlevels⟩

/-- A digit reversal table of any length is built, and all its levels are filled. -/
theorem build_eq_ok (quarter : ℕ) :
    ∃ table width, build quarter = .ok table ∧ table.size = tableLength quarter ∧
      Levels table width := by
  unfold build tableLength
  rcases Nat.lt_or_ge 4 (quarter / 2) with hquarter | hquarter
  · rw [if_pos hquarter, if_neg (by omega)]
    obtain ⟨start, wider, width, hblit, hrun, hsize, hlevels⟩ :=
      widen_start_eq_ok (Array.size_replicate : (Array.replicate (2 * widest 2 quarter) 0).size = _)
    simp only [hblit, ok_bind]
    exact ⟨wider, width, hrun, hsize.trans Array.size_replicate, hlevels⟩
  · rw [if_neg (by omega), if_pos hquarter]
    exact ⟨_, 0, rfl, by simp, by simp, fun q hpos hle => by omega⟩

/-! ## Reversing an index -/

theorem shiftRight_entry {q : ℕ} (r : ℕ) : (8 * 2 ^ q * r) >>> (q + 3) = r := by
  have hpow : 8 * 2 ^ q = 2 ^ (q + 3) := by ring
  rw [Nat.shiftRight_eq_div_pow, hpow, Nat.mul_div_cancel_left _ (Nat.two_pow_pos _)]

/-- Digit by digit, the reversal of the bits that are left is appended. -/
theorem appendDigits_eq_ok {table : Array ℕ} {width : ℕ} (h : Levels table width)
    (hwidth : 1 ≤ width) {left rest reversed : ℕ} (hrest : rest < 2 ^ left) :
    appendDigits table (2 ^ width) width left rest reversed =
      .ok (reversed * 2 ^ left + reverseBits left rest) := by
  induction left using Nat.strong_induction_on generalizing rest reversed with
  | _ left ih =>
    rw [appendDigits]
    split
    · rename_i hdigit
      -- a whole digit
      have hsplit : left = width + (left - width) := by omega
      have hrest' : rest >>> width < 2 ^ (left - width) := by
        rw [Nat.shiftRight_eq_div_pow]
        exact Nat.div_lt_of_lt_mul (by rwa [← pow_add, ← hsplit])
      rw [h.read_eq_ok hwidth (Nat.mod_lt _ (Nat.two_pow_pos _)), ok_bind, shiftRight_entry,
        ih (left - width) (by omega) hrest', reverseBits_mod,
        ← Nat.shiftLeft_add_eq_or_of_lt (reverseBits_lt width rest), Nat.shiftLeft_eq,
        Nat.shiftRight_eq_div_pow]
      conv_rhs => rw [hsplit, reverseBits_add, pow_add]
      congr 1
      ring
    · rename_i hdigit
      split
      · -- the bits that are left are the high end of a reversed digit
        have hshort : left < width := by omega
        have hlt : 2 ^ left < 2 ^ width := Nat.pow_lt_pow_right (by omega) hshort
        rw [h.read_eq_ok hwidth (by omega), ok_bind, Index.sub_eq_ok (by omega), ok_bind,
          shiftRight_entry, reverseBits_of_lt hrest hshort.le, Nat.shiftRight_eq_div_pow,
          Nat.mul_div_cancel _ (Nat.two_pow_pos _),
          ← Nat.shiftLeft_add_eq_or_of_lt (reverseBits_lt left rest), Nat.shiftLeft_eq]
        rfl
      · obtain rfl : left = 0 := by omega
        simp [reverseBits]

/-- Through whatever levels the table has, an index is reversed. -/
theorem reverseIndex_eq_ok {table : Array ℕ} {width : ℕ} (h : Levels table width) {bits index : ℕ}
    (hindex : index < 2 ^ bits) : reverseIndex table bits index = .ok (reverseBits bits index) := by
  have hlevel : table.size / 2 = 2 ^ width := by
    rw [h.size_eq, pow_succ, Nat.mul_div_cancel _ (by omega)]
  rw [reverseIndex, hlevel]
  rcases Nat.eq_zero_or_pos width with rfl | hwidth
  · rfl
  · have htwo : 2 ^ 1 ≤ 2 ^ width := Nat.pow_le_pow_right (by omega) hwidth
    rw [if_neg (by omega), Nat.log2_two_pow, appendDigits_eq_ok h hwidth hindex, zero_mul, zero_add]

end CosineTransform.Digits
