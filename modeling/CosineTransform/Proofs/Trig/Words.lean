import CosineTransform.Proofs.Trig.Growth

/-!
# Reversing an index in machine words

`Digits.reverseIndex` works on numbers without a bound. `Digits.reverseWord` is the same on words of
a fixed number of bits, under the rules of a machine: a shift by a whole word or more is refused,
and a shift to the left loses the bits that leave the word.

Tables for lengths that are words of 64 bits have digits of less than half that width
(`Tables.Grown.exists_levels`). With such digits no shift is refused and no bit is lost, so both
give the same index (`Digits.reverseWord_eq_some`).
-/

namespace CosineTransform

/-! ## Shifts -/

namespace Word

/-- `x` shifted to the left by `amount` in words of `size` bits. -/
def shiftLeft (size x amount : ℕ) : Option ℕ :=
  if amount < size then some (x <<< amount % 2 ^ size) else none

/-- `x` shifted to the right by `amount` in words of `size` bits. -/
def shiftRight (size x amount : ℕ) : Option ℕ :=
  if amount < size then some (x >>> amount) else none

theorem shiftRight_eq_some {size amount : ℕ} (h : amount < size) (x : ℕ) :
    shiftRight size x amount = some (x >>> amount) := if_pos h

/-- `used` bits, shifted to the left, lie below bit `used + amount`. -/
theorem shiftLeft_lt {x used : ℕ} (h : x < 2 ^ used) (amount : ℕ) :
    x <<< amount < 2 ^ (used + amount) := by
  rw [Nat.shiftLeft_eq, pow_add]
  exact Nat.mul_lt_mul_of_pos_right h (Nat.two_pow_pos amount)

/-- No bit is lost as long as the bits in use fit into a word above the shift. -/
theorem shiftLeft_eq_some {size x used amount : ℕ} (hx : x < 2 ^ used) (hfit : used + amount ≤ size)
    (h : amount < size) : shiftLeft size x amount = some (x <<< amount) := by
  have hlt : x <<< amount < 2 ^ size :=
    (shiftLeft_lt hx amount).trans_le (Nat.pow_le_pow_right two_pos hfit)
  rw [shiftLeft, if_pos h, Nat.mod_eq_of_lt hlt]

end Word

namespace Digits

/-- `appendDigits` in words of `size` bits. -/
def appendWords (size : ℕ) (table : Array ℕ) (level width left rest reversed : ℕ) : Option ℕ :=
  if 0 < width ∧ width ≤ left then do
    let entry ← table[level + rest % level]?
    let digit ← Word.shiftRight size entry (width + 3)
    let higher ← Word.shiftLeft size reversed width
    let rest ← Word.shiftRight size rest width
    appendWords size table level width (left - width) rest (higher ||| digit)
  else if 0 < left then do
    let entry ← table[level + rest]?
    let digit ← Word.shiftRight size entry (width + 3)
    let higher ← Word.shiftLeft size reversed left
    let digit ← Word.shiftRight size digit (width - left)
    return higher ||| digit
  else some reversed
termination_by left

/-- `reverseIndex` in words of `size` bits. Without a level all the bits of the word are reversed,
and those that stood above the index are shifted out. -/
def reverseWord (size : ℕ) (table : Array ℕ) (bits index : ℕ) : Option ℕ :=
  let level := table.size / 2
  if level < 2 then
    if bits ≤ size then Word.shiftRight size (reverseBits size index) (size - bits) else none
  else appendWords size table level level.log2 bits index 0

/-! ## The width of the digits -/

/-- The size of the widest level doubles where the length that it goes with takes four times as
much. -/
theorem widest_sq_le (size : ℕ) {span : ℕ} (h : 0 < span) :
    widest size span ^ 2 ≤ size ^ 2 * span := by
  induction span using Nat.strong_induction_on generalizing size with
  | _ span ih =>
    rw [widest]
    split
    · calc widest (2 * size) (span / 4) ^ 2
          ≤ (2 * size) ^ 2 * (span / 4) := ih (span / 4) (by omega) (2 * size) (by omega)
        _ = size ^ 2 * (4 * (span / 4)) := by ring
        _ ≤ size ^ 2 * span := Nat.mul_le_mul_left _ (Nat.mul_div_le span 4)
    · exact Nat.le_mul_of_pos_right _ h

theorem tableLength_lt {quarter : ℕ} (h : quarter < 2 ^ 62) : tableLength quarter < 2 ^ 33 := by
  rw [tableLength]
  split
  · norm_num
  · have hsq : widest 2 quarter ^ 2 < (2 ^ 32) ^ 2 := by
      calc widest 2 quarter ^ 2
          ≤ 2 ^ 2 * quarter := widest_sq_le 2 (by omega)
        _ < 2 ^ 2 * 2 ^ 62 := Nat.mul_lt_mul_of_pos_left h (by norm_num)
        _ = (2 ^ 32) ^ 2 := by norm_num
    have hwidest := lt_of_pow_lt_pow_left₀ 2 (Nat.zero_le _) hsq
    omega

/-! ## Reversal -/

section Reversal

variable {table : Array ℕ} {width size : ℕ} (h : Levels table width) (hsize : width + 3 < size)

include h hsize

/-- As long as the bits that are reversed and those that are left fit into a word, words do what
numbers do. -/
theorem appendWords_eq (hwidth : 1 ≤ width) {left rest reversed used : ℕ} (hrest : rest < 2 ^ left)
    (hused : reversed < 2 ^ used) (hfit : used + left ≤ size) :
    appendWords size table (2 ^ width) width left rest reversed =
      (appendDigits table (2 ^ width) width left rest reversed).toOption := by
  have hentry {k : ℕ} (hk : k < 2 ^ width) :
      table[2 ^ width + k]? = some (8 * 2 ^ width * reverseBits width k) := by
    obtain ⟨hin, hvalue⟩ := Buffer.read_eq_ok_iff.1 (h.read_eq_ok hwidth hk)
    rw [Array.getElem?_eq_getElem hin, hvalue]
  -- on the bits that are left; with those already reversed they always fit in a word
  induction left using Nat.strong_induction_on generalizing rest reversed used with
  | _ left ih =>
    rw [appendWords, appendDigits]
    split
    · have hlow : rest % 2 ^ width < 2 ^ width := Nat.mod_lt _ (Nat.two_pow_pos width)
      have hsplit : left = width + (left - width) := by omega
      have hrest' : rest >>> width < 2 ^ (left - width) := by
        rw [Nat.shiftRight_eq_div_pow]
        exact Nat.div_lt_of_lt_mul (by rwa [← pow_add, ← hsplit])
      have hdigit : reverseBits width (rest % 2 ^ width) < 2 ^ (used + width) :=
        (reverseBits_lt width _).trans_le (Nat.pow_le_pow_right two_pos (by omega))
      have hused' := Nat.or_lt_two_pow (Word.shiftLeft_lt hused width) hdigit
      rw [hentry hlow, h.read_eq_ok hwidth hlow, ok_bind, Option.bind_eq_bind, Option.bind_some,
        Word.shiftRight_eq_some hsize, shiftRight_entry, Option.bind_some,
        Word.shiftLeft_eq_some hused (by omega) (by omega), Option.bind_some,
        Word.shiftRight_eq_some (by omega), Option.bind_some]
      exact ih (left - width) (by omega) hrest' hused' (by omega)
    · split
      · -- fewer bits than a digit has: the upper ones of the entry are shifted out
        have hlt : 2 ^ left < 2 ^ width := Nat.pow_lt_pow_right (by omega) (by omega)
        have hlow : rest < 2 ^ width := hrest.trans hlt
        rw [hentry hlow, h.read_eq_ok hwidth hlow, ok_bind, Option.bind_eq_bind, Option.bind_some,
          Word.shiftRight_eq_some hsize, Option.bind_some,
          Word.shiftLeft_eq_some hused hfit (by omega), Option.bind_some,
          Word.shiftRight_eq_some (by omega), Option.bind_some, Index.sub_eq_ok (by omega)]
        rfl
      · rfl

/-- In words an index is reversed as it is in numbers without a bound. -/
theorem reverseWord_eq_some {bits index : ℕ} (hpos : 1 ≤ bits) (hbits : bits ≤ size)
    (hindex : index < 2 ^ bits) :
    reverseWord size table bits index = some (reverseBits bits index) := by
  have hlevel : table.size / 2 = 2 ^ width := by
    rw [h.size_eq, pow_succ, Nat.mul_div_cancel _ (by omega)]
  rw [reverseWord, hlevel]
  rcases Nat.eq_zero_or_pos width with rfl | hwidth
  · rw [if_pos (by norm_num), if_pos hbits, Word.shiftRight_eq_some (by omega),
      reverseBits_of_lt hindex hbits, Nat.shiftRight_eq_div_pow,
      Nat.mul_div_cancel _ (Nat.two_pow_pos _)]
  · have htwo : 2 ^ 1 ≤ 2 ^ width := Nat.pow_le_pow_right (by omega) hwidth
    have hnone : 0 < 2 ^ 0 := Nat.two_pow_pos 0
    rw [if_neg (by omega), Nat.log2_two_pow,
      appendWords_eq h hsize hwidth hindex hnone (by omega), appendDigits_eq_ok h hwidth hindex,
      zero_mul, zero_add]
    rfl

end Reversal

end Digits

namespace Tables

variable {R T : Type} [Precise R] [Sample R T] {t : Tables T} {lengths : List ℕ}

/-- Tables for lengths that are words of 64 bits have digits of less than half that width. -/
theorem Grown.exists_levels (h : t.Grown lengths) (hword : ∀ n ∈ lengths, n < 2 ^ 64) :
    ∃ width, Digits.Levels t.rotation width ∧ width < 32 := by
  obtain ⟨digits, -, -, hdigits, hrotation⟩ := parts_of_build h.build_eq
  obtain ⟨table, width, htable, hsize, hlevels⟩ := Digits.build_eq_ok (longest lengths / 4)
  obtain rfl := Except.ok.inj (hdigits.symm.trans htable)
  have hlongest : longest lengths < 2 ^ 64 := longest_lt (by norm_num) hword
  have hlength : 2 ^ (width + 1) < 2 ^ 33 := by
    rw [← hlevels.size_eq, hsize]
    exact Digits.tableLength_lt (by omega)
  have hwidth := (Nat.pow_lt_pow_iff_right one_lt_two).1 hlength
  exact ⟨width, levels_of_blit hlevels hrotation, by omega⟩

end Tables

end CosineTransform
