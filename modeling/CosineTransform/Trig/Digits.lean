import CosineTransform.Buffer

/-!
# Digit reversal

The output of a fast Fourier transform is put into natural order by reversing the bits of every
index. A table of reversed digits of a fixed width lets `reverseIndex` do so a whole digit at a
time.

## Layout of the table

Entries `0` and `1` are left to the owner of the table. The level of width `q` takes the entries
from `m = 2 ^ q` up to `2 * m`: entry `m + k` is `8 * m` times the reversal of the `q` bits of `k`.
The widest level ends the table, so its width follows from the length alone. A table of length two
has no level.

`reverseBits` reverses bits without any table.
-/

namespace CosineTransform.Digits

/-- The lowest `bits` bits of `index` in reverse order. -/
def reverseBits : (bits index : Nat) → Nat
  | 0, _ => 0
  | bits + 1, index => (index % 2) <<< bits + reverseBits bits (index / 2)

/-! ## The table -/

/-- The size of the widest level: it starts at `size` and doubles once for each factor of four of
`span` above 32. -/
def widest (size span : Nat) : Nat :=
  if 32 < span then widest (2 * size) (span / 4) else size
termination_by span

/-- The length of the table that goes with twiddle levels in `quarter` entries. -/
def tableLength (quarter : Nat) : Nat :=
  if quarter / 2 ≤ 4 then 2 else 2 * widest 2 quarter

/-- Fills the levels wider than the one of `size` entries, one for each factor of four of `span`
above 32. A level of twice the size is the level before it times four, followed by the same with
the digit's lowest bit set. -/
def widen (size span : Nat) (table : Array Nat) : Except Fault (Array Nat) :=
  if 32 < span then do
    let level ← Buffer.slice table size size
    let even := level.map (4 * ·)
    let odd := even.map (· + 16 * size)
    let table ← Buffer.blit table (2 * size) (even ++ odd)
    widen (2 * size) (span / 4) table
  else .ok table
termination_by span

/-- The table that goes with twiddle levels in `quarter` entries, with entries `0` and `1` blank. -/
def build (quarter : Nat) : Except Fault (Array Nat) :=
  let blank := Array.replicate (tableLength quarter) 0
  if 4 < quarter / 2 then do
    let table ← Buffer.blit blank 2 #[0, 16]
    widen 2 quarter table
  else .ok blank

/-! ## Reversing an index -/

/-- Appends the reversal of the `left` lowest bits of `rest` to `reversed`, `width` bits at a time
through the level of `level = 2 ^ width` entries. The bits that are left over at the end come from
the high end of a reversed digit. -/
def appendDigits (table : Array Nat) (level width left rest reversed : Nat) : Except Fault Nat :=
  if 0 < width ∧ width ≤ left then do
    let entry ← Buffer.read table (level + rest % level)
    appendDigits table level width (left - width) (rest >>> width)
      (reversed <<< width ||| entry >>> (width + 3))
  else if 0 < left then do
    let entry ← Buffer.read table (level + rest)
    let spare ← Index.sub width left
    return reversed <<< left ||| (entry >>> (width + 3)) >>> spare
  else .ok reversed
termination_by left

/-- The lowest `bits` bits of `index` in reverse order, through the widest level of `table` if it
has one. -/
def reverseIndex (table : Array Nat) (bits index : Nat) : Except Fault Nat :=
  let level := table.size / 2
  if level < 2 then .ok (reverseBits bits index)
  else appendDigits table level level.log2 bits index 0

end CosineTransform.Digits
