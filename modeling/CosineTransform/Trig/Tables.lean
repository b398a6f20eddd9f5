import CosineTransform.Memory
import CosineTransform.Trig.Cosines
import CosineTransform.Trig.Digits
import CosineTransform.Trig.Twiddles

/-!
# Trigonometric tables

`Tables` holds all that the line transforms of one owner read: the twiddle levels, the rotation
cosines and the digit reversal table. They grow on demand (`Tables.ensure`) and never shrink.
Nothing of them is replaced before everything is built.

The two lengths grow independently of each other, each to the largest one asked for, and a larger
request builds everything anew. So tables are a function of their two lengths (`Tables.build`).
-/

namespace CosineTransform

/-- Precomputed tables for lines up to some length. -/
structure Tables (T : Type) where
  /-- The length of `twiddles`, the length of `cosines`, and the levels of reversed digits. -/
  rotation : Array Nat
  /-- Twiddle levels. -/
  twiddles : Array T
  /-- Rotation cosines. -/
  cosines : Array T

namespace Tables

variable {R T : Type} [Precise R] [Sample R T]

/-- Tables that serve lines of at most one sample. -/
def empty : Tables T := ⟨#[0, 0], #[], #[]⟩

/-- The length of the twiddle levels. -/
def quarterLength (t : Tables T) : Nat := t.twiddles.size

/-- The length of the rotation cosines. -/
def cosineLength (t : Tables T) : Nat := t.cosines.size

/-- The twiddle levels, followed by the rotation cosines. -/
def weights (t : Tables T) : Array T := t.twiddles ++ t.cosines

/-- The tables serve lines of `n` samples. -/
def Supports (t : Tables T) (n : Nat) : Prop :=
  n ≤ 1 ∨ n / 4 ≤ t.quarterLength ∧ n ≤ t.cosineLength

instance (t : Tables T) (n : Nat) : Decidable (t.Supports n) :=
  inferInstanceAs (Decidable (_ ∨ _))

/-- Tables of the given lengths. -/
def build (quarter count : Nat) : Except Fault (Tables T) := do
  let twiddles ← Twiddles.build quarter
  let digits ← Digits.build quarter
  let cosines ← Cosines.build count
  let rotation ← Buffer.blit digits 0 #[quarter, count]
  return { rotation, twiddles, cosines }

/-- Makes sure that the tables serve lines of `n` samples besides all those that they serve already.
Room for both tables is reserved before anything is built. Their lengths are added as numbers: where
the sum is no word, no memory of a machine has room for it, and the request fails. -/
def ensure (memory : Memory) (n : Nat) : EStateM Failure (Tables T) Unit := do
  let t ← get
  let quarter := max t.quarterLength (n / 4)
  let count := max t.cosineLength n
  unless quarter = t.quarterLength ∧ count = t.cosineLength do
    memory.reserve (quarter + count) (Sample.bytes (T := T))
    memory.reserve (Digits.tableLength quarter) 8
    let built : Tables T ← build quarter count
    set built

/-- New tables that serve lines of `n` samples. -/
def ofLength (memory : Memory) (n : Nat) : Except Failure (Tables T) :=
  match ensure memory n empty with
  | .ok () t => .ok t
  | .error failure _ => .error failure

end Tables

end CosineTransform
