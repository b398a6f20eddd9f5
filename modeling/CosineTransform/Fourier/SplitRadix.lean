import CosineTransform.Fourier.TwiddleFactor
import CosineTransform.Trig.Tables

/-!
# Fourier transform of a power of two

`Fourier.transform` is the discrete Fourier transform of `2 ^ p` complex points. It recurses on the
half of the outputs with an even index and on the two quarters whose index is one or three more
than a multiple of four (`splitRadix`), which leaves the outputs in the order of reversed bits, and
then puts them into natural order (`reverseOrder`).
-/

namespace CosineTransform.Fourier

variable {T : Type} [Scalar T]

/-- The transform of the `2 ^ p` points of `a`, with the bits of every output index reversed. -/
def splitRadix (sign : Sign) (w : Array T) :
    (p : Nat) → (a : Array (Point T)) → Except Fault (Array (Point T))
  | 0, a => .ok a
  | 1, a => do
    let x ← Buffer.read a 0
    let y ← Buffer.read a 1
    return #[x + y, x - y]
  | p + 2, a => do
    let quarter := 1 <<< p
    let half := 2 * quarter
    let difference (i : Nat) : Except Fault (Point T) :=
      return (← Buffer.read a i) - (← Buffer.read a (i + half))
    let sums ← Buffer.tabulate half fun i =>
      return (← Buffer.read a i) + (← Buffer.read a (i + half))
    let thirds ← Buffer.tabulate quarter fun j => do
      let factor ← TwiddleFactor.read w (2 * half) j
      return ((← difference j).quarterTurn sign (← difference (j + quarter))).turn sign factor.single
    let fourths ← Buffer.tabulate quarter fun j => do
      let factor ← TwiddleFactor.read w (2 * half) j
      return ((← difference j).quarterTurn sign.flip (← difference (j + quarter))).turn sign
        factor.triple
    return (← splitRadix sign w (p + 1) sums) ++ (← splitRadix sign w p thirds) ++
      (← splitRadix sign w p fourths)

/-- The points of `a` with the bits of every index reversed, through the levels of reversed digits
in `digits`. Two points or fewer are in that order already. -/
def reverseOrder {α : Type} (digits : Array Nat) (a : Array α) : Except Fault (Array α) :=
  if a.size ≤ 2 then .ok a
  else Buffer.tabulate a.size fun i => do
    Buffer.read a (← Digits.reverseIndex digits a.size.log2 i)

/-- The discrete Fourier transform of `a`, whose size is a power of two. -/
def transform (sign : Sign) (tables : Tables T) (a : Array (Point T)) :
    Except Fault (Array (Point T)) := do
  reverseOrder tables.rotation (← splitRadix sign tables.twiddles a.size.log2 a)

end CosineTransform.Fourier
