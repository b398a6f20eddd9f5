import CosineTransform.Buffer
import CosineTransform.Scalar

/-!
# Rotation cosines

The rotation of a line of `n` samples, and the split of a real Fourier transform, read halved
cosines of the multiples of a quarter circle in `count` parts. Entry `0` is the cosine of half a
quarter circle, not halved; entry `k` for `0 < k < count` is half the cosine of `k` parts. The
angles above the middle are computed as sines from the end of the table.
-/

namespace CosineTransform.Cosines

variable {R T : Type} [Precise R] [Sample R T]

/-- The cosine table of `count` entries. If `count` is odd, the entry past the middle is no angle of
either half and stays blank. -/
def build (count : Nat) : Except Fault (Array T) :=
  let blank := Array.replicate count 0
  if 1 < count then do
    let middle := count / 2
    let step : R := Precise.arctan 1 / (middle : R)
    let diagonal : R := Precise.cos (step * (middle : R))
    let rising : Array T := Array.ofFn fun i : Fin (middle - 1) =>
      Sample.round (Precise.half * Precise.cos (step * ((i.val + 1 : Nat) : R)))
    let falling : Array T := Array.ofFn fun i : Fin (middle - 1) =>
      Sample.round (Precise.half * Precise.sin (step * ((middle - 1 - i.val : Nat) : R)))
    let c ← Buffer.blit blank 0 #[Sample.round diagonal]
    let c ← Buffer.blit c middle #[Sample.round (Precise.half * diagonal)]
    let c ← Buffer.blit c 1 rising
    Buffer.blit c (count - (middle - 1)) falling
  else .ok blank

end CosineTransform.Cosines
