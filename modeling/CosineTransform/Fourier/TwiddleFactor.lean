import CosineTransform.Buffer
import CosineTransform.Fourier.Point

/-!
# Twiddle factors

A butterfly over `points` points uses, for an index `j` in the first quarter, the points at the
angles `t = 2 π j / points` and `3 * t` of the unit circle. Up to an eighth of a circle they come
from the level of size `points / 4`: every other angle is stored, and an angle between two stored
ones is the sum of its neighbours times a stored factor. Beyond the eighth they are read at the
angle reflected in the diagonal.
-/

namespace CosineTransform

/-- The unit points at an angle and at three times that angle. -/
structure TwiddleFactor (T : Type) where
  single : Point T
  triple : Point T

namespace TwiddleFactor

variable {T : Type} [Scalar T]

/-- The factor at the angle zero. -/
def unit : TwiddleFactor T := ⟨⟨1, 0⟩, ⟨1, 0⟩⟩

/-- The factor between two others at equal distance: their sum, times one factor for the angle and
one for its triple. -/
def between (low high : TwiddleFactor T) (single triple : T) : TwiddleFactor T :=
  ⟨(low.single + high.single).scale single, (low.triple + high.triple).scale triple⟩

/-- The factor at the angle reflected in the diagonal. -/
def reflect (f : TwiddleFactor T) : TwiddleFactor T :=
  ⟨⟨f.single.im, f.single.re⟩, ⟨-f.triple.im, -f.triple.re⟩⟩

/-- The factor at an even index up to an eighth of `points`, or at the eighth itself. -/
def anchor (w : Array T) (points j : Nat) : Except Fault (TwiddleFactor T) :=
  if j = 0 then .ok unit
  else do
    let start ← Index.sub w.size (points / 2)
    if j = points / 8 then
      let r ← Buffer.read w (start + 1)
      return ⟨⟨r, r⟩, ⟨-r, r⟩⟩
    else
      let single : Point T := ⟨← Buffer.read w (start + 2 * j), ← Buffer.read w (start + 2 * j + 1)⟩
      let re ← Buffer.read w (start + 2 * j + 2)
      let im ← Buffer.read w (start + 2 * j + 3)
      return ⟨single, ⟨re, -im⟩⟩

/-- The factor at an index up to an eighth of `points`. With sixteen points there is one odd index,
and its factor is stored. -/
def firstOctant (w : Array T) (points j : Nat) : Except Fault (TwiddleFactor T) :=
  if j % 2 = 0 ∨ j = points / 8 then anchor w points j
  else do
    let start ← Index.sub w.size (points / 2)
    let first ← Buffer.read w (start + 2)
    let second ← Buffer.read w (start + 3)
    if points = 16 then return ⟨⟨first, second⟩, ⟨second, first⟩⟩
    else
      let low ← anchor w points (j - 1)
      let high ← anchor w points (j + 1)
      return between low high first second

/-- The factor of a butterfly over `points` points at an index in the first quarter. -/
def read (w : Array T) (points j : Nat) : Except Fault (TwiddleFactor T) :=
  if points / 8 < j then do
    let opposite ← Index.sub (points / 4) j
    return (← firstOctant w points opposite).reflect
  else firstOctant w points j

end TwiddleFactor

end CosineTransform
