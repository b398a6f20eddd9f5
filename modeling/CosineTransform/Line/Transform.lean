import CosineTransform.Error
import CosineTransform.Fourier.SplitRadix
import CosineTransform.Line.Stages

/-!
# Line transforms

`LineTransform` is the cosine transform of one line of a fixed length, a power of two. Forward it is
`X k = ∑ j, x j * cos (π (2 j + 1) k / (2 n))`, and inverse `x k = ∑ j, X j * cos (π j (2 k + 1) /
(2 n))`. Scaled, each is weighted by `sqrt (2 / n)`, and by `1 / sqrt 2` more at index `0`, so that
the scaled pair are inverse to each other.

Either direction is a pipeline of stages around a Fourier transform of half as many points.
-/

namespace CosineTransform

/-- Which of the two transforms is run. -/
inductive Direction where
  | forward
  | inverse
deriving DecidableEq

/-- The cosine transform of lines of `length` samples. -/
structure LineTransform (T : Type) where
  length : Nat
  length_isPowerOfTwo : length.isPowerOfTwo
  /-- The weight of every sample of a scaled transform. -/
  scale : T
  /-- The further weight of sample `0`. -/
  dcScale : T

namespace LineTransform

variable {R T : Type} [Precise R] [Sample R T]

/-- The transform of lines of `length` samples, which must be a power of two. -/
def ofLength (length : Nat) : Except TransformError (LineTransform T) :=
  if h : length.isPowerOfTwo then .ok {
    length
    length_isPowerOfTwo := h
    scale := Sample.round (Precise.sqrt (((2 : Nat) : R) / (length : R)))
    dcScale := Sample.round Precise.invSqrtTwo }
  else .error (.lineLength length)

/-- Weights the samples of a line for a scaled transform. -/
def normalize (line : LineTransform T) (a : Array T) : Except Fault (Array T) := do
  let weighted := a.map (· * line.scale)
  Buffer.write weighted 0 ((← Buffer.read weighted 0) * line.dcScale)

/-- Weights the samples of a line if the transform is scaled. -/
def normalizeIf (line : LineTransform T) (scaled : Bool) (a : Array T) : Except Fault (Array T) :=
  if scaled then line.normalize a else .ok a

/-- The forward transform of a line that is long enough to be folded. -/
def runForward (line : LineTransform T) (tables : Tables T) (scaled : Bool) (a : Array T) :
    Except Fault (Array T) := do
  let folded ← Stage.fold a
  let joined ← Stage.split .negative tables.cosines folded
  let points ← Fourier.transform .negative tables joined
  line.normalizeIf scaled (← Stage.rotate tables.cosines (Stage.interleave points))

/-- The inverse transform of a line that is long enough to be folded. -/
def runInverse (line : LineTransform T) (tables : Tables T) (scaled : Bool) (a : Array T) :
    Except Fault (Array T) := do
  let rotated ← Stage.rotate tables.cosines (← line.normalizeIf scaled a)
  let points ← Fourier.transform .positive tables (← Stage.pairs rotated)
  Stage.unfold (← Stage.split .positive tables.cosines points)

/-- The transform of a line in a direction. The line must have the length of the transform, and the
tables must support it. A line of one sample is its own transform. -/
def apply (line : LineTransform T) (direction : Direction) (tables : Tables T) (scaled : Bool)
    (a : Array T) : Except Fault (Array T) :=
  if a.size ≠ line.length then .error (.wrongLength line.length a.size)
  else if line.length = 1 then .ok a
  else if tables.Supports line.length then
    match direction with
    | .forward => line.runForward tables scaled a
    | .inverse => line.runInverse tables scaled a
  else .error (.smallTables line.length)

/-- The forward transform of a line. -/
def forward (line : LineTransform T) (tables : Tables T) (scaled : Bool) (a : Array T) :
    Except Fault (Array T) :=
  line.apply .forward tables scaled a

/-- The inverse transform of a line. -/
def inverse (line : LineTransform T) (tables : Tables T) (scaled : Bool) (a : Array T) :
    Except Fault (Array T) :=
  line.apply .inverse tables scaled a

end LineTransform

end CosineTransform
