/-!
# Scalars

A transform works on samples of a type `T`, while its tables and scale factors are computed in a
type `R` with trigonometric functions and rounded once into `T`. `Scalar` is the arithmetic that
both share, `Precise` what the tables need of `R`, and `Sample` ties `T` to `R`.

No law is part of these classes. Every definition over them fixes its own order of operations, so
it has one meaning for binary floating point, bit for bit, and at the same time one for any field
with the same functions, such as the real numbers.
-/

namespace CosineTransform

/-- The arithmetic of a transform. -/
class Scalar (T : Type) extends Add T, Sub T, Mul T, Div T, Neg T, Zero T, One T

/-- The type in which tables and scale factors are computed. -/
class Precise (R : Type) extends Scalar R, NatCast R where
  /-- One half. -/
  half : R
  /-- The length of a half circle of radius one. -/
  pi : R
  /-- The inverse of the square root of two. -/
  invSqrtTwo : R
  sin : R → R
  cos : R → R
  sqrt : R → R
  arctan : R → R

/-- Samples of type `T`, into which values of type `R` are rounded. -/
class Sample (R : outParam Type) (T : Type) extends Scalar T where
  /-- The sample closest to a value. -/
  round : R → T
  /-- How many bytes of memory a sample takes. -/
  bytes : Nat

instance : Scalar Float where
  zero := 0.0
  one := 1.0

instance : Scalar Float32 where
  zero := 0.0
  one := 1.0

instance : Precise Float where
  natCast := Float.ofNat
  half := 0.5
  pi := 3.141592653589793
  invSqrtTwo := 0.7071067811865476
  sin := Float.sin
  cos := Float.cos
  sqrt := Float.sqrt
  arctan := Float.atan

/-- Double precision samples hold the computed values themselves. -/
instance : Sample Float Float where
  round := id
  bytes := 8

/-- Single precision samples hold the computed values rounded to the nearest, ties to even. -/
instance : Sample Float Float32 where
  round := Float.toFloat32
  bytes := 4

end CosineTransform
