import CosineTransform.Scalar

/-!
# Complex points

The complex numbers that the Fourier transform works on, with only the operations that it needs.
`turn` and `weigh` multiply by a number, or by its conjugate, according to the sign of the exponent;
`quarterTurn` adds a multiple by plus or minus the imaginary unit.
-/

namespace CosineTransform

/-- A complex number. -/
structure Point (T : Type) where
  re : T
  im : T
deriving DecidableEq

/-- The sign of the exponent in the kernel `exp (± 2 π i j k / n)` of a Fourier transform. -/
inductive Sign where
  | negative
  | positive
deriving DecidableEq

/-- The other sign. -/
def Sign.flip : Sign → Sign
  | negative => positive
  | positive => negative

namespace Point

variable {T : Type} [Scalar T]

instance : Add (Point T) := ⟨fun z w => ⟨z.re + w.re, z.im + w.im⟩⟩

instance : Sub (Point T) := ⟨fun z w => ⟨z.re - w.re, z.im - w.im⟩⟩

/-- Both parts of `z` times the factor `c`. -/
def scale (z : Point T) (c : T) : Point T := ⟨z.re * c, z.im * c⟩

/-- The product of `z` with `w`, or with the conjugate of `w` for a negative sign. -/
def turn (sign : Sign) (z w : Point T) : Point T :=
  match sign with
  | .negative => ⟨z.re * w.re + z.im * w.im, z.im * w.re - z.re * w.im⟩
  | .positive => ⟨z.re * w.re - z.im * w.im, z.im * w.re + z.re * w.im⟩

/-- The product of `w`, or of its conjugate for a negative sign, with `z`: what `turn` gives, with
the factors the other way round. -/
def weigh (sign : Sign) (w z : Point T) : Point T :=
  match sign with
  | .negative => ⟨w.re * z.re + w.im * z.im, w.re * z.im - w.im * z.re⟩
  | .positive => ⟨w.re * z.re - w.im * z.im, w.re * z.im + w.im * z.re⟩

/-- The sum of `z` and `w` times the imaginary unit with the given sign. -/
def quarterTurn (sign : Sign) (z w : Point T) : Point T :=
  match sign with
  | .negative => ⟨z.re + w.im, z.im - w.re⟩
  | .positive => ⟨z.re - w.im, z.im + w.re⟩

end Point

end CosineTransform
