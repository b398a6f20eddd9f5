import CosineTransform.Buffer
import CosineTransform.Scalar

/-!
# Direct sums

The cosine transforms by their defining sums, term after term, for lines of any length and for
matrices line by line. They take time quadratic in the length of a line and share nothing with the
fast transforms.
-/

namespace CosineTransform.Direct

variable {R : Type} [Precise R]

/-- The terms added to zero in order. -/
def sum {n : Nat} (term : Fin n → R) : R := Fin.foldl n (fun total i => total + term i) 0

/-- The weight of every index of a scaled transform of `n` samples. -/
def weight (n : Nat) : R := Precise.sqrt (((2 : Nat) : R) / (n : R))

/-- The angle `π i k / (2 n)`. -/
def angle (n i k : Nat) : R :=
  (i : R) * (k : R) * Precise.pi / (((2 : Nat) : R) * (n : R))

/-- The forward transform of a line: `X k = ∑ j, x j * cos (π (2 j + 1) k / (2 n))`. Scaled, `X k`
is weighted by `sqrt (2 / n)`, and `X 0` by `1 / sqrt 2` more. -/
def forward (scaled : Bool) (x : Array R) : Array R :=
  Array.ofFn fun k : Fin x.size =>
    let total := sum fun j : Fin x.size => x[j] * Precise.cos (angle x.size (2 * j.val + 1) k.val)
    let share : R := if k.val = 0 then Precise.invSqrtTwo else 1
    if scaled then total * (share * weight x.size) else total

/-- The inverse transform of a line: `x k = ∑ j, X j * cos (π j (2 k + 1) / (2 n))`. Scaled, `X j`
is weighted by `sqrt (2 / n)`, and `X 0` by `1 / sqrt 2` more. -/
def inverse (scaled : Bool) (x : Array R) : Array R :=
  Array.ofFn fun k : Fin x.size => sum fun j : Fin x.size =>
    let share : R :=
      if scaled then
        if j.val = 0 then Precise.invSqrtTwo * weight x.size else weight x.size
      else 1
    share * x[j] * Precise.cos (angle x.size j.val (2 * k.val + 1))

/-- Applies `f` to every row and then to every column of the matrix of `rows` rows and `cols`
columns whose elements `x` holds row by row. The number of elements must be right. -/
def separable (f : Array R → Array R) (rows cols : Nat) (x : Array R) : Except Fault (Array R) :=
  if x.size ≠ rows * cols then .error (.wrongCount (rows * cols) x.size)
  else do
    let byRow ← Buffer.tabulate rows fun r => return f (← Buffer.slice x (r * cols) cols)
    let byColumn ← Buffer.tabulate cols fun c =>
      return f (← Buffer.tabulate rows fun r => do Buffer.read (← Buffer.read byRow r) c)
    Buffer.tabulate (rows * cols) fun i => do
      Buffer.read (← Buffer.read byColumn (i % cols)) (i / cols)

/-- The forward transform of a matrix. -/
def forwardMatrix (scaled : Bool) (rows cols : Nat) (x : Array R) : Except Fault (Array R) :=
  separable (forward scaled) rows cols x

/-- The inverse transform of a matrix. -/
def inverseMatrix (scaled : Bool) (rows cols : Nat) (x : Array R) : Except Fault (Array R) :=
  separable (inverse scaled) rows cols x

end CosineTransform.Direct
