import CosineTransform.Buffer
import CosineTransform.Scalar

/-!
# Twiddle levels

A complex Fourier transform of `4 * s` points reads its twiddle factors from a level of size `s`,
whose angles are the multiples of `step s`, a quarter of a half circle in `s` parts.

## Layout of the table

The levels follow each other, each of half the size of the one before it; the top level has half
the size of the table. In a table of `quarter` entries the level of size `s` starts at
`quarter - 2 * s`, if `quarter` is a power of two. From its start on, a level holds

* `1` and the cosine of an eighth of a circle;
* for size four the cosine and sine of two steps, for a larger size the two factors
  `1 / (2 * cos (2 * step))` and `1 / (2 * cos (6 * step))`, which interpolate between stored
  angles and their triples;
* for a larger size, at every multiple `j` of four, the cosine and sine of `j` steps, the cosine of
  `3 * j` steps and the negated sine of `3 * j` steps.

Only the top level is computed from angles. Each lower level takes every other angle of the level
above it, which is the same angle in the larger steps of the lower level.
-/

namespace CosineTransform.Twiddles

variable {R T : Type} [Precise R] [Sample R T]

/-- The angle between two neighbours of a level of size `size`. -/
def step (size : Nat) : R := Precise.arctan 1 / (size : R)

/-- The four values that a level keeps for an angle. -/
def quadruple (angle : R) : (k : Nat) → R
  | 0 => Precise.cos angle
  | 1 => Precise.sin angle
  | 2 => Precise.cos (((3 : Nat) : R) * angle)
  | _ => -Precise.sin (((3 : Nat) : R) * angle)

/-- How many entries the quadruples of a level of size `size` take. -/
def quadrupleCount (size : Nat) : Nat := 4 * ((size - 1) / 4)

/-- A level of size `size`, computed from its angles. -/
def topLevel (size : Nat) : Array T :=
  let step : R := step size
  let two : R := ((2 : Nat) : R)
  let six : R := ((6 : Nat) : R)
  let start : Array T := #[1, Sample.round (Precise.cos (step * (size : R)))]
  if size = 4 then
    start ++ #[Sample.round (Precise.cos (step * two)), Sample.round (Precise.sin (step * two))]
  else if 4 < size then
    start ++ #[Sample.round (Precise.half / Precise.cos (step * two)),
        Sample.round (Precise.half / Precise.cos (step * six))] ++
      Array.ofFn fun i : Fin (quadrupleCount size) =>
        Sample.round (quadruple (step * ((4 + i.val / 4 * 4 : Nat) : R)) (i.val % 4))
  else start

/-- Writes the level that follows the level of size `size` at `start`. -/
def lowerLevel (start size : Nat) (w : Array T) : Except Fault (Array T) := do
  let next := start + size
  let half := size / 2
  let w ← Buffer.blit w next #[1, ← Buffer.read w 1]
  if half = 4 then
    Buffer.blit w (next + 2) #[← Buffer.read w (start + 4), ← Buffer.read w (start + 5)]
  else if 4 < half then
    let double : T := Sample.round Precise.half / (← Buffer.read w (start + 4))
    let triple : T := Sample.round Precise.half / (← Buffer.read w (start + 6))
    let w ← Buffer.blit w (next + 2) #[double, triple]
    let quadruples ← Buffer.tabulate (quadrupleCount half) fun i =>
      Buffer.read w (start + 8 * (1 + i / 4) + i % 4)
    Buffer.blit w (next + 4) quadruples
  else .ok w

/-- Writes all the levels that follow the level of size `size` at `start`. -/
def lowerLevels (start size : Nat) (w : Array T) : Except Fault (Array T) :=
  if 2 < size then do
    let w ← lowerLevel start size w
    lowerLevels (start + size) (size / 2) w
  else .ok w
termination_by size

/-- The levels in a table of `quarter` entries. -/
def build (quarter : Nat) : Except Fault (Array T) :=
  let blank := Array.replicate quarter 0
  if 2 < quarter then do
    let w ← Buffer.blit blank 0 (topLevel (quarter / 2))
    lowerLevels 0 (quarter / 2) w
  else .ok blank

end CosineTransform.Twiddles
