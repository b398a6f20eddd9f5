import CosineTransform.Fourier.Point
import CosineTransform.Buffer

/-!
# Stages of a line transform

A cosine transform of `n` samples is a complex Fourier transform of `n / 2` points between stages
that are linear in the line. `fold` pairs neighbouring samples into points and `unfold` takes them
apart again; `split` turns the Fourier transform of points into that of the samples they pair;
`rotate` turns a sample and its counterpart at the other end by an angle of its own.

Every stage gives each element of its result from elements of its argument.
-/

namespace CosineTransform.Stage

variable {R T : Type} [Precise R] [Sample R T]

/-- Sums and differences of neighbouring samples: point `i` pairs samples `2 * i - 1` and `2 * i`,
and point `0` the first and the last sample. -/
def fold (a : Array T) : Except Fault (Array (Point T)) :=
  Buffer.tabulate (a.size / 2) fun i => do
    let even ← Buffer.read a (2 * i)
    let odd ← Buffer.read a (if i = 0 then a.size - 1 else 2 * i - 1)
    return ⟨even + odd, even - odd⟩

/-- The samples whose pairs have the sums and differences that `fold` gives, times two. -/
def unfold (z : Array (Point T)) : Except Fault (Array T) :=
  Buffer.tabulate (2 * z.size) fun k => do
    if k % 2 = 0 then
      let point ← Buffer.read z (k / 2)
      return point.re + point.im
    else
      let point ← Buffer.read z (if k + 1 = 2 * z.size then 0 else (k + 1) / 2)
      return point.re - point.im

/-- The points whose parts are the samples of `a` in order. -/
def pairs (a : Array T) : Except Fault (Array (Point T)) :=
  Buffer.tabulate (a.size / 2) fun i =>
    return ⟨← Buffer.read a (2 * i), ← Buffer.read a (2 * i + 1)⟩

/-- The parts of the points of `z` in order. -/
def interleave (z : Array (Point T)) : Array T :=
  z.flatMap fun point => #[point.re, point.im]

/-- Turns samples `j` and `n - j` of a line of `n` samples by an angle of `j` steps and halves
them; the middle sample is turned by itself and sample `0` stays. A step is a quarter circle in `n`
parts, which is a stride through the cosine table `c`. -/
def rotate (c : Array T) (a : Array T) : Except Fault (Array T) := do
  let n := a.size
  let stride ← Index.div c.size n
  Buffer.tabulate n fun k => do
    if k = 0 then Buffer.read a 0
    else if 2 * k = n then return (← Buffer.read a k) * (← Buffer.read c 0)
    else
      let j := min k (n - k)
      let near ← Buffer.read a j
      let far ← Buffer.read a (n - j)
      let cosine ← Buffer.read c (j * stride)
      let sine ← Buffer.read c (← Index.sub c.size (j * stride))
      let less := cosine - sine
      let more := cosine + sine
      return if k = j then less * near + more * far else more * near - less * far

/-- Splits the points of a Fourier transform, or joins them before one, according to the sign of its
kernel: points `i` and `m - i` of `m` exchange a turned share of their difference. Point `0` and the
middle point stay. -/
def split (sign : Sign) (c : Array T) (z : Array (Point T)) : Except Fault (Array (Point T)) := do
  let m := z.size
  let stride ← Index.div (2 * c.size) m
  Buffer.tabulate m fun k => do
    if k = 0 ∨ 2 * k = m then Buffer.read z k
    else
      let i := min k (m - k)
      let near ← Buffer.read z i
      let far ← Buffer.read z (m - i)
      let sine ← Buffer.read c (← Index.sub c.size (i * stride))
      let cosine ← Buffer.read c (i * stride)
      let weight : Point T := ⟨Sample.round Precise.half - sine, cosine⟩
      let share := Point.weigh sign weight ⟨near.re - far.re, near.im + far.im⟩
      return if k = i then ⟨near.re - share.re, near.im - share.im⟩
        else ⟨far.re + share.re, far.im - share.im⟩

end CosineTransform.Stage
