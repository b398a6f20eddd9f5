/-!
# Words

A size is a word of 64 bits, and the product of two sizes is one again: what does not fit in a word
is lost. Sizes are numbers here, so `Word.mul` stands where sizes of any magnitude are multiplied.
Where the product counts cells of a matrix that is there, it fits, and is written as a product.
-/

namespace CosineTransform.Word

/-- How many words there are. -/
def count : Nat := 1 <<< 64

/-- The part of a product that fits in a word. -/
def mul (a b : Nat) : Nat := a * b % count

theorem mul_eq {a b : Nat} (h : a * b < count) : mul a b = a * b := Nat.mod_eq_of_lt h

end CosineTransform.Word
