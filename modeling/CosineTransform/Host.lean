import CosineTransform.Memory
import CosineTransform.Options
import CosineTransform.Workers

/-!
# Host

What a matrix transform finds in its surroundings: memory, processors and a pool of threads. None of
it is under the transform's control, and each call may find it changed.
-/

namespace CosineTransform

/-- The surroundings of a call. -/
structure Host where
  memory : Memory
  /-- The number of processors, if it is known. -/
  processors : Option Nat
  /-- The pool of threads, or why there is none. -/
  pool : Except String Pool

/-- As many workers as there are processors, and one if their number is not known. -/
def Options.ofHost (host : Host) : Options where
  threads := max 1 (host.processors.getD 1)

/-- They pass their own check on any host. -/
theorem Options.validate_ofHost (host : Host) : (ofHost host).validate = .ok () :=
  if_neg (Nat.ne_of_gt (Nat.le_max_left 1 _))

end CosineTransform
