import CosineTransform.Fourier.Point
import CosineTransform.Proofs.Buffer
import Mathlib.Algebra.Order.Ring.Nat

/-!
# Programs on a buffer

A line may be transformed in the buffer that holds it. Such a program goes turn by turn: a turn
reads the elements that it needs and then overwrites some of them. The buffer is the state of the
program, and stays with it when a turn faults, so it can be told what is left of the data then.

A loop is followed by naming the buffer between any two of its turns (`InPlace.loop_eq_ok`), or by
the range that it writes if its turns write next to each other (`InPlace.loop_blit_eq_ok`). A loop
over pairs works from both ends of a buffer to its middle (`InPlace.inPairs`). The two parts of a
point stand next to each other, and points are read and written as a whole (`Buffer.readPoint`,
`Buffer.writePoint`).
-/

namespace CosineTransform

variable {α β γ : Type}

/-- A program that works on a buffer and gives a value. -/
abbrev InPlace (α β : Type) : Type := EStateM Fault (Array α) β

/-! ## Parts of a buffer -/

namespace Buffer

/-- `xs` with the `count` elements from `start` on replaced by `part`. -/
def splice (xs : Array α) (start count : ℕ) (part : Array α) : Array α :=
  xs.extract 0 start ++ part ++ xs.extract (start + count) xs.size

theorem splice_ofFn {count start length : ℕ} (f g : ℕ → α) (h : start + length ≤ count) :
    splice (ofFn count f) start length (ofFn length g) =
      ofFn count fun i => if start ≤ i ∧ i < start + length then g (i - start) else f i := by
  have hblit := blit_ofFn f g h
  rw [blit, size_ofFn, size_ofFn, if_pos h] at hblit
  rw [splice, size_ofFn, Except.ok.inj hblit]

end Buffer

/-! ## Programs -/

namespace InPlace

/-- Computes a value from the buffer and leaves the buffer alone. -/
def reading (f : Array α → Except Fault β) : InPlace α β := fun a =>
  match f a with
  | .error fault => .error fault a
  | .ok x => .ok x a

/-- One turn. A turn that faults leaves the buffer as it found it. -/
def turn (f : Array α → Except Fault (Array α)) : InPlace α Unit := fun a =>
  match f a with
  | .error fault => .error fault a
  | .ok b => .ok () b

/-- Turns `0` up to `count - 1`, one after another. -/
def loop (f : ℕ → Array α → Except Fault (Array α)) : (count : ℕ) → InPlace α Unit
  | 0 => pure ()
  | count + 1 => do
    loop f count
    turn (f count)

/-- Writes one element, which is computed from the buffer as it is then. -/
def put (index : ℕ) (value : Array α → Except Fault α) : InPlace α Unit :=
  turn fun a => do Buffer.write a index (← value a)

/-- Writes two neighbours, one after the other. -/
def putPair (index : ℕ) (first second : Array α → Except Fault α) : InPlace α Unit := do
  put index first
  put (index + 1) second

/-- What a program makes of `count` zeros. -/
def onBlank [Zero α] (count : ℕ) (program : InPlace α Unit) : Except Fault (Array α) :=
  match program (Array.replicate count 0) with
  | .error fault _ => .error fault
  | .ok () a => .ok a

/-- Runs a program on the `count` elements from `start` on, and leaves all others alone. -/
def onSlice (start count : ℕ) (program : InPlace α Unit) : InPlace α Unit := fun a =>
  match Buffer.slice a start count with
  | .error fault => .error fault a
  | .ok part =>
    match program part with
    | .error fault rest => .error fault (Buffer.splice a start count rest)
    | .ok () done => .ok () (Buffer.splice a start count done)

theorem get_bind (rest : Array α → InPlace α β) (a : Array α) : (get >>= rest) a = rest a a := rfl

theorem reading_eq_ok {f : Array α → Except Fault β} {a : Array α} {x : β} (h : f a = .ok x) :
    reading f a = .ok x a := by
  rw [reading, h]

theorem turn_eq_ok {f : Array α → Except Fault (Array α)} {a b : Array α} (h : f a = .ok b) :
    turn f a = .ok () b := by
  rw [turn, h]

/-- A loop ends without a fault if every turn goes from one of the given buffers to the next. -/
theorem loop_eq_ok {f : ℕ → Array α → Except Fault (Array α)} {count : ℕ} {a b : Array α}
    (state : ℕ → Array α) (hstart : state 0 = a) (hend : state count = b)
    (h : ∀ i < count, f i (state i) = .ok (state (i + 1))) : loop f count a = .ok () b := by
  subst hstart hend
  induction count with
  | zero => rfl
  | succ count ih =>
    rw [loop, bind_of_ok (ih fun i hi => h i (by omega))]
    exact turn_eq_ok (h count (by omega))

theorem put_eq_ok {index : ℕ} {value : Array α → Except Fault α} {a b : Array α} {x : α}
    (hvalue : value a = .ok x) (h : Buffer.write a index x = .ok b) :
    put index value a = .ok () b := by
  refine turn_eq_ok ?_
  rw [hvalue, ok_bind, h]

/-- Two neighbours are written as the range that they make up. -/
theorem putPair_eq_ok {index : ℕ} {first second : Array α → Except Fault α} {a b : Array α}
    {x y : α} (h : Buffer.blit a index #[x, y] = .ok b) (hfirst : first a = .ok x)
    (hsecond : ∀ mid, Buffer.blit a index #[x] = .ok mid → second mid = .ok y) :
    putPair index first second a = .ok () b := by
  have hroom : index + 2 ≤ a.size := Buffer.room_of_blit h
  have hsplit : Buffer.blit a index (#[x] ++ #[y]) = .ok b := h
  obtain ⟨mid, hmid, hlast⟩ : ∃ mid, Buffer.blit a index #[x] = .ok mid ∧
      Buffer.blit mid (index + 1) #[y] = .ok b := Buffer.blits_of_append hsplit
  have hsize := Buffer.size_of_blit hmid
  have hvalue := hsecond mid hmid
  rw [Buffer.blit_singleton _ (by omega)] at hmid hlast
  rw [putPair, bind_of_ok (put_eq_ok hfirst hmid), put_eq_ok hvalue hlast]

/-- A loop whose turns write ranges of `width` elements that follow each other writes the range
that they make up. -/
theorem loop_blit_eq_ok {f : ℕ → Array α → Except Fault (Array α)} {start width count : ℕ}
    {g : ℕ → α} {a b : Array α}
    (h : Buffer.blit a start (Buffer.ofFn (width * count) g) = .ok b)
    (hturn : ∀ t < count, ∀ mid, Buffer.blit a start (Buffer.ofFn (width * t) g) = .ok mid →
      f t mid =
        Buffer.blit mid (start + width * t) (Buffer.ofFn width fun i => g (width * t + i))) :
    loop f count a = .ok () b := by
  -- over the turns from the last one back: a run is the run before it and one more blit
  induction count generalizing b with
  | zero =>
    have hroom := Buffer.room_of_blit h
    have hempty : Buffer.ofFn (width * 0) g = #[] := rfl
    rw [hempty, Buffer.blit_empty (by omega)] at h
    rw [Except.ok.inj h]
    rfl
  | succ count ih =>
    rw [Nat.mul_succ, Buffer.ofFn_add] at h
    obtain ⟨mid, hmid, hlast⟩ := Buffer.blits_of_append h
    rw [Buffer.size_ofFn] at hlast
    have hrest := ih hmid fun t ht => hturn t (by omega)
    rw [loop, bind_of_ok hrest]
    exact turn_eq_ok ((hturn count (by omega) mid hmid).trans hlast)

/-- A loop whose turns write one element each, one next to the other, writes a range. -/
theorem loop_write_eq_ok {f : ℕ → Array α → Except Fault (Array α)} {start count : ℕ} {g : ℕ → α}
    {a b : Array α} (h : Buffer.blit a start (Buffer.ofFn count g) = .ok b)
    (hturn : ∀ t < count, ∀ mid, f t mid = Buffer.write mid (start + t) (g t)) :
    loop f count a = .ok () b := by
  have hroom := Buffer.room_of_blit h
  rw [Buffer.size_ofFn] at hroom
  rw [← one_mul count] at h
  refine loop_blit_eq_ok h fun t ht mid hmid => ?_
  have hsize := Buffer.size_of_blit hmid
  rw [hturn t ht mid, one_mul, Buffer.ofFn_one, Buffer.blit_singleton _ (by omega), add_zero]

theorem onBlank_eq_ok [Zero α] {count : ℕ} {program : InPlace α Unit} {b : Array α}
    (h : program (Array.replicate count 0) = .ok () b) : onBlank count program = .ok b := by
  rw [onBlank, h]

/-! ### What a program that ends has done -/

theorem of_bind_eq_ok {program : InPlace α β} {rest : β → InPlace α γ} {a b : Array α} {y : γ}
    (h : (program >>= rest) a = .ok y b) :
    ∃ x mid, program a = .ok x mid ∧ rest x mid = .ok y b := by
  change EStateM.bind program rest a = _ at h
  unfold EStateM.bind at h
  split at h
  · exact ⟨_, _, ‹_›, h⟩
  · exact nomatch h

theorem of_turn_eq_ok {f : Array α → Except Fault (Array α)} {a b : Array α}
    (h : turn f a = .ok () b) : f a = .ok b := by
  unfold turn at h
  split at h
  · exact nomatch h
  · rename_i hf
    cases h
    exact hf

theorem room_of_put {index : ℕ} {value : Array α → Except Fault α} {a b : Array α}
    (h : put index value a = .ok () b) : index < a.size ∧ b.size = a.size := by
  obtain ⟨x, -, hwrite⟩ := bind_eq_ok.1 (of_turn_eq_ok h)
  exact Buffer.room_of_write hwrite

theorem room_of_putPair {index : ℕ} {first second : Array α → Except Fault α} {a b : Array α}
    (h : putPair index first second a = .ok () b) : index + 1 < a.size ∧ b.size = a.size := by
  obtain ⟨_, mid, hfirst, hsecond⟩ := of_bind_eq_ok h
  obtain ⟨-, hmid⟩ := room_of_put hfirst
  obtain ⟨hroom, hb⟩ := room_of_put hsecond
  exact ⟨by omega, hb.trans hmid⟩

/-- A buffer keeps its length through a loop whose turns keep it. -/
theorem size_of_loop {f : ℕ → Array α → Except Fault (Array α)} {count : ℕ} {a b : Array α}
    (hturn : ∀ t a b, f t a = .ok b → b.size = a.size) (h : loop f count a = .ok () b) :
    b.size = a.size := by
  induction count generalizing b with
  | zero =>
    cases h
    rfl
  | succ count ih =>
    obtain ⟨_, mid, hmid, hlast⟩ := of_bind_eq_ok h
    exact (hturn count mid b (of_turn_eq_ok hlast)).trans (ih hmid)

theorem onSlice_eq_ok {program : InPlace α Unit} {count start length : ℕ} {f g : ℕ → α}
    (hfit : start + length ≤ count)
    (h : program (Buffer.ofFn length fun i => f (start + i)) = .ok () (Buffer.ofFn length g)) :
    onSlice start length program (Buffer.ofFn count f) =
      .ok () (Buffer.ofFn count fun i =>
        if start ≤ i ∧ i < start + length then g (i - start) else f i) := by
  rw [onSlice, Buffer.slice_ofFn f hfit]
  dsimp only
  rw [h]
  dsimp only
  rw [Buffer.splice_ofFn f g hfit]

/-! ## Loops over pairs -/

section Pairs

variable {n turns : ℕ} (new old : ℕ → β)

/-- Element `k` of `n` after some turns of a loop that takes the old elements `j` and `n - j` to the
new ones in its turn for `j`. -/
def inPairs (n : ℕ) (new old : ℕ → β) (turns k : ℕ) : β :=
  if 0 < k ∧ (k ≤ turns ∨ n ≤ k + turns) then new k else old k

theorem inPairs_zero {k : ℕ} (hk : k < n) : inPairs n new old 0 k = old k := if_neg (by omega)

variable (h : 2 * (turns + 1) < n)

include h

theorem inPairs_near : inPairs n new old turns (turns + 1) = old (turns + 1) := if_neg (by omega)

theorem inPairs_far : inPairs n new old turns (n - (turns + 1)) = old (n - (turns + 1)) :=
  if_neg (by omega)

/-- The next turn writes the next pair and nothing else. -/
theorem inPairs_succ (k : ℕ) :
    (if k = n - (turns + 1) then new (n - (turns + 1))
      else if k = turns + 1 then new (turns + 1) else inPairs n new old turns k) =
      inPairs n new old (turns + 1) k := by
  unfold inPairs
  rcases eq_or_ne k (n - (turns + 1)) with rfl | hfar
  · rw [if_pos rfl, if_pos (by omega)]
  · rw [if_neg hfar]
    rcases eq_or_ne k (turns + 1) with rfl | hnear
    · rw [if_pos rfl, if_pos (by omega)]
    · rw [if_neg hnear]
      exact if_congr (by omega) rfl rfl

end Pairs

end InPlace

/-! ## Points -/

namespace Point

/-- Element `k` of a buffer that holds the parts of the points `z` in order. -/
def parts (z : ℕ → Point α) (k : ℕ) : α := if k % 2 = 0 then (z (k / 2)).re else (z (k / 2)).im

theorem parts_even (z : ℕ → Point α) (i : ℕ) : parts z (2 * i) = (z i).re := by
  rw [parts, if_pos (by omega), Nat.mul_div_cancel_left i two_pos]

theorem parts_odd (z : ℕ → Point α) (i : ℕ) : parts z (2 * i + 1) = (z i).im := by
  rw [parts, if_neg (by omega), show (2 * i + 1) / 2 = i by omega]

/-- Elements in pairs are the parts of points. -/
theorem parts_pairs (x : ℕ → α) (k : ℕ) : parts (fun i => ⟨x (2 * i), x (2 * i + 1)⟩) k = x k := by
  unfold parts
  dsimp only
  split
  · rw [show 2 * (k / 2) = k by omega]
  · rw [show 2 * (k / 2) + 1 = k by omega]

theorem parts_add (z : ℕ → Point α) (s k : ℕ) :
    parts z (2 * s + k) = parts (fun i => z (s + i)) k := by
  unfold parts
  dsimp only
  rw [Nat.mul_add_mod, Nat.mul_add_div two_pos]

/-- Only the points whose parts are in the buffer matter. -/
theorem ofFn_parts_congr {m : ℕ} {z w : ℕ → Point α} (h : ∀ i < m, z i = w i) :
    Buffer.ofFn (2 * m) (parts z) = Buffer.ofFn (2 * m) (parts w) := by
  refine Buffer.ofFn_congr ?_
  intro k hk
  unfold parts
  rw [h (k / 2) (by omega)]

end Point

namespace Buffer

open Point (parts)

/-- The point whose parts are elements `index` and `index + 1`. -/
def readPoint (a : Array α) (index : ℕ) : Except Fault (Point α) := do
  return ⟨← read a index, ← read a (index + 1)⟩

/-- `a` with elements `index` and `index + 1` replaced by the parts of `z`. -/
def writePoint (a : Array α) (index : ℕ) (z : Point α) : Except Fault (Array α) := do
  write (← write a index z.re) (index + 1) z.im

variable {m i : ℕ} (z : ℕ → Point α)

theorem readPoint_parts (h : i < m) : readPoint (ofFn (2 * m) (parts z)) (2 * i) = .ok (z i) := by
  rw [readPoint, read_ofFn _ (by omega), ok_bind, read_ofFn _ (by omega), ok_bind,
    Point.parts_even, Point.parts_odd]
  rfl

theorem writePoint_parts (x : Point α) (h : i < m) :
    writePoint (ofFn (2 * m) (parts z)) (2 * i) x =
      .ok (ofFn (2 * m) (parts fun k => if k = i then x else z k)) := by
  rw [writePoint, write_ofFn _ _ (by omega), ok_bind, write_ofFn _ _ (by omega)]
  refine congrArg Except.ok (ofFn_congr ?_)
  intro k _
  unfold parts
  dsimp only
  -- sample `k` is half of point `k / 2`
  by_cases hpoint : k / 2 = i
  · rw [hpoint, if_pos rfl]
    rcases Nat.mod_two_eq_zero_or_one k with heven | hodd
    · rw [if_neg (by omega), if_pos (by omega), if_pos heven]
    · rw [if_pos (by omega), if_neg (by omega)]
  · rw [if_neg hpoint, if_neg (by omega), if_neg (by omega)]

end Buffer

namespace InPlace

open Buffer (ofFn)
open Point (parts)

/-- A program on a slice takes the points `z` to the points `w` if it does so on the slice, and they
are the same elsewhere. -/
theorem onSlice_parts {program : InPlace α Unit} {m start count : ℕ} {z w : ℕ → Point α}
    (hfit : start + count ≤ m)
    (hsame : ∀ i < m, ¬(start ≤ i ∧ i < start + count) → z i = w i)
    (h : program (ofFn (2 * count) (parts fun i => z (start + i))) =
      .ok () (ofFn (2 * count) (parts fun i => w (start + i)))) :
    onSlice (2 * start) (2 * count) program (ofFn (2 * m) (parts z)) =
      .ok () (ofFn (2 * m) (parts w)) := by
  rw [← funext (Point.parts_add z start)] at h
  rw [onSlice_eq_ok (by omega) h]
  refine congrArg _ (Buffer.ofFn_congr ?_)
  intro k hk
  -- inside the slice the program decides, beside it nothing changes
  split
  · rw [← Point.parts_add, Nat.add_sub_cancel' (by omega)]
  · unfold parts
    rw [hsame (k / 2) (by omega) (by omega)]

end InPlace

end CosineTransform
