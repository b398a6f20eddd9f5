import CosineTransform.Fault

/-!
# Checked buffers

Reads, writes and index arithmetic whose preconditions are checked. Every stage of a transform
touches its data and its tables only through these functions, so "the stage ends without a fault"
says that all its indices were in bounds.

`tabulate` builds a buffer index by index. Its law `tabulate_eq_ok_iff` turns a stage into a
statement about each of its elements.
-/

namespace CosineTransform

variable {α : Type}

namespace Index

/-- `minuend - subtrahend`, which must not be negative. -/
def sub (minuend subtrahend : Nat) : Except Fault Nat :=
  if subtrahend ≤ minuend then .ok (minuend - subtrahend)
  else .error (.negative minuend subtrahend)

/-- `dividend / divisor`, rounded down, for a positive divisor. -/
def div (dividend divisor : Nat) : Except Fault Nat :=
  if 0 < divisor then .ok (dividend / divisor) else .error .zeroDivisor

theorem sub_eq_ok {minuend subtrahend : Nat} (h : subtrahend ≤ minuend) :
    sub minuend subtrahend = .ok (minuend - subtrahend) := if_pos h

theorem div_eq_ok {dividend divisor : Nat} (h : 0 < divisor) :
    div dividend divisor = .ok (dividend / divisor) := if_pos h

end Index

namespace Buffer

/-- Element `index` of `xs`. -/
def read (xs : Array α) (index : Nat) : Except Fault α :=
  if h : index < xs.size then .ok xs[index] else .error (.outOfRange index xs.size)

/-- `xs` with element `index` replaced by `x`. -/
def write (xs : Array α) (index : Nat) (x : α) : Except Fault (Array α) :=
  if h : index < xs.size then .ok (xs.set index x) else .error (.outOfRange index xs.size)

/-- The `count` elements of `xs` from `start` on. -/
def slice (xs : Array α) (start count : Nat) : Except Fault (Array α) :=
  if start + count ≤ xs.size then .ok (xs.extract start (start + count))
  else .error (.outOfRange (start + count) xs.size)

/-- `xs` with the elements from `start` on replaced by those of `ys`, which must fit. -/
def blit (xs : Array α) (start : Nat) (ys : Array α) : Except Fault (Array α) :=
  if start + ys.size ≤ xs.size then
    .ok (xs.extract 0 start ++ ys ++ xs.extract (start + ys.size) xs.size)
  else .error (.outOfRange (start + ys.size) xs.size)

/-- The buffer whose element `i` is what `f i` computes, for every `i < count`. -/
def tabulate (count : Nat) (f : Nat → Except Fault α) : Except Fault (Array α) :=
  Array.ofFnM fun i : Fin count => f i.val

/-- `xs` cut into pieces of `size` elements; what is left at the end is dropped. -/
def pieces (size : Nat) (xs : Array α) : Except Fault (Array (Array α)) :=
  if size = 0 then .error .emptyPieces
  else .ok (Array.ofFn fun i : Fin (xs.size / size) =>
    xs.extract (i.val * size) (i.val * size + size))

/-! ## Laws -/

theorem read_eq_ok {xs : Array α} {index : Nat} (h : index < xs.size) :
    read xs index = .ok xs[index] := dif_pos h

theorem read_eq_ok_iff {xs : Array α} {index : Nat} {x : α} :
    read xs index = .ok x ↔ ∃ h : index < xs.size, xs[index] = x := by
  unfold read
  split
  · simp_all
  · simp only [reduceCtorEq, false_iff, not_exists]
    omega

theorem write_eq_ok {xs : Array α} {index : Nat} (h : index < xs.size) (x : α) :
    write xs index x = .ok (xs.set index x) := dif_pos h

theorem size_of_slice {xs ys : Array α} {start count : Nat} (h : slice xs start count = .ok ys) :
    ys.size = count := by
  unfold slice at h
  split at h
  · obtain rfl := Except.ok.inj h
    rw [Array.size_extract]
    omega
  · exact nomatch h

theorem size_of_blit {xs ys zs : Array α} {start : Nat} (h : blit xs start ys = .ok zs) :
    zs.size = xs.size := by
  unfold blit at h
  split at h
  · obtain rfl := Except.ok.inj h
    simp only [Array.size_append, Array.size_extract]
    omega
  · exact nomatch h

/-- A written range holds the new elements, and all else is as before. -/
theorem getElem?_of_blit {xs ys zs : Array α} {start : Nat} (h : blit xs start ys = .ok zs)
    (i : Nat) :
    zs[i]? = if start ≤ i ∧ i < start + ys.size then ys[i - start]? else xs[i]? := by
  unfold blit at h
  split at h
  · obtain rfl := Except.ok.inj h
    simp only [Array.getElem?_append, Array.getElem?_extract, Array.size_append,
      Array.size_extract]
    split <;> split <;> split <;> grind
  · exact nomatch h

theorem tabulate_zero (f : Nat → Except Fault α) : tabulate 0 f = .ok #[] :=
  Array.ofFnM_zero

theorem tabulate_succ (count : Nat) (f : Nat → Except Fault α) :
    tabulate (count + 1) f = (do return (← tabulate count f).push (← f count)) := by
  simp [tabulate, Array.ofFnM_succ]

/-- A buffer is tabulated exactly when every one of its elements is computed. -/
theorem tabulate_eq_ok_iff {count : Nat} {f : Nat → Except Fault α} {xs : Array α} :
    tabulate count f = .ok xs ↔
      xs.size = count ∧ ∀ i, (h : i < xs.size) → f i = .ok xs[i] := by
  induction count generalizing xs with
  | zero =>
    rw [tabulate_zero]
    constructor
    · rintro ⟨⟩
      simp
    · rintro ⟨h, -⟩
      rw [Array.eq_empty_of_size_eq_zero h]
  | succ count ih =>
    rw [tabulate_succ]
    constructor
    · intro h
      cases hs : tabulate count f with
      | error e => simp [hs, bind, Except.bind] at h
      | ok ys =>
        cases hx : f count with
        | error e => simp [hs, hx, bind, Except.bind] at h
        | ok x =>
          obtain ⟨hsize, hget⟩ := ih.1 hs
          simp only [hs, hx, bind, Except.bind, pure, Except.pure, Except.ok.injEq] at h
          subst h
          refine ⟨by simp [hsize], fun i hi => ?_⟩
          rw [Array.getElem_push]
          split
          · exact hget i _
          · obtain rfl : i = count := by simp at hi; omega
            exact hx
    · rintro ⟨hsize, hget⟩
      have hpop : tabulate count f = .ok xs.pop :=
        ih.2 ⟨by simp [hsize], fun i hi => by rw [Array.getElem_pop]; exact hget i _⟩
      have hlast : f count = .ok xs[count] := hget count (by omega)
      simp only [hpop, hlast, bind, Except.bind, pure, Except.pure, Except.ok.injEq]
      refine Array.ext (by simp only [Array.size_push, Array.size_pop]; omega) fun i hi _ => ?_
      rw [Array.getElem_push]
      split
      · rw [Array.getElem_pop]
      · simp only [Array.size_push, Array.size_pop] at hi
        obtain rfl : i = count := by simp_all; omega
        rfl

end Buffer

end CosineTransform
