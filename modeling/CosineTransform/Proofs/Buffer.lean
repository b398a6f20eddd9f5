import CosineTransform.Buffer

/-!
# Buffers as functions of the index

`Buffer.ofFn` writes a buffer as a function of its index. The laws here say what a checked access
does to such a buffer; with them, a stage that keeps to its bounds is an equation between buffers
of this form, and a pipeline of stages is a chain of rewrites. `Buffer.entry` reads a buffer that is
given as it is, such as a table; buffers of any elements are compared by what is read from them
(`Buffer.ext_read`).
-/

namespace CosineTransform

variable {ε α β : Type}

/-! ## Binding -/

@[simp]
theorem ok_bind (a : α) (f : α → Except ε β) : (Except.ok a >>= f) = f a := rfl

@[simp]
theorem error_bind (e : ε) (f : α → Except ε β) : (Except.error e >>= f) = .error e := rfl

@[simp]
theorem pure_eq_ok (a : α) : (pure a : Except ε α) = .ok a := rfl

/-- Peels the first step off a computation that succeeds. -/
theorem bind_eq_ok {x : Except ε α} {f : α → Except ε β} {b : β} :
    (x >>= f) = .ok b ↔ ∃ a, x = .ok a ∧ f a = .ok b := by
  cases x <;> simp

/-- Peels the first step off a program with a state. -/
theorem bind_of_ok {σ : Type} {program : EStateM ε σ α} {s s' : σ} {a : α}
    (h : program s = .ok a s') (rest : α → EStateM ε σ β) :
    (program >>= rest) s = rest a s' := by
  change EStateM.bind program rest s = _
  rw [EStateM.bind, h]

theorem mapError_eq_ok {ε' : Type} {x : Except ε α} {f : ε → ε'} {a : α} :
    x.mapError f = .ok a ↔ x = .ok a := by
  cases x with
  | error e => exact iff_of_false nofun nofun
  | ok b =>
    change Except.ok b = Except.ok a ↔ _
    rw [Except.ok.injEq, Except.ok.injEq]

namespace Buffer

/-- The buffer of `count` elements whose element `i` is `f i`. -/
def ofFn (count : Nat) (f : Nat → α) : Array α := Array.ofFn fun i : Fin count => f i.val

/-- Element `i` of `xs`, or zero beyond its end. -/
def entry [Zero α] (xs : Array α) (i : Nat) : α := xs[i]?.getD 0

/-! ## Buffers of a given function -/

@[simp]
theorem size_ofFn (count : Nat) (f : Nat → α) : (ofFn count f).size = count := Array.size_ofFn

@[simp]
theorem getElem_ofFn (count : Nat) (f : Nat → α) (i : Nat) (h : i < (ofFn count f).size) :
    (ofFn count f)[i] = f i := Array.getElem_ofFn h

theorem getElem?_ofFn (count : Nat) (f : Nat → α) (i : Nat) :
    (ofFn count f)[i]? = if i < count then some (f i) else none := by
  by_cases h : i < count
  · rw [if_pos h, Array.getElem?_eq_getElem (by rwa [size_ofFn]), getElem_ofFn]
  · rw [if_neg h, Array.getElem?_eq_none (by rw [size_ofFn]; omega)]

/-- Only the values below the length of the buffer matter. -/
theorem ofFn_congr {count : Nat} {f g : Nat → α} (h : ∀ i < count, f i = g i) :
    ofFn count f = ofFn count g := by
  refine Array.ext (by rw [size_ofFn, size_ofFn]) ?_
  intro i hi _
  rw [getElem_ofFn, getElem_ofFn]
  exact h i (by rwa [size_ofFn] at hi)

/-- A buffer of `count` elements is that of `f` once all its elements are values of `f`. -/
theorem eq_ofFn {xs : Array α} {count : Nat} {f : Nat → α} (hsize : xs.size = count)
    (h : ∀ i, (hi : i < xs.size) → xs[i] = f i) : xs = ofFn count f := by
  refine Array.ext (by rw [size_ofFn, hsize]) ?_
  intro i hi _
  rw [getElem_ofFn]
  exact h i hi

/-- A buffer with an element is that of some function. -/
theorem exists_eq_ofFn {xs : Array α} (h : 0 < xs.size) : ∃ f, xs = ofFn xs.size f := by
  refine ⟨fun i => xs.getD i xs[0], eq_ofFn rfl ?_⟩
  intro i hi
  exact (Array.getElem_eq_getD xs[0]).trans rfl

theorem ofFn_append (m n : Nat) (f g : Nat → α) :
    ofFn m f ++ ofFn n g = ofFn (m + n) fun i => if i < m then f i else g (i - m) := by
  refine eq_ofFn (by simp) ?_
  intro i hi
  rw [Array.getElem_append]
  simp only [size_ofFn, getElem_ofFn, dite_eq_ite]

/-- A longer buffer of one function is a shorter one and what follows it. -/
theorem ofFn_add (m n : Nat) (f : Nat → α) :
    ofFn (m + n) f = ofFn m f ++ ofFn n fun i => f (m + i) := by
  rw [ofFn_append]
  refine ofFn_congr fun i _ => ?_
  split
  · rfl
  · rw [Nat.add_sub_cancel' (by omega)]

theorem ofFn_one (f : Nat → α) : ofFn 1 f = #[f 0] := rfl

theorem map_ofFn (f : Nat → α) (g : α → β) (count : Nat) :
    (ofFn count f).map g = ofFn count (g ∘ f) := by
  refine eq_ofFn (by simp) ?_
  intro i hi
  simp

/-! ## Elements of a given buffer -/

section Entry

variable [Zero α]

theorem entry_eq_getElem {xs : Array α} {i : Nat} (h : i < xs.size) : entry xs i = xs[i] := by
  rw [entry, Array.getElem?_eq_getElem h, Option.getD_some]

theorem getElem?_eq_some_entry {xs : Array α} {i : Nat} (h : i < xs.size) :
    xs[i]? = some (entry xs i) := by
  rw [entry_eq_getElem h, Array.getElem?_eq_getElem h]

theorem entry_ofFn {count i : Nat} (f : Nat → α) (h : i < count) :
    entry (ofFn count f) i = f i := by
  rw [entry, getElem?_ofFn, if_pos h, Option.getD_some]

/-- Every buffer is that of its elements. -/
theorem ofFn_entry (xs : Array α) : ofFn xs.size (entry xs) = xs :=
  (eq_ofFn rfl fun _ hi => (entry_eq_getElem hi).symm).symm

theorem entry_append (xs ys : Array α) (i : Nat) :
    entry (xs ++ ys) i = if i < xs.size then entry xs i else entry ys (i - xs.size) := by
  rw [entry, Array.getElem?_append, apply_ite (Option.getD · 0)]
  rfl

theorem read_eq_entry {xs : Array α} {i : Nat} (h : i < xs.size) :
    read xs i = .ok (entry xs i) := by
  rw [read_eq_ok h, entry_eq_getElem h]

theorem slice_eq_ok {xs : Array α} {start count : Nat} (h : start + count ≤ xs.size) :
    slice xs start count = .ok (ofFn count fun i => entry xs (start + i)) := by
  rw [slice, if_pos h]
  congr 1
  refine eq_ofFn (by rw [Array.size_extract]; omega) ?_
  intro i hi
  rw [Array.size_extract] at hi
  rw [Array.getElem_extract, entry_eq_getElem]

/-- A written range holds the new elements, and all else is as before. -/
theorem entry_of_blit {xs ys zs : Array α} {start : Nat} (h : blit xs start ys = .ok zs) (i : Nat) :
    entry zs i = if start ≤ i ∧ i < start + ys.size then entry ys (i - start) else entry xs i := by
  rw [entry, getElem?_of_blit h, apply_ite (Option.getD · 0)]
  rfl

end Entry

/-! ## Checked accesses -/

theorem read_eq_getElem? (xs : Array α) (i : Nat) :
    read xs i = xs[i]?.elim (.error (.outOfRange i xs.size)) .ok := by
  unfold read
  split
  · rename_i h
    rw [Array.getElem?_eq_getElem h]
    rfl
  · rename_i h
    rw [Array.getElem?_eq_none (by omega)]
    rfl

@[simp]
theorem read_ofFn {count i : Nat} (f : Nat → α) (h : i < count) :
    read (ofFn count f) i = .ok (f i) := by
  rw [read_eq_ok (by rwa [size_ofFn]), getElem_ofFn]

/-- A tabulation whose every element is computed is the buffer of what they compute. -/
theorem tabulate_eq_ok {count : Nat} {f : Nat → Except Fault α} {g : Nat → α}
    (h : ∀ i < count, f i = .ok (g i)) : tabulate count f = .ok (ofFn count g) :=
  tabulate_eq_ok_iff.2 ⟨size_ofFn _ _, fun i hi => by
    rw [getElem_ofFn]
    exact h i (by rwa [size_ofFn] at hi)⟩

theorem write_ofFn {count i : Nat} (f : Nat → α) (x : α) (h : i < count) :
    write (ofFn count f) i x = .ok (ofFn count fun k => if k = i then x else f k) := by
  rw [write_eq_ok (by rwa [size_ofFn])]
  congr 1
  refine eq_ofFn (by simp) ?_
  intro k hk
  rw [Array.getElem_set, getElem_ofFn]
  simp only [eq_comm]

theorem slice_ofFn {count start length : Nat} (f : Nat → α) (h : start + length ≤ count) :
    slice (ofFn count f) start length = .ok (ofFn length fun i => f (start + i)) := by
  rw [slice, size_ofFn, if_pos h]
  refine congrArg Except.ok (eq_ofFn ?_ fun i hi => ?_)
  · rw [Array.size_extract, size_ofFn]
    omega
  · rw [Array.getElem_extract, getElem_ofFn]

theorem blit_ofFn {count start length : Nat} (f g : Nat → α) (h : start + length ≤ count) :
    blit (ofFn count f) start (ofFn length g) =
      .ok (ofFn count fun i => if start ≤ i ∧ i < start + length then g (i - start) else f i) := by
  obtain ⟨zs, hzs⟩ : ∃ zs, blit (ofFn count f) start (ofFn length g) = .ok zs :=
    ⟨_, if_pos (by rwa [size_ofFn, size_ofFn])⟩
  have hsize := size_of_blit hzs
  rw [size_ofFn] at hsize
  rw [hzs]
  refine congrArg Except.ok (eq_ofFn hsize fun i hi => Option.some_inj.1 ?_)
  rw [← Array.getElem?_eq_getElem, getElem?_of_blit hzs, size_ofFn]
  by_cases hin : start ≤ i ∧ i < start + length
  · rw [if_pos hin, if_pos hin, getElem?_ofFn, if_pos (by omega)]
  · rw [if_neg hin, if_neg hin, getElem?_ofFn, if_pos (by omega)]

theorem setIfInBounds_ofFn (count i : Nat) (f : Nat → α) (x : α) :
    (ofFn count f).setIfInBounds i x = ofFn count fun k => if k = i then x else f k := by
  refine eq_ofFn (by simp) ?_
  intro k hk
  rw [Array.getElem_setIfInBounds (by simpa using hk), getElem_ofFn]
  simp only [eq_comm]

theorem modify_ofFn (count i : Nat) (f : Nat → α) (g : α → α) :
    (ofFn count f).modify i g = ofFn count fun k => if k = i then g (f k) else f k := by
  refine eq_ofFn (by simp) ?_
  intro k hk
  rw [Array.getElem_modify, getElem_ofFn]
  simp only [eq_comm]

/-- Replacing a range that lies within a buffer succeeds. -/
theorem blit_eq_ok (xs : Array α) (start : Nat) (ys : Array α) (h : start + ys.size ≤ xs.size) :
    ∃ zs, blit xs start ys = .ok zs := ⟨_, if_pos h⟩

theorem room_of_blit {xs ys zs : Array α} {start : Nat} (h : blit xs start ys = .ok zs) :
    start + ys.size ≤ xs.size := by
  unfold blit at h
  split at h
  · assumption
  · exact nomatch h

/-- An element outside of a replaced range is read as before. -/
theorem read_of_blit {xs ys zs : Array α} {start i : Nat} (h : blit xs start ys = .ok zs)
    (hi : i < start ∨ start + ys.size ≤ i) : read zs i = read xs i := by
  have hget := getElem?_of_blit h i
  rw [if_neg (by omega)] at hget
  rw [read_eq_getElem?, read_eq_getElem?, hget, size_of_blit h]

theorem room_of_write {xs ys : Array α} {i : Nat} {x : α} (h : write xs i x = .ok ys) :
    i < xs.size ∧ ys.size = xs.size := by
  unfold write at h
  split at h
  · obtain rfl := Except.ok.inj h
    exact ⟨‹_›, Array.size_set _⟩
  · exact nomatch h

theorem blit_empty {xs : Array α} {start : Nat} (h : start ≤ xs.size) :
    blit xs start #[] = .ok xs := by
  obtain ⟨zs, hzs⟩ := blit_eq_ok xs start #[] h
  rw [hzs]
  refine congrArg Except.ok (Array.ext_getElem? fun i => ?_)
  rw [getElem?_of_blit hzs, if_neg (by simp)]

/-- Replacing a range of one element is a write. -/
theorem blit_singleton {xs : Array α} {i : Nat} (x : α) (h : i < xs.size) :
    blit xs i #[x] = write xs i x := by
  obtain ⟨zs, hzs⟩ := blit_eq_ok xs i #[x] h
  rw [hzs, write_eq_ok h]
  refine congrArg Except.ok (Array.ext_getElem? fun k => ?_)
  rw [getElem?_of_blit hzs, Array.getElem?_set]
  by_cases hk : i = k
  · rw [if_pos (by simp; omega), if_pos hk, hk, Nat.sub_self]
    rfl
  · rw [if_neg (by simp; omega), if_neg hk]

/-- A range is replaced by its two parts one after the other. -/
theorem blits_of_append {xs ys zs ws : Array α} {start : Nat}
    (h : blit xs start (ys ++ zs) = .ok ws) :
    ∃ mid, blit xs start ys = .ok mid ∧ blit mid (start + ys.size) zs = .ok ws := by
  have hroom := room_of_blit h
  rw [Array.size_append] at hroom
  obtain ⟨mid, hmid⟩ := blit_eq_ok xs start ys (by omega)
  have hsize := size_of_blit hmid
  obtain ⟨last, hlast⟩ := blit_eq_ok mid (start + ys.size) zs (by omega)
  refine ⟨mid, hmid, hlast.trans (congrArg Except.ok (Array.ext_getElem? fun i => ?_))⟩
  rw [getElem?_of_blit h, getElem?_of_blit hlast, getElem?_of_blit hmid, Array.size_append,
    Array.getElem?_append]
  -- the second blit starts where the first ends, so no element is written twice
  by_cases hfirst : start ≤ i ∧ i < start + ys.size
  · rw [if_neg (by omega), if_pos hfirst, if_pos (by omega), if_pos (by omega)]
  · rw [if_neg hfirst]
    by_cases hsecond : start + ys.size ≤ i ∧ i < start + ys.size + zs.size
    · rw [if_pos hsecond, if_pos (by omega), if_neg (by omega), Nat.sub_sub]
    · rw [if_neg hsecond, if_neg (by omega)]

/-! ## Reading back -/

/-- A buffer is tabulated if every one of its elements can be computed. -/
theorem exists_tabulate_eq_ok {count : Nat} {f : Nat → Except Fault α}
    (h : ∀ i < count, ∃ x, f i = .ok x) : ∃ xs, tabulate count f = .ok xs := by
  induction count with
  | zero => exact ⟨_, tabulate_zero f⟩
  | succ count ih =>
    obtain ⟨xs, hxs⟩ := ih fun i hi => h i (by omega)
    obtain ⟨x, hx⟩ := h count (by omega)
    exact ⟨xs.push x, by rw [tabulate_succ, hxs, ok_bind, hx]; rfl⟩

theorem read_of_tabulate {count i : Nat} {f : Nat → Except Fault α} {xs : Array α}
    (h : tabulate count f = .ok xs) (hi : i < count) : read xs i = f i := by
  obtain ⟨hsize, hget⟩ := tabulate_eq_ok_iff.1 h
  rw [read_eq_ok (by omega), hget i (by omega)]

/-- A tabulation depends on what computes its elements. -/
theorem tabulate_congr {count : Nat} {f g : Nat → Except Fault α} (h : ∀ i < count, f i = g i) :
    tabulate count f = tabulate count g :=
  congrArg Array.ofFnM (funext fun i => h i.val i.isLt)

theorem tabulate_read (xs : Array α) : tabulate xs.size (read xs) = .ok xs :=
  tabulate_eq_ok_iff.2 ⟨rfl, fun _ hi => read_eq_ok hi⟩

/-- Buffers with the same elements are the same. -/
theorem ext_read {xs ys : Array α} (hsize : xs.size = ys.size)
    (h : ∀ i < xs.size, read xs i = read ys i) : xs = ys := by
  refine Array.ext hsize fun i hi hi' => ?_
  have hread := h i hi
  rw [read_eq_ok hi, read_eq_ok hi'] at hread
  exact Except.ok.inj hread

theorem read_setIfInBounds {xs : Array α} {i : Nat} (hi : i < xs.size) (x : α) (k : Nat) :
    read (xs.setIfInBounds i x) k = if k = i then .ok x else read xs k := by
  rw [read_eq_getElem?, read_eq_getElem?, Array.getElem?_setIfInBounds, Array.size_setIfInBounds]
  by_cases hk : k = i
  · rw [if_pos hk, if_pos hk.symm, if_pos hi]
    rfl
  · rw [if_neg (Ne.symm hk), if_neg hk]

/-- A slice by its elements. -/
theorem slice_eq_tabulate {xs : Array α} {start count : Nat} (h : start + count ≤ xs.size) :
    slice xs start count = tabulate count fun i => read xs (start + i) := by
  rw [slice, if_pos h, eq_comm]
  refine tabulate_eq_ok_iff.2 ⟨by rw [Array.size_extract]; omega, fun i hi => ?_⟩
  rw [Array.size_extract] at hi
  rw [Array.getElem_extract, read_eq_ok (by omega)]

theorem room_of_slice {xs ys : Array α} {start count : Nat} (h : slice xs start count = .ok ys) :
    start + count ≤ xs.size := by
  unfold slice at h
  split at h
  · assumption
  · exact nomatch h

theorem read_of_slice {xs ys : Array α} {start count i : Nat} (h : slice xs start count = .ok ys)
    (hi : i < count) : read ys i = read xs (start + i) := by
  rw [slice_eq_tabulate (room_of_slice h)] at h
  exact read_of_tabulate h hi

/-- An element of a replaced range is read from what replaces it. -/
theorem read_of_blit_of_mem {xs ys zs : Array α} {start i : Nat} (h : blit xs start ys = .ok zs)
    (hle : start ≤ i) (hlt : i < start + ys.size) : read zs i = read ys (i - start) := by
  have hget := getElem?_of_blit h i
  rw [if_pos ⟨hle, hlt⟩] at hget
  rw [read_eq_getElem?, read_eq_getElem?, hget, Array.getElem?_eq_getElem (by omega)]
  rfl

end Buffer

/-! ## Transforms of a line -/

/-- On lines of `length` samples the transform ends without a fault and computes `image`. -/
def Computes (line : Array α → Except Fault (Array α)) (length : Nat)
    (image : (Nat → α) → Nat → α) : Prop :=
  ∀ y, line (Buffer.ofFn length y) = .ok (Buffer.ofFn length (image y))

/-- The image depends on the samples of the line alone. -/
theorem Computes.congr {line : Array α → Except Fault (Array α)} {length : Nat}
    {image : (Nat → α) → Nat → α} (h : Computes line length image) {y z : Nat → α}
    (hyz : ∀ i < length, y i = z i) {k : Nat} (hk : k < length) : image y k = image z k := by
  have hsame : Buffer.ofFn length (image y) = Buffer.ofFn length (image z) := by
    refine Except.ok.inj ((h y).symm.trans (Eq.trans ?_ (h z)))
    rw [Buffer.ofFn_congr hyz]
  have hget := congrArg (·[k]?) hsame
  rwa [Buffer.getElem?_ofFn, Buffer.getElem?_ofFn, if_pos hk, if_pos hk, Option.some_inj] at hget

end CosineTransform
