import CosineTransform.Proofs.Trig.DigitFilling
import CosineTransform.Proofs.Trig.Requests

/-!
# Filling the tables

`Tables.build` writes its tables in ranges. Here they are filled in order, each in the buffer that
is to hold it: entry by entry, but for the quadruples of a lower level, which are copied four
entries at a time. That each program does what the ranges say (`Twiddles.onBlank_fill`,
`Cosines.onBlank_fill`, `Digits.fill_of_build`) means that all its reads and writes are in bounds.
`Tables.request_fills_tables` puts it together for a request, whatever came before it.
-/

namespace CosineTransform

variable {R T : Type} [Precise R] [Sample R T]

open Buffer (entry ofFn)
open InPlace (loop put putPair onBlank inPairs)

/-! ## Twiddle levels -/

namespace Twiddles

/-- `topLevel`, entry by entry. -/
def fillTopLevel (size : ℕ) : InPlace T Unit := do
  let step : R := step size
  let two : R := ((2 : ℕ) : R)
  let six : R := ((6 : ℕ) : R)
  putPair 0 (fun _ => .ok 1) fun _ => .ok (Sample.round (Precise.cos (step * (size : R))))
  if size = 4 then
    putPair 2 (fun _ => .ok (Sample.round (Precise.cos (step * two)))) fun _ =>
      .ok (Sample.round (Precise.sin (step * two)))
  else if 4 < size then
    putPair 2 (fun _ => .ok (Sample.round (Precise.half / Precise.cos (step * two)))) fun _ =>
      .ok (Sample.round (Precise.half / Precise.cos (step * six)))
    loop (fun i w => Buffer.write w (4 + i)
      (Sample.round (quadruple (step * ((4 + i / 4 * 4 : ℕ) : R)) (i % 4)))) (quadrupleCount size)

/-- The factor that interpolates with the cosine at `index`. -/
def factorAt (w : Array T) (index : ℕ) : Except Fault T := do
  return Sample.round Precise.half / (← Buffer.read w index)

/-- `lowerLevel`, with the quadruples copied one after another. -/
def fillLowerLevel (start size : ℕ) : InPlace T Unit := do
  let next := start + size
  let half := size / 2
  putPair next (fun _ => .ok 1) fun w => Buffer.read w 1
  if half = 4 then
    putPair (next + 2) (fun w => Buffer.read w (start + 4)) fun w => Buffer.read w (start + 5)
  else if 4 < half then
    putPair (next + 2) (fun w => factorAt w (start + 4)) fun w => factorAt w (start + 6)
    loop (fun t w => do
      Buffer.blit w (next + 4 + 4 * t) (← Buffer.slice w (start + 8 * (1 + t)) 4)) ((half - 1) / 4)

/-- `lowerLevels`, level by level. -/
def fillLowerLevels (start size : ℕ) : InPlace T Unit :=
  if 2 < size then do
    fillLowerLevel start size
    fillLowerLevels (start + size) (size / 2)
  else pure ()
termination_by size

/-- Fills the levels in a table of `quarter` entries. -/
def fill (quarter : ℕ) : InPlace T Unit :=
  if 2 < quarter then do
    fillTopLevel (quarter / 2)
    fillLowerLevels 0 (quarter / 2)
  else pure ()

/-- The top level is filled as it is written in one range. -/
theorem fillTopLevel_eq_ok {size : ℕ} {w next : Array T}
    (h : Buffer.blit w 0 (topLevel size) = .ok next) : fillTopLevel size w = .ok () next := by
  unfold topLevel at h
  unfold fillTopLevel
  dsimp only at h ⊢
  -- the level is written in one piece, the program writes it part by part
  split at h
  · rename_i hsize
    obtain ⟨header, hheader, h⟩ := Buffer.blits_of_append h
    rw [bind_of_ok (InPlace.putPair_eq_ok hheader rfl fun _ _ => rfl), if_pos hsize]
    exact InPlace.putPair_eq_ok h rfl fun _ _ => rfl
  · rename_i hsize
    split at h
    · rename_i hlarge
      obtain ⟨factors, hfactors, h⟩ := Buffer.blits_of_append h
      obtain ⟨header, hheader, hfactors⟩ := Buffer.blits_of_append hfactors
      rw [bind_of_ok (InPlace.putPair_eq_ok hheader rfl fun _ _ => rfl), if_neg hsize,
        if_pos hlarge]
      refine (bind_of_ok (InPlace.putPair_eq_ok hfactors rfl fun _ _ => rfl) _).trans ?_
      exact InPlace.loop_write_eq_ok h fun _ _ _ => rfl
    · rename_i hlarge
      rw [bind_of_ok (InPlace.putPair_eq_ok h rfl fun _ _ => rfl), if_neg hsize, if_neg hlarge]
      rfl

theorem factorAt_eq_ok {w : Array T} {index : ℕ} {x : T} (h : Buffer.read w index = .ok x) :
    factorAt w index = .ok (Sample.round Precise.half / x) := by
  rw [factorAt, h, ok_bind, pure_eq_ok]

/-- No quadruple is copied from where an earlier one was written. -/
theorem copyQuadruples_eq_ok [Zero T] {start size : ℕ} {w next quadruples : Array T}
    (hlarge : 4 < size / 2)
    (hquadruples : Buffer.tabulate (quadrupleCount (size / 2)) (fun i =>
      Buffer.read w (start + 8 * (1 + i / 4) + i % 4)) = .ok quadruples)
    (h : Buffer.blit w (start + size + 4) quadruples = .ok next) :
    loop (fun t w => do
      Buffer.blit w (start + size + 4 + 4 * t) (← Buffer.slice w (start + 8 * (1 + t)) 4))
      ((size / 2 - 1) / 4) w = .ok () next := by
  obtain ⟨hsize, hread⟩ := Buffer.tabulate_eq_ok_iff.1 hquadruples
  have hroom := Buffer.room_of_blit h
  have hcopied : quadruples = ofFn (4 * ((size / 2 - 1) / 4)) fun i =>
      entry w (start + 8 * (1 + i / 4) + i % 4) := by
    refine Buffer.eq_ofFn hsize fun i hi => Except.ok.inj ((hread i hi).symm.trans ?_)
    rw [hsize, quadrupleCount] at hi
    exact Buffer.read_eq_entry (by omega)
  rw [hcopied] at h
  rw [hsize, quadrupleCount] at hroom
  -- the copies of earlier turns lie behind what a turn reads
  refine InPlace.loop_blit_eq_ok h fun t ht mid hmid => ?_
  have hmidSize := Buffer.size_of_blit hmid
  rw [Buffer.slice_eq_ok (by omega), ok_bind]
  refine congrArg _ (Buffer.ofFn_congr fun i hi => ?_)
  rw [Buffer.entry_of_blit hmid, if_neg (by omega)]
  congr 1
  omega

/-- One level is filled as it is written in ranges. -/
theorem fillLowerLevel_eq_ok {start size : ℕ} {w next : Array T} (hsize : 2 < size)
    (h : lowerLevel start size w = .ok next) : fillLowerLevel start size w = .ok () next := by
  unfold lowerLevel at h
  unfold fillLowerLevel
  dsimp only at h ⊢
  obtain ⟨x, hx, h⟩ := bind_eq_ok.1 h
  obtain ⟨header, hheader, h⟩ := bind_eq_ok.1 h
  -- what is read when the first of two neighbours is written stands before both of them
  have hx' : ∀ mid, Buffer.blit w (start + size) #[1] = .ok mid → Buffer.read mid 1 = .ok x := by
    intro mid hmid
    rw [← hx]
    exact Buffer.read_of_blit hmid (.inl (by omega))
  rw [bind_of_ok (InPlace.putPair_eq_ok hheader rfl hx')]
  split at h
  · rename_i hhalf
    obtain ⟨cosine, hcosine, h⟩ := bind_eq_ok.1 h
    obtain ⟨sine, hsine, h⟩ := bind_eq_ok.1 h
    rw [if_pos hhalf]
    refine InPlace.putPair_eq_ok h hcosine fun mid hmid => ?_
    rw [← hsine]
    exact Buffer.read_of_blit hmid (.inl (by omega))
  · rename_i hhalf
    split at h
    · rename_i hlarge
      obtain ⟨fourth, hfourth, h⟩ := bind_eq_ok.1 h
      obtain ⟨sixth, hsixth, h⟩ := bind_eq_ok.1 h
      obtain ⟨factors, hfactors, h⟩ := bind_eq_ok.1 h
      obtain ⟨quadruples, hquadruples, h⟩ := bind_eq_ok.1 h
      rw [if_neg hhalf, if_pos hlarge]
      refine (bind_of_ok (InPlace.putPair_eq_ok hfactors (factorAt_eq_ok hfourth)
        fun mid hmid => factorAt_eq_ok ?_) _).trans ?_
      · rw [← hsixth]
        exact Buffer.read_of_blit hmid (.inl (by omega))
      · exact copyQuadruples_eq_ok hlarge hquadruples h
    · rename_i hlarge
      rw [if_neg hhalf, if_neg hlarge, Except.ok.inj h]
      rfl

/-- Level by level, the filling does what `lowerLevels` does. -/
theorem fillLowerLevels_eq_ok {start size : ℕ} {w last : Array T}
    (h : lowerLevels start size w = .ok last) : fillLowerLevels start size w = .ok () last := by
  -- a level is half as long as the one before it
  induction size using Nat.strong_induction_on generalizing start w with
  | _ size ih =>
    rw [lowerLevels] at h
    split at h
    · rename_i hsize
      obtain ⟨next, hnext, hrest⟩ := bind_eq_ok.1 h
      rw [fillLowerLevels, if_pos hsize, bind_of_ok (fillLowerLevel_eq_ok hsize hnext)]
      exact ih (size / 2) (by omega) hrest
    · rename_i hsize
      rw [fillLowerLevels, if_neg hsize, Except.ok.inj h]
      rfl

/-- The levels of any table are filled, and are those that are built. -/
theorem onBlank_fill (quarter : ℕ) :
    onBlank quarter (fill quarter) = (build quarter : Except Fault (Array T)) := by
  obtain ⟨w, hw, -⟩ := build_eq_ok (T := T) quarter
  rw [hw]
  refine InPlace.onBlank_eq_ok ?_
  unfold build at hw
  split at hw
  · rename_i hquarter
    obtain ⟨top, htop, hrest⟩ := bind_eq_ok.1 hw
    rw [fill, if_pos hquarter, bind_of_ok (fillTopLevel_eq_ok htop)]
    exact fillLowerLevels_eq_ok hrest
  · rename_i hquarter
    rw [fill, if_neg hquarter, ← Except.ok.inj hw]
    rfl

end Twiddles

/-! ## Rotation cosines -/

namespace Cosines

/-- Writes the two entries for `j` steps. -/
def fillAt (count j : ℕ) (c : Array T) : Except Fault (Array T) := do
  let angle : R := step count * (j : R)
  let c ← Buffer.write c j (Sample.round (Precise.half * Precise.cos angle))
  Buffer.write c (← Index.sub count j) (Sample.round (Precise.half * Precise.sin angle))

/-- Fills a table of `count` entries, from both ends to the middle. -/
def fill (count : ℕ) : InPlace T Unit :=
  if 1 < count then do
    put 0 fun _ => .ok (Sample.round (diagonal count : R))
    put (count / 2) fun _ => .ok (Sample.round (Precise.half * (diagonal count : R)))
    loop (fun t => fillAt count (t + 1)) (count / 2 - 1)
  else pure ()

/-- Entry `k` of a table in which only the entry `0` and the one in the middle are written. -/
def ends (count k : ℕ) : T :=
  if k = count / 2 then Sample.round (Precise.half * (diagonal count : R))
  else if k = 0 then Sample.round (diagonal count : R) else 0

/-- Entry `k` of a full table, but for the entries of `ends`. -/
def sides (count k : ℕ) : T :=
  if k < count / 2 then Sample.round (Precise.half * Precise.cos ((step count : R) * (k : R)))
  else Sample.round (Precise.half * Precise.sin ((step count : R) * ((count - k : ℕ) : R)))

variable {count : ℕ}

theorem fillAt_eq_ok {j : ℕ} (hj : j + 1 < count / 2) :
    fillAt count (j + 1) (ofFn count (inPairs count (sides count) (ends count) j)) =
      .ok (ofFn count (inPairs count (sides count : ℕ → T) (ends count) (j + 1))) := by
  rw [fillAt, Buffer.write_ofFn _ _ (by omega), ok_bind, Index.sub_eq_ok (by omega), ok_bind,
    Buffer.write_ofFn _ _ (by omega)]
  refine congrArg Except.ok (Buffer.ofFn_congr fun k _ => ?_)
  refine Eq.trans ?_ (InPlace.inPairs_succ _ _ (by omega) k)
  refine if_congr Iff.rfl ?_ (if_congr Iff.rfl ?_ rfl)
  · rw [sides, if_neg (by omega), Nat.sub_sub_self (by omega)]
  · rw [sides, if_pos (by omega)]

/-- The entries that are no part of a loop are written first. -/
theorem ends_eq_ok (h : 1 < count) : ∃ c : Array T, c.size = count ∧
    Buffer.write (Array.replicate count 0) 0 (Sample.round (diagonal count : R)) = .ok c ∧
    Buffer.write c (count / 2) (Sample.round (Precise.half * (diagonal count : R))) =
      .ok (ofFn count (ends count)) := by
  have hblank : Array.replicate count (0 : T) = ofFn count fun _ => 0 :=
    Buffer.eq_ofFn Array.size_replicate fun i hi => Array.getElem_replicate hi
  rw [hblank, Buffer.write_ofFn _ _ (by omega)]
  exact ⟨_, Buffer.size_ofFn _ _, rfl, Buffer.write_ofFn _ _ (by omega)⟩

/-- The four ranges of a table, by their entries. -/
theorem build_eq_ofFn (h : 1 < count) : (build count : Except Fault (Array T)) =
    .ok (ofFn count (inPairs count (sides count) (ends count) (count / 2 - 1))) := by
  obtain ⟨c, hsize, hzero, hmiddle⟩ := ends_eq_ok (T := T) h
  rw [← Buffer.blit_singleton _ (by rw [Array.size_replicate]; omega)] at hzero
  rw [← Buffer.blit_singleton _ (by omega)] at hmiddle
  have hrising := Buffer.blit_ofFn (ends count : ℕ → T) (fun i => Sample.round (Precise.half *
    Precise.cos ((step count : R) * ((i + 1 : ℕ) : R)))) (by omega : 1 + (count / 2 - 1) ≤ count)
  have hfalling := Buffer.blit_ofFn (fun k => if 1 ≤ k ∧ k < 1 + (count / 2 - 1)
      then (Sample.round (Precise.half * Precise.cos ((step count : R) * ((k - 1 + 1 : ℕ) : R))) : T)
      else ends count k)
    (fun i => Sample.round (Precise.half *
      Precise.sin ((step count : R) * ((count / 2 - 1 - i : ℕ) : R))))
    (by omega : count - (count / 2 - 1) + (count / 2 - 1) ≤ count)
  rw [build, if_pos h]
  refine bind_eq_ok.2 ⟨c, hzero, bind_eq_ok.2 ⟨_, hmiddle, bind_eq_ok.2 ⟨_, hrising,
    hfalling.trans (congrArg Except.ok (Buffer.ofFn_congr fun k hk => ?_))⟩⟩⟩
  unfold inPairs sides
  -- the falling side is written last, so it is looked for first
  by_cases hhigh : count ≤ k + (count / 2 - 1)
  · rw [if_pos (by omega), if_pos (by omega), if_neg (by omega),
      show count / 2 - 1 - (k - (count - (count / 2 - 1))) = count - k by omega]
  · rw [if_neg (by omega)]
    by_cases hlow : 1 ≤ k ∧ k < 1 + (count / 2 - 1)
    · rw [if_pos hlow, if_pos (by omega), if_pos (by omega), Nat.sub_add_cancel hlow.1]
    · rw [if_neg hlow, if_neg (by omega)]

/-- The table of any length is filled, and is the one that is built. -/
theorem onBlank_fill (count : ℕ) :
    onBlank count (fill count) = (build count : Except Fault (Array T)) := by
  rcases Nat.lt_or_ge 1 count with h | h
  · obtain ⟨c, -, hzero, hmiddle⟩ := ends_eq_ok (T := T) h
    rw [build_eq_ofFn h]
    refine InPlace.onBlank_eq_ok ?_
    rw [fill, if_pos h, bind_of_ok (InPlace.put_eq_ok rfl hzero),
      bind_of_ok (InPlace.put_eq_ok rfl hmiddle)]
    refine InPlace.loop_eq_ok
      (fun t => ofFn count (inPairs count (sides count) (ends count) t)) ?_ rfl fun t ht => ?_
    · exact Buffer.ofFn_congr fun k hk => InPlace.inPairs_zero _ _ hk
    · exact fillAt_eq_ok (by omega)
  · rw [build, fill, if_neg (by omega), if_neg (by omega)]
    rfl

end Cosines

/-! ## The tables -/

namespace Tables

/-- Fills tables of the given lengths. -/
def fill (quarter count : ℕ) : Except Fault (Tables T) := do
  let twiddles ← onBlank quarter (Twiddles.fill quarter)
  let rotation ← onBlank (Digits.tableLength quarter) do
    Digits.fill quarter
    putPair 0 (fun _ => .ok quarter) fun _ => .ok count
  let cosines ← onBlank count (Cosines.fill count)
  return { rotation, twiddles, cosines }

/-- Tables of any lengths are filled without a fault, and are those that are built. -/
theorem fill_of_build {quarter count : ℕ} {t : Tables T} (h : build quarter count = .ok t) :
    fill quarter count = .ok t := by
  obtain ⟨digits, htwiddles, hcosines, hdigits, hrotation⟩ := parts_of_build h
  have hfill : (do
      Digits.fill quarter
      putPair 0 (fun _ => .ok quarter) fun _ => .ok count : InPlace ℕ Unit)
      (Array.replicate (Digits.tableLength quarter) 0) = .ok () t.rotation := by
    rw [bind_of_ok (Digits.fill_of_build hdigits)]
    exact InPlace.putPair_eq_ok hrotation rfl fun _ _ => rfl
  simp only [fill, Twiddles.onBlank_fill, htwiddles, InPlace.onBlank_eq_ok hfill,
    Cosines.onBlank_fill, hcosines, ok_bind, pure_eq_ok]

/-- The rotation table has the length of the levels of reversed digits. -/
theorem size_rotation_of_build {quarter count : ℕ} {t : Tables T}
    (h : build quarter count = .ok t) : t.rotation.size = Digits.tableLength quarter := by
  obtain ⟨digits, -, -, hdigits, hrotation⟩ := parts_of_build h
  obtain ⟨table, _, htable, hsize, -⟩ := Digits.build_eq_ok quarter
  obtain rfl := Except.ok.inj (hdigits.symm.trans htable)
  exact (Buffer.size_of_blit hrotation).trans hsize

/-- A request whose reservations are granted leaves the tables of the longer lengths, filled in
order without a fault, whatever was asked for before and whatever its own length is. The levels of
reversed digits take up all of the rotation table but its first two entries: the filling writes
every other entry of any table of that length, and does not get through a shorter one without a
fault. -/
theorem request_fills_tables (requests : List Request) (memory : Memory) (n : ℕ) :
    let t : Tables T := (history requests).1
    let quarter := max t.quarterLength (n / 4)
    let count := max t.cosineLength n
    memory.reserve (quarter + count) (Sample.bytes (T := T)) = .ok () →
    memory.reserve (Digits.tableLength quarter) 8 = .ok () →
    ∃ next : Tables T, t.ensure memory n = .ok () next ∧ fill quarter count = .ok next ∧
      (next.quarterLength = quarter ∧ next.cosineLength = count) ∧
      next.rotation.size = Digits.tableLength quarter ∧
      next.rotation.size.isPowerOfTwo ∧
      (∀ q, 2 ≤ 2 ^ q → 2 * 2 ^ q ≤ next.rotation.size → ∀ k < 2 ^ q,
        next.rotation[2 ^ q + k]? = some (8 * 2 ^ q * Digits.reverseBits q k)) ∧
      (∀ table : Array ℕ, table.size = Digits.tableLength quarter →
        ∃ filled, Digits.fill quarter table = .ok () filled ∧ filled.size = table.size ∧
          ∀ i, 2 ≤ i → filled[i]? = next.rotation[i]?) ∧
      (4 < quarter / 2 → ∀ table filled : Array ℕ, Digits.fill quarter table = .ok () filled →
        Digits.tableLength quarter ≤ table.size) := by
  intro t quarter count hweights hrotation
  obtain ⟨next, hnext⟩ := ensure_of_reserved hweights hrotation
  have hbuild : build quarter count = .ok next := (grown_history requests).build_of_ensure hnext
  have hbuilt := built_of_build hbuild
  have hsize := size_rotation_of_build hbuild
  obtain ⟨width, hlevels⟩ := hbuilt.digits
  refine ⟨next, hnext, fill_of_build hbuild, ⟨hbuilt.quarterLength_eq, hbuilt.cosineLength_eq⟩,
    hsize, ⟨width + 1, hlevels.size_eq⟩, fun q hpos hroom k hk => ?_, fun table htable => ?_,
    fun hquarter table filled hfill => Digits.tableLength_le_of_fill hquarter hfill⟩
  · have hq : 1 ≤ q := (Nat.pow_le_pow_iff_right one_lt_two).1 hpos
    have hwidth : q + 1 ≤ width + 1 := by
      rw [hlevels.size_eq, ← pow_succ'] at hroom
      exact (Nat.pow_le_pow_iff_right one_lt_two).1 hroom
    rw [Buffer.getElem?_eq_some_entry (by omega), hlevels.filled q hq (by omega) k hk]
  · -- entries 0 and 1 hold the two lengths and are not filled
    obtain ⟨filled, width', hfill, hfilled, hlevels'⟩ := Digits.fill_eq_ok htable
    exact ⟨filled, hfill, hfilled, fun i hi =>
      hlevels'.getElem?_eq hlevels (by rw [hfilled, htable, hsize]) hi⟩

/-- For 200 samples, no power of two, there are levels of two and of four reversed digits. -/
theorem request_fills_tables_two_hundred :
    ∃ next : Tables Float, (empty : Tables Float).ensure ⟨fun _ => true⟩ 200 = .ok () next ∧
      fill 50 200 = .ok next ∧ next.rotation.size = 8 ∧ next.rotation[6]? = some 32 := by
  obtain ⟨next, hnext, hfill, -, hsize, -, hlevels, -⟩ :=
    request_fills_tables (T := Float) [] ⟨fun _ => true⟩ 200 rfl rfl
  have hsize : next.rotation.size = 8 := by
    rw [hsize, show max (Tables.quarterLength _) (200 / 4) = 50 from rfl]
    simp [Digits.tableLength, Digits.widest]
  exact ⟨next, hnext, hfill, hsize, hlevels 2 (by omega) (by omega) 2 (by omega)⟩

end Tables

end CosineTransform
