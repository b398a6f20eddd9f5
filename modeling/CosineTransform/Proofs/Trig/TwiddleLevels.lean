import CosineTransform.Proofs.Buffer
import CosineTransform.Trig.Twiddles
import Mathlib.Tactic.Ring

/-!
# The loop over twiddle levels

Writing a level stays within the table as long as twice the size of the level above it still fits
behind that level's start, for sizes that round down as well. `NextLevel` says what such a step
writes and what it keeps, and `lowerLevels_induction` carries any property that one step preserves
through the whole loop, together with the fact that the loop ends without a fault.
-/

namespace CosineTransform.Twiddles

variable {R T : Type} [Precise R] [Sample R T]

open Buffer (entry)

/-- What writing the level below the level of size `size` at `start` does to a table. An entry of
the level above that lies under the new header is no longer what it was, which happens only for
sizes that are no power of two. -/
structure NextLevel (start size : ℕ) (w next : Array T) : Prop where
  size_eq : next.size = w.size
  kept : ∀ i < start + size, entry next i = entry w i
  one : entry next (start + size) = 1
  diagonal : entry next (start + size + 1) = entry w 1
  cosine : size / 2 = 4 → entry next (start + size + 2) = entry w (start + 4)
  sine : size / 2 = 4 → entry next (start + size + 3) = entry w (start + 5)
  double : 4 < size / 2 →
    entry next (start + size + 2) = Sample.round Precise.half / entry w (start + 4)
  triple : 4 < size / 2 →
    entry next (start + size + 3) = Sample.round Precise.half / entry w (start + 6)
  quadruple : 4 < size / 2 → ∀ i < quadrupleCount (size / 2), 8 * (1 + i / 4) + i % 4 < size →
    entry next (start + size + 4 + i) = entry w (start + (8 * (1 + i / 4) + i % 4))

/-- A table in which the header of the level below was written. -/
structure Header (start size : ℕ) (w header : Array T) : Prop where
  size_eq : header.size = w.size
  kept : ∀ i < start + size, entry header i = entry w i
  one : entry header (start + size) = 1
  diagonal : entry header (start + size + 1) = entry w 1

omit [Precise R] in
theorem header_eq_ok {start size : ℕ} {w : Array T} (hroom : start + size + 2 ≤ w.size) :
    ∃ header, Buffer.blit w (start + size) #[1, entry w 1] = .ok header ∧
      Header start size w header := by
  obtain ⟨header, hheader⟩ := Buffer.blit_eq_ok w (start + size) #[1, entry w 1] hroom
  have hentry := Buffer.entry_of_blit hheader
  refine ⟨header, hheader, Buffer.size_of_blit hheader, ?_, ?_, ?_⟩
  · intro i hi
    rw [hentry, if_neg (by omega)]
  · rw [hentry, if_pos (by simp), Nat.sub_self]
    rfl
  · rw [hentry, if_pos (by simp), Nat.add_sub_cancel_left]
    rfl

section Below

variable {start size : ℕ} {w header : Array T} (h : Header start size w header)

include h

/-- A level of size four takes its only quadruple from the level above. -/
theorem Header.next_four (hhalf : size / 2 = 4) (hroom : start + 2 * size ≤ w.size) :
    ∃ next, Buffer.blit header (start + size + 2)
        #[entry header (start + 4), entry header (start + 5)] = .ok next ∧
      NextLevel start size w next := by
  have hsize := h.size_eq
  obtain ⟨next, hnext⟩ := Buffer.blit_eq_ok header (start + size + 2)
    #[entry header (start + 4), entry header (start + 5)] (by simp; omega)
  have hentry := Buffer.entry_of_blit hnext
  refine ⟨next, hnext, (Buffer.size_of_blit hnext).trans hsize, ?_, ?_, ?_, ?_, ?_, by omega,
    by omega, by omega⟩
  · intro i hi
    rw [hentry, if_neg (by omega), h.kept i hi]
  · rw [hentry, if_neg (by omega), h.one]
  · rw [hentry, if_neg (by omega), h.diagonal]
  · -- both entries lie in the level above, which the header has kept
    intro _
    rw [hentry, if_pos (by simp), Nat.sub_self]
    exact h.kept _ (by omega)
  · intro _
    rw [hentry, if_pos (by simp), show start + size + 3 - (start + size + 2) = 1 by omega]
    exact h.kept _ (by omega)

/-- A larger level takes its two factors and every other quadruple from the level above. -/
theorem Header.next_large {factors : Array T} (hhalf : 4 < size / 2)
    (hroom : start + 2 * size ≤ w.size)
    (hfactors : Buffer.blit header (start + size + 2)
      #[(Sample.round Precise.half : T) / entry header (start + 4),
        Sample.round Precise.half / entry header (start + 6)] = .ok factors) :
    ∃ next, Buffer.blit factors (start + size + 4)
        (Buffer.ofFn (quadrupleCount (size / 2)) fun i =>
          entry factors (start + 8 * (1 + i / 4) + i % 4)) = .ok next ∧
      NextLevel start size w next := by
  have hcount : 4 + quadrupleCount (size / 2) ≤ size := by
    unfold quadrupleCount
    omega
  have hsize : factors.size = w.size := (Buffer.size_of_blit hfactors).trans h.size_eq
  have hfactor := Buffer.entry_of_blit hfactors
  obtain ⟨next, hnext⟩ := Buffer.blit_eq_ok factors (start + size + 4)
    (Buffer.ofFn (quadrupleCount (size / 2)) fun i =>
      entry factors (start + 8 * (1 + i / 4) + i % 4)) (by rw [Buffer.size_ofFn]; omega)
  have hentry := Buffer.entry_of_blit hnext
  -- two copies, of which the second starts behind the first
  rw [Buffer.size_ofFn] at hentry
  refine ⟨next, hnext, (Buffer.size_of_blit hnext).trans hsize, ?_, ?_, ?_, by omega, by omega,
    ?_, ?_, ?_⟩
  · intro i hi
    rw [hentry, if_neg (by omega), hfactor, if_neg (by omega), h.kept i hi]
  · rw [hentry, if_neg (by omega), hfactor, if_neg (by omega), h.one]
  · rw [hentry, if_neg (by omega), hfactor, if_neg (by omega), h.diagonal]
  · intro _
    rw [hentry, if_neg (by omega), hfactor, if_pos (by simp), Nat.sub_self,
      ← h.kept (start + 4) (by omega)]
    rfl
  · intro _
    rw [hentry, if_neg (by omega), hfactor, if_pos (by simp),
      show start + size + 3 - (start + size + 2) = 1 by omega, ← h.kept (start + 6) (by omega)]
    rfl
  · intro _ i hi hlow
    rw [hentry, if_pos (by omega), Nat.add_sub_cancel_left, Buffer.entry_ofFn _ hi, Nat.add_assoc,
      hfactor, if_neg (by omega), h.kept _ (by omega)]

end Below

/-- One level is written if there is room for it. -/
theorem lowerLevel_eq_ok {start size : ℕ} {w : Array T} (hsize : 2 < size)
    (hroom : start + 2 * size ≤ w.size) :
    ∃ next, lowerLevel start size w = .ok next ∧ NextLevel start size w next := by
  obtain ⟨header, hheader, h⟩ := header_eq_ok (by omega : start + size + 2 ≤ w.size)
  have hheaderSize := h.size_eq
  have hread : Buffer.read w 1 = .ok (entry w 1) := Buffer.read_eq_entry (by omega)
  simp only [lowerLevel, hread, ok_bind, hheader]
  -- a level of two has its header only, one of four two more entries
  rcases Nat.lt_trichotomy (size / 2) 4 with hhalf | hhalf | hhalf
  · rw [if_neg (by omega), if_neg (by omega)]
    exact ⟨header, rfl, h.size_eq, h.kept, h.one, h.diagonal, by omega, by omega, by omega,
      by omega, by omega⟩
  · rw [if_pos hhalf, Buffer.read_eq_entry (by omega), ok_bind, Buffer.read_eq_entry (by omega),
      ok_bind]
    exact h.next_four hhalf hroom
  · rw [if_neg (by omega), if_pos hhalf, Buffer.read_eq_entry (by omega), ok_bind,
      Buffer.read_eq_entry (by omega), ok_bind]
    obtain ⟨factors, hfactors⟩ := Buffer.blit_eq_ok header (start + size + 2)
      #[(Sample.round Precise.half : T) / entry header (start + 4),
        Sample.round Precise.half / entry header (start + 6)] (by simp; omega)
    have hfactorsSize := Buffer.size_of_blit hfactors
    have htabulate : Buffer.tabulate (quadrupleCount (size / 2)) (fun i =>
          Buffer.read factors (start + 8 * (1 + i / 4) + i % 4)) =
        .ok (Buffer.ofFn (quadrupleCount (size / 2)) fun i =>
          entry factors (start + 8 * (1 + i / 4) + i % 4)) := by
      apply Buffer.tabulate_eq_ok
      intro i hi
      unfold quadrupleCount at hi
      exact Buffer.read_eq_entry (by omega)
    simp only [hfactors, ok_bind, htabulate]
    exact h.next_large hhalf hroom hfactors

/-- What holds of the topmost level and of each next level holds when the loop has ended, and the
loop ends. -/
theorem lowerLevels_induction {motive : ℕ → ℕ → Array T → Prop}
    (step : ∀ start size w next, 2 < size → motive start size w → NextLevel start size w next →
      motive (start + size) (size / 2) next)
    {start size : ℕ} {w : Array T} (hroom : start + 2 * size ≤ w.size) (h : motive start size w) :
    ∃ last start' size', lowerLevels start size w = .ok last ∧ last.size = w.size ∧ size' ≤ 2 ∧
      motive start' size' last := by
  induction size using Nat.strong_induction_on generalizing start w with
  | _ size ih =>
    rw [lowerLevels]
    split
    · rename_i hsize
      obtain ⟨next, hrun, hnext⟩ := lowerLevel_eq_ok hsize hroom
      rw [hrun, ok_bind]
      -- the level below starts where this one ends and is half as large, so it has room too
      obtain ⟨last, start', size', hlast, hlastSize, hend⟩ := ih (size / 2) (by omega)
        (by rw [hnext.size_eq]; omega) (step start size w next hsize h hnext)
      exact ⟨last, start', size', hlast, hlastSize.trans hnext.size_eq, hend⟩
    · exact ⟨w, start, size, rfl, rfl, by omega, h⟩

/-! ## The top level -/

theorem size_topLevel (size : ℕ) :
    (topLevel size : Array T).size =
      if size = 4 then 4 else if 4 < size then 4 + quadrupleCount size else 2 := by
  unfold topLevel
  split
  · rfl
  · split
    · simp only [Array.size_append, Array.size_ofFn]
      rfl
    · rfl

theorem size_topLevel_le {quarter : ℕ} (h : 2 < quarter) :
    (topLevel (quarter / 2) : Array T).size ≤ quarter := by
  rw [size_topLevel, quadrupleCount]
  split_ifs <;> omega

/-- A level of a larger size is its header, followed by its quadruples. -/
theorem topLevel_of_four_lt {size : ℕ} (h : 4 < size) :
    (topLevel size : Array T) =
      #[1, Sample.round (Precise.cos ((step size : R) * (size : R))),
        Sample.round (Precise.half / Precise.cos ((step size : R) * ((2 : ℕ) : R))),
        Sample.round (Precise.half / Precise.cos ((step size : R) * ((6 : ℕ) : R)))] ++
      Buffer.ofFn (quadrupleCount size) fun i =>
        Sample.round (quadruple ((step size : R) * ((4 + i / 4 * 4 : ℕ) : R)) (i % 4)) := by
  rw [topLevel, if_neg (by omega), if_pos h]
  rfl

theorem entry_topLevel_zero (size : ℕ) : entry (topLevel size : Array T) 0 = 1 := by
  by_cases h : 4 < size
  · rw [topLevel_of_four_lt h, Buffer.entry_append, if_pos (by simp)]
    rfl
  · unfold topLevel
    split_ifs <;> rfl

theorem entry_topLevel_one (size : ℕ) :
    entry (topLevel size : Array T) 1 =
      Sample.round (Precise.cos ((step size : R) * (size : R))) := by
  by_cases h : 4 < size
  · rw [topLevel_of_four_lt h, Buffer.entry_append, if_pos (by simp)]
    rfl
  · unfold topLevel
    split_ifs <;> rfl

theorem entry_topLevel_quadruple {size i : ℕ} (hsize : 4 < size) (hi : i < quadrupleCount size) :
    entry (topLevel size : Array T) (4 + i) =
      Sample.round (quadruple ((step size : R) * ((4 + i / 4 * 4 : ℕ) : R)) (i % 4)) := by
  rw [topLevel_of_four_lt hsize, Buffer.entry_append, if_neg (by simp)]
  exact (congrArg _ (Nat.add_sub_cancel_left 4 i)).trans (Buffer.entry_ofFn _ hi)

/-- The levels of a table of any length are written without a fault, the top level first. -/
theorem build_induction {motive : ℕ → ℕ → Array T → Prop} {quarter : ℕ} (h : 2 < quarter)
    (top : ∀ w : Array T, w.size = quarter →
      (∀ i < (topLevel (quarter / 2) : Array T).size,
        entry w i = entry (topLevel (quarter / 2)) i) →
      motive 0 (quarter / 2) w)
    (step : ∀ start size w next, 2 < size → motive start size w → NextLevel start size w next →
      motive (start + size) (size / 2) next) :
    ∃ w start size, (build quarter : Except Fault (Array T)) = .ok w ∧ w.size = quarter ∧ size ≤ 2 ∧
      motive start size w := by
  obtain ⟨w, hblit⟩ := Buffer.blit_eq_ok (Array.replicate quarter (0 : T)) 0
    (topLevel (quarter / 2)) (by simpa using size_topLevel_le h)
  have hsize : w.size = quarter := (Buffer.size_of_blit hblit).trans Array.size_replicate
  have htop : motive 0 (quarter / 2) w := top w hsize fun i hi => by
    rw [Buffer.entry_of_blit hblit, if_pos (by omega), Nat.sub_zero]
  -- the top level starts the induction, and the loop is one step for each further level
  obtain ⟨last, start, size, hrun, hlast, hend⟩ :=
    lowerLevels_induction step (by rw [hsize]; omega) htop
  refine ⟨last, start, size, ?_, hlast.trans hsize, hend⟩
  simp only [build, if_pos h, hblit, ok_bind, hrun]

/-- A table of any length is built. -/
theorem build_eq_ok (quarter : ℕ) :
    ∃ w, (build quarter : Except Fault (Array T)) = .ok w ∧ w.size = quarter := by
  rcases Nat.lt_or_ge 2 quarter with h | h
  · obtain ⟨w, _, _, hrun, hsize, -⟩ := build_induction (T := T) (motive := fun _ _ _ => True) h
      (fun _ _ _ => trivial) fun _ _ _ _ _ _ _ => trivial
    exact ⟨w, hrun, hsize⟩
  · exact ⟨_, if_neg (by omega), Array.size_replicate⟩

end CosineTransform.Twiddles
