import CosineTransform.Proofs.InPlace
import CosineTransform.Proofs.Trig.BitReversal

/-!
# Filling the table of reversed digits

The levels are written entry by entry into a table that was made before, in a loop of its own that
halves the length twice for each level, as the loop does that sizes the table. `fill_eq_ok` says
that the two agree: whatever a table of that size held, the filling stays within it, and writes
every entry from `2` on. On a shorter table it would fault (`tableLength_le_of_fill`).
-/

namespace CosineTransform.Digits

open Buffer (ofFn)
open InPlace (loop putPair)

/-- Takes entry `j` of the level of `size` entries to two entries of the next level. -/
def doubleAt (size j : ℕ) (table : Array ℕ) : Except Fault (Array ℕ) := do
  let even := 4 * (← Buffer.read table j)
  let table ← Buffer.write table (size + j) even
  Buffer.write table (2 * size + j) (even + 16 * size)

/-- `widen`, entry by entry. -/
def fillLevels (size span : ℕ) : InPlace ℕ Unit :=
  if 32 < span then do
    loop (fun t => doubleAt size (size + t)) size
    fillLevels (2 * size) (span / 4)
  else pure ()
termination_by span

/-- Fills the levels that go with twiddle levels in `quarter` entries. -/
def fill (quarter : ℕ) : InPlace ℕ Unit :=
  if 4 < quarter / 2 then do
    putPair 2 (fun _ => .ok 0) fun _ => .ok 16
    fillLevels 2 quarter
  else pure ()

/-! ## What the filling writes -/

section Doubling

variable {count size : ℕ} (x : ℕ → ℕ)

/-- Entry `k` when the first `turns` entries of the level of `size` entries have been taken to the
next level. -/
def doubling (size turns k : ℕ) : ℕ :=
  if 3 * size ≤ k ∧ k < 3 * size + turns then 4 * x (k - 2 * size) + 16 * size
  else if 2 * size ≤ k ∧ k < 2 * size + turns then 4 * x (k - size)
  else x k

theorem doubleAt_eq_ok {t : ℕ} (ht : t < size) (hroom : 4 * size ≤ count) :
    doubleAt size (size + t) (ofFn count (doubling x size t)) =
      .ok (ofFn count (doubling x size (t + 1))) := by
  have hread : doubling x size t (size + t) = x (size + t) := by
    rw [doubling, if_neg (by omega), if_neg (by omega)]
  rw [doubleAt, Buffer.read_ofFn _ (by omega), ok_bind, hread]
  dsimp only
  rw [Buffer.write_ofFn _ _ (by omega), ok_bind, Buffer.write_ofFn _ _ (by omega)]
  refine congrArg Except.ok (Buffer.ofFn_congr fun k _ => ?_)
  unfold doubling
  rcases eq_or_ne k (2 * size + (size + t)) with rfl | hodd
  · rw [if_pos rfl, if_pos (by omega), show 2 * size + (size + t) - 2 * size = size + t by omega]
  · rw [if_neg hodd]
    rcases eq_or_ne k (size + (size + t)) with rfl | heven
    · rw [if_pos rfl, if_neg (by omega), if_pos (by omega), Nat.add_sub_cancel_left]
    · rw [if_neg heven]
      exact if_congr (by omega) rfl (if_congr (by omega) rfl rfl)

/-- All the turns for one level write the next level. -/
theorem doubled_eq_ok {table next : Array ℕ}
    (h : Buffer.blit table (2 * size) (ofFn (size + size) fun i =>
      if i < size then 4 * Buffer.entry table (size + i)
      else 4 * Buffer.entry table (size + (i - size)) + 16 * size) = .ok next) :
    loop (fun t => doubleAt size (size + t)) size table = .ok () next := by
  have hroom := Buffer.room_of_blit h
  rw [Buffer.size_ofFn] at hroom
  refine InPlace.loop_eq_ok
    (fun t => ofFn table.size (doubling (Buffer.entry table) size t)) ?_ ?_ ?_
  · refine Eq.trans (Buffer.ofFn_congr fun k _ => ?_) (Buffer.ofFn_entry table)
    rw [doubling, if_neg (by omega), if_neg (by omega)]
  · refine (Buffer.eq_ofFn (Buffer.size_of_blit h) fun k hk => ?_).symm
    rw [← Buffer.entry_eq_getElem hk, Buffer.entry_of_blit h, Buffer.size_ofFn, doubling]
    by_cases hnext : 2 * size ≤ k ∧ k < 2 * size + (size + size)
    · rw [if_pos hnext, Buffer.entry_ofFn _ (by omega)]
      by_cases heven : k - 2 * size < size
      · rw [if_pos heven, if_neg (by omega), if_pos (by omega),
          show size + (k - 2 * size) = k - size by omega]
      · rw [if_neg heven, if_pos (by omega),
          show size + (k - 2 * size - size) = k - 2 * size by omega]
    · rw [if_neg hnext, if_neg (by omega), if_neg (by omega)]
  · intro t ht
    exact doubleAt_eq_ok _ ht (by omega)

end Doubling

/-- Level by level, the filling does what `widen` does. -/
theorem fillLevels_eq_ok {size span : ℕ} {table filled : Array ℕ}
    (h : widen size span table = .ok filled) : fillLevels size span table = .ok () filled := by
  induction span using Nat.strong_induction_on generalizing size table with
  | _ span ih =>
    rw [widen] at h
    split at h
    · rename_i hspan
      obtain ⟨level, hlevel, hlater⟩ := bind_eq_ok.1 h
      obtain ⟨next, hnext, hrest⟩ : ∃ next, Buffer.blit table (2 * size)
          (level.map (4 * ·) ++ (level.map (4 * ·)).map (· + 16 * size)) = .ok next ∧
          widen (2 * size) (span / 4) next = .ok filled := bind_eq_ok.1 hlater
      -- the level is within the table, as the next level is
      have hsize := Buffer.size_of_slice hlevel
      have hroom := Buffer.room_of_blit hnext
      simp only [Array.size_append, Array.size_map] at hroom
      rw [Buffer.slice_eq_ok (by omega)] at hlevel
      obtain rfl := Except.ok.inj hlevel
      rw [Buffer.map_ofFn, Buffer.map_ofFn, Buffer.ofFn_append] at hnext
      rw [fillLevels, if_pos hspan, bind_of_ok (doubled_eq_ok hnext)]
      exact ih (span / 4) (by omega) hrest
    · rename_i hspan
      rw [fillLevels, if_neg hspan, Except.ok.inj h]
      rfl

/-- From its first level on, a table is filled as it is written in ranges. -/
theorem fill_of_widen {quarter : ℕ} {table start filled : Array ℕ} (hquarter : 4 < quarter / 2)
    (hstart : Buffer.blit table 2 #[0, 16] = .ok start)
    (hrest : widen 2 quarter start = .ok filled) : fill quarter table = .ok () filled := by
  rw [fill, if_pos hquarter, bind_of_ok (InPlace.putPair_eq_ok hstart rfl fun _ _ => rfl)]
  exact fillLevels_eq_ok hrest

/-- On a blank table of the right length the filling gives the table that is built. -/
theorem fill_of_build {quarter : ℕ} {table : Array ℕ} (h : build quarter = .ok table) :
    fill quarter (Array.replicate (tableLength quarter) 0) = .ok () table := by
  unfold build at h
  split at h
  · rename_i hquarter
    obtain ⟨start, hstart, hrest⟩ := bind_eq_ok.1 h
    exact fill_of_widen hquarter hstart hrest
  · rename_i hquarter
    rw [fill, if_neg hquarter, ← Except.ok.inj h]
    rfl

/-! ## The levels that there are -/

/-- The entries from `2` on follow from the length of the table. -/
theorem Levels.getElem?_eq {table other : Array ℕ} {width width' : ℕ} (h : Levels table width)
    (h' : Levels other width') (hsize : table.size = other.size) {i : ℕ} (hi : 2 ≤ i) :
    table[i]? = other[i]? := by
  have hpow : 2 ^ (width + 1) = 2 ^ (width' + 1) := by rw [← h.size_eq, ← h'.size_eq, hsize]
  obtain rfl := Nat.succ.inj (Nat.pow_right_injective le_rfl hpow)
  rcases Nat.lt_or_ge i table.size with hlt | hge
  · -- the level of the entry goes by its highest bit
    have hlow : 2 ^ i.log2 ≤ i := Nat.log2_self_le (by omega)
    have hhigh : i < 2 ^ (i.log2 + 1) := Nat.lt_log2_self
    have hpos : 1 ≤ i.log2 := (Nat.le_log2 (by omega)).2 hi
    have hle : i.log2 ≤ width := by
      refine Nat.lt_succ_iff.1 ((Nat.pow_lt_pow_iff_right (by omega : 1 < 2)).1 ?_)
      exact hlow.trans_lt (hlt.trans_eq h.size_eq)
    obtain ⟨k, hk⟩ := Nat.exists_eq_add_of_le hlow
    have hk' : k < 2 ^ i.log2 := by
      rw [pow_succ] at hhigh
      omega
    have hentry := h.filled _ hpos hle k hk'
    have hentry' := h'.filled _ hpos hle k hk'
    rw [← hk] at hentry hentry'
    rw [Buffer.getElem?_eq_some_entry hlt, Buffer.getElem?_eq_some_entry (hsize ▸ hlt), hentry,
      hentry']
  · rw [Array.getElem?_eq_none hge, Array.getElem?_eq_none (by omega)]

/-- A table of the right length is filled, whatever it held. -/
theorem fill_eq_ok {quarter : ℕ} {table : Array ℕ} (hsize : table.size = tableLength quarter) :
    ∃ filled width, fill quarter table = .ok () filled ∧ filled.size = table.size ∧
      Levels filled width := by
  rw [tableLength] at hsize
  rcases Nat.lt_or_ge 4 (quarter / 2) with hquarter | hquarter
  · rw [if_neg (by omega)] at hsize
    obtain ⟨start, wider, width, hstart, hrest, hwider, hlevels⟩ := widen_start_eq_ok hsize
    exact ⟨wider, width, fill_of_widen hquarter hstart hrest, hwider, hlevels⟩
  · rw [if_pos hquarter] at hsize
    rw [fill, if_neg (by omega)]
    exact ⟨table, 0, rfl, rfl, hsize, fun q hpos hle => by omega⟩

theorem room_of_doubleAt {size j : ℕ} {table next : Array ℕ}
    (h : doubleAt size j table = .ok next) :
    2 * size + j < table.size ∧ next.size = table.size := by
  obtain ⟨x, -, h⟩ := bind_eq_ok.1 h
  obtain ⟨mid, hmid, h⟩ := bind_eq_ok.1 h
  obtain ⟨-, hsize⟩ := Buffer.room_of_write hmid
  rw [← hsize]
  exact Buffer.room_of_write h

/-- Where the filling ends, its widest level was within the table. -/
theorem widest_le_of_fillLevels {size span : ℕ} {table filled : Array ℕ} (hsize : 0 < size)
    (hroom : 2 * size ≤ table.size) (h : fillLevels size span table = .ok () filled) :
    2 * widest size span ≤ table.size := by
  induction span using Nat.strong_induction_on generalizing size table with
  | _ span ih =>
    rw [fillLevels] at h
    rw [widest]
    split
    · rename_i hspan
      rw [if_pos hspan] at h
      obtain ⟨_, next, hloop, hrest⟩ := InPlace.of_bind_eq_ok h
      have hnext : next.size = table.size :=
        InPlace.size_of_loop (fun _ _ _ hturn => (room_of_doubleAt hturn).2) hloop
      -- the last turn writes the last entry of the next level
      obtain ⟨last, rfl⟩ := Nat.exists_eq_add_one_of_ne_zero hsize.ne'
      obtain ⟨_, mid, hmid, hturn⟩ := InPlace.of_bind_eq_ok hloop
      have hmidSize : mid.size = table.size :=
        InPlace.size_of_loop (fun _ _ _ hturn => (room_of_doubleAt hturn).2) hmid
      obtain ⟨hlast, -⟩ := room_of_doubleAt (InPlace.of_turn_eq_ok hturn)
      rw [← hnext]
      exact ih (span / 4) (by omega) (by omega) (by omega) hrest
    · exact hroom

/-- The filling needs all of the table. -/
theorem tableLength_le_of_fill {quarter : ℕ} {table filled : Array ℕ} (hquarter : 4 < quarter / 2)
    (h : fill quarter table = .ok () filled) : tableLength quarter ≤ table.size := by
  rw [fill, if_pos hquarter] at h
  obtain ⟨_, start, hstart, hrest⟩ := InPlace.of_bind_eq_ok h
  obtain ⟨hroom, hsize⟩ := InPlace.room_of_putPair hstart
  rw [tableLength, if_neg (by omega), ← hsize]
  exact widest_le_of_fillLevels two_pos (by omega) hrest

end CosineTransform.Digits
