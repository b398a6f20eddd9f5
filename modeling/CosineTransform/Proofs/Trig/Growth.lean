import CosineTransform.Proofs.Trig.BitReversal
import CosineTransform.Proofs.Trig.CosineTable
import CosineTransform.Proofs.Trig.TwiddleLevels
import CosineTransform.Trig.Tables
import CosineTransform.Word

/-!
# Growing the tables

Tables of any two lengths are built (`Tables.build_eq_ok`). `Tables.Grown` is the relation between
tables and the requests that they have seen; whatever their order, and whatever requests were
refused in between, the tables are those of the longest length that was granted
(`Tables.Grown.build_eq`).
-/

namespace CosineTransform.Tables

variable {R T : Type} [Precise R] [Sample R T]

/-- The parts of tables of the given lengths. -/
structure Built (quarter count : ℕ) (t : Tables T) : Prop where
  twiddles : Twiddles.build quarter = .ok t.twiddles
  cosines : Cosines.build count = .ok t.cosines
  digits : ∃ width, Digits.Levels t.rotation width

/-- The two lengths at the start of the rotation table are no part of its levels. -/
theorem levels_of_blit {table rotation : Array ℕ} {width quarter count : ℕ}
    (h : Digits.Levels table width) (hblit : Buffer.blit table 0 #[quarter, count] = .ok rotation) :
    Digits.Levels rotation width := by
  refine ⟨(Buffer.size_of_blit hblit).trans h.size_eq, fun q hpos hle k hk => ?_⟩
  have htwo : 2 ^ 1 ≤ 2 ^ q := Nat.pow_le_pow_right (by omega) hpos
  rw [Buffer.entry_of_blit hblit, if_neg (by simp; omega)]
  exact h.filled q hpos hle k hk

/-- Tables of any lengths are built. -/
theorem build_eq_ok (quarter count : ℕ) : ∃ t : Tables T, build quarter count = .ok t := by
  obtain ⟨twiddles, htwiddles, -⟩ := Twiddles.build_eq_ok (T := T) quarter
  obtain ⟨digits, width, hdigits, -, hlevels⟩ := Digits.build_eq_ok quarter
  obtain ⟨cosines, hcosines, -⟩ := Cosines.build_eq_ok (T := T) count
  have htwo : 2 ^ 1 ≤ 2 ^ (width + 1) := Nat.pow_le_pow_right (by omega) (by omega)
  obtain ⟨rotation, hrotation⟩ := Buffer.blit_eq_ok digits 0
    #[quarter, count] (by simp [hlevels.size_eq]; omega)
  refine ⟨⟨rotation, twiddles, cosines⟩, ?_⟩
  simp only [build, htwiddles, hdigits, hcosines, hrotation, ok_bind, pure_eq_ok]

/-- The parts that tables are built from. -/
theorem parts_of_build {quarter count : ℕ} {t : Tables T} (h : build quarter count = .ok t) :
    ∃ digits, Twiddles.build quarter = .ok t.twiddles ∧ Cosines.build count = .ok t.cosines ∧
      Digits.build quarter = .ok digits ∧
      Buffer.blit digits 0 #[quarter, count] = .ok t.rotation := by
  obtain ⟨twiddles, htwiddles, h⟩ := bind_eq_ok.1 h
  obtain ⟨digits, hdigits, h⟩ := bind_eq_ok.1 h
  obtain ⟨cosines, hcosines, h⟩ := bind_eq_ok.1 h
  obtain ⟨rotation, hrotation, h⟩ := bind_eq_ok.1 h
  obtain rfl := Except.ok.inj h
  exact ⟨digits, htwiddles, hcosines, hdigits, hrotation⟩

theorem built_of_build {quarter count : ℕ} {t : Tables T} (h : build quarter count = .ok t) :
    Built quarter count t := by
  obtain ⟨digits, htwiddles, hcosines, hdigits, hrotation⟩ := parts_of_build h
  obtain ⟨table, width, htable, -, hlevels⟩ := Digits.build_eq_ok quarter
  obtain rfl := Except.ok.inj (hdigits.symm.trans htable)
  exact ⟨htwiddles, hcosines, width, levels_of_blit hlevels hrotation⟩

/-- The rotation table starts with the two lengths. -/
theorem rotation_of_build {quarter count : ℕ} {t : Tables T} (h : build quarter count = .ok t) :
    t.rotation[0]? = some quarter ∧ t.rotation[1]? = some count := by
  obtain ⟨digits, -, -, -, hrotation⟩ := parts_of_build h
  exact ⟨Buffer.getElem?_of_blit hrotation 0, Buffer.getElem?_of_blit hrotation 1⟩

namespace Built

variable {quarter count : ℕ} {t : Tables T}

theorem quarterLength_eq (h : Built quarter count t) : t.quarterLength = quarter := by
  obtain ⟨w, hw, hsize⟩ := Twiddles.build_eq_ok (T := T) quarter
  obtain rfl := Except.ok.inj (h.twiddles.symm.trans hw)
  exact hsize

theorem cosineLength_eq (h : Built quarter count t) : t.cosineLength = count := by
  obtain ⟨c, hc, hsize, -⟩ := Cosines.build_eq_ok (T := T) count
  obtain rfl := Except.ok.inj (h.cosines.symm.trans hc)
  exact hsize

theorem cosineTable (h : Built quarter count t) (hcount : 1 < count) :
    Cosines.Table count t.cosines := by
  obtain ⟨c, hc, -, htable⟩ := Cosines.build_eq_ok (T := T) count
  obtain rfl := Except.ok.inj (h.cosines.symm.trans hc)
  exact htable hcount

/-- The tables of a length serve every shorter line. -/
theorem supports {length n : ℕ} (h : Built (length / 4) length t) (hn : n ≤ length) :
    t.Supports n := by
  refine .inr ⟨?_, ?_⟩
  · rw [h.quarterLength_eq]
    exact Nat.div_le_div_right hn
  · rwa [h.cosineLength_eq]

end Built

/-! ## Requests -/

/-- What a sequence of requests leaves behind: the tables, and the lengths that were granted, the
latest first. The tables of a request that fails are those that it left. -/
inductive Grown : Tables T → List ℕ → Prop
  | empty : Grown .empty []
  | granted {t next : Tables T} {lengths : List ℕ} {memory : Memory} {n : ℕ} :
      Grown t lengths → t.ensure memory n = .ok () next → Grown next (n :: lengths)
  | refused {t left : Tables T} {lengths : List ℕ} {memory : Memory} {n : ℕ} {failure : Failure} :
      Grown t lengths → t.ensure memory n = .error failure left → Grown left lengths

/-- The longest of some lengths, and zero if there is none. -/
def longest (lengths : List ℕ) : ℕ := lengths.foldr max 0

theorem le_longest {lengths : List ℕ} {n : ℕ} (h : n ∈ lengths) : n ≤ longest lengths := by
  induction lengths with
  | nil => exact absurd h List.not_mem_nil
  | cons k lengths ih =>
    rcases List.mem_cons.1 h with rfl | h
    · exact le_max_left _ _
    · exact (ih h).trans (le_max_right _ _)

theorem longest_le {lengths : List ℕ} {k : ℕ} (h : ∀ n ∈ lengths, n ≤ k) : longest lengths ≤ k := by
  induction lengths with
  | nil => exact Nat.zero_le k
  | cons n lengths ih =>
    exact max_le (h n List.mem_cons_self) (ih fun m hm => h m (List.mem_cons_of_mem n hm))

theorem longest_lt {lengths : List ℕ} {k : ℕ} (hk : 0 < k) (h : ∀ n ∈ lengths, n < k) :
    longest lengths < k := by
  have hle : longest lengths ≤ k - 1 := longest_le fun n hn => by
    have hlt := h n hn
    omega
  omega

/-- What holds of every length holds of the longest. -/
theorem longest_induction {motive : ℕ → Prop} {lengths : List ℕ} (hne : lengths ≠ [])
    (h : ∀ n ∈ lengths, motive n) : motive (longest lengths) := by
  induction lengths with
  | nil => exact absurd rfl hne
  | cons k lengths ih =>
    -- a single length is its own longest, so 0 does not have to satisfy the motive
    rcases lengths.eq_nil_or_concat with rfl | hcons
    · simpa [longest] using h k (by simp)
    · have hrest : lengths ≠ [] := by
        obtain ⟨init, last, rfl⟩ := hcons
        simp
      rw [longest, List.foldr_cons]
      rcases max_choice k (lengths.foldr max 0) with hmax | hmax
      · rw [hmax]
        exact h k (by simp)
      · rw [hmax]
        exact ih hrest fun n hn => h n (by simp [hn])

/-- What a request does: it leaves the tables as they are if both lengths stay. Otherwise it is
refused one of its two reservations and has changed nothing, or it replaces the tables by those of
the longer lengths. -/
theorem ensure_cases (t : Tables T) (memory : Memory) (n : ℕ) :
    let quarter := max t.quarterLength (n / 4)
    let count := max t.cosineLength n
    let weights := memory.reserve (quarter + count) (Sample.bytes (T := T))
    let rotation := memory.reserve (Digits.tableLength quarter) 8
    (quarter = t.quarterLength ∧ count = t.cosineLength) ∧ t.ensure memory n = .ok () t ∨
    ¬(quarter = t.quarterLength ∧ count = t.cosineLength) ∧
      ((weights = .error .outOfMemory ∨ rotation = .error .outOfMemory) ∧
          t.ensure memory n = .error (.error .outOfMemory) t ∨
        (weights = .ok () ∧ rotation = .ok ()) ∧
          ∃ next, build quarter count = .ok next ∧ t.ensure memory n = .ok () next) := by
  intro quarter count weights rotation
  unfold ensure
  change _ ∧ (ite _ _ _ : EStateM Failure (Tables T) Unit) t = _ ∨
    _ ∧ (_ ∧ (ite _ _ _ : EStateM Failure (Tables T) Unit) t = _ ∨
      _ ∧ ∃ next, _ ∧ (ite _ _ _ : EStateM Failure (Tables T) Unit) t = _)
  by_cases hsame : quarter = t.quarterLength ∧ count = t.cosineLength
  · rw [if_pos hsame]
    exact .inl ⟨hsame, rfl⟩
  rw [if_neg hsame]
  refine .inr ⟨hsame, ?_⟩
  -- the tables are set by the last step, so a refusal finds them as they were
  rcases hweights : memory.reserve (quarter + count) (Sample.bytes (T := T)) with refusal | ⟨⟩
  · obtain rfl := (Memory.reserve_eq_error_iff.1 hweights).2
    exact .inl ⟨.inl hweights, rfl⟩
  rcases hrotation : memory.reserve (Digits.tableLength quarter) 8 with refusal | ⟨⟩
  · obtain rfl := (Memory.reserve_eq_error_iff.1 hrotation).2
    exact .inl ⟨.inr hrotation, rfl⟩
  · obtain ⟨next, hnext⟩ := build_eq_ok (T := T) quarter count
    refine .inr ⟨⟨hweights, hrotation⟩, next, hnext, ?_⟩
    rw [hnext]
    rfl

/-- A request that fails is refused memory, and has changed nothing. -/
theorem ensure_eq_error {t left : Tables T} {memory : Memory} {n : ℕ} {failure : Failure}
    (h : t.ensure memory n = .error failure left) :
    failure = .error .outOfMemory ∧ left = t := by
  obtain ⟨-, hkept⟩ | ⟨-, ⟨-, hrefused⟩ | ⟨-, next, -, hnext⟩⟩ := ensure_cases t memory n
  · exact nomatch h.symm.trans hkept
  · exact EStateM.Result.error.inj (h.symm.trans hrefused)
  · exact nomatch h.symm.trans hnext

/-- A request on tables of some length leaves those of the longer of the two lengths. -/
theorem ensure_eq_ok {t next : Tables T} {memory : Memory} {length n : ℕ}
    (ht : build (length / 4) length = .ok t) (h : t.ensure memory n = .ok () next) :
    build (max n length / 4) (max n length) = .ok next := by
  have hquarter := (built_of_build ht).quarterLength_eq
  have hcount := (built_of_build ht).cosineLength_eq
  have hmax : max (length / 4) (n / 4) = max n length / 4 := by omega
  have hcases := ensure_cases t memory n
  rw [hquarter, hcount, hmax, max_comm length n] at hcases
  obtain ⟨hsame, hkept⟩ | ⟨-, ⟨-, hrefused⟩ | ⟨-, built, hbuilt, hnext⟩⟩ := hcases
  · obtain ⟨-, rfl⟩ := EStateM.Result.ok.inj (h.symm.trans hkept)
    rw [hsame.1, hsame.2, ht]
  · exact nomatch h.symm.trans hrefused
  · obtain ⟨-, rfl⟩ := EStateM.Result.ok.inj (h.symm.trans hnext)
    exact hbuilt

/-- The first request builds the tables of its length. -/
theorem build_of_ensure_empty {t : Tables T} {memory : Memory} {n : ℕ}
    (h : (empty : Tables T).ensure memory n = .ok () t) : build (n / 4) n = .ok t := by
  have hempty : build (0 / 4) 0 = .ok (empty : Tables T) := rfl
  have hbuild := ensure_eq_ok hempty h
  rwa [Nat.max_zero] at hbuild

theorem ofLength_eq_ok_iff {t : Tables T} {memory : Memory} {n : ℕ} :
    ofLength memory n = .ok t ↔ (empty : Tables T).ensure memory n = .ok () t := by
  rw [ofLength]
  rcases (empty : Tables T).ensure memory n with ⟨⟨⟩, next⟩ | ⟨failure, left⟩
  · simp
  · simp

/-- Tables are those of the longest length that they were granted. -/
theorem Grown.build_eq {t : Tables T} {lengths : List ℕ} (h : Grown t lengths) :
    build (longest lengths / 4) (longest lengths) = .ok t := by
  induction h with
  | empty => rfl
  | granted _ hensure ih => exact ensure_eq_ok ih hensure
  | refused _ hensure ih =>
    rw [(ensure_eq_error hensure).2]
    exact ih

/-- A granted request leaves the tables of the longer lengths. -/
theorem Grown.build_of_ensure {t next : Tables T} {lengths : List ℕ} {memory : Memory} {n : ℕ}
    (h : Grown t lengths) (hnext : t.ensure memory n = .ok () next) :
    build (max t.quarterLength (n / 4)) (max t.cosineLength n) = .ok next := by
  have hbuilt := built_of_build h.build_eq
  have hmax : max (longest lengths / 4) (n / 4) = max n (longest lengths) / 4 := by omega
  rw [hbuilt.quarterLength_eq, hbuilt.cosineLength_eq, hmax, max_comm (longest lengths)]
  exact ensure_eq_ok h.build_eq hnext

/-- Tables serve the lines up to the longest length that they were granted, and those of at most one
sample. -/
theorem Grown.supports_iff {t : Tables T} {lengths : List ℕ} (h : Grown t lengths) (n : ℕ) :
    t.Supports n ↔ n ≤ 1 ∨ n ≤ longest lengths := by
  have hbuilt := built_of_build h.build_eq
  rw [Supports, hbuilt.quarterLength_eq, hbuilt.cosineLength_eq]
  omega

/-- Tables whose longest length is a power of two, whatever the other lengths were. -/
theorem Grown.built_longest {t : Tables T} {lengths : List ℕ} (h : Grown t lengths)
    (hpow : (longest lengths).isPowerOfTwo) :
    ∃ K, longest lengths = 2 ^ K ∧ Built (2 ^ K / 4) (2 ^ K) t := by
  obtain ⟨K, hK⟩ := hpow
  have hbuilt := built_of_build h.build_eq
  rw [hK] at hbuilt
  exact ⟨K, hK, hbuilt⟩

/-- Tables that grew by powers of two are those of the longest one of them. -/
theorem Grown.built {t : Tables T} {lengths : List ℕ} (h : Grown t lengths)
    (hpow : ∀ n ∈ lengths, n.isPowerOfTwo) (hne : lengths ≠ []) :
    ∃ K, Built (2 ^ K / 4) (2 ^ K) t ∧ ∀ n ∈ lengths, n ≤ 2 ^ K := by
  obtain ⟨K, hK, hbuilt⟩ := h.built_longest (longest_induction hne hpow)
  exact ⟨K, hbuilt, fun n hn => hK ▸ le_longest hn⟩

/-- A request is granted where there is room for both tables. -/
theorem ensure_of_reserved {t : Tables T} {memory : Memory} {n : ℕ}
    (hweights : memory.reserve (max t.quarterLength (n / 4) + max t.cosineLength n)
      (Sample.bytes (T := T)) = .ok ())
    (hrotation : memory.reserve (Digits.tableLength (max t.quarterLength (n / 4))) 8 = .ok ()) :
    ∃ next, t.ensure memory n = .ok () next := by
  obtain ⟨-, hkept⟩ | ⟨-, ⟨hrefused, -⟩ | ⟨-, next, -, hnext⟩⟩ := ensure_cases t memory n
  · exact ⟨t, hkept⟩
  · obtain hrefused | hrefused := hrefused
    · exact nomatch hweights.symm.trans hrefused
    · exact nomatch hrotation.symm.trans hrefused
  · exact ⟨next, hnext⟩

/-- A request is granted where memory is. -/
theorem ensure_isOk {memory : Memory} (h : ∀ bytes, memory.grants bytes = true) (t : Tables T)
    (n : ℕ) : ∃ next, t.ensure memory n = .ok () next :=
  ensure_of_reserved (Memory.reserve_of_grants h _ _) (Memory.reserve_of_grants h _ _)

/-- Where there is memory, the first request builds the tables of its length. -/
theorem ensure_empty_of_build {memory : Memory} (hmemory : ∀ bytes, memory.grants bytes = true)
    {t : Tables T} {n : ℕ} (h : build (n / 4) n = .ok t) :
    (empty : Tables T).ensure memory n = .ok () t := by
  obtain ⟨next, hnext⟩ := ensure_isOk hmemory (empty : Tables T) n
  rw [hnext, Except.ok.inj ((build_of_ensure_empty hnext).symm.trans h)]

/-- Tables of a length are left as they are by a request for it. -/
theorem ensure_of_built {t : Tables T} {n : ℕ} (h : Built (n / 4) n t) (memory : Memory) :
    t.ensure memory n = .ok () t := by
  have hcases := ensure_cases t memory n
  rw [h.quarterLength_eq, h.cosineLength_eq, max_self, max_self] at hcases
  obtain ⟨-, hkept⟩ | ⟨hchanged, -⟩ := hcases
  · exact hkept
  · exact absurd ⟨rfl, rfl⟩ hchanged

/-- Tables whose lengths together are no word are never granted by the memory of a machine, which
has room for fewer bytes than there are words. -/
theorem ensure_of_overflow {t : Tables T} {memory : Memory} {n : ℕ}
    (hmemory : ∀ bytes, memory.grants bytes = true → bytes < Word.count)
    (hbytes : 0 < Sample.bytes (T := T))
    (hchanged : t.cosineLength < n)
    (hoverflow : Word.count ≤ max t.quarterLength (n / 4) + max t.cosineLength n) :
    t.ensure memory n = .error (.error .outOfMemory) t := by
  obtain ⟨⟨-, hsame⟩, -⟩ | ⟨-, ⟨-, hrefused⟩ | ⟨⟨hweights, -⟩, -⟩⟩ := ensure_cases t memory n
  · exact absurd hsame (by omega)
  · exact hrefused
  · have hlt := hmemory _ (Memory.reserve_eq_ok_iff.1 hweights)
    exact absurd hlt (Nat.not_lt.2 (hoverflow.trans (Nat.le_mul_of_pos_right _ hbytes)))

/-- Any requests are granted one after another by enough memory. -/
theorem exists_grown (lengths : List ℕ) : ∃ t : Tables T, t.Grown lengths := by
  induction lengths with
  | nil => exact ⟨.empty, .empty⟩
  | cons n lengths ih =>
    obtain ⟨t, ht⟩ := ih
    have hgrants : ∀ bytes, Memory.grants ⟨fun _ => true⟩ bytes = true := fun _ => rfl
    obtain ⟨next, hnext⟩ := ensure_isOk hgrants t n
    exact ⟨next, ht.granted hnext⟩

end CosineTransform.Tables
