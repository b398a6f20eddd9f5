import CosineTransform.Proofs.Buffer
import CosineTransform.Trig.Cosines
import Mathlib.Tactic.Ring

/-!
# Filling the cosine table

The four writes of a cosine table lie within it and apart from each other, also for an odd count, so
every count has a table and the table holds what was written.
-/

namespace CosineTransform.Cosines

variable {R T : Type} [Precise R] [Sample R T]

open Buffer (entry)

/-- The angle between two neighbours of a table of `count` entries. -/
def step (count : ℕ) : R := Precise.arctan 1 / ((count / 2 : ℕ) : R)

/-- The cosine of half a quarter circle, as the table computes it. -/
def diagonal (count : ℕ) : R := Precise.cos ((step count : R) * ((count / 2 : ℕ) : R))

/-- What a table of `count` entries holds: cosines up from its start, and sines down from its
end. -/
structure Table (count : ℕ) (c : Array T) : Prop where
  zero : entry c 0 = Sample.round (diagonal count : R)
  middle : entry c (count / 2) = Sample.round (Precise.half * (diagonal count : R))
  rising : ∀ j, 0 < j → j < count / 2 →
    entry c j = Sample.round (Precise.half * Precise.cos ((step count : R) * (j : R)))
  falling : ∀ j, 0 < j → j < count / 2 →
    entry c (count - j) = Sample.round (Precise.half * Precise.sin ((step count : R) * (j : R)))

/-- A table of any length is built. -/
theorem build_eq_ok (count : ℕ) :
    ∃ c, (build count : Except Fault (Array T)) = .ok c ∧ c.size = count ∧
      (1 < count → Table count c) := by
  rcases Nat.lt_or_ge 1 count with h | h
  · have hmiddle : 0 < count / 2 := by omega
    -- four writes one after another: both ends first, then the two sides
    obtain ⟨c₁, h₁⟩ := Buffer.blit_eq_ok (Array.replicate count (0 : T)) 0
      #[Sample.round (diagonal count : R)] (by simp; omega)
    have hsize₁ := (Buffer.size_of_blit h₁).trans Array.size_replicate
    obtain ⟨c₂, h₂⟩ := Buffer.blit_eq_ok c₁ (count / 2)
      #[(Sample.round (Precise.half * (diagonal count : R)) : T)] (by simp; omega)
    have hsize₂ := (Buffer.size_of_blit h₂).trans hsize₁
    obtain ⟨c₃, h₃⟩ := Buffer.blit_eq_ok c₂ 1
      (Buffer.ofFn (count / 2 - 1) fun i => (Sample.round
        (Precise.half * Precise.cos ((step count : R) * ((i + 1 : ℕ) : R))) : T))
      (by rw [Buffer.size_ofFn]; omega)
    have hsize₃ := (Buffer.size_of_blit h₃).trans hsize₂
    obtain ⟨c₄, h₄⟩ := Buffer.blit_eq_ok c₃ (count - (count / 2 - 1))
      (Buffer.ofFn (count / 2 - 1) fun i => (Sample.round
        (Precise.half * Precise.sin ((step count : R) * ((count / 2 - 1 - i : ℕ) : R))) : T))
      (by rw [Buffer.size_ofFn]; omega)
    have hsize₄ := (Buffer.size_of_blit h₄).trans hsize₃
    have hrun : (build count : Except Fault (Array T)) = .ok c₄ := by
      unfold build
      rw [if_pos h]
      refine bind_eq_ok.2 ⟨c₁, h₁, bind_eq_ok.2 ⟨c₂, h₂, bind_eq_ok.2 ⟨c₃, h₃, h₄⟩⟩⟩
    have e₁ := Buffer.entry_of_blit h₁
    have e₂ := Buffer.entry_of_blit h₂
    have e₃ := Buffer.entry_of_blit h₃
    have e₄ := Buffer.entry_of_blit h₄
    rw [Buffer.size_ofFn] at e₃ e₄
    simp only [List.size_toArray, List.length_cons, List.length_nil] at e₁ e₂
    -- each entry is looked up in the last write that reaches it
    refine ⟨c₄, hrun, hsize₄, fun _ => ⟨?_, ?_, fun j hpos hlt => ?_, fun j hpos hlt => ?_⟩⟩
    · rw [e₄, if_neg (by omega), e₃, if_neg (by omega), e₂, if_neg (by omega), e₁,
        if_pos (by omega)]
      rfl
    · rw [e₄, if_neg (by omega), e₃, if_neg (by omega), e₂, if_pos (by omega), Nat.sub_self]
      rfl
    · rw [e₄, if_neg (by omega), e₃, if_pos (by omega), Buffer.entry_ofFn _ (by omega),
        Nat.sub_add_cancel (by omega)]
    · rw [e₄, if_pos (by omega), Buffer.entry_ofFn _ (by omega),
        show count / 2 - 1 - (count - j - (count - (count / 2 - 1))) = j by omega]
  · exact ⟨_, if_neg (by omega), Array.size_replicate, fun _ => by omega⟩

end CosineTransform.Cosines
