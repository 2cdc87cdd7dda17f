import Mathlib.Data.Set.Basic

/-!
# Things in exactly one place

A family of sets *parts* the things of `U` when each of them is in exactly one
set of the family. Carrying some of the things from one place to another keeps
that (`Parts.move`).
-/

namespace LinuxHacks.Lib

universe u v

variable {α : Type u} {ι : Type v}

/-- Each thing of `U` is at exactly one place, and nothing else is anywhere. -/
structure Parts (U : Set α) (P : ι → Set α) : Prop where
  apart : ∀ i j a, a ∈ P i → a ∈ P j → i = j
  cover : ∀ a, a ∈ U ↔ ∃ i, a ∈ P i

/-- `P'` is `P` with `X` carried from place `i` to place `j`. -/
structure Moved (P P' : ι → Set α) (X : Set α) (i j : ι) : Prop where
  ne : i ≠ j
  subset : X ⊆ P i
  source : P' i = P i \ X
  target : P' j = P j ∪ X
  other : ∀ k, k ≠ i → k ≠ j → P' k = P k

namespace Parts

variable {U : Set α} {P P' : ι → Set α} {X : Set α} {i j : ι}

theorem existsUnique (h : Parts U P) {a : α} (ha : a ∈ U) : ∃! i, a ∈ P i := by
  obtain ⟨i, hi⟩ := (h.cover a).mp ha
  exact ⟨i, hi, fun j hj => h.apart j i a hj hi⟩

theorem mem (h : Parts U P) {a : α} (ha : a ∈ P i) : a ∈ U := (h.cover a).mpr ⟨i, ha⟩

theorem notMem (h : Parts U P) {a : α} (ha : a ∈ P i) (hij : i ≠ j) : a ∉ P j :=
  fun haj => hij (h.apart i j a ha haj)

/-- **Moving things.** -/
theorem move (h : Parts U P) (hm : Moved P P' X i j) : Parts U P' := by
  -- where a thing is now: at `j` when it was carried, else where it was
  have hmem : ∀ k a, a ∈ P' k ↔ (a ∈ X ∧ k = j) ∨ (a ∉ X ∧ a ∈ P k) := by
    intro k a
    by_cases hkj : k = j
    · rw [hkj, hm.target]
      by_cases haX : a ∈ X
      · exact ⟨fun _ => Or.inl ⟨haX, rfl⟩, fun _ => Or.inr haX⟩
      · exact ⟨fun ha => Or.inr ⟨haX, ha.resolve_right haX⟩,
          fun ha => Or.inl (ha.resolve_left fun hX => haX hX.1).2⟩
    · have hrest : a ∈ P' k ↔ a ∉ X ∧ a ∈ P k := by
        by_cases hki : k = i
        · rw [hki, hm.source]
          exact And.comm
        · rw [hm.other k hki hkj]
          refine ⟨fun ha => ⟨fun haX => hki (h.apart k i a ha (hm.subset haX)), ha⟩, And.right⟩
      rw [hrest]
      exact ⟨Or.inr, fun ha => ha.resolve_left fun hX => hkj hX.2⟩
  refine ⟨?_, ?_⟩
  · intro k l a hk hl
    rcases (hmem k a).mp hk with ⟨haX, hkj⟩ | ⟨haX, hak⟩
    · rcases (hmem l a).mp hl with ⟨_, hlj⟩ | ⟨haX', _⟩
      · rw [hkj, hlj]
      · exact absurd haX haX'
    · rcases (hmem l a).mp hl with ⟨haX', _⟩ | ⟨_, hal⟩
      · exact absurd haX' haX
      · exact h.apart k l a hak hal
  · intro a
    rw [h.cover]
    constructor
    · rintro ⟨k, hk⟩
      by_cases haX : a ∈ X
      · exact ⟨j, (hmem j a).mpr (Or.inl ⟨haX, rfl⟩)⟩
      · exact ⟨k, (hmem k a).mpr (Or.inr ⟨haX, hk⟩)⟩
    · rintro ⟨k, hk⟩
      rcases (hmem k a).mp hk with ⟨haX, _⟩ | ⟨_, hak⟩
      · exact ⟨i, hm.subset haX⟩
      · exact ⟨k, hak⟩

end Parts

end LinuxHacks.Lib
