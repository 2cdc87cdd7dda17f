import Mathlib.Data.List.Count
import Mathlib.Data.List.Induction
import Mathlib.Logic.Function.Basic

/-!
# Ledgers of allocations

A log of allocations and frees, and the owners of what is outstanding. A log is
`Sound` when nothing is freed unless it is allocated and nothing is allocated
twice; `Owned own log` says in addition that the owners, each with at most one
resource, hold exactly the outstanding resources, each held once. The rules
follow the life of a resource:

* `Owned.nil`: nobody owns anything, and nothing has happened;
* `Owned.alloc`: an owner without a resource gets a free one;
* `Owned.free`: an owner gives up its resource.
-/

namespace LinuxHacks.Lib

/-- An event of a resource. -/
inductive Entry (β : Type*) where
  | alloc (b : β)
  | free (b : β)
deriving DecidableEq

namespace Ledger

section Log

variable {β : Type*} [DecidableEq β]

/-- Allocated and not yet freed. -/
def Outstanding (log : List (Entry β)) (b : β) : Prop :=
  log.count (.alloc b) = log.count (.free b) + 1

instance (log : List (Entry β)) (b : β) : Decidable (Outstanding log b) :=
  inferInstanceAs (Decidable (_ = _))

/-- A resource is freed only while it is outstanding, and allocated only while
it is not: every allocation is freed at most once. -/
structure Sound (log : List (Entry β)) : Prop where
  free : ∀ pre b post, log = pre ++ .free b :: post → Outstanding pre b
  alloc : ∀ pre b post, log = pre ++ .alloc b :: post → ¬ Outstanding pre b

theorem outstanding_alloc (log : List (Entry β)) (a b : β) :
    Outstanding (log ++ [.alloc a]) b ↔
      log.count (.alloc b) + (if a = b then 1 else 0) = log.count (.free b) + 1 := by
  rw [Outstanding, List.count_append, List.count_append, List.count_singleton,
    List.count_singleton]
  simp [Entry.alloc.injEq]

theorem outstanding_free (log : List (Entry β)) (a b : β) :
    Outstanding (log ++ [.free a]) b ↔
      log.count (.alloc b) = log.count (.free b) + (if a = b then 1 else 0) + 1 := by
  rw [Outstanding, List.count_append, List.count_append, List.count_singleton,
    List.count_singleton]
  simp [Entry.free.injEq]

/-- The last entry of a split log is the end of the log, or lies before it. -/
theorem split_snoc {α : Type*} {log pre post : List α} {e x : α}
    (h : log ++ [e] = pre ++ x :: post) :
    (pre = log ∧ x = e) ∨ ∃ post', log = pre ++ x :: post' := by
  rcases List.eq_nil_or_concat post with rfl | ⟨post', y, rfl⟩
  · obtain ⟨h₁, h₂⟩ := List.append_inj' h rfl
    exact Or.inl ⟨h₁.symm, (List.cons.inj h₂).1.symm⟩
  · refine Or.inr ⟨post', ?_⟩
    have hsplit : pre ++ x :: post'.concat y = (pre ++ x :: post') ++ [y] := by simp
    rw [hsplit] at h
    exact (List.append_inj' h rfl).1

theorem Sound.nil : Sound ([] : List (Entry β)) := by
  refine ⟨fun pre b post h => ?_, fun pre b post h => ?_⟩
  · simp at h
  · simp at h

theorem Sound.snoc_alloc {log : List (Entry β)} (h : Sound log) {b : β}
    (hb : ¬ Outstanding log b) : Sound (log ++ [.alloc b]) := by
  constructor
  · intro pre c post heq
    rcases split_snoc heq with ⟨_, hlast⟩ | ⟨post', hrest⟩
    · cases hlast
    · exact h.free pre c post' hrest
  · intro pre c post heq
    rcases split_snoc heq with ⟨rfl, hlast⟩ | ⟨post', hrest⟩
    · cases hlast
      exact hb
    · exact h.alloc pre c post' hrest

theorem Sound.snoc_free {log : List (Entry β)} (h : Sound log) {b : β}
    (hb : Outstanding log b) : Sound (log ++ [.free b]) := by
  constructor
  · intro pre c post heq
    rcases split_snoc heq with ⟨rfl, hlast⟩ | ⟨post', hrest⟩
    · cases hlast
      exact hb
    · exact h.free pre c post' hrest
  · intro pre c post heq
    rcases split_snoc heq with ⟨_, hlast⟩ | ⟨post', hrest⟩
    · cases hlast
    · exact h.alloc pre c post' hrest

/-- What is not outstanding has been freed as often as it was allocated. -/
theorem Sound.balanced {log : List (Entry β)} (h : Sound log) (b : β) :
    Outstanding log b ∨ log.count (.alloc b) = log.count (.free b) := by
  induction log using List.reverseRecOn with
  | nil => exact Or.inr rfl
  | append_singleton log e ih =>
      have hlog : Sound log := by
        refine ⟨fun pre c post heq => ?_, fun pre c post heq => ?_⟩
        · exact h.free pre c (post ++ [e]) (by simp [heq])
        · exact h.alloc pre c (post ++ [e]) (by simp [heq])
      have hlast := ih hlog
      unfold Outstanding at hlast
      cases e with
      | alloc a =>
          rw [outstanding_alloc, List.count_append, List.count_append]
          by_cases hab : a = b
          · have hnot := h.alloc log a [] rfl
            rw [hab, Outstanding] at hnot
            simp only [hab, if_true]
            omega
          · simp [hab] at hlast ⊢
            omega
      | free a =>
          rw [outstanding_free, List.count_append, List.count_append]
          by_cases hab : a = b
          · have hout := h.free log a [] rfl
            rw [hab, Outstanding] at hout
            simp [hab]
            omega
          · simp [hab] at hlast ⊢
            omega

end Log

section Owners

variable {ι β : Type*} [DecidableEq ι] [DecidableEq β] {own : ι → Option β}
  {log : List (Entry β)}

/-- The owners hold exactly what is outstanding, each resource once. -/
structure Owned (own : ι → Option β) (log : List (Entry β)) : Prop where
  sound : Sound log
  outstanding : ∀ b, Outstanding log b ↔ ∃ i, own i = some b
  distinct : ∀ i j b, own i = some b → own j = some b → i = j

omit [DecidableEq ι] in
theorem Owned.nil : Owned (fun _ : ι => (none : Option β)) [] := by
  refine ⟨.nil, fun b => ?_, fun i j b h => ?_⟩
  · simp [Outstanding]
  · cases h

/-- **Allocation.** -/
theorem Owned.alloc (h : Owned own log) {i : ι} {b : β} (hi : own i = none)
    (hb : ¬ Outstanding log b) :
    Owned (Function.update own i (some b)) (log ++ [.alloc b]) := by
  refine ⟨h.sound.snoc_alloc hb, ?_, ?_⟩
  · intro c
    rw [outstanding_alloc]
    by_cases hbc : b = c
    · subst hbc
      have hzero := (h.sound.balanced b).resolve_left hb
      simp only [if_true, hzero, true_iff]
      exact ⟨i, Function.update_self ..⟩
    · rw [if_neg hbc, Nat.add_zero]
      refine (h.outstanding c).trans ⟨?_, ?_⟩
      · rintro ⟨j, hj⟩
        refine ⟨j, ?_⟩
        rw [Function.update_of_ne]
        · exact hj
        · rintro rfl
          rw [hi] at hj
          cases hj
      · rintro ⟨j, hj⟩
        by_cases hji : j = i
        · rw [hji, Function.update_self] at hj
          exact absurd (Option.some.inj hj) hbc
        · rw [Function.update_of_ne hji] at hj
          exact ⟨j, hj⟩
  · -- nobody held the new resource before
    have hnew : ∀ j, own j ≠ some b := fun j hj => hb ((h.outstanding b).mpr ⟨j, hj⟩)
    intro j k c hj hk
    by_cases hji : j = i
    · by_cases hki : k = i
      · rw [hji, hki]
      · rw [hji, Function.update_self] at hj
        rw [Function.update_of_ne hki, ← Option.some.inj hj] at hk
        exact absurd hk (hnew k)
    · rw [Function.update_of_ne hji] at hj
      by_cases hki : k = i
      · rw [hki, Function.update_self] at hk
        rw [← Option.some.inj hk] at hj
        exact absurd hj (hnew j)
      · rw [Function.update_of_ne hki] at hk
        exact h.distinct j k c hj hk

/-- **Freeing.** -/
theorem Owned.free (h : Owned own log) {i : ι} {b : β} (hi : own i = some b) :
    Owned (Function.update own i none) (log ++ [.free b]) := by
  have hb : Outstanding log b := (h.outstanding b).mpr ⟨i, hi⟩
  have hother : ∀ j, j ≠ i → own j ≠ some b := fun j hji hj => hji (h.distinct j i b hj hi)
  refine ⟨h.sound.snoc_free hb, ?_, ?_⟩
  · intro c
    rw [outstanding_free]
    by_cases hbc : b = c
    · subst hbc
      rw [Outstanding] at hb
      constructor
      · intro hcount
        simp only [if_true] at hcount
        omega
      · rintro ⟨j, hj⟩
        by_cases hji : j = i
        · rw [hji, Function.update_self] at hj
          cases hj
        · rw [Function.update_of_ne hji] at hj
          exact absurd hj (hother j hji)
    · rw [if_neg hbc, Nat.add_zero]
      refine (h.outstanding c).trans ⟨?_, ?_⟩
      · rintro ⟨j, hj⟩
        refine ⟨j, ?_⟩
        rw [Function.update_of_ne]
        · exact hj
        · rintro rfl
          rw [hi] at hj
          exact hbc (Option.some.inj hj)
      · rintro ⟨j, hj⟩
        by_cases hji : j = i
        · rw [hji, Function.update_self] at hj
          cases hj
        · rw [Function.update_of_ne hji] at hj
          exact ⟨j, hj⟩
  · intro j k c hj hk
    have hji : j ≠ i := by
      rintro rfl
      rw [Function.update_self] at hj
      cases hj
    have hki : k ≠ i := by
      rintro rfl
      rw [Function.update_self] at hk
      cases hk
    rw [Function.update_of_ne hji] at hj
    rw [Function.update_of_ne hki] at hk
    exact h.distinct j k c hj hk

end Owners

end Ledger

end LinuxHacks.Lib
