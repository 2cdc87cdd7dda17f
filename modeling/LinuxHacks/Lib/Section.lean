import Mathlib.Logic.Function.Basic

/-!
# Locked sections as code

The statements a thread executes between taking a lock and leaving for the code
behind the section. `Code.next` executes one statement, `Code.run` all of them
with nobody in between; `Code.Frees` says that a section, run from a state,
unlocks and then leaves, and `Code.Releases` that it does from every state, with
writes of a kind `P` before. The lock itself is a part of the state, freed by
`free`.

* `Releases.next`: one statement inside a section that unlocks on every path;
* `Releases.frees`: what every path does is done from every state.
-/

namespace LinuxHacks.Lib

universe u v

/-- What is left of a section, from the next statement to the exit. -/
inductive Code (σ : Type u) (ε : Type v) where
  | exit (e : ε)
  | act (f : σ → σ) (k : Code σ ε)
  | test (b : σ → Bool) (yes no : Code σ ε)
  | unlock (k : Code σ ε)

namespace Code

variable {σ : Type u} {ε : Type v}

/-- One statement. At the exit there is none. -/
def next (free : σ → σ) : Code σ ε → σ → Option (Code σ ε × σ)
  | exit _, _ => none
  | act f k, s => some (k, f s)
  | test b yes no, s => some (if b s then yes else no, s)
  | unlock k, s => some (k, free s)

/-- The section without interruption, and its exit. -/
def run (free : σ → σ) : Code σ ε → σ → σ × ε
  | exit e, s => (s, e)
  | act f k, s => k.run free (f s)
  | test b yes no, s => if b s then yes.run free s else no.run free s
  | unlock k, s => k.run free (free s)

/-- From `s` the section comes to an `unlock` and leaves right after it. -/
def Frees : Code σ ε → σ → Prop
  | exit _, _ => False
  | act f k, s => k.Frees (f s)
  | test b yes no, s => (b s = true → yes.Frees s) ∧ (b s = false → no.Frees s)
  | unlock k, _ => ∃ e, k = exit e

/-- Every path through the section does so, and its writes before are `P`. -/
def Releases (P : (σ → σ) → Prop) : Code σ ε → Prop
  | exit _ => False
  | act f k => P f ∧ k.Releases P
  | test _ yes no => yes.Releases P ∧ no.Releases P
  | unlock k => ∃ e, k = exit e

theorem Releases.frees {P : (σ → σ) → Prop} : ∀ {c : Code σ ε}, c.Releases P → ∀ s, c.Frees s
  | exit _, h, _ => h
  | act f _, h, s => h.2.frees (f s)
  | test _ _ _, h, s => ⟨fun _ => h.1.frees s, fun _ => h.2.frees s⟩
  | unlock _, h, _ => h

/-- A statement before the `unlock` writes what `P` allows, and the rest still
unlocks on every path. -/
theorem Releases.next {P : (σ → σ) → Prop} {free : σ → σ} {c c' : Code σ ε} {s s' : σ}
    (h : c.Releases P) (hc : c.next free s = some (c', s')) (hlock : ∀ k, c ≠ unlock k) :
    c'.Releases P ∧ (s' = s ∨ ∃ f, P f ∧ s' = f s) := by
  cases c with
  | exit e => cases hc
  | act f k =>
      cases hc
      exact ⟨h.2, Or.inr ⟨f, h.1, rfl⟩⟩
  | test b yes no =>
      cases hc
      refine ⟨?_, Or.inl rfl⟩
      split
      · exact h.1
      · exact h.2
  | unlock k => exact absurd rfl (hlock k)

end Code

end LinuxHacks.Lib
