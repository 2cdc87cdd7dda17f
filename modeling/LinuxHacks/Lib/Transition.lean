import Mathlib.Logic.Relation

/-!
# Labelled transition systems

States, labelled atomic steps, and the states a run reaches. A property of
*every* run is proved by an inductive invariant; the rules below are the ones
the developments use:

* `System.Reach.invariant`: an invariant kept by every admitted step holds in
  every reached state;
* `System.invariant_run`: the same for the states after a given one;
* `System.Reach.mono`, `System.run_mono`: fewer steps admitted, fewer states reached;
* `System.Reach.foldlM`: a list of steps of a system given by a step function;
* `System.Reach.simulated`: a system whose steps are matched by runs of another
  one reaches only states related to the reached states of the other;
* `System.Path`: a run with the list of its steps, for properties of the steps
  themselves or of their number.

`ok s a` restricts the runs: a step labelled `a` may be taken from `s` only
when `ok s a`. It is how an assumption about the environment ("nobody calls
this on such a task") enters a theorem without changing the system.
-/

namespace LinuxHacks.Lib

universe u v

/-- A labelled transition system. -/
structure System (σ : Type u) (α : Type v) where
  init : σ → Prop
  step : σ → α → σ → Prop

namespace System

variable {σ : Type u} {α : Type v} {S : System σ α}

/-- The states reached by runs all of whose steps satisfy `ok`. -/
inductive Reach (S : System σ α) (ok : σ → α → Prop) : σ → Prop
  | init {s : σ} : S.init s → Reach S ok s
  | step {s s' : σ} (a : α) : Reach S ok s → ok s a → S.step s a s' → Reach S ok s'

/-- No restriction on the steps of a run. -/
def anyStep : σ → α → Prop := fun _ _ => True

/-- **Invariant rule.** What holds initially and is kept by every admitted
step holds in every reached state. -/
theorem Reach.invariant {ok : σ → α → Prop} {I : σ → Prop}
    (hinit : ∀ s, S.init s → I s)
    (hstep : ∀ s a s', I s → ok s a → S.step s a s' → I s')
    {s : σ} (h : S.Reach ok s) : I s := by
  induction h with
  | init hi => exact hinit _ hi
  | step a _ hok hst ih => exact hstep _ a _ ih hok hst

theorem Reach.mono {ok ok' : σ → α → Prop}
    (himp : ∀ s a, ok s a → ok' s a) {s : σ} (h : S.Reach ok s) :
    S.Reach ok' s := by
  induction h with
  | init hi => exact .init hi
  | step a _ hok hst ih => exact .step a ih (himp _ _ hok) hst

/-! ## Simulation -/

/-- One admitted step, whatever its label. -/
def Admitted (S : System σ α) (ok : σ → α → Prop) (s s' : σ) : Prop :=
  ∃ a, ok s a ∧ S.step s a s'

theorem Reach.run {ok : σ → α → Prop} {s s' : σ} (h : S.Reach ok s)
    (hrun : Relation.ReflTransGen (S.Admitted ok) s s') : S.Reach ok s' := by
  induction hrun with
  | refl => exact h
  | tail _ hst ih =>
      obtain ⟨a, hok, hstep⟩ := hst
      exact .step a ih hok hstep

/-- A run whose steps are admitted is one under a weaker restriction. -/
theorem run_mono {ok ok' : σ → α → Prop} (himp : ∀ s a, ok s a → ok' s a) {s s' : σ}
    (hrun : Relation.ReflTransGen (S.Admitted ok) s s') :
    Relation.ReflTransGen (S.Admitted ok') s s' := by
  induction hrun with
  | refl => exact .refl
  | tail _ hst ih =>
      obtain ⟨a, hok, hstep⟩ := hst
      exact ih.tail ⟨a, himp _ _ hok, hstep⟩

theorem invariant_run {ok : σ → α → Prop} {I : σ → Prop}
    (hstep : ∀ s a s', I s → ok s a → S.step s a s' → I s') {s s' : σ}
    (hrun : Relation.ReflTransGen (S.Admitted ok) s s') (h : I s) : I s' := by
  induction hrun with
  | refl => exact h
  | tail _ hst ih =>
      obtain ⟨a, hok, hstep'⟩ := hst
      exact hstep _ a _ ih hok hstep'

/-- The steps of a list, one after the other. -/
theorem Reach.foldlM {step : σ → α → Option σ}
    (hstep : ∀ s a s', step s a = some s' → S.step s a s') {ok : σ → α → Prop} {as : List α}
    (hok : ∀ a ∈ as, ∀ s, ok s a) {s s' : σ} (h : S.Reach ok s)
    (hrun : as.foldlM step s = some s') : S.Reach ok s' := by
  induction as generalizing s with
  | nil =>
      cases hrun
      exact h
  | cons a as ih =>
      rw [List.foldlM_cons] at hrun
      obtain ⟨s₁, hs₁, hrest⟩ := Option.bind_eq_some_iff.mp hrun
      exact ih (fun b hb => hok b (List.mem_cons_of_mem _ hb))
        (.step a h (hok a List.mem_cons_self s) (hstep _ _ _ hs₁)) hrest

variable {τ : Type u} {β : Type v} {T : System τ β}

/-- **Simulation rule.** Every reached state of `S` is related to a reached state
of `T` when the initial ones are and every admitted step is matched by a run. -/
theorem Reach.simulated {ok : σ → α → Prop} {ok' : τ → β → Prop} {R : σ → τ → Prop}
    (hinit : ∀ s, S.init s → ∃ t, T.init t ∧ R s t)
    (hstep : ∀ s a s' t, R s t → ok s a → S.step s a s' →
      ∃ t', Relation.ReflTransGen (T.Admitted ok') t t' ∧ R s' t')
    {s : σ} (h : S.Reach ok s) : ∃ t, T.Reach ok' t ∧ R s t := by
  induction h with
  | init hi =>
      obtain ⟨t, ht, hR⟩ := hinit _ hi
      exact ⟨t, .init ht, hR⟩
  | step a _ hok hst ih =>
      obtain ⟨t, ht, hR⟩ := ih
      obtain ⟨t', hrun, hR'⟩ := hstep _ a _ t hR hok hst
      exact ⟨t', ht.run hrun, hR'⟩

/-! ## Runs with their steps -/

/-- A run from one state to another, oldest step first: each entry has the state
before the step, its label and the state after it. -/
inductive Path (S : System σ α) (s : σ) : List (σ × α × σ) → σ → Prop
  | nil : Path S s [] s
  | snoc {s' s'' : σ} {l : List (σ × α × σ)} {a : α} :
      Path S s l s' → S.step s' a s'' → Path S s (l ++ [(s', a, s'')]) s''

theorem Path.append {s s' s'' : σ} {l l' : List (σ × α × σ)} (h : S.Path s l s')
    (h' : S.Path s' l' s'') : S.Path s (l ++ l') s'' := by
  induction h' with
  | nil =>
      rw [List.append_nil]
      exact h
  | snoc _ hst ih =>
      rw [← List.append_assoc]
      exact .snoc ih hst

theorem Path.run {s s' : σ} {l : List (σ × α × σ)} (h : S.Path s l s') :
    Relation.ReflTransGen (S.Admitted anyStep) s s' := by
  induction h with
  | nil => exact .refl
  | snoc _ hst ih => exact ih.tail ⟨_, trivial, hst⟩

theorem Path.reach {s s' : σ} {l : List (σ × α × σ)} (h : S.Path s l s')
    (hs : S.Reach anyStep s) : S.Reach anyStep s' := hs.run h.run

theorem Path.invariant {I : σ → Prop} (hstep : ∀ s a s', I s → S.step s a s' → I s')
    {s s' : σ} {l : List (σ × α × σ)} (h : S.Path s l s') (hI : I s) : I s' :=
  invariant_run (fun s a s' hI _ hst => hstep s a s' hI hst) h.run hI

/-- **Ranking rule.** When every step under the invariant lowers the measure, a
run has no more steps than the measure of its first state. -/
theorem Path.length_le {I : σ → Prop} {measure : σ → Nat}
    (hstep : ∀ s a s', I s → S.step s a s' → I s' ∧ measure s' < measure s)
    {s s' : σ} {l : List (σ × α × σ)} (h : S.Path s l s') (hI : I s) :
    l.length + measure s' ≤ measure s := by
  induction h with
  | nil => simp
  | snoc p hst ih =>
      have hI' := p.invariant (fun s a s' h hs => (hstep s a s' h hs).1) hI
      have hlt := (hstep _ _ _ hI' hst).2
      rw [List.length_append, List.length_singleton]
      omega

end System

end LinuxHacks.Lib
