import LinuxHacks.Uwrr.Classes

/-!
# Preemption between the classes

`Requested` says that the running task has `need_resched` set whenever a runnable
task is of a better class. A task that enters the runqueue, or changes its
policy while another runs, is compared with `TASK_PREEMPTS_CURR`, which knows the
classes (`preempts_of_better`). A running task that changes its own policy is
compared by its priorities only, and a UWRR task that becomes `SCHED_NORMAL`
keeps priority 120.
-/

namespace LinuxHacks.Uwrr

open LinuxHacks.Lib

/-- No better task waits for the running one without a request. -/
def Requested (s : State) : Prop :=
  (∃ p, Runnable s p ∧ classOf s.curr (s.task s.curr) < classOf p (s.task p)) →
    (s.task s.curr).needResched = true

theorem classOf_congr {p : TaskId} {t t' : Task} (h : t'.policy = t.policy) :
    classOf p t' = classOf p t := by
  rw [classOf, classOf, h]

/-- What a decision between classes reads of a task. -/
structure SameClass (t t' : Task) : Prop where
  policy : t'.policy = t.policy
  array : t'.array = t.array
  needResched : t'.needResched = t.needResched

theorem SameClass.modTask {s : State} {p : TaskId} {f : Task → Task}
    (h : SameClass (s.task p) (f (s.task p))) (q : TaskId) :
    SameClass (s.task q) ((s.modTask p f).task q) := by
  by_cases hq : q = p
  · rw [hq, State.modTask]
    simp only [Function.update_self]
    exact h
  · simp only [State.modTask, Function.update_of_ne hq]
    exact ⟨rfl, rfl, rfl⟩

theorem Requested.retask {s : State} (h : Requested s) {p : TaskId} {f : Task → Task}
    (hf : SameClass (s.task p) (f (s.task p))) : Requested (s.modTask p f) := by
  rintro ⟨q, hrun, hlt⟩
  show ((s.modTask p f).task s.curr).needResched = true
  rw [(hf.modTask s.curr).needResched]
  refine h ⟨q, ?_, ?_⟩
  · rw [Runnable, ← (hf.modTask q).array]
    exact hrun
  · rw [← classOf_congr (hf.modTask q).policy, ← classOf_congr (hf.modTask s.curr).policy]
    exact hlt

theorem reschedTask_kept (s : State) (c q : TaskId) :
    ((reschedTask s c).task q).policy = (s.task q).policy ∧
      ((reschedTask s c).task q).array = (s.task q).array := by
  by_cases hq : q = c
  · rw [hq, reschedTask, State.modTask]
    simp only [Function.update_self, and_self]
  · simp only [reschedTask, State.modTask, Function.update_of_ne hq, and_self]

/-! ## A task other than the running one -/

/-- Only `p` changed, and the running task was asked to reschedule if `asked`. -/
structure Entered (s : State) (p : TaskId) (asked : Bool) (s' : State) : Prop where
  curr : s'.curr = s.curr
  policy : ∀ q, q ≠ p → (s'.task q).policy = (s.task q).policy
  array : ∀ q, q ≠ p → (s'.task q).array = (s.task q).array
  flag : (s'.task s.curr).needResched = ((s.task s.curr).needResched || asked)

section Entering

variable {s m : State} {p : TaskId} {asked : Bool}

theorem Entered.refl (s : State) (p : TaskId) : Entered s p false s :=
  ⟨rfl, fun _ _ => rfl, fun _ _ => rfl, (Bool.or_false _).symm⟩

/-- Whatever happens to `p`. -/
theorem Entered.frame (h : Entered s p asked m) (hp : p ≠ s.curr) {m' : State}
    (hcurr : m'.curr = m.curr) (htask : ∀ q, q ≠ p → m'.task q = m.task q) :
    Entered s p asked m' where
  curr := hcurr.trans h.curr
  policy := by
    intro q hq
    rw [htask q hq]
    exact h.policy q hq
  array := by
    intro q hq
    rw [htask q hq]
    exact h.array q hq
  flag := by
    rw [htask s.curr (Ne.symm hp)]
    exact h.flag

theorem Entered.modTask (h : Entered s p asked m) (hp : p ≠ s.curr) (f : Task → Task) :
    Entered s p asked (m.modTask p f) :=
  h.frame hp rfl fun _ hq => Function.update_of_ne hq ..

theorem Entered.activate' (h : Entered s p asked m) (hp : p ≠ s.curr) :
    Entered s p asked (activateTask' m p) := by
  have hact := activateTask'_eq m p
  refine h.frame hp hact.curr fun q hq => ?_
  rw [hact.task, Function.update_of_ne hq]

theorem Entered.retask (h : Entered s p asked m) {c : TaskId} {f : Task → Task}
    (hf : SameClass (m.task c) (f (m.task c))) : Entered s p asked (m.modTask c f) where
  curr := h.curr
  policy := fun q hq => (hf.modTask q).policy.trans (h.policy q hq)
  array := fun q hq => (hf.modTask q).array.trans (h.array q hq)
  flag := (hf.modTask s.curr).needResched.trans h.flag

theorem Entered.resched (h : Entered s p false m) {c : TaskId} (hc : c = s.curr) :
    Entered s p true (reschedTask m c) where
  curr := h.curr
  policy := fun q hq => (reschedTask_kept m c q).1.trans (h.policy q hq)
  array := fun q hq => (reschedTask_kept m c q).2.trans (h.array q hq)
  flag := by
    rw [← hc, reschedTask, State.modTask]
    simp only [Function.update_self, Bool.or_true]

end Entering

/-! ## Wake-ups -/

theorem PolicySet.entered {s s' : State} {p : TaskId} {policy : Policy} {prio : Int}
    (h : PolicySet s p policy prio s') (hp : p ≠ s.curr) :
    Entered s p (decide ((s.task p).array ≠ none) &&
      preempts (setschedulerTask (s.task p) policy prio) (s.task s.curr)) s' := by
  obtain ⟨r, -, htask⟩ := h.task
  have hother : ∀ q, q ≠ p → s'.task q = { s.task q with needResched :=
      (s.task q).needResched || (decide (q = s.curr) && (decide ((s.task p).array ≠ none) &&
        preempts (setschedulerTask (s.task p) policy prio) (s.task s.curr))) } := by
    intro q hq
    rw [htask, flagged, Function.update_of_ne hq, if_neg (Ne.symm hp)]
  refine ⟨h.curr, fun q hq => ?_, fun q hq => ?_, ?_⟩
  · rw [hother q hq]
  · rw [hother q hq]
  · rw [hother _ (Ne.symm hp), decide_eq_true rfl, Bool.true_and]

def idleRests : State := State.init.after (.schedule 0 false false)

def firstForked : State := idleRests.after (.fork 1 0 0)

def firstWoken : State := firstForked.after (.wakeUpNew 1 true)

def firstRuns : State := firstWoken.after (.schedule 0 false false)

def firstUwrr : State := firstRuns.after (.setscheduler 1 (some .uwrr) 1 true true 0)

def secondForked : State := firstUwrr.after (.fork 2 0 0)

def twoUwrr : State := secondForked.after (.wakeUpNew 2 true)

theorem secondForked_reach : system.Reach Admitted secondForked := by
  have h₀ : system.Reach Admitted State.init := .init rfl
  have h₁ : system.Reach Admitted idleRests := reach_after h₀ (.schedule 0 false false) trivial trivial
  have h₂ : system.Reach Admitted firstForked :=
    reach_after h₁ (.fork 1 0 0) ⟨by decide +kernel, by decide +kernel⟩ trivial
  have h₃ : system.Reach Admitted firstWoken :=
    reach_after h₂ (.wakeUpNew 1 true)
      (show firstForked.forking firstForked.curr = some 1 by decide +kernel) ⟨by decide +kernel, by decide +kernel⟩
  have h₄ : system.Reach Admitted firstRuns := reach_after h₃ (.schedule 0 false false) trivial trivial
  have h₅ : system.Reach Admitted firstUwrr :=
    reach_after h₄ (.setscheduler 1 (some .uwrr) 1 true true 0) ⟨by decide +kernel, by decide +kernel⟩ trivial
  exact reach_after h₅ (.fork 2 0 0) ⟨by decide +kernel, by decide +kernel⟩ trivial

theorem twoUwrr_reach : system.Reach Admitted twoUwrr :=
  reach_after secondForked_reach (.wakeUpNew 2 true)
    (show secondForked.forking secondForked.curr = some 2 by decide +kernel) ⟨by decide +kernel, by decide +kernel⟩

end LinuxHacks.Uwrr
