import LinuxHacks.Uwrr.Core

/-!
# What `sched_setscheduler` does

`Accepts` collects the checks that `sched_setscheduler` makes before it takes the
lock, and `PolicySet` what the part under the lock does to the tasks. Both are
stated for every state: nothing of the runqueue invariant is used.
-/

namespace LinuxHacks.Uwrr

/-- The call passes every check. -/
structure Accepts (policy : Policy) (prio : Int) (capable sameUid : Bool) (hook : Int) : Prop where
  range : 0 ≤ prio ∧ prio ≤ MAX_RT_PRIO - 1
  valid : policy = .normal ↔ prio = 0
  realtime : policy = .fifo ∨ policy = .rr → capable = true
  owner : sameUid = true ∨ capable = true
  hook : hook = 0

/-- `TASK_PREEMPTS_CURR`, for two tasks. -/
def preempts (t curr : Task) : Bool :=
  if t.policy = .uwrr then decide (curr.policy = .normal)
  else if curr.policy = .uwrr then rtTask t
  else decide (t.prio < curr.prio)

theorem taskPreemptsCurr_eq (s : State) (p : TaskId) :
    taskPreemptsCurr s p = preempts (s.task p) (s.task s.curr) := rfl

/-- The flag of the running task after `resched_task(rq->curr)`, if `asked`. -/
def flagged (s : State) (asked : Bool) (task : TaskId → Task) (q : TaskId) : Task :=
  { task q with needResched := (task q).needResched || (decide (q = s.curr) && asked) }

/-- What the part of `sched_setscheduler` under the lock does to the tasks: `p`
has its new policy and priority, and is queued if it was. -/
structure PolicySet (s : State) (p : TaskId) (policy : Policy) (prio : Int) (s' : State) : Prop where
  curr : s'.curr = s.curr
  task : ∃ r, (r = none ↔ (s.task p).array = none) ∧
    s'.task = flagged s
      (decide ((s.task p).array ≠ none) &&
        if s.curr = p then
          decide ((s.task p).prio < (setschedulerTask (s.task p) policy prio).prio)
        else preempts (setschedulerTask (s.task p) policy prio) (s.task s.curr))
      (Function.update s.task p { setschedulerTask (s.task p) policy prio with array := r })

theorem flagged_false (s : State) (task : TaskId → Task) : flagged s false task = task := by
  funext q
  simp [flagged]

theorem reschedTask_task (s : State) (asked : Bool) :
    (if asked then reschedTask s s.curr else s).task = flagged s asked s.task := by
  funext q
  cases asked with
  | false => simp [flagged]
  | true =>
      by_cases hq : q = s.curr
      · rw [hq]
        simp [flagged, reschedTask, State.modTask]
      · simp [flagged, reschedTask, State.modTask, hq]

theorem reschedTask_curr (s : State) (asked : Bool) :
    (if asked then reschedTask s s.curr else s).curr = s.curr := by
  cases asked with
  | false => rfl
  | true => rfl

theorem flagged_congr {s s' : State} (h : s'.curr = s.curr) (asked : Bool) (task : TaskId → Task) :
    flagged s' asked task = flagged s asked task := by
  funext q
  rw [flagged, flagged, h]

theorem setschedulerTask_array (t : Task) (policy : Policy) (prio : Int) :
    (setschedulerTask t policy prio).array = t.array := by
  cases policy <;> rfl

theorem setschedulerTask_unqueued (t : Task) (policy : Policy) (prio : Int) :
    setschedulerTask { t with array := none } policy prio =
      { setschedulerTask t policy prio with array := none } := by
  cases policy <;> rfl

theorem setschedulerLocked_eq (s : State) (p : TaskId) (policy : Policy) (prio : Int) :
    ∃ s', setschedulerLocked s p policy prio = some s' ∧ PolicySet s p policy prio s' := by
  rw [setschedulerLocked]
  cases harray : (s.task p).array with
  | none =>
      rw [if_pos rfl, setscheduler', if_neg (fun e => e harray)]
      refine ⟨_, rfl, rfl, none, by rw [harray], ?_⟩
      have hsame : { setschedulerTask (s.task p) policy prio with array := none } =
          setschedulerTask (s.task p) policy prio := by
        rw [← harray, ← setschedulerTask_array (s.task p) policy prio]
      rw [harray, hsame]
      simp only [ne_eq, not_true_eq_false, decide_false, Bool.false_and, flagged_false]
      rfl
  | some r =>
      rw [if_neg (by simp)]
      obtain ⟨s₁, hs₁, hd⟩ := deactivateTask_eq harray
      have hnone : (s₁.task p).array = none := by rw [hd.task, Function.update_self]
      -- the new policy, off the runqueue
      obtain ⟨s₂, hs₂⟩ : ∃ s₂, s₂ = s₁.modTask p fun t => setschedulerTask t policy prio := ⟨_, rfl⟩
      have hset : setscheduler' s₁ p policy prio = some s₂ := by
        rw [setscheduler', if_neg (fun e => e hnone), hs₂]
      have htask₂ : s₂.task =
          Function.update s.task p { setschedulerTask (s.task p) policy prio with array := none } := by
        rw [hs₂, State.modTask]
        show Function.update s₁.task p _ = _
        rw [hd.task, Function.update_self, Function.update_idem, setschedulerTask_unqueued]
      have hcurr₂ : s₂.curr = s.curr := by
        rw [hs₂]
        exact hd.curr
      have ha := activateTask'_eq s₂ p
      set s₃ := activateTask' s₂ p with hs₃
      have htask₃ : s₃.task = Function.update s.task p
          { setschedulerTask (s.task p) policy prio with array := some (homeArray s₂ p) } := by
        rw [ha.task, htask₂, Function.update_self, Function.update_idem]
      have hcurr₃ : s₃.curr = s.curr := ha.curr.trans hcurr₂
      have hrun : ((deactivateTask s p).bind fun s₁ => (setscheduler' s₁ p policy prio).bind fun s₂ =>
          some (if (activateTask' s₂ p).curr = p then
              if (s.task p).prio < ((activateTask' s₂ p).task p).prio then
                reschedTask (activateTask' s₂ p) (activateTask' s₂ p).curr
              else activateTask' s₂ p
            else if taskPreemptsCurr (activateTask' s₂ p) p then
              reschedTask (activateTask' s₂ p) (activateTask' s₂ p).curr
            else activateTask' s₂ p)) =
          some (if decide (if s₃.curr = p then (s.task p).prio < (s₃.task p).prio
            else taskPreemptsCurr s₃ p = true) then reschedTask s₃ s₃.curr else s₃) := by
        rw [hs₁, Option.bind_some, hset, Option.bind_some, ← hs₃]
        by_cases hp : s₃.curr = p
        · simp [hp]
        · simp [hp]
      -- what is compared
      have hasked : decide (if s₃.curr = p then (s.task p).prio < (s₃.task p).prio
          else taskPreemptsCurr s₃ p = true) =
          if s.curr = p then
            decide ((s.task p).prio < (setschedulerTask (s.task p) policy prio).prio)
          else preempts (setschedulerTask (s.task p) policy prio) (s.task s.curr) := by
        have hnew : s₃.task p =
            { setschedulerTask (s.task p) policy prio with array := some (homeArray s₂ p) } := by
          rw [htask₃, Function.update_self]
        by_cases hp : s.curr = p
        · rw [hcurr₃, hnew]
          simp only [hp, if_true]
        · have hold : s₃.task s.curr = s.task s.curr := by
            rw [htask₃, Function.update_of_ne hp]
          rw [taskPreemptsCurr_eq, hcurr₃, hnew, hold]
          simp only [hp, if_false, Bool.decide_eq_true]
          rfl
      refine ⟨_, hrun, (reschedTask_curr s₃ _).trans hcurr₃, some (homeArray s₂ p),
        by rw [harray]; simp, ?_⟩
      rw [reschedTask_task, hasked, flagged_congr hcurr₃, htask₃, harray]
      rfl

/-- A call that passes the checks does the part under the lock. -/
theorem schedSetscheduler_locked {s : State} {p : TaskId} {policy : Option Policy} {prio : Int}
    {capable sameUid : Bool} {hook : Int}
    (h : Accepts (policy.getD (s.task p).policy) prio capable sameUid hook) :
    schedSetscheduler s p policy prio capable sameUid hook =
      (setschedulerLocked s p (policy.getD (s.task p).policy) prio).map fun m => (0, m) := by
  obtain ⟨hrange, hvalid, hrt, howner, hhook⟩ := h
  rw [schedSetscheduler]
  rw [if_neg, if_neg, if_neg, if_neg, if_neg (not_not.mpr hhook)]
  · cases setschedulerLocked s p (policy.getD (s.task p).policy) prio with
    | none => rfl
    | some m => rfl
  · rcases howner with howner | howner
    · simp [howner]
    · simp [howner]
  · by_cases hpol : policy.getD (s.task p).policy = .fifo ∨ policy.getD (s.task p).policy = .rr
    · simp [hrt hpol]
    · rw [not_or] at hpol
      simp [hpol.1, hpol.2]
  · by_cases hpol : policy.getD (s.task p).policy = .normal
    · simp [hpol, hvalid.mp hpol]
    · simp [hpol, mt hvalid.mpr hpol]
  · simp only [Bool.or_eq_true, decide_eq_true_eq, not_or, not_lt]
    exact hrange

theorem schedSetscheduler_accepts {s : State} {p : TaskId} {policy : Option Policy} {prio : Int}
    {capable sameUid : Bool} {hook : Int}
    (h : Accepts (policy.getD (s.task p).policy) prio capable sameUid hook) :
    ∃ s', schedSetscheduler s p policy prio capable sameUid hook = some (0, s') ∧
      PolicySet s p (policy.getD (s.task p).policy) prio s' := by
  obtain ⟨s', hs', hset⟩ := setschedulerLocked_eq s p (policy.getD (s.task p).policy) prio
  refine ⟨s', ?_, hset⟩
  rw [schedSetscheduler_locked h, hs']
  rfl

theorem schedSetscheduler_refuses {s : State} {p : TaskId} {policy : Option Policy} {prio : Int}
    {capable sameUid : Bool} {hook : Int}
    (h : ¬ Accepts (policy.getD (s.task p).policy) prio capable sameUid hook) :
    ∃ e, e ≠ 0 ∧ schedSetscheduler s p policy prio capable sameUid hook = some (e, s) := by
  rw [schedSetscheduler]
  split
  · exact ⟨_, by decide, rfl⟩
  · rename_i hrange
    split
    · exact ⟨_, by decide, rfl⟩
    · rename_i hvalid
      split
      · exact ⟨_, by decide, rfl⟩
      · rename_i hrt
        split
        · exact ⟨_, by decide, rfl⟩
        · rename_i howner
          split
          · rename_i hhook
            exact ⟨hook, hhook, rfl⟩
          · rename_i hhook
            -- no check is left
            refine absurd ⟨?_, ?_, ?_, ?_, not_not.mp hhook⟩ h
            · simpa only [Bool.or_eq_true, decide_eq_true_eq, not_or, not_lt] using hrange
            · simpa using hvalid
            · intro hpol
              by_contra hcap
              have hcap : capable = false := Bool.eq_false_of_not_eq_true hcap
              apply hrt
              rcases hpol with hpol | hpol
              · simp [hpol, hcap]
              · simp [hpol, hcap]
            · by_contra hno
              rw [not_or] at hno
              exact howner (by simp [hno.1, hno.2])

end LinuxHacks.Uwrr
