import LinuxHacks.Uwrr.Preempt

/-!
# The array of a new child

`wake_up_new_task` without `CLONE_VM` puts the child next to the current task, in
the array the current task is in, and counts it by the policy of the child. The
two agree when the policies do. Another task may change the policy of the parent
while the parent is between `copy_process` and `wake_up_new_task`.
-/

namespace LinuxHacks.Uwrr

open LinuxHacks.Lib

/-- What is true of a child that `wake_up_new_task` gets, and of the current task. -/
structure NewTask (s : State) (p : TaskId) : Prop where
  child : (s.task p).array = none ∧ (s.task p).state = .running
  parent : p ≠ s.curr
  queued : ∀ r, (s.task s.curr).array = some r →
    s.curr ∈ (s.arrays r).queue (s.task s.curr).prio
  linked : ∀ u, (s.task s.curr).array = some (.user u) → u ∈ s.uwrrUserlist

/-- The child is in the array its policy demands, and is counted so. -/
structure Placed (s : State) (p : TaskId) (s' : State) : Prop where
  uwrr : (s.task p).policy = .uwrr →
    (s'.task p).array = some (.user (s.task p).user) ∧ (s'.task p).prio = UWRR_TASK_PRIO ∧
    p ∈ (s'.arrays (.user (s.task p).user)).queue UWRR_TASK_PRIO ∧
    (s.task p).user ∈ s'.uwrrUserlist ∧ s'.uwrrRunning = s.uwrrRunning + 1
  other : (s.task p).policy ≠ .uwrr →
    (∃ i, (s'.task p).array = some (.rq i) ∧ p ∈ (s'.arrays (.rq i)).queue (s'.task p).prio) ∧
    s'.uwrrRunning = s.uwrrRunning

/-- The array whose queue the child joins beside the current task. -/
def besideArray (s : State) (cloneVm : Bool) : Option ArrayRef :=
  if cloneVm then none else (s.task s.curr).array

/-- Child and current task agree. -/
def Fits (s : State) (p : TaskId) (cloneVm : Bool) : Prop :=
  match besideArray s cloneVm with
  | none => (s.task p).policy = .uwrr → (s.task p).prio = UWRR_TASK_PRIO
  | some r =>
      ((s.task p).policy = .uwrr →
        r = .user (s.task p).user ∧ (s.task s.curr).prio = UWRR_TASK_PRIO) ∧
      ((s.task p).policy ≠ .uwrr → ∃ i, r = .rq i)

/-! ## Where the child goes -/

/-- The child is in queue `k` of the array `r`. -/
structure Joined (s : State) (p : TaskId) (r : ArrayRef) (k : Int) (s' : State) : Prop where
  array : (s'.task p).array = some r
  prio : (s'.task p).prio = k
  queued : p ∈ (s'.arrays r).queue k
  linked : ∀ u, r = .user u → u ∈ s'.uwrrUserlist
  count : s'.uwrrRunning = s.uwrrRunning + if (s.task p).policy = .uwrr then 1 else 0

theorem Joined.placed {s s' : State} {p : TaskId} {r : ArrayRef} {k : Int}
    (h : Joined s p r k s') :
    Placed s p s' ↔
      ((s.task p).policy = .uwrr → r = .user (s.task p).user ∧ k = UWRR_TASK_PRIO) ∧
      ((s.task p).policy ≠ .uwrr → ∃ i, r = .rq i) := by
  constructor
  · intro hp
    refine ⟨fun hpol => ?_, fun hpol => ?_⟩
    · obtain ⟨harray, hprio, -⟩ := hp.uwrr hpol
      rw [h.array] at harray
      rw [h.prio] at hprio
      exact ⟨Option.some.inj harray, hprio⟩
    · obtain ⟨⟨i, harray, -⟩, -⟩ := hp.other hpol
      rw [h.array] at harray
      exact ⟨i, Option.some.inj harray⟩
  · rintro ⟨huwrr, hother⟩
    refine ⟨fun hpol => ?_, fun hpol => ?_⟩
    · obtain ⟨rfl, rfl⟩ := huwrr hpol
      refine ⟨h.array, h.prio, h.queued, h.linked _ rfl, ?_⟩
      rw [h.count, if_pos hpol]
    · obtain ⟨i, rfl⟩ := hother hpol
      refine ⟨⟨i, h.array, ?_⟩, ?_⟩
      · rw [h.prio]
        exact h.queued
      · rw [h.count, if_neg hpol, add_zero]

/-- Another task changes. -/
theorem Joined.modTask {s s' : State} {p : TaskId} {r : ArrayRef} {k : Int}
    (h : Joined s p r k s') {c : TaskId} (hc : p ≠ c) (f : Task → Task) :
    Joined s p r k (s'.modTask c f) := by
  have htask : (s'.modTask c f).task p = s'.task p := Function.update_of_ne hc ..
  refine ⟨?_, ?_, h.queued, h.linked, h.count⟩
  · rw [htask]
    exact h.array
  · rw [htask]
    exact h.prio

section Places

variable {s m : State} {p : TaskId}

/-- `__activate_task`. `m` is the state in which it is called. -/
theorem Joined.activate' (hpol : (m.task p).policy = (s.task p).policy)
    (hcount : m.uwrrRunning = s.uwrrRunning) :
    Joined s p (homeArray m p) (m.task p).prio (activateTask' m p) := by
  have hact := activateTask'_eq m p
  refine ⟨?_, ?_, ?_, fun u hu => ?_, ?_⟩
  · rw [hact.task, Function.update_self]
  · rw [hact.task, Function.update_self]
  · have hqueue : ((enqueueTask m p (homeArray m p)).arrays (homeArray m p)).queue (m.task p).prio =
        (m.arrays (homeArray m p)).queue (m.task p).prio ++ [p] := by
      simp [enqueueTask, State.modArray, State.modTask]
    rw [hact.arrays, hqueue]
    exact List.mem_append_right _ (List.mem_singleton_self p)
  · have huwrr : (m.task p).policy = .uwrr ∧ u = (m.task p).user := by
      rcases homeArray_home m p with ⟨hpol', hr⟩ | ⟨-, i, hr⟩
      · rw [hr] at hu
        exact ⟨hpol', (ArrayRef.user.inj hu).symm⟩
      · rw [hr] at hu
        cases hu
    obtain ⟨hpol', rfl⟩ := huwrr
    rw [hact.userlist]
    split
    · exact List.mem_append_right _ (List.mem_singleton_self _)
    · rename_i hin
      by_contra hnot
      exact hin ⟨hpol', hnot⟩
  · rw [hact.uwrrRunning, hpol, hcount]

/-- The fast path. -/
theorem Joined.beside (hpol : (m.task p).policy = (s.task p).policy)
    (hcount : m.uwrrRunning = s.uwrrRunning) {r : ArrayRef}
    (hqueued : m.curr ∈ (m.arrays r).queue (m.task m.curr).prio)
    (hlinked : ∀ u, r = .user u → u ∈ m.uwrrUserlist) :
    Joined s p r (m.task m.curr).prio (enterBeside m p r) := by
  have htask : (enterBeside m p r).task p =
      { m.task p with prio := (m.task m.curr).prio, array := some r } := Function.update_self ..
  refine ⟨?_, ?_, ?_, hlinked, ?_⟩
  · rw [htask]
  · rw [htask]
  · show p ∈ (Function.update m.arrays r _ r).queue (m.task m.curr).prio
    rw [Function.update_self]
    exact mem_insertBefore.mpr (Or.inr ⟨rfl, hqueued⟩)
  · have hsame : ((m.modTask p fun t =>
        { t with prio := (m.task m.curr).prio, array := some r }).task p).policy =
        (s.task p).policy := by
      rw [State.modTask]
      simp only [Function.update_self]
      exact hpol
    show (if ((m.modTask p fun t => { t with prio := (m.task m.curr).prio, array := some r }).task
      p).policy = .uwrr then m.uwrrRunning + 1 else m.uwrrRunning) = _
    rw [hsame, hcount]
    split
    · rfl
    · rw [add_zero]

end Places

/-- The array and the queue that `wake_up_new_task` chooses. -/
def childPlace (s : State) (p : TaskId) (cloneVm : Bool) : ArrayRef × Int :=
  match besideArray s cloneVm with
  | none => (homeArray s p, (newTaskPrio (s.task p)).prio)
  | some r => (r, (s.task s.curr).prio)

theorem placeNewTask_curr (s : State) (p : TaskId) (cloneVm : Bool) :
    (placeNewTask s p cloneVm).curr = s.curr := by
  rw [placeNewTask]
  split
  · exact (activateTask'_eq s p).curr
  · split
    · exact (activateTask'_eq s p).curr
    · rfl

theorem wakeUpNewTask_joined {s : State} {p : TaskId} (h : NewTask s p) (cloneVm : Bool) :
    ∃ s', wakeUpNewTask s p cloneVm = some s' ∧
      Joined s p (childPlace s p cloneVm).1 (childPlace s p cloneVm).2 s' := by
  set m := State.modTask { s with forking := Function.update s.forking s.curr none } p newTaskPrio
    with hm
  have hmp : m.task p = newTaskPrio (s.task p) := Function.update_self ..
  have hmc : m.task s.curr = s.task s.curr := Function.update_of_ne (Ne.symm h.parent) ..
  have hpol : (m.task p).policy = (s.task p).policy := by
    rw [hmp]
    exact newTaskPrio_policy _
  have hhome : homeArray m p = homeArray s p := by
    rw [homeArray, homeArray, hpol, hmp, newTaskPrio_user]
    rfl
  have hact : Joined s p (homeArray s p) (newTaskPrio (s.task p)).prio (activateTask' m p) := by
    have hjoined := Joined.activate' (s := s) (m := m) (p := p) hpol rfl
    rw [hhome, hmp] at hjoined
    exact hjoined
  rw [wakeUpNewTask, if_neg (fun e => e h.child.2)]
  refine ⟨_, rfl, ?_⟩
  rw [← hm]
  have hplace : Joined s p (childPlace s p cloneVm).1 (childPlace s p cloneVm).2
      (placeNewTask m p cloneVm) := by
    rw [childPlace, besideArray, placeNewTask]
    cases cloneVm with
    | true => exact hact
    | false =>
        rw [if_neg (by simp), if_neg (by simp)]
        show Joined s p (match (s.task s.curr).array with
          | none => (homeArray s p, (newTaskPrio (s.task p)).prio)
          | some r => (r, (s.task s.curr).prio)).1 _ (match (m.task s.curr).array with
          | none => reschedTask (activateTask' m p) m.curr
          | some r => reschedTask (enterBeside m p r) m.curr)
        rw [hmc]
        cases harray : (s.task s.curr).array with
        | none => exact hact.modTask h.parent _
        | some r =>
            have hbeside := Joined.beside (s := s) (m := m) (p := p) hpol rfl (r := r)
              (by
                show s.curr ∈ (s.arrays r).queue (m.task s.curr).prio
                rw [hmc]
                exact h.queued r harray)
              (fun u hu => h.linked u (by rw [harray, hu]))
            have hprio : (m.task m.curr).prio = (s.task s.curr).prio := by
              show (m.task s.curr).prio = _
              rw [hmc]
            rw [hprio] at hbeside
            exact hbeside.modTask h.parent _
  refine hplace.modTask ?_ _
  rw [placeNewTask_curr]
  exact h.parent

/-- The place is the right one when the two tasks agree. -/
theorem childPlace_fits (s : State) (p : TaskId) (cloneVm : Bool) :
    (((s.task p).policy = .uwrr → (childPlace s p cloneVm).1 = .user (s.task p).user ∧
        (childPlace s p cloneVm).2 = UWRR_TASK_PRIO) ∧
      ((s.task p).policy ≠ .uwrr → ∃ i, (childPlace s p cloneVm).1 = .rq i)) ↔
    Fits s p cloneVm := by
  rw [childPlace, Fits]
  cases besideArray s cloneVm with
  | some r => exact Iff.rfl
  | none =>
      show ((_ → homeArray s p = _ ∧ (newTaskPrio (s.task p)).prio = _) ∧ (_ → ∃ i, homeArray s p = _)) ↔ _
      have hprio : (s.task p).policy = .uwrr → (newTaskPrio (s.task p)).prio = (s.task p).prio := by
        intro hpol
        have hsame := penalizeSleepAvg_same (s.task p) 95
        exact (effectivePrio_uwrr (hsame.policy.trans hpol)).trans hsame.prio
      rcases homeArray_home s p with ⟨hpol, hr⟩ | ⟨hpol, i, hr⟩
      · rw [hr, hprio hpol]
        refine ⟨fun e hu => (e.1 hu).2, fun e => ⟨fun hu => ⟨rfl, e hu⟩, fun hno => absurd hpol hno⟩⟩
      · rw [hr]
        exact ⟨fun _ hu => absurd hu hpol, fun _ => ⟨fun hu => absurd hu hpol, fun _ => ⟨i, rfl⟩⟩⟩

/-- A UWRR child does not fit beside a task in an array of the runqueue. -/
theorem not_fits {s : State} {p : TaskId} {i : Bool} (hpol : (s.task p).policy = .uwrr)
    (harray : (s.task s.curr).array = some (.rq i)) : ¬ Fits s p false := by
  rw [Fits, besideArray, if_neg (by simp), harray]
  rintro ⟨huwrr, -⟩
  cases (huwrr hpol).1

theorem misplaced_of_rq {s : State} {p : TaskId} (h : NewTask s p) {i : Bool}
    (hpol : (s.task p).policy = .uwrr) (harray : (s.task s.curr).array = some (.rq i)) :
    ∃ s', wakeUpNewTask s p false = some s' ∧ ¬ Placed s p s' := by
  obtain ⟨s', hs', hjoined⟩ := wakeUpNewTask_joined h false
  refine ⟨s', hs', fun hplaced => ?_⟩
  exact not_fits hpol harray ((childPlace_fits s p false).mp (hjoined.placed.mp hplaced))

/-! ## States of a run -/

theorem Inv.newTask {s : State} (h : Inv s) {p : TaskId} (hp : s.forking s.curr = some p) :
    NewTask s p where
  child := h.core.tasks.reserved p (Or.inr ⟨s.curr, hp⟩)
  parent := by
    rintro rfl
    rcases h.busy with hidle | hqueued
    · exact h.core.tasks.notIdle s.curr (by rw [hp, hidle])
    · exact hqueued (h.core.tasks.reserved s.curr (Or.inr ⟨s.curr, hp⟩)).1
  queued := by
    intro r hr
    exact (h.core.holds.mem r _ s.curr).mpr (Core.loc_curr hr)
  linked := by
    intro u hu
    exact (h.core.linked.mem u).mpr ⟨s.curr, _, Core.loc_curr hu⟩

/-- In a run the two agree when both are UWRR tasks or both are not. -/
theorem Inv.fits_iff {s : State} (h : Inv s) {p : TaskId} (hp : s.forking s.curr = some p)
    (cloneVm : Bool) :
    Fits s p cloneVm ↔ cloneVm = true ∨ (s.task s.curr).array = none ∨
      ((s.task p).policy = .uwrr ↔ (s.task s.curr).policy = .uwrr) := by
  have hok := h.core.tasks.ok p
  have hcok := h.core.tasks.ok s.curr
  have huser := h.core.tasks.user s.curr p hp
  rw [Fits, besideArray]
  cases cloneVm with
  | true =>
      rw [if_pos rfl]
      exact iff_of_true (fun hpol => (hok.uwrr hpol).1) (Or.inl rfl)
  | false =>
      rw [if_neg (by simp)]
      cases harray : (s.task s.curr).array with
      | none => exact iff_of_true (fun hpol => (hok.uwrr hpol).1) (Or.inr (Or.inl rfl))
      | some r =>
          show ((_ → r = _ ∧ _) ∧ (_ → ∃ i, r = _)) ↔ _
          simp only [Bool.false_eq_true, reduceCtorEq, false_or]
          rcases hcok.home r harray with ⟨hcpol, rfl⟩ | ⟨hcpol, i, rfl⟩
          · -- the current task is UWRR
            rw [huser]
            constructor
            · rintro ⟨-, hother⟩
              refine iff_of_true ?_ hcpol
              by_contra hpol
              obtain ⟨i, hi⟩ := hother hpol
              cases hi
            · intro hiff
              exact ⟨fun _ => ⟨rfl, (hcok.uwrr hcpol).1⟩, fun hno => absurd (hiff.mpr hcpol) hno⟩
          · constructor
            · rintro ⟨huwrr, -⟩
              refine iff_of_false (fun hpol => ?_) hcpol
              cases (huwrr hpol).1
            · intro hiff
              exact ⟨fun hpol => absurd (hiff.mp hpol) hcpol, fun _ => ⟨i, rfl⟩⟩

/-- **When a new child is where its policy demands.** `wake_up_new_task` puts the
child in the right array and queue, and counts it right, exactly when the place
it takes beside the current task fits its own policy (`Fits`). In a run this
means that it does not take the fast path, or that child and current task are
both UWRR or both not. -/
theorem child_placed (s : State) (p : TaskId) (h : NewTask s p) (cloneVm : Bool) :
    ∃ s', wakeUpNewTask s p cloneVm = some s' ∧
      (Placed s p s' ↔ Fits s p cloneVm) ∧
      (Inv s → s.forking s.curr = some p →
        (Placed s p s' ↔ cloneVm = true ∨ (s.task s.curr).array = none ∨
          ((s.task p).policy = .uwrr ↔ (s.task s.curr).policy = .uwrr))) := by
  obtain ⟨s', hs', hjoined⟩ := wakeUpNewTask_joined h cloneVm
  have hiff : Placed s p s' ↔ Fits s p cloneVm := hjoined.placed.trans (childPlace_fits s p cloneVm)
  exact ⟨s', hs', hiff, fun hinv hp => hiff.trans (hinv.fits_iff hp cloneVm)⟩

/-- A UWRR task forks. -/
theorem secondForked_placed :
    ∃ s', wakeUpNewTask secondForked 2 false = some s' ∧ Placed secondForked 2 s' := by
  have hinv := inv_reach (secondForked_reach.mono fun _ _ => Admitted.prioSafe)
  have hforking : secondForked.forking secondForked.curr = some 2 := by decide
  obtain ⟨s', hs', -, hiff⟩ := child_placed secondForked 2 (hinv.newTask hforking) false
  exact ⟨s', hs', (hiff hinv hforking).mpr (Or.inr (Or.inr (by decide)))⟩

/-! Task 1 moves behind task 2 and forks task 3. Task 2 runs and gives task 1 a
real-time policy, so that task 1 runs again, still in `fork`. -/

def requeued : State := twoUwrr.after (.setscheduler 1 (some .uwrr) 1 false true 0)

def childForked : State := requeued.after (.fork 3 0 0)

def secondRuns : State := childForked.after (.schedule 0 false false)

def parentRealtime : State := secondRuns.after (.setscheduler 1 (some .fifo) 99 true true 0)

def parentRuns : State := parentRealtime.after (.schedule 0 false false)

theorem parentRuns_reach : system.Reach Admitted parentRuns := by
  have h₁ : system.Reach Admitted requeued :=
    reach_after twoUwrr_reach (.setscheduler 1 (some .uwrr) 1 false true 0)
      ⟨by decide +kernel, by decide⟩ trivial
  have h₂ : system.Reach Admitted childForked :=
    reach_after h₁ (.fork 3 0 0) ⟨by decide +kernel, by decide +kernel⟩ trivial
  have h₃ : system.Reach Admitted secondRuns := reach_after h₂ (.schedule 0 false false) trivial trivial
  have h₄ : system.Reach Admitted parentRealtime :=
    reach_after h₃ (.setscheduler 1 (some .fifo) 99 true true 0) ⟨by decide +kernel, by decide⟩ trivial
  exact reach_after h₄ (.schedule 0 false false) trivial trivial

/-- The child of a UWRR task enters the queue of a real-time task. -/
theorem child_misplaced :
    system.Reach Admitted parentRuns ∧ secondRuns.curr = 2 ∧
    parentRuns.forking parentRuns.curr = some 3 ∧ (parentRuns.task 3).policy = .uwrr ∧
    (parentRuns.task parentRuns.curr).array = some (.rq false) ∧
    ∃ s', wakeUpNewTask parentRuns 3 false = some s' ∧ ¬ Placed parentRuns 3 s' := by
  have hinv := inv_reach (parentRuns_reach.mono fun _ _ => Admitted.prioSafe)
  have hforking : parentRuns.forking parentRuns.curr = some 3 := by decide +kernel
  have hpol : (parentRuns.task 3).policy = .uwrr := by decide +kernel
  have harray : (parentRuns.task parentRuns.curr).array = some (.rq false) := by decide +kernel
  refine ⟨parentRuns_reach, by decide +kernel, hforking, hpol, harray, ?_⟩
  exact misplaced_of_rq (hinv.newTask hforking) hpol harray

end LinuxHacks.Uwrr
