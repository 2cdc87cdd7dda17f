import LinuxHacks.Uwrr.Policy
import LinuxHacks.Uwrr.Invariant

/-!
# Scheduling classes

Real-time before UWRR before `SCHED_NORMAL` before idle. `ClassTask` says where
the priorities of a class lie, and `ClassOk` is what a decision between classes
relies on. Every state of a run that forks with the parent's policy and leaves
the nice value of UWRR tasks alone is `ClassOk`:

* `AllClass.runOp`: each call keeps `ClassTask` of every task,
* `classOk_reach`: so every such run does.
-/

namespace LinuxHacks.Uwrr

open LinuxHacks.Lib

/-- The class of task `p` with the fields `t`. -/
def classOf (p : TaskId) (t : Task) : Nat :=
  if p = idle then 0
  else
    match t.policy with
    | .normal => 1
    | .uwrr => 2
    | .fifo => 3
    | .rr => 3

structure ClassTask (p : TaskId) (t : Task) : Prop where
  realtime : t.policy = .fifo ∨ t.policy = .rr → t.prio < MAX_RT_PRIO
  normal : t.policy = .normal → MAX_RT_PRIO ≤ t.prio
  idle : p = Uwrr.idle → t.policy = .normal ∧ t.prio = MAX_PRIO

theorem ClassTask.of_eq {p : TaskId} {t t' : Task} (h : ClassTask p t) (hpol : t'.policy = t.policy)
    (hprio : t'.prio = t.prio) : ClassTask p t' where
  realtime := by
    rw [hpol, hprio]
    exact h.realtime
  normal := by
    rw [hpol, hprio]
    exact h.normal
  idle := by
    rw [hpol, hprio]
    exact h.idle

/-- `effective_prio` stays in the class. -/
theorem ClassTask.withEffectivePrio {p : TaskId} {t : Task} (h : ClassTask p t)
    (hp : p ≠ Uwrr.idle) : ClassTask p { t with prio := effectivePrio t } where
  realtime := by
    intro hpol
    have hlt := h.realtime hpol
    have heff : effectivePrio t = t.prio := by simp [effectivePrio, rtTask, hlt]
    show effectivePrio t < MAX_RT_PRIO
    rw [heff]
    exact hlt
  normal := by
    intro hpol
    have hnormal : t.policy = .normal := hpol
    have hle := h.normal hnormal
    show MAX_RT_PRIO ≤ effectivePrio t
    have hrt : rtTask t = false := by simpa [rtTask] using hle
    rw [effectivePrio, if_neg (by simp [hrt, hnormal])]
    simp only [ MAX_RT_PRIO, MAX_PRIO]
    omega
  idle := fun e => absurd e hp

theorem ClassTask.recalc {p : TaskId} {t : Task} (h : ClassTask p t) (hp : p ≠ Uwrr.idle)
    (now : Nat) : ClassTask p (recalcTaskPrio t now) := by
  have h' : ClassTask p { t with sleepAvg := recalcSleepAvg t now } := h.of_eq rfl rfl
  exact h'.withEffectivePrio hp

theorem ClassTask.setscheduler {p : TaskId} {t : Task} (hp : p ≠ Uwrr.idle)
    (hstatic : MAX_RT_PRIO ≤ t.staticPrio) (policy : Policy) {prio : Int} (hprio : 0 ≤ prio) :
    ClassTask p (setschedulerTask t policy prio) := by
  have hrt : MAX_RT_PRIO - 1 - prio < MAX_RT_PRIO := by omega
  cases policy with
  | uwrr =>
      exact ⟨fun e => e.elim (fun e => (by cases e)) (fun e => (by cases e)),
        fun e => (by cases e), fun e => absurd e hp⟩
  | normal =>
      exact ⟨fun e => e.elim (fun e => (by cases e)) (fun e => (by cases e)),
        fun _ => hstatic, fun e => absurd e hp⟩
  | fifo => exact ⟨fun _ => hrt, fun e => (by cases e), fun e => absurd e hp⟩
  | rr => exact ⟨fun _ => hrt, fun e => (by cases e), fun e => absurd e hp⟩

theorem ClassTask.nice {p : TaskId} {t : Task} (hp : p ≠ Uwrr.idle) (hrt : rtTask t = false)
    (h : ClassTask p t) {nice : Int} (hnice : -20 ≤ nice) : ClassTask p (niceTask t nice) where
  realtime := by
    intro hpol
    have hlt := h.realtime hpol
    rw [rtTask, decide_eq_false_iff_not] at hrt
    exact absurd hlt hrt
  normal := by
    intro _
    show MAX_RT_PRIO ≤ t.prio + (niceToPrio nice - t.prio)
    rw [niceToPrio]
    omega
  idle := fun e => absurd e hp

/-! ## All tasks -/

def AllClass (s : State) : Prop := ∀ p, ClassTask p (s.task p)

section AllTasks

variable {s : State}

theorem AllClass.modTask (h : AllClass s) (p : TaskId) {f : Task → Task}
    (hf : ClassTask p (f (s.task p))) : AllClass (s.modTask p f) := by
  intro q
  by_cases hq : q = p
  · rw [hq, State.modTask]
    simp only [Function.update_self]
    exact hf
  · simp only [State.modTask, Function.update_of_ne hq]
    exact h q

/-- Other fields of a task change. -/
theorem AllClass.retask (h : AllClass s) (p : TaskId) {f : Task → Task}
    (hpol : (f (s.task p)).policy = (s.task p).policy)
    (hprio : (f (s.task p)).prio = (s.task p).prio) : AllClass (s.modTask p f) :=
  h.modTask p ((h p).of_eq hpol hprio)

theorem AllClass.of_task {s' : State} (h : AllClass s) (htask : s'.task = s.task) : AllClass s' := by
  intro q
  rw [htask]
  exact h q

theorem AllClass.resched (h : AllClass s) (p : TaskId) : AllClass (reschedTask s p) :=
  h.retask p rfl rfl

theorem AllClass.enqueue (h : AllClass s) (p : TaskId) (r : ArrayRef) :
    AllClass (enqueueTask s p r) := by
  have hput : AllClass (s.modTask p fun t => { t with array := some r }) := h.retask p rfl rfl
  exact hput.of_task rfl

theorem AllClass.activate' (h : AllClass s) (p : TaskId) : AllClass (activateTask' s p) := by
  have hput : AllClass (s.modTask p fun t => { t with array := some (homeArray s p) }) :=
    h.retask p rfl rfl
  exact hput.of_task (activateTask'_eq s p).task

theorem AllClass.activate (h : AllClass s) {p : TaskId} (hp : p ≠ Uwrr.idle) (now : Nat)
    (inInterrupt : Bool) : AllClass (activateTask s p now inInterrupt) := by
  refine AllClass.activate' (h.modTask p ?_) p
  exact ((h p).recalc hp now).of_eq rfl rfl

theorem AllClass.deactivate {s' : State} (h : AllClass s) {p : TaskId}
    (hs' : deactivateTask s p = some s') : AllClass s' := by
  rcases array_cases (s.task p) with hnone | ⟨r, hr⟩
  · rw [deactivateTask, hnone] at hs'
    cases hs'
  · obtain ⟨m, hm, hd⟩ := deactivateTask_eq hr
    obtain rfl := Option.some.inj (hs'.symm.trans hm)
    have hput : AllClass (s.modTask p fun t => { t with array := none }) := h.retask p rfl rfl
    exact hput.of_task hd.task

theorem AllClass.wakeUp (h : AllClass s) {p : TaskId} (hp : p = idle → (s.task p).state = .running)
    (mask sync : Bool) (now : Nat) (inInterrupt : Bool) :
    AllClass (tryToWakeUp s p mask sync now inInterrupt) := by
  rw [tryToWakeUp]
  split
  · exact h
  · rename_i hasleep
    have hne : p ≠ idle := by
      intro e
      exact hasleep (by simp [hp e])
    dsimp only
    split
    · exact h.retask p rfl rfl
    · refine AllClass.retask ?_ p rfl rfl
      have hsleep : AllClass (if (s.task p).state = .uninterruptible then
          { s.modTask p fun t => { t with activated := -1 } with
            nrUninterruptible := s.nrUninterruptible - 1 } else s) := by
        split
        · have hset : AllClass (s.modTask p fun t => { t with activated := -1 }) :=
            h.retask p rfl rfl
          exact hset.of_task rfl
        · exact h
      generalize (if (s.task p).state = .uninterruptible then
          { s.modTask p fun t => { t with activated := -1 } with
            nrUninterruptible := s.nrUninterruptible - 1 } else s) = m at hsleep ⊢
      have hact := hsleep.activate hne now inInterrupt
      split
      · exact hact.retask _ rfl rfl
      · exact hact

theorem AllClass.setPolicy {s' : State} (h : AllClass s) {p : TaskId} (hp : p ≠ Uwrr.idle)
    (hstatic : MAX_RT_PRIO ≤ (s.task p).staticPrio) {policy : Policy} {prio : Int}
    (hprio : 0 ≤ prio) (hset : PolicySet s p policy prio s') : AllClass s' := by
  obtain ⟨r, -, htask⟩ := hset.task
  intro q
  rw [htask, flagged]
  refine ClassTask.of_eq (t := Function.update s.task p
    { setschedulerTask (s.task p) policy prio with array := r } q) ?_ rfl rfl
  by_cases hq : q = p
  · rw [hq, Function.update_self]
    exact (ClassTask.setscheduler hp hstatic policy hprio).of_eq rfl rfl
  · rw [Function.update_of_ne hq]
    exact h q

theorem AllClass.nice (h : AllClass s) {p : TaskId} (hp : p ≠ Uwrr.idle) (nice : Int) :
    AllClass (setUserNice s p nice) := by
  rw [setUserNice]
  split
  · exact h
  · rename_i hrange
    simp only [Bool.or_eq_true, decide_eq_true_eq, not_or, not_lt] at hrange
    split
    · exact h.retask p rfl rfl
    · rename_i hrt
      have hset := ClassTask.nice hp (Bool.eq_false_of_not_eq_true hrt) (h p) hrange.1.2
      split
      · exact h.modTask p hset
      · rename_i r _
        have hmove : AllClass (enqueueTask ((dequeueTask s p r).modTask p fun t => niceTask t nice)
            p r) :=
          AllClass.enqueue (AllClass.modTask (s := dequeueTask s p r) (h.of_task rfl) p hset) p r
        dsimp only
        split
        · exact hmove.retask _ rfl rfl
        · exact hmove

theorem AllClass.yield {s' : State} (h : AllClass s) (hs' : sysSchedYield s = some s') :
    AllClass s' := by
  rcases array_cases (s.task s.curr) with hnone | ⟨r, hr⟩
  · rw [sysSchedYield, hnone] at hs'
    cases hs'
  · rw [sysSchedYield, hr] at hs'
    obtain rfl := Option.some.inj hs'
    generalize (if (s.task s.curr).policy = .uwrr then r
      else if rtTask (s.task s.curr) then s.activeArray else s.expiredArray) = target
    split
    · exact AllClass.enqueue (s := dequeueTask s s.curr r) (h.of_task rfl) s.curr target
    · exact h.of_task rfl

theorem AllClass.tickUwrr {s' : State} (h : AllClass s) {p : TaskId}
    (hs' : uwrrTick s p = some s') : AllClass s' := by
  have hdec : AllClass (s.modTask p fun t => { t with timeSlice := dec32 t.timeSlice }) :=
    h.retask p rfl rfl
  rw [uwrrTick] at hs'
  split at hs'
  · cases hs'
  · obtain ⟨m, hm, hs'⟩ := Option.bind_eq_some_iff.mp hs'
    obtain rfl := Option.some.inj hs'
    have hm' : AllClass m := by
      rw [uwrrTickTask] at hm
      split at hm
      · split at hm
        · cases hm
        · obtain rfl := Option.some.inj hm
          have hfill : AllClass ((s.modTask p fun t =>
              { t with timeSlice := dec32 t.timeSlice }).modTask p refillSlice) :=
            hdec.retask p rfl rfl
          exact hfill.of_task rfl
      · obtain rfl := Option.some.inj hm
        exact hdec
    rw [uwrrTickUser]
    dsimp only
    split
    · exact (hm'.resched p).of_task rfl
    · exact hm'.of_task rfl

theorem AllClass.expire (h : AllClass s) {p : TaskId} (hp : p ≠ Uwrr.idle) (jiffies : Nat) :
    AllClass (expireTask s p jiffies) := by
  have hfill : AllClass ((dequeueTask s p s.activeArray).modTask p fun t =>
      refillSlice { t with prio := effectivePrio t }) :=
    AllClass.modTask (s := dequeueTask s p s.activeArray) (h.of_task rfl) p
      (((h p).withEffectivePrio hp).of_eq rfl rfl)
  rw [expireTask]
  dsimp only
  generalize hm : (dequeueTask s p s.activeArray).modTask p (fun t =>
    refillSlice { t with prio := effectivePrio t }) = m at hfill ⊢
  have hstamp : AllClass (if m.expiredTimestamp = 0 then { m with expiredTimestamp := jiffies }
      else m) := by
    split
    · exact hfill.of_task rfl
    · exact hfill
  generalize (if m.expiredTimestamp = 0 then { m with expiredTimestamp := jiffies } else m) = m'
    at hstamp ⊢
  split
  · split
    · exact (hstamp.enqueue p _).of_task rfl
    · exact hstamp.enqueue p _
  · exact hstamp.enqueue p _

theorem AllClass.tick {s' : State} (h : AllClass s) {jiffies : Nat}
    (hs' : schedulerTick s jiffies = some s') : AllClass s' := by
  have hdec : AllClass (s.modTask s.curr fun t => { t with timeSlice := dec32 t.timeSlice }) :=
    h.retask s.curr rfl rfl
  rw [schedulerTick] at hs'
  dsimp only at hs'
  split at hs'
  · obtain rfl := Option.some.inj hs'
    exact h
  · rename_i hidle
    split at hs'
    · obtain rfl := Option.some.inj hs'
      exact h.retask s.curr rfl rfl
    · split at hs'
      · split at hs'
        · split at hs'
          · obtain rfl := Option.some.inj hs'
            exact (hdec.retask s.curr rfl rfl).of_task rfl
          · obtain rfl := Option.some.inj hs'
            exact hdec
        · obtain rfl := Option.some.inj hs'
          exact h
      · split at hs'
        · exact h.tickUwrr hs'
        · split at hs'
          · obtain rfl := Option.some.inj hs'
            exact hdec.expire hidle jiffies
          · split at hs'
            · obtain rfl := Option.some.inj hs'
              exact (hdec.resched s.curr).of_task rfl
            · obtain rfl := Option.some.inj hs'
              exact hdec

theorem AllClass.fork {s' : State} (h : AllClass s) {child : TaskId} (hchild : child ≠ idle)
    {now jiffies : Nat} (hs' : fork s child now jiffies = some s') : AllClass s' := by
  set t : Task := { s.task s.curr with
    state := .running
    array := none
    timeSlice := u32 ((s.task s.curr).timeSlice + 1) / 2
    firstTimeSlice := true
    timestamp := now } with ht
  set m : State := { s.modUser t.user fun v => { v with count := v.count + 1 } with
    created := Function.update s.created child true
    forking := Function.update s.forking s.curr (some child)
    task := Function.update s.task child t } with hm
  have hcopy : AllClass (s.modTask child fun _ => t) :=
    h.modTask child ⟨(h s.curr).realtime, (h s.curr).normal, fun e => absurd e hchild⟩
  have hm' : AllClass m := hcopy.of_task rfl
  set m₂ := m.modTask m.curr fun t => { t with timeSlice := t.timeSlice / 2 } with hm₂
  have hhalf : AllClass m₂ := hm'.retask m.curr rfl rfl
  have hrun : (if (m₂.task m₂.curr).timeSlice = 0 then
      schedulerTick (m₂.modTask m₂.curr fun t => { t with timeSlice := 1 }) jiffies
    else some m₂) = some s' := hs'
  split at hrun
  · have hone : AllClass (m₂.modTask m₂.curr fun t => { t with timeSlice := 1 }) :=
      hhalf.retask m₂.curr rfl rfl
    exact hone.tick hrun
  · obtain rfl := Option.some.inj hrun
    exact hhalf

/-- The child has the policy of the current task, so its priority may be copied. -/
theorem AllClass.wakeUpNew {s' : State} (h : AllClass s) {p : TaskId} (hp : p ≠ idle)
    (hpol : (s.task p).policy = (s.task s.curr).policy) {cloneVm : Bool}
    (hs' : wakeUpNewTask s p cloneVm = some s') : AllClass s' := by
  rw [wakeUpNewTask] at hs'
  split at hs'
  · cases hs'
  · obtain rfl := Option.some.inj hs'
    set m := State.modTask { s with forking := Function.update s.forking s.curr none } p newTaskPrio
      with hm
    have hnew : ClassTask p (newTaskPrio (s.task p)) := by
      have hsame := penalizeSleepAvg_same (s.task p) 95
      have hpen : ClassTask p (penalizeSleepAvg (s.task p) 95) := (h p).of_eq hsame.policy hsame.prio
      exact hpen.withEffectivePrio hp
    have hm' : AllClass m :=
      AllClass.modTask (s := { s with forking := Function.update s.forking s.curr none })
        (h.of_task rfl) p hnew
    have hplace : AllClass (placeNewTask m p cloneVm) := by
      rw [placeNewTask]
      split
      · exact hm'.activate' p
      · split
        · exact (hm'.activate' p).resched _
        · rename_i r _
          have hcurr : (m.task p).policy = (m.task m.curr).policy := by
            have hall : ∀ q, (m.task q).policy = (s.task q).policy := by
              intro q
              by_cases hq : q = p
              · rw [hq, hm, State.modTask]
                simp only [Function.update_self]
                exact newTaskPrio_policy _
              · simp only [hm, State.modTask, Function.update_of_ne hq]
            rw [hall, hall]
            exact hpol
          have hbeside : AllClass (m.modTask p fun t =>
              { t with prio := (m.task m.curr).prio, array := some r }) := by
            refine hm'.modTask p ⟨fun e => ?_, fun e => ?_, fun e => absurd e hp⟩
            · exact (hm' m.curr).realtime (hcurr ▸ e)
            · exact (hm' m.curr).normal (hcurr ▸ e)
          exact AllClass.resched (hbeside.of_task rfl) _
    have hpaid := penalizeSleepAvg_same ((placeNewTask m p cloneVm).task
      (placeNewTask m p cloneVm).curr) 100
    exact hplace.retask _ hpaid.policy hpaid.prio

theorem AllClass.switchUser {s' : State} (h : AllClass s) {p : TaskId} {old : UserId}
    (hs' : uwrrSwitchUser s p old = some s') : AllClass s' := by
  -- the end of the function
  have hunlink : ∀ m : State, AllClass m → AllClass (if (m.arrays (.user old)).nrActive = 0 then
      { m with uwrrUserlist := m.uwrrUserlist.erase old } else m) := by
    intro m hm
    split
    · exact hm.of_task rfl
    · exact hm
  rw [uwrrSwitchUser] at hs'
  split at hs'
  · obtain rfl := Option.some.inj hs'
    exact h
  · split at hs'
    · obtain rfl := Option.some.inj hs'
      exact hunlink s h
    · obtain ⟨m, hm, hs'⟩ := Option.bind_eq_some_iff.mp hs'
      obtain rfl := Option.some.inj hs'
      exact hunlink _ ((h.deactivate hm).activate' p)

theorem AllClass.switchUid {s' : State} (h : AllClass s) {new : UserId}
    (hs' : switchUid s new = some s') : AllClass s' := by
  have hset : AllClass ((s.modUser new fun v => { v with count := v.count + 1 }).modTask s.curr
      fun t => { t with user := new }) := by
    have huser : AllClass (s.modTask s.curr fun t => { t with user := new }) :=
      h.retask s.curr rfl rfl
    exact huser.of_task rfl
  obtain ⟨m, hm, hs'⟩ := Option.bind_eq_some_iff.mp hs'
  obtain rfl := Option.some.inj hs'
  have hm' : AllClass m := hset.switchUser hm
  rw [freeUid]
  split
  · exact hm'.of_task rfl
  · exact hm'.of_task rfl

theorem AllClass.switchTasks (h : AllClass s) (next : TaskId) (now run : Nat) :
    AllClass (switchTasks s next now run) := by
  have hprev : AllClass (s.modTask s.curr fun t =>
      { t with needResched := false, sleepAvg := t.sleepAvg - run, timestamp := now }) :=
    h.retask s.curr rfl rfl
  rw [Uwrr.switchTasks]
  dsimp only
  split
  · have hnext := AllClass.retask (f := fun t => { t with timestamp := now }) hprev next rfl rfl
    exact hnext.of_task rfl
  · exact hprev

theorem AllClass.putPrev {s' : State} (h : AllClass s) {preemptActive signalPending : Bool}
    (hs' : putPrev s preemptActive signalPending = some s') : AllClass s' := by
  rw [Uwrr.putPrev] at hs'
  split at hs'
  · obtain rfl := Option.some.inj hs'
    exact h
  · split at hs'
    · obtain rfl := Option.some.inj hs'
      exact h.retask s.curr rfl rfl
    · split at hs'
      · have hcount : AllClass { s with nrUninterruptible := s.nrUninterruptible + 1 } := h.of_task rfl
        exact hcount.deactivate hs'
      · exact h.deactivate hs'

/-- The idle task is in no queue, so its priority is not computed anew. -/
theorem AllClass.credit {s' : State} (h : AllClass s) (hidle : (s.task idle).array = none)
    {next : TaskId} {now : Nat} (hs' : creditNext s next now = some s') : AllClass s' := by
  rw [creditNext] at hs'
  dsimp only at hs'
  split at hs'
  · split at hs'
    · cases hs'
    · rename_i r hr
      obtain rfl := Option.some.inj hs'
      have hne : next ≠ Uwrr.idle := by
        rintro rfl
        rw [hidle] at hr
        cases hr
      refine AllClass.enqueue (AllClass.modTask (s := dequeueTask s next r) (h.of_task rfl) next ?_) _ _
      exact (h next).recalc hne _
  · obtain rfl := Option.some.inj hs'
    exact h

theorem AllClass.schedule {s' : State} (h : AllClass s) (hinv : Inv s) {now : Nat}
    {preemptActive signalPending : Bool}
    (hs' : schedule s now preemptActive signalPending = some s') : AllClass s' := by
  obtain ⟨s₁, hs₁, h₁, -⟩ := hinv.core.putPrev hinv.busy preemptActive signalPending
  have hall₁ := h.putPrev hs₁
  rw [Uwrr.schedule] at hs'
  dsimp only at hs'
  rw [hs₁] at hs'
  simp only [Option.bind_eq_bind, Option.bind_some] at hs'
  split at hs'
  · obtain rfl := Option.some.inj hs'
    have hstamp : AllClass { s₁ with expiredTimestamp := 0 } := hall₁.of_task rfl
    exact hstamp.switchTasks idle now _
  · rename_i hrun
    obtain ⟨h₂, -, hready⟩ := h₁.swapArrays hrun
    have hall₂ := hall₁.of_task (swapArrays_task s₁)
    obtain ⟨s₃, p, l, hs₃, h₃, -, -⟩ := h₂.pickQueue hready
    have hall₃ : AllClass s₃ := hall₂.of_task (pickQueue_task hs₃)
    rw [hs₃, Option.bind_some] at hs'
    dsimp only at hs'
    obtain ⟨s₄, hs₄, hs'⟩ := Option.bind_eq_some_iff.mp hs'
    obtain rfl := Option.some.inj hs'
    have hall₄ := hall₃.credit (h₃.tasks.reserved idle (Or.inl rfl)).1 hs₄
    have hact : AllClass (s₄.modTask p fun t => { t with activated := 0 }) := hall₄.retask p rfl rfl
    exact hact.switchTasks p now _

end AllTasks

/-! ## Runs -/

/-- Every call keeps the classes. -/
theorem AllClass.runOp {s s' : State} (h : AllClass s) (hinv : Inv s) {op : Op} (hen : Enabled s op)
    (hadm : Admitted s op) (hs' : runOp s op = some s') : AllClass s' := by
  have hreserved := hinv.core.tasks.reserved idle (Or.inl rfl)
  cases op with
  | wakeUp p mask sync inInterrupt now =>
      obtain rfl := Option.some.inj hs'
      refine h.wakeUp ?_ mask sync now inInterrupt
      rintro rfl
      exact hreserved.2
  | activate p inInterrupt now =>
      obtain rfl := Option.some.inj hs'
      exact h.activate hen.2.1 now inInterrupt
  | deactivate p => exact h.deactivate hs'
  | setscheduler p policy prio capable sameUid hook =>
      obtain ⟨⟨ret, m⟩, hm, rfl⟩ := Option.map_eq_some_iff.mp hs'
      by_cases hacc : Accepts (policy.getD (s.task p).policy) prio capable sameUid hook
      · obtain ⟨m', hm', hset⟩ := schedSetscheduler_accepts hacc
        rw [hm'] at hm
        obtain ⟨-, rfl⟩ := Prod.mk.inj (Option.some.inj hm)
        exact h.setPolicy hen.2 (hinv.core.tasks.ok p).static.1 hacc.range.1 hset
      · obtain ⟨e, -, hm'⟩ := schedSetscheduler_refuses hacc
        rw [hm'] at hm
        obtain ⟨-, rfl⟩ := Prod.mk.inj (Option.some.inj hm)
        exact h
  | setUserNice p nice =>
      obtain rfl := Option.some.inj hs'
      exact h.nice hen.2 nice
  | sysNice increment capable hook =>
      obtain rfl := Option.some.inj hs'
      rw [Uwrr.sysNice]
      split
      · exact h
      · dsimp only
        split
        · exact h
        · exact h.nice hen _
  | yield => exact h.yield hs'
  | tick jiffies => exact h.tick hs'
  | fork child now jiffies =>
      refine h.fork ?_ hs'
      rintro rfl
      have hcreated := hinv.core.tasks.known idle (Or.inr (Or.inl rfl))
      rw [hen.1] at hcreated
      cases hcreated
  | wakeUpNew p cloneVm =>
      refine h.wakeUpNew ?_ hadm.1 hs'
      rintro rfl
      exact hinv.core.tasks.notIdle s.curr hen
  | switchUid new => exact h.switchUid hs'
  | setState st =>
      obtain rfl := Option.some.inj hs'
      exact h.retask s.curr rfl rfl
  | schedule now preemptActive signalPending => exact h.schedule hinv hs'

end LinuxHacks.Uwrr
