import LinuxHacks.Uwrr.Schedule

/-!
# Part of a runqueue

A `View` shows some of the tasks and of the arrays of a state, with owners, users
and a list of users of its own. The functions of the scheduler look at `p->user`
and at the list in few places: each of the others does to the view what it does to
the state (`see_*`). So what `Core` gives for the view holds of the state.
-/

namespace LinuxHacks.Uwrr

open LinuxHacks.Lib

structure View where
  live : TaskId → Bool
  owner : TaskId → UserId
  shown : ArrayRef → Bool
  users : UserId → User
  created : TaskId → Bool
  forking : TaskId → Option TaskId

def View.see (v : View) (l : List UserId) (s : State) : State :=
  { s with
    task := fun p => if v.live p then { s.task p with user := v.owner p } else idleTask
    created := v.created
    forking := v.forking
    user := v.users
    arrays := fun r => if v.shown r then s.arrays r else emptyArray
    uwrrUserlist := l }

section Primitives

variable {v : View} {l : List UserId} {s : State} {p : TaskId} {r : ArrayRef}

theorem see_task (hp : v.live p = true) :
    (v.see l s).task p = { s.task p with user := v.owner p } := if_pos hp

theorem see_arrays (hr : v.shown r = true) : (v.see l s).arrays r = s.arrays r := if_pos hr

theorem see_activeArray : (v.see l s).activeArray = s.activeArray := rfl

theorem see_expiredArray : (v.see l s).expiredArray = s.expiredArray := rfl

theorem modTask_self (s : State) (p : TaskId) (f : Task → Task) :
    (s.modTask p f).task p = f (s.task p) := Function.update_self ..

/-- A change of one task that has nothing to do with its user. -/
theorem see_modTask (hp : v.live p = true) {f : Task → Task}
    (hf : ∀ t o, f { t with user := o } = { f t with user := o }) :
    (v.see l s).modTask p f = v.see l (s.modTask p f) := by
  have htask : Function.update (v.see l s).task p (f ((v.see l s).task p)) =
      (v.see l (s.modTask p f)).task := by
    funext q
    by_cases hq : q = p
    · rw [hq, Function.update_self, see_task hp, see_task hp, hf]
      show _ = { Function.update s.task p (f (s.task p)) p with user := v.owner p }
      rw [Function.update_self]
    · rw [Function.update_of_ne hq]
      show _ = if v.live q then
        { Function.update s.task p (f (s.task p)) q with user := v.owner q } else idleTask
      rw [Function.update_of_ne hq]
      rfl
  show { v.see l s with task := Function.update (v.see l s).task p (f ((v.see l s).task p)) } = _
  rw [htask]
  rfl

theorem see_modArray (hr : v.shown r = true) (f : PrioArray → PrioArray) :
    (v.see l s).modArray r f = v.see l (s.modArray r f) := by
  have harrays : Function.update (v.see l s).arrays r (f ((v.see l s).arrays r)) =
      (v.see l (s.modArray r f)).arrays := by
    funext r'
    by_cases hr' : r' = r
    · rw [hr', Function.update_self, see_arrays hr, see_arrays hr]
      show _ = Function.update s.arrays r (f (s.arrays r)) r
      rw [Function.update_self]
    · rw [Function.update_of_ne hr']
      show _ = if v.shown r' then Function.update s.arrays r (f (s.arrays r)) r' else emptyArray
      rw [Function.update_of_ne hr']
      rfl
  show { v.see l s with
    arrays := Function.update (v.see l s).arrays r (f ((v.see l s).arrays r)) } = _
  rw [harrays]
  rfl

theorem see_resched (hp : v.live p = true) :
    reschedTask (v.see l s) p = v.see l (reschedTask s p) := see_modTask hp fun _ _ => rfl

theorem see_dequeue (hp : v.live p = true) (hr : v.shown r = true) :
    dequeueTask (v.see l s) p r = v.see l (dequeueTask s p r) := by
  rw [dequeueTask, see_task hp]
  exact see_modArray hr _

theorem see_requeue (hp : v.live p = true) (hr : v.shown r = true) :
    requeueTask (v.see l s) p r = v.see l (requeueTask s p r) := by
  rw [requeueTask, see_task hp]
  exact see_modArray hr _

theorem see_enqueue (hp : v.live p = true) (hr : v.shown r = true) :
    enqueueTask (v.see l s) p r = v.see l (enqueueTask s p r) := by
  rw [enqueueTask, see_task hp, see_modArray hr]
  exact see_modTask hp fun _ _ => rfl

/-- `deactivate_task` in one piece. -/
theorem deactivateTask_some (harray : (s.task p).array = some r) :
    deactivateTask s p = some ((dequeueTask
      { s with
        nrRunning := s.nrRunning - 1
        uwrrRunning := s.uwrrRunning - if (s.task p).policy = .uwrr then 1 else 0
        uwrrUserlist := if (s.task p).policy = .uwrr ∧ (s.arrays r).nrActive = 1 then
          s.uwrrUserlist.erase (s.task p).user else s.uwrrUserlist } p r).modTask p
        fun t => { t with array := none }) := by
  rw [deactivateTask, harray]
  by_cases hpol : (s.task p).policy = .uwrr
  · simp only [hpol, if_true, true_and]
  · simp only [hpol, if_false, false_and, sub_zero]

/-- `__activate_task` in one piece. -/
theorem activateTask'_state (s : State) (p : TaskId) :
    activateTask' s p =
      { enqueueTask s p (homeArray s p) with
        nrRunning := s.nrRunning + 1
        uwrrRunning := s.uwrrRunning + if (s.task p).policy = .uwrr then 1 else 0
        uwrrUserlist := if (s.task p).policy = .uwrr ∧ (s.task p).user ∉ s.uwrrUserlist then
          s.uwrrUserlist ++ [(s.task p).user] else s.uwrrUserlist } := by
  by_cases hpol : (s.task p).policy = .uwrr
  · by_cases hin : (s.task p).user ∈ s.uwrrUserlist
    · simp [activateTask', homeArray, hpol, hin, enqueueTask, State.modTask, State.modArray]
    · simp [activateTask', homeArray, hpol, hin, enqueueTask, State.modTask, State.modArray]
  · simp [activateTask', homeArray, hpol, enqueueTask, State.modTask, State.modArray]

/-- The list after `deactivate_task` of a task of `u` from the array `a`. -/
def leftList (l : List UserId) (t : Task) (a : PrioArray) (u : UserId) : List UserId :=
  if t.policy = .uwrr ∧ a.nrActive = 1 then l.erase u else l

/-- The list after `__activate_task`. -/
def enteredList (l : List UserId) (t : Task) : List UserId :=
  if t.policy = .uwrr ∧ t.user ∉ l then l ++ [t.user] else l

/-- `deactivate_task` takes the owner of the task off the list. -/
theorem see_deactivate (hp : v.live p = true) (harray : (s.task p).array = some r)
    (hr : v.shown r = true) :
    deactivateTask (v.see l s) p =
      (deactivateTask s p).map (v.see (leftList l (s.task p) (s.arrays r) (v.owner p))) := by
  have harray' : ((v.see l s).task p).array = some r := by rw [see_task hp]; exact harray
  rw [deactivateTask_some harray, deactivateTask_some harray', see_task hp, see_arrays hr,
    Option.map_some, ← see_modTask hp fun _ _ => rfl, ← see_dequeue hp hr]
  rfl

/-- `__activate_task` appends the user of the task. -/
theorem see_activate (hp : v.live p = true) (howner : v.owner p = (s.task p).user)
    (hr : v.shown (homeArray s p) = true) :
    activateTask' (v.see l s) p = v.see (enteredList l (s.task p)) (activateTask' s p) := by
  have htask : (v.see l s).task p = s.task p := by rw [see_task hp, howner]
  have hhome : homeArray (v.see l s) p = homeArray s p := by rw [homeArray, htask]; rfl
  rw [activateTask'_state, activateTask'_state, hhome, htask, see_enqueue hp hr]
  rfl

end Primitives

/-! ## The owner is not read -/

section Owner

variable (t : Task) (o : UserId)

theorem effectivePrio_owner : effectivePrio { t with user := o } = effectivePrio t := by
  rfl

theorem taskInteractive_owner : taskInteractive { t with user := o } = taskInteractive t := by
  rfl

theorem taskTimeslice_owner : taskTimeslice { t with user := o } = taskTimeslice t := by
  rfl

theorem timesliceGranularity_owner :
    timesliceGranularity { t with user := o } = timesliceGranularity t := by
  rfl

theorem recalcSleepAvg_owner (now : Nat) :
    recalcSleepAvg { t with user := o } now = recalcSleepAvg t now := by
  rfl

theorem recalcTaskPrio_owner (now : Nat) :
    recalcTaskPrio { t with user := o } now = { recalcTaskPrio t now with user := o } := by
  rw [recalcTaskPrio, recalcTaskPrio, recalcSleepAvg_owner]
  exact congrArg (fun k => ({ t with
    user := o, sleepAvg := recalcSleepAvg t now, prio := k } : Task))
    (effectivePrio_owner { t with sleepAvg := recalcSleepAvg t now } o)

end Owner

section Functions

variable {v : View} {l : List UserId} {s : State} {p : TaskId} {r : ArrayRef}

theorem see_tickTask (hp : v.live p = true) (harray : (s.task p).array = some r)
    (hr : v.shown r = true) :
    uwrrTickTask (v.see l s) p = (uwrrTickTask s p).map (v.see l) := by
  set m := s.modTask p fun t => { t with timeSlice := dec32 t.timeSlice } with hm
  have hsee : (v.see l s).modTask p (fun t => { t with timeSlice := dec32 t.timeSlice }) =
      v.see l m := see_modTask hp fun _ _ => rfl
  have hmp : (m.task p).array = some r := by
    rw [hm, modTask_self]
    exact harray
  rw [uwrrTickTask, uwrrTickTask, hsee, ← hm, see_task hp]
  by_cases hzero : (m.task p).timeSlice = 0
  · rw [if_pos hzero, if_pos hzero]
    simp only [hmp]
    rw [see_modTask hp fun _ _ => rfl, see_requeue hp hr]
    rfl
  · rw [if_neg hzero, if_neg hzero]
    rfl

theorem see_expire (hp : v.live p = true) (hcurr : v.live s.curr = true)
    (hrq : ∀ i, v.shown (.rq i) = true) (jiffies : Nat) :
    expireTask (v.see l s) p jiffies = v.see l (expireTask s p jiffies) := by
  have hact : ∀ m : State, v.shown m.activeArray = true := fun m => hrq m.active
  have hexp : ∀ m : State, v.shown m.expiredArray = true := fun m => hrq !m.active
  set d := (dequeueTask s p s.activeArray).modTask p fun t =>
    refillSlice { t with prio := effectivePrio t } with hd
  set m : State := if d.expiredTimestamp = 0 then { d with expiredTimestamp := jiffies } else d
    with hm
  have hseeD : (dequeueTask (v.see l s) p (v.see l s).activeArray).modTask p (fun t =>
      refillSlice { t with prio := effectivePrio t }) = v.see l d := by
    rw [see_activeArray, see_dequeue hp (hact s), see_modTask hp fun _ _ => rfl]
  have hseeM : (if (v.see l d).expiredTimestamp = 0 then
      { v.see l d with expiredTimestamp := jiffies } else v.see l d) = v.see l m := by
    rw [hm]
    show (if d.expiredTimestamp = 0 then _ else _) = _
    split
    · rfl
    · rfl
  have hmcurr : v.live m.curr = true := by
    rw [hm]
    split
    · exact hcurr
    · exact hcurr
  have hstarving : expiredStarving (v.see l m) jiffies = expiredStarving m jiffies := by
    rw [expiredStarving, expiredStarving, show (v.see l m).curr = m.curr from rfl,
      see_task hmcurr]
    rfl
  rw [expireTask, expireTask]
  dsimp only
  rw [hseeD, hseeM, ← hd, ← hm, see_task hp, taskInteractive_owner, hstarving,
    see_activeArray, see_expiredArray, see_enqueue hp (hact m), see_enqueue hp (hexp m)]
  split
  · rw [see_task hp]
    show (if ((enqueueTask m p m.expiredArray).task p).staticPrio <
      (enqueueTask m p m.expiredArray).bestExpiredPrio then _ else _) = _
    split
    · rfl
    · rfl
  · rfl

/-- A tick of a task that is not UWRR. -/
theorem see_tick (hcurr : v.live s.curr = true) (hrq : ∀ i, v.shown (.rq i) = true)
    (hpol : (s.task s.curr).policy ≠ .uwrr) (jiffies : Nat) :
    schedulerTick (v.see l s) jiffies = (schedulerTick s jiffies).map (v.see l) := by
  have hact : ∀ m : State, v.shown m.activeArray = true := fun m => hrq m.active
  set m := s.modTask s.curr fun t => { t with timeSlice := dec32 t.timeSlice } with hm
  have hseeM : (v.see l s).modTask s.curr (fun t => { t with timeSlice := dec32 t.timeSlice }) =
      v.see l m := see_modTask hcurr fun _ _ => rfl
  have hfill : (v.see l m).modTask s.curr refillSlice = v.see l (m.modTask s.curr refillSlice) :=
    see_modTask hcurr fun _ _ => rfl
  rw [schedulerTick, schedulerTick]
  dsimp only
  rw [show (v.see l s).curr = s.curr from rfl, see_activeArray, see_task hcurr, hseeM, ← hm,
    hfill, see_task hcurr, see_activeArray, taskInteractive_owner]
  dsimp only
  by_cases hidle : s.curr = idle
  · rw [if_pos hidle, if_pos hidle]
    rfl
  · rw [if_neg hidle, if_neg hidle]
    by_cases harray : (s.task s.curr).array ≠ some s.activeArray ∧ (s.task s.curr).policy ≠ .uwrr
    · rw [if_pos harray, if_pos harray, see_resched hcurr]
      rfl
    · rw [if_neg harray, if_neg harray]
      have hrt : rtTask { s.task s.curr with user := v.owner s.curr } = rtTask (s.task s.curr) :=
        rfl
      have hrequeue : ∀ m', requeueTask (v.see l m') s.curr m.activeArray =
          v.see l (requeueTask m' s.curr m.activeArray) := fun m' => see_requeue hcurr (hact m)
      have hmcurr : v.live m.curr = true := hcurr
      have hexpire := see_expire (s := m) (l := l) hcurr hmcurr hrq jiffies
      have hresched : ∀ m', reschedTask (v.see l m') s.curr = v.see l (reschedTask m' s.curr) :=
        fun m' => see_resched hcurr
      rw [hrt, taskTimeslice_owner (m.task s.curr) (v.owner s.curr),
        timesliceGranularity_owner (m.task s.curr) (v.owner s.curr), hrequeue, hrequeue,
        hresched, hexpire, if_neg hpol, if_neg hpol]
      split
      · split
        · split
          · rfl
          · rfl
        · rfl
      · split
        · rfl
        · split
          · rfl
          · rfl

theorem see_swapArrays (hrq : ∀ i, v.shown (.rq i) = true) :
    swapArrays (v.see l s) = v.see l (swapArrays s) := by
  have hact : v.shown s.activeArray = true := hrq s.active
  rw [swapArrays, swapArrays, see_activeArray, see_arrays hact]
  show (if (s.arrays s.activeArray).nrActive = 0 ∧ s.uwrrRunning = 0 then _ else _) = _
  split
  · rfl
  · rfl

theorem see_credit (hp : v.live p = true) (hr : ∀ r, (s.task p).array = some r → v.shown r = true)
    (now : Nat) : creditNext (v.see l s) p now = (creditNext s p now).map (v.see l) := by
  rw [creditNext, creditNext, see_task hp]
  dsimp only
  show (if (!rtTask (s.task p) && decide ((s.task p).policy ≠ .uwrr) &&
    decide (0 < (s.task p).activated)) = true then _ else _) = _
  split
  · rcases array_cases (s.task p) with hnone | ⟨r, harray⟩
    · rw [hnone]
      rfl
    · rw [harray]
      dsimp only
      rw [see_dequeue hp (hr r harray), see_modTask hp (fun t o => recalcTaskPrio_owner t o _),
        see_enqueue hp (hr r harray)]
      rfl
  · rfl

theorem see_switch {next : TaskId} (hcurr : v.live s.curr = true) (hnext : v.live next = true)
    (now run : Nat) :
    switchTasks (v.see l s) next now run = v.see l (switchTasks s next now run) := by
  have hprev : (v.see l s).modTask s.curr (fun t =>
      { t with needResched := false, sleepAvg := t.sleepAvg - run, timestamp := now }) =
      v.see l (s.modTask s.curr fun t =>
        { t with needResched := false, sleepAvg := t.sleepAvg - run, timestamp := now }) :=
    see_modTask hcurr fun _ _ => rfl
  rw [switchTasks, switchTasks]
  dsimp only
  rw [show (v.see l s).curr = s.curr from rfl, hprev, see_modTask hnext fun _ _ => rfl]
  split
  · rfl
  · rfl

/-! ## Waking up -/

theorem see_activateTask (hp : v.live p = true) (howner : v.owner p = (s.task p).user)
    (hr : v.shown (homeArray s p) = true) (now : Nat) (inInterrupt : Bool) :
    activateTask (v.see l s) p now inInterrupt =
      v.see (enteredList l (s.task p)) (activateTask s p now inInterrupt) := by
  rw [activateTask, activateTask, see_modTask hp]
  · rw [see_activate hp]
    · rw [modTask_self]
      rfl
    · rw [modTask_self]
      exact howner
    · rw [homeArray, modTask_self]
      exact hr
  · intro t o
    dsimp only
    rw [recalcTaskPrio_owner]

theorem see_preempts (hp : v.live p = true) (hcurr : v.live s.curr = true) :
    taskPreemptsCurr (v.see l s) p = taskPreemptsCurr s p := by
  rw [taskPreemptsCurr, taskPreemptsCurr, show (v.see l s).curr = s.curr from rfl, see_task hp,
    see_task hcurr]
  rfl

/-- The list after `try_to_wake_up`. -/
def wokenList (l : List UserId) (t : Task) (mask : Bool) : List UserId :=
  if t.state = .running || !mask then l
  else if t.array ≠ none then l
  else enteredList l t

theorem see_wakeUp (hp : v.live p = true) (hcurr : v.live s.curr = true)
    (howner : (s.task p).array = none →
      v.owner p = (s.task p).user ∧ v.shown (homeArray s p) = true)
    (mask sync inInterrupt : Bool) (now : Nat) :
    tryToWakeUp (v.see l s) p mask sync now inInterrupt =
      v.see (wokenList l (s.task p) mask) (tryToWakeUp s p mask sync now inInterrupt) := by
  have hrun : ∀ m l', (v.see l' m).modTask p (fun t => { t with state := .running }) =
      v.see l' (m.modTask p fun t => { t with state := .running }) :=
    fun m l' => see_modTask hp fun _ _ => rfl
  rw [tryToWakeUp, tryToWakeUp, wokenList, see_task hp]
  dsimp only
  split
  · rfl
  · split
    · exact hrun s l
    · rename_i hnone
      obtain ⟨howner, hr⟩ := howner (not_not.mp hnone)
      set m : State := if (s.task p).state = .uninterruptible then
        { s.modTask p fun t => { t with activated := -1 } with
          nrUninterruptible := s.nrUninterruptible - 1 } else s with hm
      have hmsee : (if (s.task p).state = .uninterruptible then
          { (v.see l s).modTask p fun t => { t with activated := -1 } with
            nrUninterruptible := (v.see l s).nrUninterruptible - 1 } else v.see l s) =
          v.see l m := by
        rw [hm, see_modTask hp fun _ _ => rfl]
        split
        · rfl
        · rfl
      have hmp : (m.task p).policy = (s.task p).policy ∧ (m.task p).user = (s.task p).user := by
        rw [hm]
        split
        · show (Function.update s.task p _ p).policy = _ ∧ (Function.update s.task p _ p).user = _
          rw [Function.update_self]
          exact ⟨rfl, rfl⟩
        · exact ⟨rfl, rfl⟩
      have hmcurr : m.curr = s.curr := by
        rw [hm]
        split
        · rfl
        · rfl
      have hmactive : m.active = s.active := by
        rw [hm]
        split
        · rfl
        · rfl
      have hhome : homeArray m p = homeArray s p := by
        rw [homeArray, homeArray, hmp.1, hmp.2, State.activeArray, State.activeArray, hmactive]
      have hlist : enteredList l (m.task p) = enteredList l (s.task p) := by
        rw [enteredList, enteredList, hmp.1, hmp.2]
      set w := activateTask m p now inInterrupt with hw
      have hwsee : activateTask (v.see l m) p now inInterrupt =
          v.see (enteredList l (s.task p)) w := by
        rw [see_activateTask hp (howner.trans hmp.2.symm) (by rw [hhome]; exact hr), hlist, hw]
      have hwcurr : v.live w.curr = true := by
        have hact := activateTask'_eq (m.modTask p fun t =>
          let t := recalcTaskPrio t now
          { t with
            activated := if t.activated = 0 then (if inInterrupt then 2 else 1) else t.activated
            timestamp := now }) p
        rw [hw, activateTask, hact.curr]
        show v.live m.curr = true
        rw [hmcurr]
        exact hcurr
      rw [hmsee, hwsee, see_preempts hp hwcurr]
      split
      · show (reschedTask (v.see _ w) w.curr).modTask p _ = _
        rw [see_resched hwcurr]
        exact hrun _ _
      · exact hrun w _

/-! ## `schedule` -/

/-- The list after `putPrev`. -/
def putList (l : List UserId) (s : State) (preemptActive signalPending : Bool) : List UserId :=
  let t := s.task s.curr
  if t.state = .running || preemptActive then l
  else if decide (t.state = .interruptible) && signalPending then l
  else
    match t.array with
    | none => l
    | some r => leftList l t (s.arrays r) t.user

theorem see_putPrev (hcurr : v.live s.curr = true) {preemptActive : Bool}
    (howner : preemptActive = false → v.owner s.curr = (s.task s.curr).user)
    (hr : ∀ r, (s.task s.curr).array = some r → v.shown r = true) (signalPending : Bool) :
    putPrev (v.see l s) preemptActive signalPending =
      (putPrev s preemptActive signalPending).map
        (v.see (putList l s preemptActive signalPending)) := by
  have htask : (v.see l s).task (v.see l s).curr =
      { s.task s.curr with user := v.owner s.curr } := see_task hcurr
  rw [putPrev, putPrev, putList, htask]
  dsimp only
  split
  · rfl
  · rename_i hactive
    split
    · exact congrArg some (see_modTask hcurr fun _ _ => rfl)
    · set m : State := if (s.task s.curr).state = .uninterruptible then
        { s with nrUninterruptible := s.nrUninterruptible + 1 } else s with hm
      have hmsee : (if (s.task s.curr).state = .uninterruptible then
          { v.see l s with nrUninterruptible := (v.see l s).nrUninterruptible + 1 }
          else v.see l s) = v.see l m := by
        rw [hm]
        split
        · rfl
        · rfl
      have hmtask : m.task = s.task := by
        rw [hm]
        split
        · rfl
        · rfl
      have hmarrays : m.arrays = s.arrays := by
        rw [hm]
        split
        · rfl
        · rfl
      have howner : v.owner s.curr = (s.task s.curr).user := by
        refine howner (Bool.eq_false_of_not_eq_true fun e => hactive ?_)
        rw [e, Bool.or_true]
      refine (congrArg (fun m' => deactivateTask m' s.curr) hmsee).trans ?_
      rcases array_cases (s.task s.curr) with hnone | ⟨r, harray⟩
      · have hmnone : (m.task s.curr).array = none := by rw [hmtask, hnone]
        have hvnone : ((v.see l m).task s.curr).array = none := by rw [see_task hcurr, hmnone]
        rw [deactivateTask, hvnone, deactivateTask, hmnone]
        rfl
      · rw [see_deactivate hcurr (by rw [hmtask, harray]) (hr r harray), hmtask, hmarrays, howner,
          harray]

/-- The users of the list with a task in their array. -/
def queuedUsers (s : State) : List UserId :=
  s.uwrrUserlist.filter fun u => decide ((s.arrays (.user u)).nrActive ≠ 0)

/-- The users without a task do not matter for the choice. -/
theorem pickUser_filter (s : State) (l : List UserId) :
    pickUser s (l.filter fun u => decide ((s.arrays (.user u)).nrActive ≠ 0)) =
      (pickUser s l).map fun x =>
        (x.1, x.2.filter fun u => decide ((s.arrays (.user u)).nrActive ≠ 0)) := by
  induction l with
  | nil => rfl
  | cons u l ih =>
      by_cases hu : (s.arrays (.user u)).nrActive = 0
      · rw [List.filter_cons_of_neg (by simp [hu]), ih, pickUser, if_pos hu]
      · rw [List.filter_cons_of_pos (by simp [hu]), pickUser, pickUser, if_neg hu, if_neg hu,
          Option.map_some, List.filter_cons_of_pos (by simp [hu])]

theorem see_pickUser {us : List UserId} (hus : ∀ u ∈ us, v.shown (.user u) = true) :
    pickUser (v.see l s) us = pickUser s us := by
  induction us with
  | nil => rfl
  | cons u us ih =>
      rw [pickUser, pickUser, see_arrays (hus u List.mem_cons_self),
        ih fun w hw => hus w (List.mem_cons_of_mem u hw)]

theorem pickUser_suffix {us us' : List UserId} {u : UserId}
    (h : pickUser s us = some (u, us')) : u ∈ us ∧ us' <:+ us := by
  induction us with
  | nil => cases h
  | cons w us ih =>
      rw [pickUser] at h
      split at h
      · obtain ⟨hu, hsuffix⟩ := ih h
        exact ⟨List.mem_cons_of_mem w hu, hsuffix.trans (List.suffix_cons w us)⟩
      · obtain ⟨rfl, rfl⟩ := Prod.mk.inj (Option.some.inj h)
        exact ⟨List.mem_cons_self, List.suffix_refl _⟩

/-- `schedule` only drops users in front of the one it chooses. -/
theorem pickQueue_suffix {s' : State} {queue : List TaskId}
    (h : pickQueue s = some (s', queue)) :
    ∃ us, us <:+ s.uwrrUserlist ∧ s' = { s with uwrrUserlist := us } := by
  rw [pickQueue] at h
  dsimp only at h
  generalize (if (s.arrays s.activeArray).nrActive ≠ 0 then
    schedFindFirstBit (s.arrays s.activeArray) else MAX_PRIO) = idx at h
  split at h
  · obtain ⟨⟨u, us⟩, hpick, h⟩ := Option.bind_eq_some_iff.mp h
    obtain ⟨rfl, -⟩ := Prod.mk.inj (Option.some.inj h)
    exact ⟨us, (pickUser_suffix hpick).2, rfl⟩
  · split at h
    · cases h
    · obtain ⟨rfl, -⟩ := Prod.mk.inj (Option.some.inj h)
      exact ⟨s.uwrrUserlist, List.suffix_refl _, rfl⟩

theorem see_pickQueue (hrq : ∀ i, v.shown (.rq i) = true)
    (hus : ∀ u ∈ queuedUsers s, v.shown (.user u) = true) :
    pickQueue (v.see (queuedUsers s) s) =
      (pickQueue s).map fun x => (v.see (queuedUsers x.1) x.1, x.2) := by
  have hact : v.shown s.activeArray = true := hrq s.active
  rw [pickQueue, pickQueue]
  dsimp only
  rw [see_activeArray, see_arrays hact]
  generalize (if (s.arrays s.activeArray).nrActive ≠ 0 then
    schedFindFirstBit (s.arrays s.activeArray) else MAX_PRIO) = idx
  show (if MAX_RT_PRIO ≤ idx ∧ 0 < s.uwrrRunning then _ else _) = _
  by_cases hbranch : MAX_RT_PRIO ≤ idx ∧ 0 < s.uwrrRunning
  · rw [if_pos hbranch, if_pos hbranch]
    have hfilter : pickUser s (queuedUsers s) = (pickUser s s.uwrrUserlist).map fun x =>
        (x.1, x.2.filter fun u => decide ((s.arrays (.user u)).nrActive ≠ 0)) :=
      pickUser_filter s s.uwrrUserlist
    have hlist : (v.see (queuedUsers s) s).uwrrUserlist = queuedUsers s := rfl
    rw [hlist, see_pickUser hus, hfilter]
    cases hpick : pickUser s s.uwrrUserlist with
    | none => rfl
    | some x =>
        rw [hpick] at hfilter
        have hx : x.1 ∈ queuedUsers s := (pickUser_suffix hfilter).1
        simp only [Option.map_some, Option.bind_eq_bind, Option.bind_some]
        rw [see_arrays (hus _ hx)]
        rfl
  · rw [if_neg hbranch, if_neg hbranch]
    split
    · rfl
    · rfl

end Functions

end LinuxHacks.Uwrr
