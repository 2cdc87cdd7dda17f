import LinuxHacks.Errno
import LinuxHacks.Lib.Transition
import Mathlib.Logic.Function.Basic
import Mathlib.Tactic

/-!
# The UWRR scheduler on one runqueue (`HW4/kernel/sched.c`, `HW4/kernel/user.c`)

Tasks, users and the runqueue, with the scheduler functions that move tasks
between priority arrays. A uniprocessor: the `CONFIG_SMP` parts do nothing.

A runqueue array is one of `arrays[2]`; each user has an array of its own for
its UWRR tasks. A list is written from its head. `user->uwrr_list` is linked
exactly when the user is a member of `uwrr_userlist`.

Clock values, capabilities, the answers of the security hooks and pending
signals are arguments. `BUG_ON`, a NULL `array` that is followed and a list
head that is used as a task give `none`.
-/

namespace LinuxHacks.Uwrr

open LinuxHacks.Lib

abbrev TaskId := Nat

abbrev UserId := Nat

inductive Policy where
  | normal
  | fifo
  | rr
  | uwrr
deriving DecidableEq, Repr

/-- `p->state`. -/
inductive RunState where
  | running
  | interruptible
  | uninterruptible
  | other
deriving DecidableEq, Repr

/-- What `p->array` points to. -/
inductive ArrayRef where
  /-- `&rq->arrays[i]`. -/
  | rq (i : Bool)
  /-- `&user->uwrr_tasks`. -/
  | user (u : UserId)
deriving DecidableEq, Repr

/-! ## Constants -/

def MAX_RT_PRIO : Int := 100

def MAX_PRIO : Int := 140

def UWRR_TASK_PRIO : Int := 120

def UWRR_DEFAULT_WEIGHT : Nat := 10

def UWRR_START_SLICE : Nat := 100 * UWRR_DEFAULT_WEIGHT

def HZ : Nat := 1000

def DEF_TIMESLICE : Nat := 100 * HZ / 1000

def MIN_TIMESLICE : Nat := max (5 * HZ / 1000) 1

def MAX_BONUS : Nat := 10

def MAX_SLEEP_AVG : Nat := DEF_TIMESLICE * MAX_BONUS

def NS_PER_JIFFY : Nat := 1000000000 / HZ

def NS_MAX_SLEEP_AVG : Nat := MAX_SLEEP_AVG * NS_PER_JIFFY

/-- `unsigned int` and `unsigned long` (`arch/i386`). -/
def u32 (n : Nat) : Nat := n % 2 ^ 32

/-- `--x` on an `unsigned int`. -/
def dec32 (n : Nat) : Nat := u32 (n + (2 ^ 32 - 1))

/-! ## Data -/

structure Task where
  policy : Policy
  prio : Int
  staticPrio : Int
  rtPriority : Int
  timeSlice : Nat
  firstTimeSlice : Bool
  sleepAvg : Nat
  timestamp : Nat
  activated : Int
  hasMm : Bool
  state : RunState
  needResched : Bool
  user : UserId
  array : Option ArrayRef
deriving DecidableEq, Repr

structure User where
  count : Int
  uwrrWeight : Nat
  uwrrTimeSlice : Nat
deriving DecidableEq, Repr

structure PrioArray where
  nrActive : Int
  bitmap : Int → Bool
  queue : Int → List TaskId

/-- The runqueue with all tasks and users. `forking q` is the child that `q`
made in `copy_process` and has not passed to `wake_up_new_task` yet. -/
structure State where
  task : TaskId → Task
  created : TaskId → Bool
  forking : TaskId → Option TaskId
  user : UserId → User
  arrays : ArrayRef → PrioArray
  active : Bool
  nrRunning : Int
  uwrrRunning : Int
  uwrrUserlist : List UserId
  curr : TaskId
  expiredTimestamp : Nat
  bestExpiredPrio : Int
  nrUninterruptible : Int
  /-- A `BUG` was reached. -/
  bug : Bool

/-- The idle task of the runqueue. -/
def idle : TaskId := 0

def rootUser : UserId := 0

def State.activeArray (s : State) : ArrayRef := .rq s.active

def State.expiredArray (s : State) : ArrayRef := .rq (!s.active)

def State.modTask (s : State) (p : TaskId) (f : Task → Task) : State :=
  { s with task := Function.update s.task p (f (s.task p)) }

def State.modArray (s : State) (r : ArrayRef) (f : PrioArray → PrioArray) : State :=
  { s with arrays := Function.update s.arrays r (f (s.arrays r)) }

def State.modUser (s : State) (u : UserId) (f : User → User) : State :=
  { s with user := Function.update s.user u (f (s.user u)) }

def reschedTask (s : State) (p : TaskId) : State :=
  s.modTask p fun t => { t with needResched := true }

/-! ## Priorities and time slices -/

def rtTask (t : Task) : Bool := decide (t.prio < MAX_RT_PRIO)

def niceToPrio (nice : Int) : Int := MAX_RT_PRIO + nice + 20

def prioToNice (prio : Int) : Int := prio - MAX_RT_PRIO - 20

def taskNice (t : Task) : Int := prioToNice t.staticPrio

def scalePrio (x : Nat) (prio : Int) : Nat :=
  (max ((x : Int) * ( MAX_PRIO - prio) / 20) MIN_TIMESLICE).toNat

def taskTimeslice (t : Task) : Nat :=
  if t.staticPrio < niceToPrio 0 then scalePrio (DEF_TIMESLICE * 4) t.staticPrio
  else scalePrio DEF_TIMESLICE t.staticPrio

def currentBonus (t : Task) : Nat := t.sleepAvg / NS_PER_JIFFY * MAX_BONUS / MAX_SLEEP_AVG

/-- `(MAX_BONUS - CURRENT_BONUS(p)) ? : 1`. -/
def bonusLeft (t : Task) : Nat :=
  let left := u32 (MAX_BONUS + 2 ^ 32 - currentBonus t)
  if left = 0 then 1 else left

/-- `DELTA(p)`; the division of C cuts towards zero. -/
def delta (t : Task) : Int := Int.tdiv (taskNice t * MAX_BONUS) 40 + 2

def taskInteractive (t : Task) : Bool := decide (t.prio ≤ t.staticPrio - delta t)

def interactiveSleep (t : Task) : Nat :=
  (Int.tdiv (MAX_SLEEP_AVG * (MAX_BONUS / 2 + delta t + 1)) MAX_BONUS - 1).toNat * NS_PER_JIFFY

def timesliceGranularity (t : Task) : Nat := 10 * HZ / 1000 * 2 ^ (bonusLeft t - 1)

def effectivePrio (t : Task) : Int :=
  if rtTask t || decide (t.policy = .uwrr) then t.prio
  else
    let bonus : Int := currentBonus t - MAX_BONUS / 2
    let prio := t.staticPrio - bonus
    if prio < MAX_RT_PRIO then MAX_RT_PRIO
    else if MAX_PRIO - 1 < prio then MAX_PRIO - 1
    else prio

/-- The new `sleep_avg` of `recalc_task_prio`. -/
def recalcSleepAvg (t : Task) (now : Nat) : Nat :=
  let sleepTime := min ((now + 2 ^ 64 - t.timestamp) % 2 ^ 64) NS_MAX_SLEEP_AVG
  if 0 < sleepTime then
    if t.hasMm && decide (t.activated ≠ -1) && decide (interactiveSleep t < sleepTime) then
      (MAX_SLEEP_AVG - DEF_TIMESLICE) * NS_PER_JIFFY
    else
      let sleepTime := u32 (sleepTime * bonusLeft t)
      if decide (t.activated = -1) && t.hasMm && decide (interactiveSleep t ≤ t.sleepAvg) then
        min t.sleepAvg NS_MAX_SLEEP_AVG
      else if decide (t.activated = -1) && t.hasMm &&
          decide (interactiveSleep t ≤ u32 (t.sleepAvg + sleepTime)) then
        min (interactiveSleep t) NS_MAX_SLEEP_AVG
      else min (u32 (t.sleepAvg + sleepTime)) NS_MAX_SLEEP_AVG
  else t.sleepAvg

def recalcTaskPrio (t : Task) (now : Nat) : Task :=
  let t := { t with sleepAvg := recalcSleepAvg t now }
  { t with prio := effectivePrio t }

def taskPreemptsCurr (s : State) (p : TaskId) : Bool :=
  if (s.task p).policy = .uwrr then decide ((s.task s.curr).policy = .normal)
  else if (s.task s.curr).policy = .uwrr then rtTask (s.task p)
  else decide ((s.task p).prio < (s.task s.curr).prio)

/-! ## Priority arrays -/

/-- `list_del(&p->run_list)` from the array that holds `p`. -/
def PrioArray.listDel (a : PrioArray) (p : TaskId) : PrioArray :=
  { a with queue := fun k => (a.queue k).erase p }

def dequeueTask (s : State) (p : TaskId) (r : ArrayRef) : State :=
  s.modArray r fun a =>
    let a := { a.listDel p with nrActive := a.nrActive - 1 }
    if a.queue (s.task p).prio = [] then
      { a with bitmap := Function.update a.bitmap (s.task p).prio false }
    else a

def enqueueTask (s : State) (p : TaskId) (r : ArrayRef) : State :=
  (s.modArray r fun a =>
    { nrActive := a.nrActive + 1
      bitmap := Function.update a.bitmap (s.task p).prio true
      queue := Function.update a.queue (s.task p).prio (a.queue (s.task p).prio ++ [p]) }).modTask p
    fun t => { t with array := some r }

/-- `list_move_tail`. -/
def requeueTask (s : State) (p : TaskId) (r : ArrayRef) : State :=
  s.modArray r fun a =>
    let a := a.listDel p
    { a with
      queue := Function.update a.queue (s.task p).prio (a.queue (s.task p).prio ++ [p]) }

/-- `list_add_tail(&p->run_list, &q->run_list)`: in front of `q`, where `q` is. -/
def insertBefore (p q : TaskId) : List TaskId → List TaskId
  | [] => []
  | x :: l => if x = q then p :: x :: l else x :: insertBefore p q l

/-! ## Runnable or not -/

/-- `__activate_task`. -/
def activateTask' (s : State) (p : TaskId) : State :=
  let s :=
    if (s.task p).policy = .uwrr then
      let u := (s.task p).user
      let s := enqueueTask { s with uwrrRunning := s.uwrrRunning + 1 } p (.user u)
      if u ∈ s.uwrrUserlist then s else { s with uwrrUserlist := s.uwrrUserlist ++ [u] }
    else enqueueTask s p s.activeArray
  { s with nrRunning := s.nrRunning + 1 }

def activateTask (s : State) (p : TaskId) (now : Nat) (inInterrupt : Bool) : State :=
  activateTask' (s.modTask p fun t =>
    let t := recalcTaskPrio t now
    { t with
      activated := if t.activated = 0 then (if inInterrupt then 2 else 1) else t.activated
      timestamp := now }) p

/-- For a UWRR task the user is unlinked when the array holds no other task. -/
def deactivateTask (s : State) (p : TaskId) : Option State :=
  match (s.task p).array with
  | none => none
  | some r =>
      let s := { s with nrRunning := s.nrRunning - 1 }
      let s :=
        if (s.task p).policy = .uwrr then
          { s with
            uwrrRunning := s.uwrrRunning - 1
            uwrrUserlist := if (s.arrays r).nrActive = 1 then
              s.uwrrUserlist.erase (s.task p).user else s.uwrrUserlist }
        else s
      some ((dequeueTask s p r).modTask p fun t => { t with array := none })

/-- `try_to_wake_up`; `mask` says whether the state of `p` is in the mask. -/
def tryToWakeUp (s : State) (p : TaskId) (mask sync : Bool) (now : Nat) (inInterrupt : Bool) :
    State :=
  if (s.task p).state = .running || !mask then s
  else
    let s :=
      if (s.task p).array ≠ none then s
      else
        let s :=
          if (s.task p).state = .uninterruptible then
            { s.modTask p fun t => { t with activated := -1 } with
              nrUninterruptible := s.nrUninterruptible - 1 }
          else s
        let s := activateTask s p now inInterrupt
        if !sync && taskPreemptsCurr s p then reschedTask s s.curr else s
    s.modTask p fun t => { t with state := .running }

/-! ## Policies and nice values -/

/-- The fields `__setscheduler` writes. -/
def setschedulerTask (t : Task) (policy : Policy) (prio : Int) : Task :=
  match policy with
  | .uwrr =>
      { t with
        policy := .uwrr, rtPriority := 0, prio := UWRR_TASK_PRIO, staticPrio := UWRR_TASK_PRIO }
  | .normal => { t with policy := .normal, rtPriority := prio, prio := t.staticPrio }
  | policy => { t with policy := policy, rtPriority := prio, prio := MAX_RT_PRIO - 1 - prio }

/-- `__setscheduler`. -/
def setscheduler' (s : State) (p : TaskId) (policy : Policy) (prio : Int) : Option State :=
  if (s.task p).array ≠ none then none
  else some (s.modTask p fun t => setschedulerTask t policy prio)

/-- The part of `sched_setscheduler` under the runqueue lock. -/
def setschedulerLocked (s : State) (p : TaskId) (policy : Policy) (prio : Int) : Option State :=
  if (s.task p).array = none then setscheduler' s p policy prio
  else do
    let oldprio := (s.task p).prio
    let s ← deactivateTask s p
    let s ← setscheduler' s p policy prio
    let s := activateTask' s p
    some (if s.curr = p then
        if oldprio < (s.task p).prio then reschedTask s s.curr else s
      else if taskPreemptsCurr s p then reschedTask s s.curr
      else s)

/-- `sched_setscheduler`; a negative policy keeps the one of `p`. `capable` is
`CAP_SYS_NICE`, `sameUid` the comparison of the uids, `hook` the answer of the
security module. -/
def schedSetscheduler (s : State) (p : TaskId) (policy : Option Policy) (prio : Int)
    (capable sameUid : Bool) (hook : Int) : Option (Int × State) :=
  let policy := policy.getD (s.task p).policy
  if prio < 0 || decide (prio > MAX_RT_PRIO - 1) then some (-EINVAL, s)
  else if decide (policy = .normal) != decide (prio = 0) then some (-EINVAL, s)
  else if (decide (policy = .fifo) || decide (policy = .rr)) && !capable then some (-EPERM, s)
  else if !sameUid && !capable then some (-EPERM, s)
  else if hook ≠ 0 then some (hook, s)
  else do
    let s ← setschedulerLocked s p policy prio
    some (0, s)

/-- The new priorities of `set_user_nice` for a task that is not real-time. -/
def niceTask (t : Task) (nice : Int) : Task :=
  { t with
    staticPrio := niceToPrio nice
    prio := t.prio + (niceToPrio nice - t.prio) }

/-- Nothing here distinguishes UWRR tasks. -/
def setUserNice (s : State) (p : TaskId) (nice : Int) : State :=
  if taskNice (s.task p) = nice || decide (nice < -20) || decide (19 < nice) then s
  else if rtTask (s.task p) then s.modTask p fun t => { t with staticPrio := niceToPrio nice }
  else
    match (s.task p).array with
    | none => s.modTask p fun t => niceTask t nice
    | some r =>
        let delta := niceToPrio nice - (s.task p).prio
        let s := enqueueTask ((dequeueTask s p r).modTask p fun t => niceTask t nice) p r
        if delta < 0 || (decide (0 < delta) && decide (s.curr = p)) then reschedTask s s.curr else s

def sysNice (s : State) (increment : Int) (capable : Bool) (hook : Int) : Int × State :=
  if increment < 0 && !capable then (-EPERM, s)
  else
    let increment := min (max increment (-40)) 40
    let nice := min (max (prioToNice (s.task s.curr).staticPrio + increment) (-20)) 19
    if hook ≠ 0 then (hook, s) else (0, setUserNice s s.curr nice)

/-! ## Yield and tick -/

/-- `sys_sched_yield` up to its call of `schedule`. -/
def sysSchedYield (s : State) : Option State :=
  match (s.task s.curr).array with
  | none => none
  | some r =>
      let target :=
        if (s.task s.curr).policy = .uwrr then r
        else if rtTask (s.task s.curr) then s.activeArray
        else s.expiredArray
      some (if r ≠ target then enqueueTask (dequeueTask s s.curr r) s.curr target
        else requeueTask s s.curr r)

def expiredStarving (s : State) (jiffies : Nat) : Bool :=
  (decide (s.expiredTimestamp ≠ 0) &&
    decide ((MAX_SLEEP_AVG : Int) * s.nrRunning + 1 ≤ (jiffies : Int) - s.expiredTimestamp)) ||
  decide (s.bestExpiredPrio < (s.task s.curr).staticPrio)

/-- A used-up slice: a new one, and the flag. -/
def refillSlice (t : Task) : Task :=
  { t with timeSlice := taskTimeslice t, firstTimeSlice := false, needResched := true }

/-- The UWRR branch of `scheduler_tick`, first half: the slice of the task. -/
def uwrrTickTask (s : State) (p : TaskId) : Option State :=
  let s := s.modTask p fun t => { t with timeSlice := dec32 t.timeSlice }
  if (s.task p).timeSlice = 0 then
    match (s.task p).array with
    | none => none
    | some r => some (requeueTask (s.modTask p refillSlice) p r)
  else some s

/-- Second half: the slice of its user. -/
def uwrrTickUser (s : State) (p : TaskId) : State :=
  let u := (s.task p).user
  let s := s.modUser u fun v => { v with uwrrTimeSlice := dec32 v.uwrrTimeSlice }
  if (s.user u).uwrrTimeSlice = 0 then
    reschedTask
      { s.modUser u fun v => { v with uwrrTimeSlice := u32 (100 * v.uwrrWeight) } with
        uwrrUserlist := s.uwrrUserlist.erase u ++ [u] } p
  else s

def uwrrTick (s : State) (p : TaskId) : Option State :=
  if (s.task p).staticPrio ≠ UWRR_TASK_PRIO || decide ((s.task p).prio ≠ UWRR_TASK_PRIO) then none
  else do
    let s ← uwrrTickTask s p
    some (uwrrTickUser s p)

/-- A `SCHED_NORMAL` task whose slice is used up goes to the expired array,
or back to the active one if it is interactive. -/
def expireTask (s : State) (p : TaskId) (jiffies : Nat) : State :=
  let s := dequeueTask s p s.activeArray
  let s := s.modTask p fun t => refillSlice { t with prio := effectivePrio t }
  let s := if s.expiredTimestamp = 0 then { s with expiredTimestamp := jiffies } else s
  if !taskInteractive (s.task p) || expiredStarving s jiffies then
    let s := enqueueTask s p s.expiredArray
    if (s.task p).staticPrio < s.bestExpiredPrio then
      { s with bestExpiredPrio := (s.task p).staticPrio }
    else s
  else enqueueTask s p s.activeArray

def schedulerTick (s : State) (jiffies : Nat) : Option State :=
  let p := s.curr
  let t := s.task p
  if p = idle then some s
  else if t.array ≠ some s.activeArray ∧ t.policy ≠ .uwrr then some (reschedTask s p)
  else if rtTask t then
    if t.policy = .rr then
      let s := s.modTask p fun t => { t with timeSlice := dec32 t.timeSlice }
      if (s.task p).timeSlice = 0 then
        some (requeueTask (s.modTask p refillSlice) p s.activeArray)
      else some s
    else some s
  else if t.policy = .uwrr then uwrrTick s p
  else
    let s := s.modTask p fun t => { t with timeSlice := dec32 t.timeSlice }
    let t := s.task p
    if t.timeSlice = 0 then some (expireTask s p jiffies)
    else if taskInteractive t &&
        decide (u32 (taskTimeslice t + 2 ^ 32 - t.timeSlice) % timesliceGranularity t = 0) &&
        decide (timesliceGranularity t ≤ t.timeSlice) && decide (t.array = some s.activeArray) then
      some (reschedTask (requeueTask s p s.activeArray) p)
    else some s

/-! ## Fork -/

/-- `copy_process`: the child is a copy of the caller with a reference on its
user; then `sched_fork`. -/
def fork (s : State) (child : TaskId) (now jiffies : Nat) : Option State :=
  let t := s.task s.curr
  let s : State :=
    { s.modUser t.user fun v => { v with count := v.count + 1 } with
      created := Function.update s.created child true
      forking := Function.update s.forking s.curr (some child)
      task := Function.update s.task child
        { t with
          state := .running
          array := none
          timeSlice := u32 (t.timeSlice + 1) / 2
          firstTimeSlice := true
          timestamp := now } }
  let s := s.modTask s.curr fun t => { t with timeSlice := t.timeSlice / 2 }
  if (s.task s.curr).timeSlice = 0 then
    schedulerTick (s.modTask s.curr fun t => { t with timeSlice := 1 }) jiffies
  else some s

/-- The place of `p` next to the current task, `r` being its array. -/
def enterBeside (s : State) (p : TaskId) (r : ArrayRef) : State :=
  let s := s.modTask p fun t => { t with prio := (s.task s.curr).prio, array := some r }
  let s := s.modArray r fun a =>
    { a with
      queue := fun k => insertBefore p s.curr (a.queue k)
      nrActive := a.nrActive + 1 }
  { s with
    nrRunning := s.nrRunning + 1
    uwrrRunning := if (s.task p).policy = .uwrr then s.uwrrRunning + 1 else s.uwrrRunning }

def penalizeSleepAvg (t : Task) (penalty : Nat) : Task :=
  { t with
    sleepAvg := u32 (currentBonus t * penalty / 100 * MAX_SLEEP_AVG / MAX_BONUS * NS_PER_JIFFY) }

/-- Where `wake_up_new_task` puts the child. -/
def placeNewTask (s : State) (p : TaskId) (cloneVm : Bool) : State :=
  if cloneVm then activateTask' s p
  else
    match (s.task s.curr).array with
    | none => reschedTask (activateTask' s p) s.curr
    | some r => reschedTask (enterBeside s p r) s.curr

/-- The priority of a new child. -/
def newTaskPrio (t : Task) : Task :=
  let t := penalizeSleepAvg t 95
  { t with prio := effectivePrio t }

/-- `wake_up_new_task` by the current task. -/
def wakeUpNewTask (s : State) (p : TaskId) (cloneVm : Bool) : Option State :=
  if (s.task p).state ≠ .running then none
  else
    let s := { s with forking := Function.update s.forking s.curr none }
    let s := placeNewTask (s.modTask p newTaskPrio) p cloneVm
    some (s.modTask s.curr fun t => penalizeSleepAvg t 100)

/-! ## Changing the user -/

def uwrrSwitchUser (s : State) (p : TaskId) (old : UserId) : Option State :=
  if (s.task p).policy ≠ .uwrr then some s
  else do
    let s ←
      if (s.task p).array = none then some s
      else do
        let s ← deactivateTask s p
        some (activateTask' s p)
    some (if (s.arrays (.user old)).nrActive = 0 then
        { s with uwrrUserlist := s.uwrrUserlist.erase old }
      else s)

/-- The fields `alloc_uid` gives a new user. -/
def freshUser : User := ⟨0, UWRR_DEFAULT_WEIGHT, UWRR_START_SLICE⟩

/-- `free_uid`: a user with unmodified UWRR data is unlinked and freed when the
last reference goes. -/
def freeUid (s : State) (u : UserId) : State :=
  let s := s.modUser u fun v => { v with count := v.count - 1 }
  if (s.user u).count = 0 ∧ (s.user u).uwrrWeight = UWRR_DEFAULT_WEIGHT ∧
      (s.user u).uwrrTimeSlice = UWRR_START_SLICE then
    { s.modUser u fun _ => freshUser with uwrrUserlist := s.uwrrUserlist.erase u }
  else s

/-- `switch_uid(new_user)`, with the reference its caller took in `alloc_uid`. -/
def switchUid (s : State) (new : UserId) : Option State := do
  let old := (s.task s.curr).user
  let s := s.modUser new fun v => { v with count := v.count + 1 }
  let s := s.modTask s.curr fun t => { t with user := new }
  let s ← uwrrSwitchUser s s.curr old
  some (freeUid s old)

/-! ## `schedule` -/

def schedFindFirstBit (a : PrioArray) : Int :=
  match (List.range 140).find? (fun k : Nat => a.bitmap (k : Int)) with
  | some k => k
  | none => MAX_PRIO

/-- The loop that looks for the first user with a task, and unlinks those
without; `none` is the `BUG_ON` on an empty list. -/
def pickUser (s : State) : List UserId → Option (UserId × List UserId)
  | [] => none
  | u :: l => if (s.arrays (.user u)).nrActive = 0 then pickUser s l else some (u, u :: l)

/-- `run_time` divided for interactive tasks. -/
def runTime (t : Task) (now : Nat) : Nat :=
  let elapsed := (now + 2 ^ 64 - t.timestamp) % 2 ^ 64
  (if elapsed < NS_MAX_SLEEP_AVG then elapsed else NS_MAX_SLEEP_AVG) /
    (if currentBonus t = 0 then 1 else currentBonus t)

/-- `prev` goes to sleep, unless it was preempted or a signal is pending. -/
def putPrev (s : State) (preemptActive signalPending : Bool) : Option State :=
  let prev := s.curr
  if (s.task prev).state = .running || preemptActive then some s
  else if decide ((s.task prev).state = .interruptible) && signalPending then
    some (s.modTask prev fun t => { t with state := .running })
  else
    deactivateTask
      (if (s.task prev).state = .uninterruptible then
        { s with nrUninterruptible := s.nrUninterruptible + 1 } else s) prev

/-- The switch of the arrays. -/
def swapArrays (s : State) : State :=
  if (s.arrays s.activeArray).nrActive = 0 ∧ s.uwrrRunning = 0 then
    { s with active := !s.active, expiredTimestamp := 0, bestExpiredPrio := MAX_PRIO }
  else s

/-- The array and the priority `schedule` takes the next task from. -/
def pickQueue (s : State) : Option (State × List TaskId) :=
  let idx := if (s.arrays s.activeArray).nrActive ≠ 0 then
    schedFindFirstBit (s.arrays s.activeArray) else MAX_PRIO
  if MAX_RT_PRIO ≤ idx ∧ 0 < s.uwrrRunning then do
    let (u, l) ← pickUser s s.uwrrUserlist
    some ({ s with uwrrUserlist := l }, (s.arrays (.user u)).queue UWRR_TASK_PRIO)
  else if idx = MAX_PRIO then none
  else some (s, (s.arrays s.activeArray).queue idx)

/-- Credit for the time the next task waited on the runqueue. -/
def creditNext (s : State) (next : TaskId) (now : Nat) : Option State :=
  let t := s.task next
  if !rtTask t && decide (t.policy ≠ .uwrr) && decide (0 < t.activated) then
    match t.array with
    | none => none
    | some r =>
        let delta := (now + 2 ^ 64 - t.timestamp) % 2 ^ 64
        let delta := if t.activated = 1 then delta * (30 * 128 / 100) % 2 ^ 64 / 128 else delta
        let s := dequeueTask s next r
        let s := s.modTask next fun t => recalcTaskPrio t ((t.timestamp + delta) % 2 ^ 64)
        some (enqueueTask s next r)
  else some s

/-- From the label `switch_tasks`. -/
def switchTasks (s : State) (next : TaskId) (now runTime : Nat) : State :=
  let prev := s.curr
  let s := s.modTask prev fun t =>
    { t with
      needResched := false
      sleepAvg := t.sleepAvg - runTime
      timestamp := now }
  if prev ≠ next then
    { s.modTask next fun t => { t with timestamp := now } with curr := next }
  else s

/-- One pass through `schedule`. -/
def schedule (s : State) (now : Nat) (preemptActive signalPending : Bool) : Option State := do
  let run := runTime (s.task s.curr) now
  let s ← putPrev s preemptActive signalPending
  if s.nrRunning = 0 then
    some (switchTasks { s with expiredTimestamp := 0 } idle now run)
  else do
    let (s, queue) ← pickQueue (swapArrays s)
    match queue with
    | [] => none
    | next :: _ => do
        let s ← creditNext s next now
        some (switchTasks (s.modTask next fun t => { t with activated := 0 }) next now run)

/-! ## The system -/

inductive Op where
  | wakeUp (p : TaskId) (mask sync inInterrupt : Bool) (now : Nat)
  | activate (p : TaskId) (inInterrupt : Bool) (now : Nat)
  | deactivate (p : TaskId)
  | setscheduler (p : TaskId) (policy : Option Policy) (prio : Int) (capable sameUid : Bool)
      (hook : Int)
  | setUserNice (p : TaskId) (nice : Int)
  | sysNice (increment : Int) (capable : Bool) (hook : Int)
  | yield
  | tick (jiffies : Nat)
  | fork (child : TaskId) (now jiffies : Nat)
  | wakeUpNew (p : TaskId) (cloneVm : Bool)
  | switchUid (new : UserId)
  /-- `set_current_state`. -/
  | setState (st : RunState)
  | schedule (now : Nat) (preemptActive signalPending : Bool)

/-- When the rest of the kernel makes the call. The idle task makes no system
call and never sleeps; a child is inserted by `wake_up_new_task` of its parent,
which is in `fork` until then; the current task leaves the runqueue in
`schedule` only. -/
def Enabled (s : State) : Op → Prop
  | .wakeUp p _ _ _ _ => s.created p = true
  | .activate p _ _ => s.created p = true ∧ p ≠ idle ∧ (s.task p).array = none ∧
      ∀ q, s.forking q ≠ some p
  | .deactivate p => (s.task p).array ≠ none ∧ p ≠ s.curr
  | .setscheduler p _ _ _ _ _ => s.created p = true ∧ p ≠ idle
  | .setUserNice p _ => s.created p = true ∧ p ≠ idle
  | .sysNice _ _ _ => s.curr ≠ idle
  | .yield => s.curr ≠ idle
  | .tick _ => True
  | .fork child _ _ => s.created child = false ∧ s.forking s.curr = none
  | .wakeUpNew p _ => s.forking s.curr = some p
  | .switchUid _ => s.curr ≠ idle ∧ s.forking s.curr = none
  | .setState _ => s.curr ≠ idle
  | .schedule _ _ _ => True

def runOp (s : State) : Op → Option State
  | .wakeUp p mask sync inInterrupt now => some (tryToWakeUp s p mask sync now inInterrupt)
  | .activate p inInterrupt now => some (activateTask s p now inInterrupt)
  | .deactivate p => deactivateTask s p
  | .setscheduler p policy prio capable sameUid hook =>
      (schedSetscheduler s p policy prio capable sameUid hook).map Prod.snd
  | .setUserNice p nice => some (setUserNice s p nice)
  | .sysNice increment capable hook => some (sysNice s increment capable hook).2
  | .yield => sysSchedYield s
  | .tick jiffies => schedulerTick s jiffies
  | .fork child now jiffies => fork s child now jiffies
  | .wakeUpNew p cloneVm => wakeUpNewTask s p cloneVm
  | .switchUid new => switchUid s new
  | .setState st => some (s.modTask s.curr fun t => { t with state := st })
  | .schedule now preemptActive signalPending => schedule s now preemptActive signalPending

inductive Step : State → Op → State → Prop
  | run {s s' : State} {op : Op} : Enabled s op → runOp s op = some s' → Step s op s'
  | bug {s : State} {op : Op} : Enabled s op → runOp s op = none →
      Step s op { s with bug := true }

def emptyArray : PrioArray := ⟨0, fun _ => false, fun _ => []⟩

/-- The idle task after `init_idle`; also what an unused slot holds. -/
def idleTask : Task where
  policy := .normal
  prio := MAX_PRIO
  staticPrio := 120
  rtPriority := 0
  timeSlice := HZ
  firstTimeSlice := false
  sleepAvg := 0
  timestamp := 0
  activated := 0
  hasMm := false
  state := .running
  needResched := true
  user := rootUser
  array := none

/-- After `sched_init` and `uid_cache_init`: the idle task runs, as root. -/
def State.init : State where
  task := fun _ => idleTask
  created := fun p => decide (p = idle)
  forking := fun _ => none
  user := fun u => { freshUser with count := if u = rootUser then 1 else 0 }
  arrays := fun _ => emptyArray
  active := false
  nrRunning := 0
  uwrrRunning := 0
  uwrrUserlist := []
  curr := idle
  expiredTimestamp := 0
  bestExpiredPrio := MAX_PRIO
  nrUninterruptible := 0
  bug := false

def system : System State Op where
  init := fun s => s = State.init
  step := Step

end LinuxHacks.Uwrr
