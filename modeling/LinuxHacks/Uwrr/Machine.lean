import Mathlib.Data.Fintype.Basic
import Mathlib.Data.Set.Finite.Basic
import LinuxHacks.Uwrr.Model

/-!
# The UWRR scheduler on several runqueues (`CONFIG_SMP`)

One runqueue for each CPU; the tasks, the users and the arrays of the users are
shared. A user has a single `uwrr_list`, so it is in the list of at most one
runqueue: `list_empty` asks whether it is in any, and `list_del_init` takes it
out of whichever it is in.

A function that works on one runqueue works on what its CPU sees (`Machine.load`)
and writes it back (`Machine.store`); what does not touch `uwrr_list` is taken
from the model of one runqueue. In `p->array` an array `.rq i` is one of the
runqueue the function works on, the one of the CPU of `p`. Every CPU has an idle
task of its own, all of them with the number `idle`.

All CPUs are online, and `CONFIG_SCHED_SMT` is off.
-/

namespace LinuxHacks.Uwrr

open LinuxHacks.Lib

structure Runqueue where
  /-- `rq->idle`. -/
  idleTask : Task
  arrays : Bool → PrioArray
  active : Bool
  nrRunning : Int
  uwrrRunning : Int
  uwrrUserlist : List UserId
  curr : TaskId
  expiredTimestamp : Nat
  bestExpiredPrio : Int
  nrUninterruptible : Int
  timestampLastTick : Nat

structure Machine (Cpu : Type) where
  rq : Cpu → Runqueue
  task : TaskId → Task
  created : TaskId → Bool
  /-- `task_cpu`. -/
  cpu : TaskId → Cpu
  cpusAllowed : TaskId → Cpu → Bool
  user : UserId → User
  uwrrTasks : UserId → PrioArray
  /-- A `BUG` was reached. -/
  bug : Bool

namespace Machine

variable {Cpu : Type} [DecidableEq Cpu]

/-! ## One CPU -/

/-- The runqueue of `c`, with the tasks and users. -/
def load (m : Machine Cpu) (c : Cpu) : State where
  task := Function.update m.task idle (m.rq c).idleTask
  created := m.created
  forking := fun _ => none
  user := m.user
  arrays
    | .rq i => (m.rq c).arrays i
    | .user u => m.uwrrTasks u
  active := (m.rq c).active
  nrRunning := (m.rq c).nrRunning
  uwrrRunning := (m.rq c).uwrrRunning
  uwrrUserlist := (m.rq c).uwrrUserlist
  curr := (m.rq c).curr
  expiredTimestamp := (m.rq c).expiredTimestamp
  bestExpiredPrio := (m.rq c).bestExpiredPrio
  nrUninterruptible := (m.rq c).nrUninterruptible
  bug := m.bug

def store (m : Machine Cpu) (c : Cpu) (s : State) : Machine Cpu :=
  { m with
    rq := Function.update m.rq c
      { idleTask := s.task idle
        arrays := fun i => s.arrays (.rq i)
        active := s.active
        nrRunning := s.nrRunning
        uwrrRunning := s.uwrrRunning
        uwrrUserlist := s.uwrrUserlist
        curr := s.curr
        expiredTimestamp := s.expiredTimestamp
        bestExpiredPrio := s.bestExpiredPrio
        nrUninterruptible := s.nrUninterruptible
        timestampLastTick := (m.rq c).timestampLastTick }
    task := Function.update s.task idle (m.task idle)
    user := s.user
    uwrrTasks := fun u => s.arrays (.user u)
    bug := s.bug }

/-- `set_task_cpu`. -/
def setTaskCpu (m : Machine Cpu) (p : TaskId) (c : Cpu) : Machine Cpu :=
  { m with cpu := Function.update m.cpu p c }

def modTask (m : Machine Cpu) (p : TaskId) (f : Task → Task) : Machine Cpu :=
  { m with task := Function.update m.task p (f (m.task p)) }

/-! ## The list of users -/

/-- `!list_empty(&user->uwrr_list)`. -/
def Linked (m : Machine Cpu) (u : UserId) : Prop := ∃ c, u ∈ (m.rq c).uwrrUserlist

instance [Fintype Cpu] (m : Machine Cpu) (u : UserId) : Decidable (m.Linked u) :=
  inferInstanceAs (Decidable (∃ c, u ∈ (m.rq c).uwrrUserlist))

/-- `list_del_init(&user->uwrr_list)`. -/
def listDel (m : Machine Cpu) (u : UserId) : Machine Cpu :=
  { m with
    rq := fun c => { m.rq c with uwrrUserlist := (m.rq c).uwrrUserlist.erase u } }

/-- `list_add_tail(&user->uwrr_list, &rq->uwrr_userlist)`. -/
def listAddTail (m : Machine Cpu) (c : Cpu) (u : UserId) : Machine Cpu :=
  let s := m.load c
  m.store c { s with uwrrUserlist := s.uwrrUserlist ++ [u] }

/-! ## Runnable or not -/

section Activate

variable [Fintype Cpu]

/-- `__activate_task(p, cpu_rq(c))`. -/
def activateTask' (m : Machine Cpu) (c : Cpu) (p : TaskId) : Machine Cpu :=
  let s := m.load c
  let m :=
    if (s.task p).policy = .uwrr then
      let u := (s.task p).user
      let m := m.store c (enqueueTask { s with uwrrRunning := s.uwrrRunning + 1 } p (.user u))
      if m.Linked u then m else m.listAddTail c u
    else m.store c (enqueueTask s p s.activeArray)
  let s := m.load c
  m.store c { s with nrRunning := s.nrRunning + 1 }

/-- The clock as the runqueue of `c` reads it, on the CPU `this`. -/
def rqClock (m : Machine Cpu) (c this : Cpu) (now : Nat) : Nat :=
  if c = this then now
  else (now + (2 ^ 64 - (m.rq this).timestampLastTick % 2 ^ 64) +
    (m.rq c).timestampLastTick) % 2 ^ 64

/-- `activate_task(p, cpu_rq(c), c == this)`. -/
def activateTask (m : Machine Cpu) (c this : Cpu) (p : TaskId) (now : Nat) (inInterrupt : Bool) :
    Machine Cpu :=
  let now := m.rqClock c this now
  (m.modTask p fun t =>
    let t := recalcTaskPrio t now
    { t with
      activated := if t.activated = 0 then (if inInterrupt then 2 else 1) else t.activated
      timestamp := now }).activateTask' c p

end Activate

/-- `deactivate_task(p, cpu_rq(c))`. -/
def deactivateTask (m : Machine Cpu) (c : Cpu) (p : TaskId) : Option (Machine Cpu) :=
  let s := m.load c
  match (s.task p).array with
  | none => none
  | some r =>
      let m := m.store c { s with nrRunning := s.nrRunning - 1 }
      let m :=
        if (s.task p).policy = .uwrr then
          let s := m.load c
          let m := m.store c { s with uwrrRunning := s.uwrrRunning - 1 }
          if (s.arrays r).nrActive = 1 then m.listDel (s.task p).user else m
        else m
      some (m.store c ((dequeueTask (m.load c) p r).modTask p fun t => { t with array := none }))

/-! ## Moving a task to another CPU -/

/-- `p->timestamp - rq_src->timestamp_last_tick + rq_dest->timestamp_last_tick`. -/
def movedTimestamp (m : Machine Cpu) (src dest : Cpu) (t : Task) : Nat :=
  (t.timestamp + (2 ^ 64 - (m.rq src).timestampLastTick % 2 ^ 64) +
    (m.rq dest).timestampLastTick) % 2 ^ 64

/-- `if (TASK_PREEMPTS_CURR(p, rq)) resched_task(rq->curr)`. -/
def preemptCurr (m : Machine Cpu) (c : Cpu) (p : TaskId) : Machine Cpu :=
  let s := m.load c
  if taskPreemptsCurr s p then m.store c (reschedTask s s.curr) else m

/-- `__migrate_task`, run by the migration thread of `src`. -/
def migrateTask [Fintype Cpu] (m : Machine Cpu) (p : TaskId) (src dest : Cpu) (now : Nat) :
    Option (Machine Cpu) :=
  if m.cpu p ≠ src then some m
  else if !m.cpusAllowed p dest then some m
  else
    let m := m.setTaskCpu p dest
    if (m.task p).array = none then some m
    else do
      let m := m.modTask p fun t => { t with timestamp := m.movedTimestamp src dest t }
      let m ← m.deactivateTask src p
      let m := m.activateTask dest src p now false
      some (m.preemptCurr dest p)

/-! ## Tick -/

section Tick

/-- `list_move_tail(&user->uwrr_list, &rq->uwrr_userlist)`. -/
def listMoveTail (m : Machine Cpu) (c : Cpu) (u : UserId) : Machine Cpu :=
  (m.listDel u).listAddTail c u

/-- The slice of the user of `p`. -/
def uwrrTickUser (m : Machine Cpu) (c : Cpu) (p : TaskId) : Machine Cpu :=
  let u := ((m.load c).task p).user
  let s := (m.load c).modUser u fun v => { v with uwrrTimeSlice := dec32 v.uwrrTimeSlice }
  if (s.user u).uwrrTimeSlice = 0 then
    let s := s.modUser u fun v => { v with uwrrTimeSlice := u32 (100 * v.uwrrWeight) }
    (m.store c (reschedTask s p)).listMoveTail c u
  else m.store c s

/-- The UWRR branch. -/
def uwrrTick (m : Machine Cpu) (c : Cpu) (p : TaskId) : Option (Machine Cpu) :=
  let t := (m.load c).task p
  if t.staticPrio ≠ UWRR_TASK_PRIO || decide (t.prio ≠ UWRR_TASK_PRIO) then none
  else do
    let s ← uwrrTickTask (m.load c) p
    some ((m.store c s).uwrrTickUser c p)

/-- `scheduler_tick` on the CPU `c`, up to `rebalance_tick`. The other branches
leave the lists of users alone. -/
def schedulerTick (m : Machine Cpu) (c : Cpu) (now jiffies : Nat) : Option (Machine Cpu) :=
  let m := { m with
    rq := Function.update m.rq c { m.rq c with timestampLastTick := now } }
  let s := m.load c
  let t := s.task s.curr
  if s.curr ≠ idle ∧ t.policy = .uwrr ∧ rtTask t = false then m.uwrrTick c s.curr
  else (Uwrr.schedulerTick s jiffies).map (m.store c)

end Tick

/-! ## `schedule` -/

/-- `prev` goes to sleep, unless it was preempted or a signal is pending. -/
def putPrev (m : Machine Cpu) (c : Cpu) (preemptActive signalPending : Bool) :
    Option (Machine Cpu) :=
  let s := m.load c
  let prev := s.curr
  if (s.task prev).state = .running || preemptActive then some m
  else if decide ((s.task prev).state = .interruptible) && signalPending then
    some (m.store c (s.modTask prev fun t => { t with state := .running }))
  else
    (if (s.task prev).state = .uninterruptible then
      m.store c { s with nrUninterruptible := s.nrUninterruptible + 1 } else m).deactivateTask c prev

/-- `pull_task` of the task `p`, from the array `i` of its runqueue. -/
def pullTask (m : Machine Cpu) (c : Cpu) (p : TaskId) (i : Bool) : Machine Cpu :=
  let src := m.cpu p
  let expired := decide (i ≠ (m.rq src).active)
  let m := m.store src
    { dequeueTask (m.load src) p (.rq i) with nrRunning := (m.load src).nrRunning - 1 }
  let m := m.setTaskCpu p c
  let s := m.load c
  let s := { s with nrRunning := s.nrRunning + 1 }
  let m := m.store c (enqueueTask s p (if expired then s.expiredArray else s.activeArray))
  let m := m.modTask p fun t => { t with timestamp := m.movedTimestamp src c t }
  m.preemptCurr c p

/-- `move_tasks`: `tasks` are those the balancing chose. It finds them in the two
arrays of another runqueue, and `can_migrate_task` accepts them. -/
def moveTasks (m : Machine Cpu) (c : Cpu) : List TaskId → Machine Cpu
  | [] => m
  | p :: tasks =>
      match (m.task p).array with
      | some (.rq i) =>
          if m.cpu p ≠ c ∧ (m.rq (m.cpu p)).curr ≠ p ∧ m.cpusAllowed p c = true then
            (m.pullTask c p i).moveTasks c tasks
          else m.moveTasks c tasks
      | _ => m.moveTasks c tasks

/-- The rest of `schedule`, on the runqueue: the choice of the next task. -/
def pickNext (s : State) (now runTime : Nat) : Option State :=
  if s.nrRunning = 0 then some (switchTasks { s with expiredTimestamp := 0 } idle now runTime)
  else do
    let (s, queue) ← pickQueue (swapArrays s)
    match queue with
    | [] => none
    | next :: _ => do
        let s ← creditNext s next now
        some (switchTasks (s.modTask next fun t => { t with activated := 0 }) next now runTime)

/-- `schedule` on the CPU `c`. When it has nothing to run, `idle_balance` brings
the tasks `pulled`. -/
def schedule (m : Machine Cpu) (c : Cpu) (now : Nat) (preemptActive signalPending : Bool)
    (pulled : List TaskId) : Option (Machine Cpu) := do
  let run := runTime ((m.load c).task (m.rq c).curr) now
  let m ← m.putPrev c preemptActive signalPending
  let m := if (m.rq c).nrRunning = 0 then m.moveTasks c pulled else m
  (pickNext (m.load c) now run).map (m.store c)

end Machine

/-! ## The system -/

inductive MachineOp (Cpu : Type) where
  /-- Wake-up placement, or the change of the affinity of a sleeping task. -/
  | setTaskCpu (p : TaskId) (c : Cpu)
  /-- `activate_task` on the CPU of `p`, called on `this`. -/
  | activate (p : TaskId) (this : Cpu) (now : Nat) (inInterrupt : Bool)
  | deactivate (p : TaskId)
  | setState (p : TaskId) (st : RunState)
  | setCpusAllowed (p : TaskId) (mask : Cpu → Bool)
  | migrate (p : TaskId) (src dest : Cpu) (now : Nat)
  | tick (c : Cpu) (now jiffies : Nat)
  /-- `rebalance_tick`. -/
  | rebalance (c : Cpu) (tasks : List TaskId)
  | schedule (c : Cpu) (now : Nat) (preemptActive signalPending : Bool) (pulled : List TaskId)

namespace Machine

variable {Cpu : Type} [DecidableEq Cpu]

/-- A task that is neither idle nor running on a CPU. -/
def NotRunning (m : Machine Cpu) (p : TaskId) : Prop := p ≠ idle ∧ ∀ c, (m.rq c).curr ≠ p

/-- When the rest of the kernel makes the call. The current task of a CPU leaves
the runqueue in `schedule` only, and is not migrated. -/
def Enabled (m : Machine Cpu) : MachineOp Cpu → Prop
  | .setTaskCpu p _ => m.NotRunning p ∧ (m.task p).array = none
  | .activate p _ _ _ => m.created p = true ∧ p ≠ idle ∧ (m.task p).array = none
  | .deactivate p => m.NotRunning p ∧ (m.task p).array ≠ none
  | .setState p _ => p ≠ idle
  | .setCpusAllowed _ _ => True
  | .migrate p _ _ _ => m.NotRunning p
  | .tick _ _ _ => True
  | .rebalance _ _ => True
  | .schedule _ _ _ _ _ => True

variable [Fintype Cpu]

def runOp (m : Machine Cpu) : MachineOp Cpu → Option (Machine Cpu)
  | .setTaskCpu p c => some (m.setTaskCpu p c)
  | .activate p this now inInterrupt => some (m.activateTask (m.cpu p) this p now inInterrupt)
  | .deactivate p => m.deactivateTask (m.cpu p) p
  | .setState p st => some (m.modTask p fun t => { t with state := st })
  | .setCpusAllowed p mask => some { m with cpusAllowed := Function.update m.cpusAllowed p mask }
  | .migrate p src dest now => m.migrateTask p src dest now
  | .tick c now jiffies => m.schedulerTick c now jiffies
  | .rebalance c tasks => some (m.moveTasks c tasks)
  | .schedule c now preemptActive signalPending pulled =>
      m.schedule c now preemptActive signalPending pulled

inductive Step : Machine Cpu → MachineOp Cpu → Machine Cpu → Prop
  | run {m m' : Machine Cpu} {op : MachineOp Cpu} : Enabled m op → runOp m op = some m' →
      Step m op m'
  | bug {m : Machine Cpu} {op : MachineOp Cpu} : Enabled m op → runOp m op = none →
      Step m op { m with bug := true }

/-- No task is in a queue, and every CPU is idle. UWRR tasks have the priorities
that `__setscheduler` gave them. -/
structure Boot (m : Machine Cpu) : Prop where
  rq : ∀ c, ∃ clock, m.rq c =
    ⟨idleTask, fun _ => emptyArray, false, 0, 0, [], idle, 0, MAX_PRIO, 0, clock⟩
  uwrrTasks : ∀ u, m.uwrrTasks u = emptyArray
  array : ∀ p, (m.task p).array = none
  prio : ∀ p, 0 ≤ (m.task p).prio ∧
    MAX_RT_PRIO ≤ (m.task p).staticPrio ∧ (m.task p).staticPrio < MAX_PRIO
  uwrr : ∀ p, (m.task p).policy = .uwrr →
    (m.task p).prio = UWRR_TASK_PRIO ∧ (m.task p).staticPrio = UWRR_TASK_PRIO
  idle : m.created idle = true
  finite : {p | m.created p = true}.Finite
  bug : m.bug = false

def system : System (Machine Cpu) (MachineOp Cpu) where
  init := Boot
  step := Step

end Machine

end LinuxHacks.Uwrr
