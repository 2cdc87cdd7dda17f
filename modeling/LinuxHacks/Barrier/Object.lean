import LinuxHacks.Lib.Transition
import LinuxHacks.Barrier.Model

/-!
# One barrier object under any interleaving

Any number of `sys_barrierwait` and `sys_barrierdestroy` calls on one barrier.
A step is one lock-protected section, or one unlocked access of the sleep loop:
the two reads of the loop condition are separate steps, as are
`prepare_to_wait`, `schedule()` and `finish_wait`. A call is blocked when it is
at `schedule()` with task state `TASK_INTERRUPTIBLE`; `wake_up_all` and signals
make it runnable, and `prepare_to_wait` (executed once, before the loop) is the
only place that puts it to sleep.

Two fields of the state are history and are read by no step: `rounds` counts
the completed groups and `arrivals` records, for every call that ran its
arrival section on a live barrier, the round it found.
-/

namespace LinuxHacks.Barrier

open LinuxHacks.Lib

abbrev CallId := Nat

/-- Where a `sys_barrierwait` call stands. -/
inductive WaitPc where
  | start
  /-- The lookup is done, the reference is held, the lock is not. -/
  | found
  /-- Between the unlock and `prepare_to_wait`. -/
  | unlocked
  /-- About to read `b->barrier_iteration` in the loop condition. -/
  | testIteration
  /-- About to read `b->destroyed` in the loop condition. -/
  | testDestroyed
  | scheduling
  /-- Out of the loop, before `finish_wait`. -/
  | finishing
  | leaving
  | returned (value : Int)
deriving DecidableEq, Repr

/-- A `sys_barrierwait` call: program point, `my_iteration`, and the state of
its task with respect to the wait queue. -/
structure WaitCall where
  pc : WaitPc
  myIteration : BitVec 32
  queued : Bool
  interruptible : Bool
deriving DecidableEq, Repr

/-- Where a `sys_barrierdestroy` call stands. -/
inductive DestroyPc where
  | start
  | found
  | unlinked
  | returned (value : Int)
deriving DecidableEq, Repr

structure State where
  b : BarrierT
  /-- How often the node was removed from `barrier_list`. -/
  unlinks : Nat
  /-- How often barrier and node were freed. -/
  frees : Nat
  wait : CallId → WaitCall
  destroyer : CallId → DestroyPc
  rounds : Nat
  arrivals : List (CallId × Nat)

/-- The state after `sys_barriercreate(N)`, with no call made yet. -/
def State.create (N : Nat) : State where
  b := BarrierT.create N 1
  unlinks := 0
  frees := 0
  wait := fun _ => ⟨.start, 0, false, false⟩
  destroyer := fun _ => .start
  rounds := 0
  arrivals := []

/-! ## Effects -/

def State.setPc (s : State) (c : CallId) (pc : WaitPc) : State :=
  { s with wait := Function.update s.wait c { s.wait c with pc := pc } }

theorem setPc_pc (s : State) (c : CallId) (pc : WaitPc) : ((s.setPc c pc).wait c).pc = pc := by
  simp [State.setPc]

theorem setPc_pc_other (s : State) {c c' : CallId} (pc : WaitPc) (h : c' ≠ c) :
    ((s.setPc c pc).wait c').pc = (s.wait c').pc := by
  simp [State.setPc, Function.update_of_ne h]

/-- `wake_up_all(&b->queue)`: every queued task becomes runnable. -/
def wakeUpAll (wait : CallId → WaitCall) : CallId → WaitCall :=
  fun c => if (wait c).queued then { wait c with interruptible := false } else wait c

theorem wakeUpAll_pc (wait : CallId → WaitCall) (c : CallId) :
    (wakeUpAll wait c).pc = (wait c).pc := by
  rw [wakeUpAll]
  split
  · rfl
  · rfl

theorem wakeUpAll_queued (wait : CallId → WaitCall) (c : CallId) :
    (wakeUpAll wait c).queued = (wait c).queued := by
  rw [wakeUpAll]
  split
  · rfl
  · rfl

theorem wakeUpAll_interruptible {wait : CallId → WaitCall} {c : CallId}
    (h : (wait c).queued = true) : (wakeUpAll wait c).interruptible = false := by
  rw [wakeUpAll, if_pos h]

/-- The lookup of `sys_barrierwait`. An unlinked barrier is not found. -/
def lookupWait (s : State) (c : CallId) : State :=
  if s.unlinks = 0 then
    { s with b := { s.b with refcount := s.b.refcount + 1 } }.setPc c .found
  else s.setPc c (.returned (-EINVAL))

/-- The arrival section, with its entry in the history. -/
def arrive (s : State) (c : CallId) : State :=
  match arrivalSection s.b with
  | (.refused, b, freed) =>
      { s with b := b, frees := s.frees + freed.toNat }.setPc c (.returned (-EINVAL))
  | (.released my, b, freed) =>
      { s with
        b := b
        frees := s.frees + freed.toNat
        wait := Function.update (wakeUpAll s.wait) c
          { wakeUpAll s.wait c with pc := .returned 0, myIteration := my }
        rounds := s.rounds + 1
        arrivals := s.arrivals ++ [(c, s.rounds)] }
  | (.sleeps my, b, _) =>
      { s with
        b := b
        wait := Function.update s.wait c { s.wait c with pc := .unlocked, myIteration := my }
        arrivals := s.arrivals ++ [(c, s.rounds)] }

def prepareToWait (s : State) (c : CallId) : State :=
  { s with
    wait := Function.update s.wait c
      { s.wait c with pc := .testIteration, queued := true, interruptible := true } }

def testIteration (s : State) (c : CallId) : State :=
  s.setPc c (if s.b.barrierIteration = (s.wait c).myIteration then .testDestroyed else .finishing)

def testDestroyed (s : State) (c : CallId) : State :=
  s.setPc c (if s.b.destroyed then .finishing else .scheduling)

/-- A signal, or any other spurious wake-up. -/
def signal (s : State) (c : CallId) : State :=
  { s with wait := Function.update s.wait c { s.wait c with interruptible := false } }

def finishWait (s : State) (c : CallId) : State :=
  { s with
    wait := Function.update s.wait c
      { s.wait c with pc := .leaving, queued := false, interruptible := false } }

def leave (s : State) (c : CallId) : State :=
  let (value, b, freed) := leaveSection s.b (s.wait c).myIteration
  { s with b := b, frees := s.frees + freed.toNat }.setPc c (.returned value)

def lookupDestroy (s : State) (d : CallId) : State :=
  if s.unlinks = 0 then
    { s with
      b := { s.b with refcount := s.b.refcount + 1 }
      destroyer := Function.update s.destroyer d .found }
  else { s with destroyer := Function.update s.destroyer d (.returned (-EINVAL)) }

/-- `list_del(&objPtr->list)` under `search_lock`. -/
def unlink (s : State) (d : CallId) : State :=
  { s with
    unlinks := s.unlinks + 1
    destroyer := Function.update s.destroyer d .unlinked }

/-- The spin-lock section of `sys_barrierdestroy`. -/
def destroy (s : State) (d : CallId) : State :=
  let (wc, b, freed) := destroySection s.b
  { s with
    b := b
    frees := s.frees + freed.toNat
    wait := if wc ≠ 0 then wakeUpAll s.wait else s.wait
    destroyer := Function.update s.destroyer d (.returned wc) }

/-! ## Steps -/

inductive Label where
  | lookupWait (c : CallId)
  | arrive (c : CallId)
  | prepareToWait (c : CallId)
  | testIteration (c : CallId)
  | testDestroyed (c : CallId)
  | schedule (c : CallId)
  | signal (c : CallId)
  | finishWait (c : CallId)
  | leave (c : CallId)
  | lookupDestroy (d : CallId)
  | unlink (d : CallId)
  | destroy (d : CallId)
deriving DecidableEq, Repr

inductive Step : State → Label → State → Prop
  | lookupWait {s : State} {c : CallId} : (s.wait c).pc = .start →
      Step s (.lookupWait c) (lookupWait s c)
  | arrive {s : State} {c : CallId} : (s.wait c).pc = .found →
      Step s (.arrive c) (arrive s c)
  | prepareToWait {s : State} {c : CallId} : (s.wait c).pc = .unlocked →
      Step s (.prepareToWait c) (prepareToWait s c)
  | testIteration {s : State} {c : CallId} : (s.wait c).pc = .testIteration →
      Step s (.testIteration c) (testIteration s c)
  | testDestroyed {s : State} {c : CallId} : (s.wait c).pc = .testDestroyed →
      Step s (.testDestroyed c) (testDestroyed s c)
  -- `schedule()` returns once the task is runnable; until then the call has no step.
  | schedule {s : State} {c : CallId} : (s.wait c).pc = .scheduling →
      (s.wait c).interruptible = false →
      Step s (.schedule c) (s.setPc c .testIteration)
  | signal {s : State} {c : CallId} : Step s (.signal c) (signal s c)
  | finishWait {s : State} {c : CallId} : (s.wait c).pc = .finishing →
      Step s (.finishWait c) (finishWait s c)
  | leave {s : State} {c : CallId} : (s.wait c).pc = .leaving →
      Step s (.leave c) (leave s c)
  | lookupDestroy {s : State} {d : CallId} : s.destroyer d = .start →
      Step s (.lookupDestroy d) (lookupDestroy s d)
  | unlink {s : State} {d : CallId} : s.destroyer d = .found →
      Step s (.unlink d) (unlink s d)
  | destroy {s : State} {d : CallId} : s.destroyer d = .unlinked →
      Step s (.destroy d) (destroy s d)

/-- All calls on one barrier of size `N`. -/
def system (N : Nat) : System State Label where
  init := fun s => s = State.create N
  step := Step

end LinuxHacks.Barrier
