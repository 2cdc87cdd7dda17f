import LinuxHacks.Lib.Transition
import LinuxHacks.Lib.TailQueue

/-!
# Counting semaphores of the thread library (`HW3/sthreads/sync.c`)

Any number of threads on one `sthread_sem_t`. A step is one section between
`_spin_lock` and `_spin_unlock`, one `malloc` or `free`, or one return of
`sthread_suspend`. A section can start only while the spin lock is free, and
every section but the refused `sthread_sem_destroy` frees it again.

The wait queue is the pointer structure of the code (`TailQueue`): `queuehead`,
`nextqtail`, and the `next` field of the elements. Each thread has a pipe;
`sthread_wake` adds a token, `sthread_suspend` blocks until it can remove one
(and may also return without, when the `read` is interrupted).

`ups`, `downs`, `enqueued` and `dequeued` are history and are read by no step.
-/

namespace LinuxHacks.Semaphore

open LinuxHacks.Lib

abbrev ThreadId := Nat

/-- The address of a `sthread_queue_t`. -/
abbrev Elem := Nat

/-- A C `int`: 32-bit two's complement. -/
def wrapInt (x : Int) : Int := x.bmod (2 ^ 32)

/-- `sthread_sem_t`, with the `next` fields of the queue elements. -/
structure Sem where
  spinLock : Bool
  initialSemaphore : Int
  semaphore : Int
  queue : TailQueue Elem
  destroyed : Bool

/-- Where a thread stands. -/
inductive Pc where
  | idle
  /-- Before the locked section of `sthread_sem_try_down`, called on its own
  or as the first statement of `sthread_sem_down`. -/
  | tryDown (inDown : Bool)
  /-- In `sthread_sem_down`, before `_make_queue_elem`. -/
  | makeElem
  /-- In `sthread_sem_down`, element made, before the second locked section. -/
  | recheck (q : Elem)
  /-- Enqueued and unlocked, in or before `sthread_suspend`. -/
  | suspending (q : Elem)
  /-- Back from `sthread_suspend`, before the locked re-check. -/
  | woken (q : Elem)
  /-- Unit taken and lock released, before `free(q)`. -/
  | freeing (q : Elem)
  | up
  | destroy
deriving DecidableEq, Repr

structure State where
  sem : Sem
  /-- The `thread` field of each queue element. -/
  thread : Elem → ThreadId
  allocated : Elem → Bool
  pc : ThreadId → Pc
  /-- Unread wake-up messages in each thread's pipe. -/
  tokens : ThreadId → Nat
  /-- The value the thread's last completed operation returned. -/
  returned : ThreadId → Int
  ups : Nat
  downs : Nat
  enqueued : List ThreadId
  dequeued : List ThreadId

/-- `sthread_sem_init(sem, count)` for a positive `count`, all threads idle. -/
def State.init (count : Int) : State where
  sem := ⟨false, count, count, TailQueue.empty, false⟩
  thread := fun _ => 0
  allocated := fun _ => false
  pc := fun _ => .idle
  tokens := fun _ => 0
  returned := fun _ => 0
  ups := 0
  downs := 0
  enqueued := []
  dequeued := []

/-! ## Effects -/

/-- `_sem_avail`. -/
def semAvail (sem : Sem) : Bool :=
  decide (0 < sem.semaphore) && decide (sem.queue.head = none)

def State.goto (s : State) (t : ThreadId) (pc : Pc) : State :=
  { s with pc := Function.update s.pc t pc }

/-- The current operation of `t` returns `value`. -/
def State.return (s : State) (t : ThreadId) (value : Int) : State :=
  { s with
    pc := Function.update s.pc t .idle
    returned := Function.update s.returned t value }

/-- A message to the pipe of `t`. -/
def sthreadWake (tokens : ThreadId → Nat) (t : ThreadId) : ThreadId → Nat :=
  Function.update tokens t (tokens t + 1)

/-- `--sem->semaphore`. -/
def State.takeUnit (s : State) : State :=
  { s with
    sem := { s.sem with semaphore := wrapInt (s.sem.semaphore - 1) }
    downs := s.downs + 1 }

/-- `if (NULL != sem->queuehead) sthread_wake(sem->queuehead->thread)`. -/
def State.wakeHead (s : State) : State :=
  { s with
    tokens :=
      match s.sem.queue.head with
      | none => s.tokens
      | some q => sthreadWake s.tokens (s.thread q) }

theorem wakeHead_tokens (s : State) (t : ThreadId) :
    s.wakeHead.tokens t =
      s.tokens t + if s.sem.queue.head.map s.thread = some t then 1 else 0 := by
  unfold State.wakeHead
  cases s.sem.queue.head with
  | none => rfl
  | some q =>
      simp only [Option.map_some, Option.some.injEq, sthreadWake]
      by_cases ht : s.thread q = t
      · rw [if_pos ht, ht, Function.update_self]
      · rw [if_neg ht, Function.update_of_ne (Ne.symm ht)]
        rfl

/-- The locked section of `sthread_sem_try_down`; inside `sthread_sem_down` a
failure, also on a destroyed semaphore, goes on to the allocation. -/
def tryDown (s : State) (t : ThreadId) (inDown : Bool) : State :=
  if !s.sem.destroyed && semAvail s.sem then s.takeUnit.return t 0
  else if inDown then s.goto t .makeElem
  else s.return t (-1)

/-- `_make_queue_elem` when `malloc` returns the free address `q`. -/
def makeElem (s : State) (t : ThreadId) (q : Elem) : State :=
  { s with
    sem := { s.sem with queue := s.sem.queue.clearNext q }
    thread := Function.update s.thread q t
    allocated := Function.update s.allocated q true
    pc := Function.update s.pc t (.recheck q) }

/-- The second locked section of `sthread_sem_down`: the unit became available
meanwhile, or the thread enqueues itself. -/
def recheck (s : State) (t : ThreadId) (q : Elem) : State :=
  if s.sem.destroyed then s.return t (-1)
  else if semAvail s.sem then s.takeUnit.goto t (.freeing q)
  else
    { s with
      sem := { s.sem with queue := s.sem.queue.enqueue q }
      pc := Function.update s.pc t (.suspending q)
      enqueued := s.enqueued ++ [t] }

/-- `sthread_suspend` returns; a spurious return leaves the pipe alone. -/
def resume (s : State) (t : ThreadId) (q : Elem) (spurious : Bool) : State :=
  { s with
    tokens := if spurious then s.tokens else Function.update s.tokens t (s.tokens t - 1)
    pc := Function.update s.pc t (.woken q) }

/-- The locked re-check after a wake-up: the head of the queue takes a unit,
dequeues itself and wakes its successor; anybody else goes back to sleep. -/
def rewake (s : State) (t : ThreadId) (q : Elem) : State :=
  if s.sem.destroyed then s.return t (-1)
  else if 0 < s.sem.semaphore ∧ s.sem.queue.head = some q then
    State.wakeHead
      { s.takeUnit with
        sem := { s.takeUnit.sem with queue := s.sem.queue.dequeue }
        pc := Function.update s.pc t (.freeing q)
        dequeued := s.dequeued ++ [t] }
  else s.goto t (.suspending q)

def freeElem (s : State) (t : ThreadId) (q : Elem) : State :=
  { s.return t 0 with allocated := Function.update s.allocated q false }

/-- The locked section of `sthread_sem_up`. -/
def semUp (s : State) (t : ThreadId) : State :=
  if s.sem.destroyed then s.return t (-1)
  else
    State.return (State.wakeHead
      { s with
        sem := { s.sem with semaphore := wrapInt (s.sem.semaphore + 1) }
        ups := s.ups + 1 }) t 0

/-- `sthread_sem_destroy`: the flag is set before the count is compared, and
the refusal returns with the spin lock held. -/
def semDestroy (s : State) (t : ThreadId) : State :=
  if s.sem.destroyed then s.return t (-1)
  else if s.sem.semaphore ≠ s.sem.initialSemaphore then
    State.return { s with sem := { s.sem with destroyed := true, spinLock := true } } t (-1)
  else State.return { s with sem := { s.sem with destroyed := true } } t 0

/-! ## Steps -/

inductive Label where
  | callTryDown (t : ThreadId)
  | callDown (t : ThreadId)
  | callUp (t : ThreadId)
  | callDestroy (t : ThreadId)
  | tryDown (t : ThreadId)
  | makeElem (t : ThreadId)
  | recheck (t : ThreadId)
  | resume (t : ThreadId)
  | rewake (t : ThreadId)
  | freeElem (t : ThreadId)
  | up (t : ThreadId)
  | destroy (t : ThreadId)
deriving DecidableEq, Repr

inductive Step : State → Label → State → Prop
  | callTryDown {s : State} {t : ThreadId} : s.pc t = .idle →
      Step s (.callTryDown t) (s.goto t (.tryDown false))
  | callDown {s : State} {t : ThreadId} : s.pc t = .idle →
      Step s (.callDown t) (s.goto t (.tryDown true))
  | callUp {s : State} {t : ThreadId} : s.pc t = .idle →
      Step s (.callUp t) (s.goto t .up)
  | callDestroy {s : State} {t : ThreadId} : s.pc t = .idle →
      Step s (.callDestroy t) (s.goto t .destroy)
  | tryDown {s : State} {t : ThreadId} {inDown : Bool} : s.pc t = .tryDown inDown →
      s.sem.spinLock = false → Step s (.tryDown t) (tryDown s t inDown)
  | makeElem {s : State} {t : ThreadId} {q : Elem} : s.pc t = .makeElem →
      s.allocated q = false → Step s (.makeElem t) (makeElem s t q)
  | noMemory {s : State} {t : ThreadId} : s.pc t = .makeElem →
      Step s (.makeElem t) (s.return t (-1))
  | recheck {s : State} {t : ThreadId} {q : Elem} : s.pc t = .recheck q →
      s.sem.spinLock = false → Step s (.recheck t) (recheck s t q)
  | resume {s : State} {t : ThreadId} {q : Elem} {spurious : Bool} : s.pc t = .suspending q →
      (spurious = false → 0 < s.tokens t) → Step s (.resume t) (resume s t q spurious)
  | rewake {s : State} {t : ThreadId} {q : Elem} : s.pc t = .woken q →
      s.sem.spinLock = false → Step s (.rewake t) (rewake s t q)
  | freeElem {s : State} {t : ThreadId} {q : Elem} : s.pc t = .freeing q →
      Step s (.freeElem t) (freeElem s t q)
  | up {s : State} {t : ThreadId} : s.pc t = .up →
      s.sem.spinLock = false → Step s (.up t) (semUp s t)
  | destroy {s : State} {t : ThreadId} : s.pc t = .destroy →
      s.sem.spinLock = false → Step s (.destroy t) (semDestroy s t)

/-- All operations on one semaphore initialised with `count`. -/
def system (count : Int) : System State Label where
  init := fun s => s = State.init count
  step := Step

/-- The runs in which nobody destroys the semaphore. -/
def neverDestroyed : State → Label → Prop :=
  fun _ a => ∀ t, a ≠ .destroy t

end LinuxHacks.Semaphore
