import LinuxHacks.Semaphore.Model

/-!
# Semaphores and thread creation on one pipe (`HW3/sthreads/sthread.c`)

Any number of threads and semaphores, with `sthread_create` and the manager thread.
The semaphores run the sections of `Model`, one semaphore at a time
(`Library.view`, `Library.put`); what is new is the pipe.

* Every thread has one pipe, read in order. `sthread_wake` writes `"wake up!"` into
  it, whoever calls it: a semaphore for the head of its queue, or the manager for
  the caller of `sthread_create`.
* `sthread_suspend` reads one message and returns, whoever wrote it. No signal
  interrupts the read, and no pipe fills up.
* The manager takes one request at a time from its own pipe, executes `do_create`,
  and wakes the caller. `do_create` clears `caller->status` first and sets it to -1
  last, when one of its system calls fails.

Who wrote a message, the numbers of the requests, `done` (what `do_create` stored,
request by request) and `results` are history and are read by no step.
-/

namespace LinuxHacks.Semaphore

open LinuxHacks.Lib

abbrev SemId := Nat

/-- A message in the pipe of a thread, by its writer. -/
inductive Token where
  | semaphore (i : SemId)
  | manager
deriving DecidableEq, Repr

/-- Where a call of `sthread_create` stands. -/
inductive CreatePc where
  /-- Before `malloc`. -/
  | allocating
  /-- Before the `write` to the manager. -/
  | writing (newthr : ThreadId)
  /-- In `_sthread_self_suspend`. -/
  | suspended (newthr : ThreadId) (request : Nat)
  /-- Before `if (self->status)`. -/
  | checking (newthr : ThreadId) (request : Nat)
  /-- Before `return self->status`; `handle` is what was stored in `*t`. -/
  | returning (request : Nat) (handle : Option ThreadId)
deriving DecidableEq, Repr

inductive Activity where
  | idle
  | sem (i : SemId) (pc : Pc)
  | create (pc : CreatePc)
deriving DecidableEq, Repr

/-- A `MSG_CREATE`. -/
structure Request where
  caller : ThreadId
  thread : ThreadId
  number : Nat
deriving DecidableEq, Repr

/-- What a call of `sthread_create` gave back. -/
structure Result where
  request : Nat
  handle : Option ThreadId
  value : Int
deriving DecidableEq, Repr

/-- Where the manager stands in its loop. -/
inductive Manager where
  /-- In `read`. -/
  | idle
  /-- Before `caller->status = 0`. -/
  | starting (r : Request)
  /-- In the system calls of `do_create`. -/
  | cloning (r : Request)
  /-- Before `sthread_wake(caller)`. -/
  | waking (r : Request)
deriving DecidableEq, Repr

/-- A thread is named by the address of its `sthread_struct`. -/
structure Library where
  sem : SemId → Sem
  /-- The `thread` field of each queue element. -/
  thread : Elem → ThreadId
  allocated : Elem → Bool
  activity : ThreadId → Activity
  pipe : ThreadId → List Token
  status : ThreadId → Int
  /-- The `sthread_struct`s that are allocated. -/
  structs : ThreadId → Bool
  /-- The threads that `clone` has started. -/
  started : ThreadId → Bool
  mailbox : List Request
  manager : Manager
  /-- The value the thread's last semaphore operation returned. -/
  returned : ThreadId → Int
  requests : Nat
  done : List (Nat × Int)
  results : List Result

/-- After `sthread_init` and the `sthread_sem_init` of every semaphore; the main
thread is 0. -/
def Library.init (count : SemId → Int) : Library where
  sem := fun i => ⟨false, count i, count i, TailQueue.empty, false⟩
  thread := fun _ => 0
  allocated := fun _ => false
  activity := fun _ => .idle
  pipe := fun _ => []
  status := fun _ => 0
  structs := fun t => decide (t = 0)
  started := fun t => decide (t = 0)
  mailbox := []
  manager := .idle
  returned := fun _ => 0
  requests := 0
  done := []
  results := []

/-! ## Semaphore operations -/

def Activity.semPc : Activity → Pc
  | .sem _ pc => pc
  | _ => .idle

def Activity.ofSem (i : SemId) : Pc → Activity
  | .idle => .idle
  | pc => .sem i pc

/-- Semaphore `i` as its sections see it, with nothing written yet. -/
def Library.view (L : Library) (i : SemId) : State where
  sem := L.sem i
  thread := L.thread
  allocated := L.allocated
  pc := fun t => (L.activity t).semPc
  tokens := fun _ => 0
  returned := L.returned
  ups := 0
  downs := 0
  enqueued := []
  dequeued := []

/-- What a section of `t` on semaphore `i` leaves behind, `s` being its view then. -/
def Library.put (L : Library) (i : SemId) (t : ThreadId) (s : State) : Library :=
  { L with
    sem := Function.update L.sem i s.sem
    thread := s.thread
    allocated := s.allocated
    activity := Function.update L.activity t (.ofSem i (s.pc t))
    pipe := fun t' => L.pipe t' ++ List.replicate (s.tokens t') (.semaphore i)
    returned := s.returned }

/-- The thread that makes a step. -/
def Label.thread : Label → ThreadId
  | .callTryDown t | .callDown t | .callUp t | .callDestroy t | .tryDown t | .makeElem t
  | .recheck t | .resume t | .rewake t | .freeElem t | .up t | .destroy t => t

/-- A section of semaphore `i` may be the next step of `t`. -/
def Activity.AtSem (i : SemId) : Activity → Prop
  | .idle => True
  | .sem j _ => j = i
  | .create _ => False

/-! ## Thread creation -/

def Library.goto (L : Library) (t : ThreadId) (pc : CreatePc) : Library :=
  { L with activity := Function.update L.activity t (.create pc) }

/-- `malloc(sizeof(struct sthread_struct))` returns `newthr`. -/
def Library.allocate (L : Library) (t newthr : ThreadId) : Library :=
  { L with structs := Function.update L.structs newthr true }.goto t (.writing newthr)

/-- `write(manager_thread.pipe[1], &msg, sizeof(manager_msg_t))`. -/
def Library.request (L : Library) (t newthr : ThreadId) : Library :=
  { L with
    mailbox := L.mailbox ++ [({ caller := t, thread := newthr, number := L.requests } : Request)]
    requests := L.requests + 1 }.goto t (.suspended newthr L.requests)

/-- `if (self->status) free(newthr); else *t = (sthread_t)newthr;`. -/
def Library.check (L : Library) (t newthr : ThreadId) (request : Nat) : Library :=
  if L.status t ≠ 0 then
    { L with structs := Function.update L.structs newthr false }.goto t (.returning request none)
  else L.goto t (.returning request (some newthr))

/-- `return self->status`. -/
def Library.return (L : Library) (t : ThreadId) (request : Nat) (handle : Option ThreadId) :
    Library :=
  { L with
    activity := Function.update L.activity t .idle
    results := L.results ++ [⟨request, handle, L.status t⟩] }

/-! ## The manager -/

/-- `do_create` up to its first system call. -/
def Library.start (L : Library) (r : Request) : Library :=
  { L with
    status := Function.update (Function.update L.status r.caller 0) r.thread 0
    manager := .cloning r }

/-- The rest of `do_create`: the thread is cloned, with a pipe of its own, or one of
the system calls fails. -/
def Library.finish (L : Library) (r : Request) (ok : Bool) : Library :=
  if ok then
    { L with
      pipe := Function.update L.pipe r.thread []
      started := Function.update L.started r.thread true
      manager := .waking r
      done := L.done ++ [(r.number, L.status r.caller)] }
  else
    { L with
      status := Function.update L.status r.caller (-1)
      manager := .waking r
      done := L.done ++ [(r.number, -1)] }

/-- `sthread_wake(msg.create.caller)`. -/
def Library.reply (L : Library) (r : Request) : Library :=
  { L with
    pipe := Function.update L.pipe r.caller (L.pipe r.caller ++ [.manager])
    manager := .idle }

/-! ## Steps -/

inductive LibLabel where
  /-- A step of semaphore `i`, other than a return of `sthread_suspend`. -/
  | sem (i : SemId) (a : Label)
  /-- `sthread_suspend` returns in `sthread_sem_down`. -/
  | resume (t : ThreadId)
  | callCreate (t : ThreadId)
  | allocate (t : ThreadId)
  | request (t : ThreadId)
  /-- `_sthread_self_suspend` returns in `sthread_create`. -/
  | answered (t : ThreadId)
  | check (t : ThreadId)
  | return (t : ThreadId)
  | receive
  | start
  | finish
  | reply
deriving DecidableEq, Repr

inductive LibStep : Library → LibLabel → Library → Prop
  | sem {L : Library} {i : SemId} {a : Label} {s : State} : L.started a.thread = true →
      (L.activity a.thread).AtSem i → a ≠ .resume a.thread → Step (L.view i) a s →
      LibStep L (.sem i a) (L.put i a.thread s)
  | resume {L : Library} {t : ThreadId} {i : SemId} {q : Elem} {m : Token} {rest : List Token} :
      L.activity t = .sem i (.suspending q) → L.pipe t = m :: rest →
      LibStep L (.resume t)
        { L with
          activity := Function.update L.activity t (.sem i (.woken q))
          pipe := Function.update L.pipe t rest }
  | callCreate {L : Library} {t : ThreadId} : L.started t = true → L.activity t = .idle →
      LibStep L (.callCreate t) (L.goto t .allocating)
  | allocate {L : Library} {t newthr : ThreadId} : L.activity t = .create .allocating →
      L.structs newthr = false → LibStep L (.allocate t) (L.allocate t newthr)
  -- `malloc` fails: `sthread_create` returns -1 and asks nobody.
  | noMemory {L : Library} {t : ThreadId} : L.activity t = .create .allocating →
      LibStep L (.allocate t) { L with activity := Function.update L.activity t .idle }
  | request {L : Library} {t newthr : ThreadId} : L.activity t = .create (.writing newthr) →
      LibStep L (.request t) (L.request t newthr)
  | answered {L : Library} {t newthr : ThreadId} {n : Nat} {m : Token} {rest : List Token} :
      L.activity t = .create (.suspended newthr n) → L.pipe t = m :: rest →
      LibStep L (.answered t)
        ({ L with pipe := Function.update L.pipe t rest }.goto t (.checking newthr n))
  | check {L : Library} {t newthr : ThreadId} {n : Nat} :
      L.activity t = .create (.checking newthr n) → LibStep L (.check t) (L.check t newthr n)
  | return {L : Library} {t : ThreadId} {n : Nat} {handle : Option ThreadId} :
      L.activity t = .create (.returning n handle) → LibStep L (.return t) (L.return t n handle)
  | receive {L : Library} {r : Request} {rest : List Request} : L.manager = .idle →
      L.mailbox = r :: rest →
      LibStep L .receive { L with manager := .starting r, mailbox := rest }
  | start {L : Library} {r : Request} : L.manager = .starting r → LibStep L .start (L.start r)
  | finish {L : Library} {r : Request} {ok : Bool} : L.manager = .cloning r →
      LibStep L .finish (L.finish r ok)
  | reply {L : Library} {r : Request} : L.manager = .waking r → LibStep L .reply (L.reply r)

/-- The library, with semaphores initialised to `count`. -/
def library (count : SemId → Int) : System Library LibLabel where
  init := fun L => L = Library.init count
  step := LibStep

/-! ## What the library owes its callers -/

/-- Every call of `sthread_create` that made a request returned the status that
`do_create` stored for this request. -/
def CreatesAnswered (L : Library) : Prop := ∀ r ∈ L.results, (r.request, r.value) ∈ L.done

/-- A thread outside the library has read every message of a semaphore. -/
def NoStaleToken (L : Library) : Prop :=
  ∀ t, L.activity t = .idle → ∀ i, Token.semaphore i ∉ L.pipe t

end LinuxHacks.Semaphore
