import LinuxHacks.Lib.Section
import LinuxHacks.Semaphore.Model

/-!
# The locked sections of `sync.c`, statement by statement

The model of `Model` takes a locked section as one step. Here every statement
is one: `test_and_set` on `spin_lock`, each test, each write, `_spin_unlock`,
and the `return` behind it. Between any two of them the other threads go on, up
to their own `test_and_set`. The macros are written out as the code they stand
for, so that an exit without `_spin_unlock` shows.

`section_alone`: a section that nobody interrupts is the step of `Model`.

`holder` and `entry` are history and are read by no step: the thread whose
`test_and_set` succeeded and that has not executed `_spin_unlock` since, and the
semaphore as each thread found it when it took the lock.
-/

namespace LinuxHacks.Semaphore

open LinuxHacks.Lib

/-- How a section is left: with the return from the operation, or for the
unlocked code of `sthread_sem_down`. -/
inductive Exit where
  | ret (value : Int)
  | goto (pc : Pc)
deriving DecidableEq, Repr

abbrev SemCode := Code State Exit

/-! ## Statements -/

def spinLock (s : State) : State := { s with sem := { s.sem with spinLock := true } }

/-- `_spin_unlock`. -/
def spinUnlock (s : State) : State := { s with sem := { s.sem with spinLock := false } }

/-- `*(sem->nextqtail) = q`. -/
def storeTail (t : ThreadId) (q : Elem) (s : State) : State :=
  { s with
    sem := { s.sem with
      queue :=
        match s.sem.queue.tail with
        | .head => { s.sem.queue with head := some q }
        | .next b => { s.sem.queue with next := Function.update s.sem.queue.next b (some q) } }
    enqueued := s.enqueued ++ [t] }

/-- `sem->nextqtail = slot`. -/
def setTail (slot : Slot Elem) (s : State) : State :=
  { s with sem := { s.sem with queue := { s.sem.queue with tail := slot } } }

/-- `sem->queuehead = sem->queuehead->next`. -/
def popHead (t : ThreadId) (s : State) : State :=
  { s with
    sem := { s.sem with
      queue := { s.sem.queue with head := s.sem.queue.head.bind s.sem.queue.next } }
    dequeued := s.dequeued ++ [t] }

/-- `++sem->semaphore`. -/
def giveUnit (s : State) : State :=
  { s with
    sem := { s.sem with semaphore := wrapInt (s.sem.semaphore + 1) }
    ups := s.ups + 1 }

/-- `sem->destroyed = 1`. -/
def setDestroyed (s : State) : State := { s with sem := { s.sem with destroyed := true } }

/-! ## Sections -/

/-- `_spin_unlock(s)`, and the exit. -/
def unlockAnd (e : Exit) : SemCode := .unlock (.exit e)

/-- `_sem_valid_check`. -/
def semValidCheck (k : SemCode) : SemCode :=
  .test (fun s => s.sem.destroyed) (unlockAnd (.ret (-1))) k

def tryDownCode (inDown : Bool) : SemCode :=
  let failed : Exit := if inDown then .goto .makeElem else .ret (-1)
  .test (fun s => s.sem.destroyed) (unlockAnd failed)
    (.test (fun s => semAvail s.sem)
      (.act State.takeUnit (unlockAnd (.ret 0)))
      (unlockAnd failed))

def recheckCode (t : ThreadId) (q : Elem) : SemCode :=
  semValidCheck
    (.test (fun s => semAvail s.sem)
      (.act State.takeUnit (unlockAnd (.goto (.freeing q))))
      (.act (storeTail t q) (.act (setTail (.next q)) (unlockAnd (.goto (.suspending q))))))

def rewakeCode (t : ThreadId) (q : Elem) : SemCode :=
  semValidCheck
    (.test (fun s => decide (0 < s.sem.semaphore) && decide (s.sem.queue.head = some q))
      (.act State.takeUnit
        (.act (popHead t)
          (.test (fun s => decide (s.sem.queue.head = none))
            (.act (setTail .head) (unlockAnd (.goto (.freeing q))))
            (.act State.wakeHead (unlockAnd (.goto (.freeing q)))))))
      (unlockAnd (.goto (.suspending q))))

def upCode : SemCode :=
  semValidCheck
    (.act giveUnit
      (.test (fun s => decide (s.sem.queue.head = none))
        (unlockAnd (.ret 0))
        (.act State.wakeHead (unlockAnd (.ret 0)))))

/-- The comparison in `sthread_sem_destroy`: the error exit does not unlock. -/
def destroyCompare : SemCode :=
  .test (fun s => decide (s.sem.semaphore ≠ s.sem.initialSemaphore))
    (.exit (.ret (-1))) (unlockAnd (.ret 0))

def destroyMark : SemCode := .act setDestroyed destroyCompare

def destroyCode : SemCode := semValidCheck destroyMark

/-- The section a thread enters next, at its `_spin_lock`. -/
def sectionCode (t : ThreadId) : Pc → Option SemCode
  | .tryDown inDown => some (tryDownCode inDown)
  | .recheck q => some (recheckCode t q)
  | .woken q => some (rewakeCode t q)
  | .up => some upCode
  | .destroy => some destroyCode
  | _ => none

def leave (s : State) (t : ThreadId) : Exit → State
  | .ret value => s.return t value
  | .goto pc => s.goto t pc

/-! ## Steps -/

/-- `sthread_sem_init`, on memory that holds anything. -/
def semInit (sem : Sem) (count : Int) : Sem × Int :=
  if 0 ≥ count then (sem, -1)
  else (⟨false, count, count, ⟨none, sem.queue.next, .head⟩, false⟩, 0)

structure Locked where
  mem : State
  /-- What is left of the section a thread is in. -/
  code : ThreadId → Option SemCode
  holder : Option ThreadId
  entry : ThreadId → Sem

/-- `test_and_set` succeeds. -/
def Locked.acquire (f : Locked) (t : ThreadId) (c : SemCode) : Locked where
  mem := spinLock f.mem
  code := Function.update f.code t (some c)
  holder := some t
  entry := Function.update f.entry t f.mem.sem

/-- The next statement of a section. -/
def Locked.advance (f : Locked) (t : ThreadId) : SemCode → Locked
  | .exit e => { f with mem := leave f.mem t e, code := Function.update f.code t none }
  | .act g k => { f with mem := g f.mem, code := Function.update f.code t (some k) }
  | .test b yes no => { f with code := Function.update f.code t (some (if b f.mem then yes else no)) }
  | .unlock k =>
      { f with mem := spinUnlock f.mem, code := Function.update f.code t (some k), holder := none }

/-- The steps of `Model` that take no lock. -/
def Label.isUnlocked : Label → Bool
  | .tryDown _ | .recheck _ | .rewake _ | .up _ | .destroy _ => false
  | _ => true

inductive LockedLabel where
  | unlocked (a : Label)
  | acquire (t : ThreadId)
  | advance (t : ThreadId)
deriving DecidableEq, Repr

/-- A `test_and_set` that fails changes nothing and is no step. -/
inductive LockedStep : Locked → LockedLabel → Locked → Prop
  | unlocked {f : Locked} {a : Label} {s' : State} : a.isUnlocked = true → Step f.mem a s' →
      LockedStep f (.unlocked a) { f with mem := s' }
  | acquire {f : Locked} {t : ThreadId} {c : SemCode} : f.code t = none →
      sectionCode t (f.mem.pc t) = some c → f.mem.sem.spinLock = false →
      LockedStep f (.acquire t) (f.acquire t c)
  | advance {f : Locked} {t : ThreadId} {c : SemCode} : f.code t = some c →
      LockedStep f (.advance t) (f.advance t c)

/-- `sthread_sem_init(sem, count)` has returned 0, and all threads are idle. -/
def lockedSystem (count : Int) : System Locked LockedLabel where
  init := fun f => ∃ sem, (semInit sem count).2 = 0 ∧ f =
    ⟨{ State.init count with sem := (semInit sem count).1 }, fun _ => none, none, fun _ => sem⟩
  step := LockedStep

/-! ## A section nobody interrupts -/

/-- The step of `Model` for a section. -/
def wholeSection (s : State) (t : ThreadId) : Pc → State
  | .tryDown inDown => tryDown s t inDown
  | .recheck q => recheck s t q
  | .woken q => rewake s t q
  | .up => semUp s t
  | .destroy => semDestroy s t
  | _ => s

theorem spinUnlock_spinLock {s : State} (h : s.sem.spinLock = false) :
    spinUnlock (spinLock s) = s := by
  obtain ⟨⟨lock, init, sem, queue, destroyed⟩, thread, allocated, pc, tokens, returned, ups, downs,
    enqueued, dequeued⟩ := s
  cases h
  rfl

/-- The section `c` of `t` from its lock to its exit, with nobody in between. -/
def alone (s : State) (t : ThreadId) (c : SemCode) : State :=
  let r := c.run spinUnlock (spinLock s)
  leave r.1 t r.2

section Alone

variable {s : State} {t : ThreadId}

theorem alone_unlockAnd (hfree : s.sem.spinLock = false) (e : Exit) :
    alone s t (unlockAnd e) = leave s t e := by
  show leave (spinUnlock (spinLock s)) t e = leave s t e
  rw [spinUnlock_spinLock hfree]

/-- A statement that leaves the lock alone may come before the lock. -/
theorem alone_act {g : State → State} {k : SemCode} (hg : g (spinLock s) = spinLock (g s)) :
    alone s t (.act g k) = alone (g s) t k := by
  show leave (k.run spinUnlock (g (spinLock s))).1 t (k.run spinUnlock (g (spinLock s))).2 = _
  rw [hg]
  rfl

theorem alone_test {b : State → Bool} {yes no : SemCode} (hb : b (spinLock s) = b s) :
    alone s t (.test b yes no) = if b s then alone s t yes else alone s t no := by
  show leave (Code.run spinUnlock (.test b yes no) (spinLock s)).1 t
    (Code.run spinUnlock (.test b yes no) (spinLock s)).2 = _
  rw [Code.run, hb]
  split <;> rfl

theorem alone_takeUnit {k : SemCode} :
    alone s t (.act State.takeUnit k) = alone s.takeUnit t k := alone_act rfl

theorem alone_wakeHead {k : SemCode} :
    alone s t (.act State.wakeHead k) = alone s.wakeHead t k := alone_act rfl

theorem alone_semValidCheck (hfree : s.sem.spinLock = false) {k : SemCode} :
    alone s t (semValidCheck k) = if s.sem.destroyed then s.return t (-1) else alone s t k := by
  rw [semValidCheck, alone_test rfl, alone_unlockAnd hfree, leave]

theorem alone_tryDown (hfree : s.sem.spinLock = false) (inDown : Bool) :
    alone s t (tryDownCode inDown) = tryDown s t inDown := by
  rw [tryDownCode, alone_test rfl, alone_test rfl, alone_takeUnit,
    alone_unlockAnd (s := s.takeUnit) hfree, alone_unlockAnd hfree, tryDown]
  cases s.sem.destroyed <;> cases semAvail s.sem <;> cases inDown <;> rfl

theorem alone_recheck (hfree : s.sem.spinLock = false) (q : Elem) :
    alone s t (recheckCode t q) = recheck s t q := by
  have hlink : alone s t (.act (storeTail t q) (.act (setTail (.next q))
      (unlockAnd (.goto (.suspending q))))) =
      { s with
        sem := { s.sem with queue := s.sem.queue.enqueue q }
        pc := Function.update s.pc t (.suspending q)
        enqueued := s.enqueued ++ [t] } := by
    rw [alone_act (g := storeTail t q) rfl, alone_act (g := setTail (.next q)) rfl,
      alone_unlockAnd (s := setTail (.next q) (storeTail t q s)) hfree, TailQueue.enqueue, leave,
      setTail, storeTail]
    cases s.sem.queue.tail <;> rfl
  rw [recheckCode, alone_semValidCheck hfree, alone_test rfl, alone_takeUnit,
    alone_unlockAnd (s := s.takeUnit) hfree, hlink, recheck, leave]

/-- The head leaves: the end of the queue, or a successor to wake. -/
theorem alone_depart (hfree : s.sem.spinLock = false) {q : Elem} (hq : s.sem.queue.head = some q) :
    alone s t (.act (popHead t)
      (.test (fun s => decide (s.sem.queue.head = none))
        (.act (setTail .head) (unlockAnd (.goto (.freeing q))))
        (.act State.wakeHead (unlockAnd (.goto (.freeing q)))))) =
      State.wakeHead
        { s with
          sem := { s.sem with queue := s.sem.queue.dequeue }
          pc := Function.update s.pc t (.freeing q)
          dequeued := s.dequeued ++ [t] } := by
  have hpop : (popHead t s).sem.queue.head = s.sem.queue.next q := by simp [popHead, hq]
  rw [alone_act (g := popHead t) rfl, alone_test rfl, hpop]
  cases hnext : s.sem.queue.next q with
  | none =>
      rw [if_pos (by simp), alone_act (g := setTail .head) rfl,
        alone_unlockAnd (s := setTail .head (popHead t s)) hfree]
      simp [leave, State.goto, setTail, popHead, State.wakeHead, TailQueue.dequeue, hq, hnext]
  | some p =>
      rw [if_neg (by simp), alone_wakeHead, alone_unlockAnd (s := (popHead t s).wakeHead) hfree]
      simp [leave, State.goto, popHead, State.wakeHead, TailQueue.dequeue, hq, hnext]

theorem alone_rewake (hfree : s.sem.spinLock = false) (q : Elem) :
    alone s t (rewakeCode t q) = rewake s t q := by
  rw [rewakeCode, alone_semValidCheck hfree, alone_test rfl, alone_unlockAnd hfree,
    alone_takeUnit, rewake]
  refine if_congr Iff.rfl rfl ?_
  by_cases hc : 0 < s.sem.semaphore ∧ s.sem.queue.head = some q
  · rw [if_pos (by simpa using hc), if_pos hc, alone_depart (s := s.takeUnit) hfree hc.2]
    rfl
  · rw [if_neg (by simpa using hc), if_neg hc, leave]

theorem alone_up (hfree : s.sem.spinLock = false) : alone s t upCode = semUp s t := by
  rw [upCode, alone_semValidCheck hfree, alone_act (g := giveUnit) rfl, alone_test rfl,
    alone_wakeHead, alone_unlockAnd (s := giveUnit s) hfree,
    alone_unlockAnd (s := (giveUnit s).wakeHead) hfree, semUp]
  cases hhead : s.sem.queue.head with
  | none => simp [giveUnit, leave, State.wakeHead, hhead]
  | some q => simp [giveUnit, leave, State.wakeHead, hhead]

theorem alone_destroy (hfree : s.sem.spinLock = false) :
    alone s t destroyCode = semDestroy s t := by
  rw [destroyCode, destroyMark, destroyCompare, alone_semValidCheck hfree,
    alone_act (g := setDestroyed) rfl, alone_test rfl,
    alone_unlockAnd (s := setDestroyed s) hfree, semDestroy]
  refine if_congr Iff.rfl rfl ?_
  exact if_congr decide_eq_true_iff rfl rfl

/-- **A section that nobody interrupts is the step of the coarser model.** -/
theorem section_alone (hfree : s.sem.spinLock = false) {pc : Pc} {c : SemCode}
    (hc : sectionCode t pc = some c) : alone s t c = wholeSection s t pc := by
  cases pc with
  | tryDown inDown =>
      cases hc
      exact alone_tryDown hfree inDown
  | recheck q =>
      cases hc
      exact alone_recheck hfree q
  | woken q =>
      cases hc
      exact alone_rewake hfree q
  | up =>
      cases hc
      exact alone_up hfree
  | destroy =>
      cases hc
      exact alone_destroy hfree
  | _ => cases hc

end Alone

end LinuxHacks.Semaphore
