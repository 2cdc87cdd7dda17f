import LinuxHacks.Semaphore.Accounting

/-!
# No lost wake-up

While a unit is available and threads are queued, somebody is on the way to
take it: the head of the queue has a message in its pipe, or is back from
`sthread_suspend` and about to look at the semaphore again.

Two sections can make that obligation arise, `sthread_sem_up` and the departure
of a waiter, and both write to the pipe of the new head. A thread that enqueues
itself can become the head only when no unit is there.
-/

namespace LinuxHacks.Semaphore

open LinuxHacks.Lib

/-- The thread of `q` will re-check the semaphore. -/
def Roused (s : State) (q : Elem) : Prop :=
  0 < s.tokens (s.thread q) ∨ s.pc (s.thread q) = .woken q

/-- While a unit is available, the head of the queue is roused. -/
def HeadRoused (s : State) (l : List Elem) : Prop :=
  0 < s.sem.semaphore → ∀ q, l.head? = some q → Roused s q

theorem headRoused_init (count : Int) : HeadRoused (State.init count) [] := by
  intro _ q hq
  cases hq

section Steps

variable {s s' : State} {l : List Elem} {t : ThreadId} {q : Elem}

/-- A step of a thread that is not queued, and that takes no message away. -/
theorem HeadRoused.other (hw : HeadRoused s l) (h : QueueInv s l)
    (hnq : (s.pc t).queued = none) {pc : Pc}
    (hsem : s'.sem.semaphore = s.sem.semaphore) (hthread : ∀ p ∈ l, s'.thread p = s.thread p)
    (htokens : s'.tokens = s.tokens) (hpc : s'.pc = Function.update s.pc t pc) :
    HeadRoused s' l := by
  intro hpos p hp
  have hpl : p ∈ l := List.mem_of_mem_head? hp
  rw [Roused, htokens, hpc, hthread p hpl, Function.update_of_ne (h.thread_ne hpl hnq)]
  exact hw (hsem ▸ hpos) p hp

/-- Whoever is the head gets a message. -/
theorem headRoused_wakeHead (hr : s.sem.queue.Represents l) : HeadRoused s.wakeHead l := by
  intro _ p hp
  refine Or.inl ?_
  have hhead : s.sem.queue.head = some p := hr.head_eq.trans hp
  show 0 < s.wakeHead.tokens (s.thread p)
  rw [wakeHead_tokens, hhead, Option.map_some, if_pos rfl]
  exact Nat.succ_pos _

theorem HeadRoused.tryDown (hw : HeadRoused s l) (h : QueueInv s l) {inDown : Bool}
    (hpc : s.pc t = .tryDown inDown) : HeadRoused (tryDown s t inDown) l := by
  have hnq : (s.pc t).queued = none := by rw [hpc]; rfl
  unfold Semaphore.tryDown
  split
  case isTrue hc =>
      obtain ⟨_, rfl⟩ := h.avail_iff.mp (Bool.and_eq_true_iff.mp hc).2
      intro _ p hp
      cases hp
  case isFalse =>
      split
      · exact hw.other h hnq rfl (fun _ _ => rfl) rfl rfl
      · exact hw.other h hnq rfl (fun _ _ => rfl) rfl rfl

/-- A thread that enqueues itself in front of nobody found no unit. -/
theorem HeadRoused.enqueue (hw : HeadRoused s l) (h : QueueInv s l) (hpc : s.pc t = .recheck q)
    (hav : semAvail s.sem = false) : HeadRoused (recheck s t q) (l ++ [q]) := by
  have hnq : (s.pc t).queued = none := by rw [hpc]; rfl
  have hfields : (recheck s t q).sem.semaphore = s.sem.semaphore ∧
      (recheck s t q).thread = s.thread ∧ (recheck s t q).tokens = s.tokens ∧
      (recheck s t q).pc = Function.update s.pc t (.suspending q) := by
    unfold Semaphore.recheck
    rw [if_neg (by rw [h.alive]; simp), if_neg (by rw [hav]; simp)]
    exact ⟨rfl, rfl, rfl, rfl⟩
  obtain ⟨hsem, hthread, htokens, hpc'⟩ := hfields
  cases l with
  | nil =>
      intro hpos
      have hyes := h.avail_iff.mpr ⟨hsem ▸ hpos, rfl⟩
      rw [hav] at hyes
      cases hyes
  | cons r l' =>
      have hold : HeadRoused (recheck s t q) (r :: l') :=
        hw.other h hnq hsem (fun p _ => by rw [hthread]) htokens hpc'
      exact hold

theorem HeadRoused.resume (hw : HeadRoused s l) (h : QueueInv s l) {spurious : Bool}
    (hpc : s.pc t = .suspending q) : HeadRoused (resume s t q spurious) l := by
  intro hpos p hp
  have hpl : p ∈ l := List.mem_of_mem_head? hp
  by_cases ht : s.thread p = t
  · -- the head itself: it waits on `q`, so `p` is `q`, and it is back
    have hqueued : (s.pc t).queued = some p := (h.waiting t p).mpr ⟨hpl, ht⟩
    rw [hpc] at hqueued
    cases hqueued
    refine Or.inr ?_
    show Function.update s.pc t (.woken q) (s.thread q) = .woken q
    rw [ht, Function.update_self]
  · have hold := hw hpos p hp
    have htokens : (Semaphore.resume s t q spurious).tokens (s.thread p) =
        s.tokens (s.thread p) := by
      unfold Semaphore.resume
      cases spurious with
      | true => rfl
      | false => exact Function.update_of_ne ht _ _
    rw [Roused]
    show 0 < (Semaphore.resume s t q spurious).tokens (s.thread p) ∨
      Function.update s.pc t (.woken q) (s.thread p) = .woken p
    rw [htokens, Function.update_of_ne ht]
    exact hold

/-- A head that goes back to sleep found no unit. -/
theorem HeadRoused.sleepAgain (hw : HeadRoused s l) (h : QueueInv s l)
    (hpc : s.pc t = .woken q) (hc : ¬ (0 < s.sem.semaphore ∧ l.head? = some q)) :
    HeadRoused (s.goto t (.suspending q)) l := by
  intro hpos p hp
  have hpl : p ∈ l := List.mem_of_mem_head? hp
  have ht : s.thread p ≠ t := by
    intro ht
    have hqueued : (s.pc t).queued = some p := (h.waiting t p).mpr ⟨hpl, ht⟩
    rw [hpc] at hqueued
    cases hqueued
    exact hc ⟨hpos, hp⟩
  rw [Roused]
  show 0 < s.tokens (s.thread p) ∨ Function.update s.pc t (.suspending q) (s.thread p) = .woken p
  rw [Function.update_of_ne ht]
  exact hw hpos p hp

/-- A departing waiter passes the wake-up on. -/
theorem headRoused_depart (h : QueueInv s (q :: l)) (hpos : 0 < s.sem.semaphore) :
    HeadRoused (rewake s t q) l := by
  unfold Semaphore.rewake
  rw [if_neg (by rw [h.alive]; simp), if_pos ⟨hpos, h.repr.head_eq⟩]
  exact headRoused_wakeHead h.repr.dequeue

theorem headRoused_semUp (h : QueueInv s l) (hpc : s.pc t = .up) : HeadRoused (semUp s t) l := by
  have hnq : (s.pc t).queued = none := by rw [hpc]; rfl
  unfold Semaphore.semUp
  rw [if_neg (by rw [h.alive]; simp)]
  intro hpos p hp
  have hpl : p ∈ l := List.mem_of_mem_head? hp
  rcases headRoused_wakeHead (s := { s with
      sem := { s.sem with semaphore := wrapInt (s.sem.semaphore + 1) }, ups := s.ups + 1 })
      h.repr hpos p hp with htok | hback
  · exact Or.inl htok
  · refine Or.inr ?_
    show Function.update s.pc t .idle (s.thread p) = .woken p
    rw [Function.update_of_ne (h.thread_ne hpl hnq)]
    exact hback

end Steps

theorem headRoused_step {s s' : State} {a : Label} (hok : neverDestroyed s a)
    (hst : Step s a s') (hI : ∃ l, QueueInv s l ∧ HeadRoused s l) :
    ∃ l, QueueInv s' l ∧ HeadRoused s' l := by
  obtain ⟨l, h, hw⟩ := hI
  -- the calls: an idle thread enters an operation
  have hcall : ∀ {t pc}, s.pc t = .idle → HeadRoused (s.goto t pc) l :=
    fun hidle => hw.other h (by rw [hidle]; rfl) rfl (fun _ _ => rfl) rfl rfl
  cases hst with
  | callTryDown hpc => exact ⟨l, h.call hpc rfl rfl, hcall hpc⟩
  | callDown hpc => exact ⟨l, h.call hpc rfl rfl, hcall hpc⟩
  | callUp hpc => exact ⟨l, h.call hpc rfl rfl, hcall hpc⟩
  | callDestroy hpc => exact ⟨l, h.call hpc rfl rfl, hcall hpc⟩
  | tryDown hpc _ => exact ⟨l, h.tryDown hpc, hw.tryDown h hpc⟩
  | @makeElem t q hpc hfree =>
      have hthread : ∀ p ∈ l, (makeElem s t q).thread p = s.thread p := by
        intro p hp
        have hpq : p ≠ q := by
          rintro rfl
          rw [h.allocated_of_mem hp] at hfree
          cases hfree
        exact Function.update_of_ne hpq _ _
      exact ⟨l, h.makeElem hpc hfree, hw.other h (by rw [hpc]; rfl) rfl hthread rfl rfl⟩
  | @noMemory t hpc =>
      have hnq : (s.pc t).queued = none := by rw [hpc]; rfl
      exact ⟨l, h.frame (queueFrame_return hnq), hw.other h hnq rfl (fun _ _ => rfl) rfl rfl⟩
  | @recheck t q hpc _ =>
      rcases h.recheck hpc with ⟨hav, h'⟩ | ⟨hav, h'⟩
      · obtain ⟨_, rfl⟩ := h.avail_iff.mp hav
        exact ⟨[], h', fun _ p hp => (by cases hp)⟩
      · exact ⟨l ++ [q], h', hw.enqueue h hpc hav⟩
  | resume hpc _ => exact ⟨l, h.resume hpc, hw.resume h hpc⟩
  | rewake hpc _ =>
      rcases h.rewake hpc with ⟨hpos, l', rfl, h'⟩ | ⟨hc, heq, h'⟩
      · exact ⟨l', h', headRoused_depart h hpos⟩
      · refine ⟨l, h', ?_⟩
        rw [heq]
        exact hw.sleepAgain h hpc hc
  | freeElem hpc =>
      exact ⟨l, h.freeElem hpc,
        hw.other h (by rw [hpc]; rfl) rfl (fun _ _ => rfl) rfl rfl⟩
  | up hpc _ => exact ⟨l, h.semUp hpc, headRoused_semUp h hpc⟩
  | @destroy t _ _ => exact absurd rfl (hok t)

theorem headRoused_reach {count : Int} {s : State}
    (h : (system count).Reach neverDestroyed s) : ∃ l, QueueInv s l ∧ HeadRoused s l := by
  refine h.invariant (I := fun s => ∃ l, QueueInv s l ∧ HeadRoused s l) ?_ ?_
  · intro s hs
    rw [show s = State.init count from hs]
    exact ⟨[], queueInv_init count, headRoused_init count⟩
  · intro s a s' hI hok hst
    exact headRoused_step hok hst hI

/-- **No lost wake-up.** On a semaphore that nobody destroys, whenever the spin
lock is free, a unit is available and threads are queued, the thread at
`queuehead` has a message in its pipe or is about to re-check. So there is
always a queued thread that is not asleep with an empty pipe. -/
theorem semaphore_no_lost_wakeup (count : Int) (s : State)
    (hs : (system count).Reach neverDestroyed s) (_hlock : s.sem.spinLock = false)
    (hunit : 0 < s.sem.semaphore) (q : Elem) (hhead : s.sem.queue.head = some q) :
    (0 < s.tokens (s.thread q) ∨ s.pc (s.thread q) = .woken q) ∧
      ∃ t, (∃ p, s.pc t = .suspending p ∨ s.pc t = .woken p) ∧
        ¬ (∃ p, s.pc t = .suspending p ∧ s.tokens t = 0) := by
  obtain ⟨l, h, hw⟩ := headRoused_reach hs
  have hq : l.head? = some q := h.repr.head_eq.symm.trans hhead
  have hroused : Roused s q := hw hunit q hq
  have hqueued : (s.pc (s.thread q)).queued = some q :=
    (h.waiting _ _).mpr ⟨List.mem_of_mem_head? hq, rfl⟩
  refine ⟨hroused, s.thread q, ⟨q, Pc.queued_eq_some.mp hqueued⟩, ?_⟩
  rintro ⟨p, hp, hempty⟩
  rcases hroused with htok | hback
  · omega
  · rw [hp] at hback
    cases hback

/-- The run of `secondQueued`, after thread 0 gives its unit back. -/
def unitPending : State := semUp (secondQueued.goto 0 .up) 0

theorem unitPending_reach : (system 1).Reach neverDestroyed unitPending := by
  have h0 : (system 1).Reach neverDestroyed secondQueued :=
    secondQueued_reach.mono (fun _ _ hok => hok.1)
  have h1 : (system 1).Reach neverDestroyed (secondQueued.goto 0 .up) :=
    h0.step (.callUp 0) (fun _ h => (by cases h)) (Step.callUp rfl)
  exact h1.step (.up 0) (fun _ h => (by cases h)) (Step.up rfl rfl)

theorem unitPending_head_roused :
    unitPending.sem.semaphore = 1 ∧ unitPending.sem.queue.head = some 7 ∧
      (0 < unitPending.tokens 1 ∨ unitPending.pc 1 = .woken 7) := by
  have h := semaphore_no_lost_wakeup 1 unitPending unitPending_reach rfl
    (show (0 : Int) < 1 by decide) 7 rfl
  exact ⟨rfl, rfl, h.1⟩

end LinuxHacks.Semaphore
