import LinuxHacks.Semaphore.Model

/-!
# Accounting and FIFO hand-off of a semaphore

`QueueInv s l` ties the pointer queue of the semaphore to the list `l` of its
elements, to the program counters of the waiting threads and to the history:

* the queue represents `l`, and a thread is inside the wait loop with element
  `q` exactly when `q ∈ l` and `q` is its element;
* the threads that enqueued are those that took their unit, followed by the
  threads of `l`.

Every step keeps it as long as nobody destroys the semaphore. On top of it the
value of the semaphore is the balance of ups and downs.
-/

namespace LinuxHacks.Semaphore

open LinuxHacks.Lib

/-- The element a thread owns. -/
def Pc.elem : Pc → Option Elem
  | .recheck q => some q
  | .suspending q => some q
  | .woken q => some q
  | .freeing q => some q
  | _ => none

/-- The element of a thread inside the wait loop. -/
def Pc.queued : Pc → Option Elem
  | .suspending q => some q
  | .woken q => some q
  | _ => none

theorem Pc.elem_of_queued {pc : Pc} {q : Elem} (h : pc.queued = some q) : pc.elem = some q := by
  cases pc <;> simp_all [Pc.queued, Pc.elem]

structure QueueInv (s : State) (l : List Elem) : Prop where
  alive : s.sem.destroyed = false
  unlocked : s.sem.spinLock = false
  repr : s.sem.queue.Represents l
  history : s.enqueued = s.dequeued ++ l.map s.thread
  waiting : ∀ t q, (s.pc t).queued = some q ↔ q ∈ l ∧ s.thread q = t
  owned : ∀ t q, (s.pc t).elem = some q → s.allocated q = true ∧ s.thread q = t
  fresh : ∀ t q, s.pc t = .recheck q → s.sem.queue.next q = none

theorem queueInv_init (count : Int) : QueueInv (State.init count) [] where
  alive := rfl
  unlocked := rfl
  repr := TailQueue.represents_empty
  history := rfl
  waiting := by simp [State.init, Pc.queued]
  owned := by simp [State.init, Pc.elem]
  fresh := by simp [State.init]

/-! ## Consequences -/

section Consequences

variable {s : State} {l : List Elem}

theorem QueueInv.allocated_of_mem (h : QueueInv s l) {q : Elem} (hq : q ∈ l) :
    s.allocated q = true := by
  have hw : (s.pc (s.thread q)).queued = some q := (h.waiting _ _).mpr ⟨hq, rfl⟩
  exact (h.owned _ _ (Pc.elem_of_queued hw)).1

/-- A thread outside the wait loop owns no element of the queue. -/
theorem QueueInv.not_mem (h : QueueInv s l) {t : ThreadId} {q : Elem}
    (hpc : (s.pc t).elem = some q) (hnq : (s.pc t).queued = none) : q ∉ l := by
  intro hq
  have hw : (s.pc (s.thread q)).queued = some q := (h.waiting _ _).mpr ⟨hq, rfl⟩
  rw [(h.owned t q hpc).2, hnq] at hw
  cases hw

/-- The thread of a queued element is not one outside the wait loop. -/
theorem QueueInv.thread_ne (h : QueueInv s l) {t : ThreadId} {q : Elem} (hq : q ∈ l)
    (hnq : (s.pc t).queued = none) : s.thread q ≠ t := by
  intro ht
  have hw : (s.pc t).queued = some q := (h.waiting _ _).mpr ⟨hq, ht⟩
  rw [hnq] at hw
  cases hw

theorem QueueInv.avail_iff (h : QueueInv s l) :
    semAvail s.sem = true ↔ 0 < s.sem.semaphore ∧ l = [] := by
  rw [semAvail, h.repr.head_eq]
  cases l <;> simp

end Consequences

/-! ## One step -/

/-- What a step of `t` may change without touching the queue: its program
counter, within the same place as to the queue, and the fields the invariant
does not read. -/
structure QueueFrame (s s' : State) (t : ThreadId) (pc : Pc) : Prop where
  destroyed : s'.sem.destroyed = s.sem.destroyed
  spinLock : s'.sem.spinLock = s.sem.spinLock
  queue : s'.sem.queue = s.sem.queue
  thread : s'.thread = s.thread
  allocated : ∀ q, (∃ t', (s'.pc t').elem = some q) → s'.allocated q = s.allocated q
  enqueued : s'.enqueued = s.enqueued
  dequeued : s'.dequeued = s.dequeued
  moves : s'.pc = Function.update s.pc t pc
  queued : pc.queued = (s.pc t).queued
  elem : ∀ q, pc.elem = some q → (s.pc t).elem = some q
  recheck : ∀ q, pc ≠ .recheck q

theorem QueueInv.frame {s s' : State} {t : ThreadId} {pc : Pc} {l : List Elem}
    (h : QueueInv s l) (hf : QueueFrame s s' t pc) : QueueInv s' l where
  alive := by rw [hf.destroyed, h.alive]
  unlocked := by rw [hf.spinLock, h.unlocked]
  repr := by rw [hf.queue]; exact h.repr
  history := by rw [hf.enqueued, hf.dequeued, hf.thread, h.history]
  waiting := by
    intro t' q
    rw [hf.moves, hf.thread, ← h.waiting t' q]
    by_cases ht : t' = t
    · rw [ht, Function.update_self, hf.queued]
    · rw [Function.update_of_ne ht]
  owned := by
    intro t' q hq
    rw [hf.allocated q ⟨t', hq⟩, hf.thread]
    apply h.owned
    by_cases ht : t' = t
    · rw [ht] at hq ⊢
      rw [hf.moves, Function.update_self] at hq
      exact hf.elem q hq
    · rwa [hf.moves, Function.update_of_ne ht] at hq
  fresh := by
    intro t' q hq
    rw [hf.queue]
    by_cases ht : t' = t
    · rw [ht, hf.moves, Function.update_self] at hq
      exact absurd hq (hf.recheck q)
    · rw [hf.moves, Function.update_of_ne ht] at hq
      exact h.fresh t' q hq

theorem queueFrame_goto {s : State} {t : ThreadId} {pc : Pc}
    (hq : pc.queued = (s.pc t).queued) (he : ∀ q, pc.elem = some q → (s.pc t).elem = some q)
    (hr : ∀ q, pc ≠ .recheck q) : QueueFrame s (s.goto t pc) t pc :=
  ⟨rfl, rfl, rfl, rfl, fun _ _ => rfl, rfl, rfl, rfl, hq, he, hr⟩

theorem queueFrame_return {s : State} {t : ThreadId} {value : Int}
    (hq : (s.pc t).queued = none) : QueueFrame s (s.return t value) t .idle :=
  ⟨rfl, rfl, rfl, rfl, fun _ _ => rfl, rfl, rfl, rfl, hq.symm,
    fun _ h => (by cases h), fun _ h => (by cases h)⟩

section Steps

variable {s : State} {l : List Elem} {t : ThreadId} {q : Elem}

theorem QueueInv.call (h : QueueInv s l) {pc : Pc} (hidle : s.pc t = .idle)
    (hq : pc.queued = none) (he : pc.elem = none) : QueueInv (s.goto t pc) l := by
  refine h.frame (queueFrame_goto ?_ ?_ ?_)
  · rw [hq, hidle]
    rfl
  · intro q hp
    rw [he] at hp
    cases hp
  · rintro q rfl
    cases he

theorem QueueInv.tryDown (h : QueueInv s l) {inDown : Bool} (hpc : s.pc t = .tryDown inDown) :
    QueueInv (tryDown s t inDown) l := by
  have hq : (s.pc t).queued = none := by rw [hpc]; rfl
  unfold Semaphore.tryDown
  split
  · exact h.frame ⟨rfl, rfl, rfl, rfl, fun _ _ => rfl, rfl, rfl, rfl, hq.symm,
      fun _ h => (by cases h), fun _ h => (by cases h)⟩
  · split
    · exact h.frame (queueFrame_goto hq.symm (fun _ h => (by cases h)) (fun _ h => (by cases h)))
    · exact h.frame (queueFrame_return hq)

/-- `malloc` returns an address that no thread owns, so it is in no queue. -/
theorem QueueInv.makeElem (h : QueueInv s l) (hpc : s.pc t = .makeElem)
    (hfree : s.allocated q = false) : QueueInv (makeElem s t q) l := by
  have hq : q ∉ l := by
    intro hq
    rw [h.allocated_of_mem hq] at hfree
    cases hfree
  have hthread : ∀ p, p ≠ q → Function.update s.thread q t p = s.thread p :=
    fun p hp => Function.update_of_ne hp _ _
  have hmem : ∀ p, p ∈ l → p ≠ q := by
    rintro p hp rfl
    exact hq hp
  refine ⟨h.alive, h.unlocked, h.repr.clearNext hq, ?_, ?_, ?_, ?_⟩
  · show s.enqueued = s.dequeued ++ l.map (Function.update s.thread q t)
    rw [h.history]
    congr 1
    exact List.map_congr_left (fun p hp => (hthread p (hmem p hp)).symm)
  · intro t' p
    show (Function.update s.pc t (.recheck q) t').queued = some p ↔
      p ∈ l ∧ Function.update s.thread q t p = t'
    have hold : p ∈ l ∧ Function.update s.thread q t p = t' ↔ p ∈ l ∧ s.thread p = t' := by
      refine and_congr_right (fun hp => ?_)
      rw [hthread p (hmem p hp)]
    rw [hold, ← h.waiting t' p]
    by_cases ht : t' = t
    · rw [ht, Function.update_self, hpc]
      simp [Pc.queued]
    · rw [Function.update_of_ne ht]
  · intro t' p hp
    show Function.update s.allocated q true p = true ∧ Function.update s.thread q t p = t'
    change (Function.update s.pc t (.recheck q) t').elem = some p at hp
    by_cases ht : t' = t
    · rw [ht, Function.update_self] at hp
      cases hp
      simp [ht]
    · rw [Function.update_of_ne ht] at hp
      have hown := h.owned t' p hp
      have hpq : p ≠ q := by
        rintro rfl
        rw [hown.1] at hfree
        cases hfree
      rw [hthread p hpq, Function.update_of_ne hpq]
      exact hown
  · intro t' p hp
    show Function.update s.sem.queue.next q none p = none
    change Function.update s.pc t (.recheck q) t' = .recheck p at hp
    by_cases hpq : p = q
    · rw [hpq, Function.update_self]
    · have ht : t' ≠ t := by
        rintro rfl
        rw [Function.update_self] at hp
        cases hp
        exact hpq rfl
      rw [Function.update_of_ne ht] at hp
      rw [Function.update_of_ne hpq]
      exact h.fresh t' p hp

/-- The list after the second locked section of `sthread_sem_down`. -/
theorem QueueInv.enqueue (h : QueueInv s l) (hpc : s.pc t = .recheck q) :
    QueueInv
      { s with
        sem := { s.sem with queue := s.sem.queue.enqueue q }
        pc := Function.update s.pc t (.suspending q)
        enqueued := s.enqueued ++ [t] } (l ++ [q]) := by
  have helem : (s.pc t).elem = some q := by rw [hpc]; rfl
  have hqueued : (s.pc t).queued = none := by rw [hpc]; rfl
  have hthread : s.thread q = t := (h.owned t q helem).2
  refine ⟨h.alive, h.unlocked, h.repr.enqueue (h.not_mem helem hqueued) (h.fresh t q hpc),
    ?_, ?_, ?_, ?_⟩
  · show s.enqueued ++ [t] = s.dequeued ++ (l ++ [q]).map s.thread
    rw [h.history]
    simp [hthread]
  · intro t' p
    show (Function.update s.pc t (.suspending q) t').queued = some p ↔
      p ∈ l ++ [q] ∧ s.thread p = t'
    by_cases ht : t' = t
    · rw [ht, Function.update_self]
      constructor
      · intro hp
        cases hp
        exact ⟨by simp, hthread⟩
      · rintro ⟨hp, hpt⟩
        rcases List.mem_append.mp hp with hp | hp
        · exact absurd hpt (h.thread_ne hp hqueued)
        · rw [List.mem_singleton.mp hp]
          rfl
    · rw [Function.update_of_ne ht, h.waiting t' p]
      constructor
      · rintro ⟨hp, hpt⟩
        exact ⟨List.mem_append_left _ hp, hpt⟩
      · rintro ⟨hp, hpt⟩
        rcases List.mem_append.mp hp with hp | hp
        · exact ⟨hp, hpt⟩
        · rw [List.mem_singleton.mp hp, hthread] at hpt
          exact absurd hpt.symm ht
  · intro t' p hp
    change (Function.update s.pc t (.suspending q) t').elem = some p at hp
    by_cases ht : t' = t
    · rw [ht, Function.update_self] at hp
      cases hp
      rw [ht]
      exact h.owned t q helem
    · rw [Function.update_of_ne ht] at hp
      exact h.owned t' p hp
  · intro t' p hp
    change Function.update s.pc t (.suspending q) t' = .recheck p at hp
    have ht : t' ≠ t := by
      rintro rfl
      rw [Function.update_self] at hp
      cases hp
    rw [Function.update_of_ne ht] at hp
    have hpl : p ∉ l := h.not_mem (t := t') (by rw [hp]; rfl) (by rw [hp]; rfl)
    show (s.sem.queue.enqueue q).next p = none
    rw [h.repr.enqueue_next hpl]
    exact h.fresh t' p hp

theorem QueueInv.recheck (h : QueueInv s l) (hpc : s.pc t = .recheck q) :
    (semAvail s.sem = true ∧ QueueInv (recheck s t q) l) ∨
      (semAvail s.sem = false ∧ QueueInv (recheck s t q) (l ++ [q])) := by
  unfold Semaphore.recheck
  rw [if_neg (by rw [h.alive]; simp)]
  cases hav : semAvail s.sem with
  | true =>
      refine Or.inl ⟨rfl, ?_⟩
      exact h.frame ⟨rfl, rfl, rfl, rfl, fun _ _ => rfl, rfl, rfl, rfl, by rw [hpc]; rfl,
        fun p hp => (by rw [hpc]; exact hp), fun _ h => (by cases h)⟩
  | false => exact Or.inr ⟨rfl, h.enqueue hpc⟩

theorem QueueInv.resume (h : QueueInv s l) {spurious : Bool} (hpc : s.pc t = .suspending q) :
    QueueInv (resume s t q spurious) l :=
  h.frame ⟨rfl, rfl, rfl, rfl, fun _ _ => rfl, rfl, rfl, rfl, by rw [hpc]; rfl,
    fun p hp => (by rw [hpc]; exact hp), fun _ h => (by cases h)⟩

/-- The head of the queue leaves. -/
theorem QueueInv.dequeue (h : QueueInv s (q :: l)) (hpc : s.pc t = .woken q) {s' : State}
    (hsem : s'.sem.destroyed = s.sem.destroyed ∧ s'.sem.spinLock = s.sem.spinLock ∧
      s'.sem.queue = s.sem.queue.dequeue)
    (hthread : s'.thread = s.thread) (halloc : s'.allocated = s.allocated)
    (hpc' : s'.pc = Function.update s.pc t (.freeing q))
    (henq : s'.enqueued = s.enqueued) (hdeq : s'.dequeued = s.dequeued ++ [t]) :
    QueueInv s' l := by
  have hown : s.thread q = t := (h.owned t q (by rw [hpc]; rfl)).2
  have hql : q ∉ l := (List.nodup_cons.mp h.repr.nodup).1
  refine ⟨by rw [hsem.1, h.alive], by rw [hsem.2.1, h.unlocked], ?_, ?_, ?_, ?_, ?_⟩
  · rw [hsem.2.2]
    exact h.repr.dequeue
  · rw [henq, hdeq, hthread, h.history]
    simp [hown]
  · intro t' p
    rw [hpc', hthread]
    by_cases ht : t' = t
    · rw [ht, Function.update_self]
      constructor
      · intro hp
        cases hp
      · rintro ⟨hp, hpt⟩
        -- `t` waits on one element only, and that one is the head
        have hw : (s.pc t).queued = some p :=
          (h.waiting t p).mpr ⟨List.mem_cons_of_mem _ hp, hpt⟩
        rw [hpc] at hw
        cases hw
        exact absurd hp hql
    · rw [Function.update_of_ne ht, h.waiting t' p]
      constructor
      · rintro ⟨hp, hpt⟩
        rcases List.mem_cons.mp hp with rfl | hp
        · exact absurd (hpt.symm.trans hown) ht
        · exact ⟨hp, hpt⟩
      · rintro ⟨hp, hpt⟩
        exact ⟨List.mem_cons_of_mem _ hp, hpt⟩
  · intro t' p hp
    rw [halloc, hthread]
    apply h.owned
    by_cases ht : t' = t
    · rw [ht, hpc', Function.update_self] at hp
      rw [ht, hpc]
      exact hp
    · rwa [hpc', Function.update_of_ne ht] at hp
  · intro t' p hp
    rw [hsem.2.2, TailQueue.dequeue_next]
    have ht : t' ≠ t := by
      rintro rfl
      rw [hpc', Function.update_self] at hp
      cases hp
    rw [hpc', Function.update_of_ne ht] at hp
    exact h.fresh t' p hp

/-- A woken thread takes its unit exactly when it is the head and there is one. -/
theorem QueueInv.rewake (h : QueueInv s l) (hpc : s.pc t = .woken q) :
    (0 < s.sem.semaphore ∧ ∃ l', l = q :: l' ∧ QueueInv (rewake s t q) l') ∨
      (¬ (0 < s.sem.semaphore ∧ l.head? = some q) ∧ rewake s t q = s.goto t (.suspending q) ∧
        QueueInv (rewake s t q) l) := by
  unfold Semaphore.rewake
  rw [if_neg (by rw [h.alive]; simp)]
  split
  case isTrue hc =>
      rw [h.repr.head_eq] at hc
      cases l with
      | nil => simp at hc
      | cons p l' =>
          obtain ⟨hpos, hp⟩ := hc
          cases hp
          exact Or.inl ⟨hpos, l', rfl, h.dequeue hpc ⟨rfl, rfl, rfl⟩ rfl rfl rfl rfl rfl⟩
  case isFalse hc =>
      rw [h.repr.head_eq] at hc
      refine Or.inr ⟨hc, rfl, h.frame (queueFrame_goto ?_ ?_ ?_)⟩
      · rw [hpc]
        rfl
      · intro p hp
        rw [hpc]
        exact hp
      · intro p hp
        cases hp

theorem QueueInv.freeElem (h : QueueInv s l) (hpc : s.pc t = .freeing q) :
    QueueInv (freeElem s t q) l := by
  refine h.frame ⟨rfl, rfl, rfl, rfl, ?_, rfl, rfl, rfl, by rw [hpc]; rfl,
    fun _ h => (by cases h), fun _ h => (by cases h)⟩
  -- nobody else owns the freed element
  rintro p ⟨t', hp⟩
  change (Function.update s.pc t .idle t').elem = some p at hp
  have ht : t' ≠ t := by
    rintro rfl
    rw [Function.update_self] at hp
    cases hp
  rw [Function.update_of_ne ht] at hp
  have hpq : p ≠ q := by
    rintro rfl
    have hown := (h.owned t p (by rw [hpc]; rfl)).2
    exact ht ((h.owned t' p hp).2.symm.trans hown)
  exact Function.update_of_ne hpq _ _

theorem QueueInv.semUp (h : QueueInv s l) (hpc : s.pc t = .up) : QueueInv (semUp s t) l := by
  unfold Semaphore.semUp
  rw [if_neg (by rw [h.alive]; simp)]
  exact h.frame ⟨rfl, rfl, rfl, rfl, fun _ _ => rfl, rfl, rfl, rfl, by rw [hpc]; rfl,
    fun _ h => (by cases h), fun _ h => (by cases h)⟩

end Steps

theorem queueInv_step {s s' : State} {a : Label} (hok : neverDestroyed s a) (hst : Step s a s')
    (h : ∃ l, QueueInv s l) : ∃ l, QueueInv s' l := by
  obtain ⟨l, h⟩ := h
  cases hst with
  | callTryDown hpc => exact ⟨l, h.call hpc rfl rfl⟩
  | callDown hpc => exact ⟨l, h.call hpc rfl rfl⟩
  | callUp hpc => exact ⟨l, h.call hpc rfl rfl⟩
  | callDestroy hpc => exact ⟨l, h.call hpc rfl rfl⟩
  | tryDown hpc _ => exact ⟨l, h.tryDown hpc⟩
  | makeElem hpc hfree => exact ⟨l, h.makeElem hpc hfree⟩
  | noMemory hpc => exact ⟨l, h.frame (queueFrame_return (by rw [hpc]; rfl))⟩
  | @recheck _ q hpc _ =>
      rcases h.recheck hpc with ⟨_, h'⟩ | ⟨_, h'⟩
      · exact ⟨l, h'⟩
      · exact ⟨l ++ [q], h'⟩
  | resume hpc _ => exact ⟨l, h.resume hpc⟩
  | rewake hpc _ =>
      rcases h.rewake hpc with ⟨_, l', _, h'⟩ | ⟨_, _, h'⟩
      · exact ⟨l', h'⟩
      · exact ⟨l, h'⟩
  | freeElem hpc => exact ⟨l, h.freeElem hpc⟩
  | up hpc _ => exact ⟨l, h.semUp hpc⟩
  | @destroy t _ _ => exact absurd rfl (hok t)

/-- **The queue invariant holds along every run without a destroy.** -/
theorem queueInv_reach {count : Int} {s : State} (h : (system count).Reach neverDestroyed s) :
    ∃ l, QueueInv s l :=
  h.invariant (I := fun s => ∃ l, QueueInv s l)
    (fun _ hs => ⟨[], by rw [show _ = State.init count from hs]; exact queueInv_init count⟩)
    (fun _ _ _ hI hok hst => queueInv_step hok hst hI)

end LinuxHacks.Semaphore
