import LinuxHacks.Semaphore.Wakeups

/-!
# What a successful destroy leaves behind

`sthread_sem_destroy` returns 0 when the counter has its initial value. An
`sthread_sem_up` raises the counter at once, but the waiter it wakes lowers it
only when it is back from `sthread_suspend`; in between the counter looks idle
while threads are queued. `destroy_strands_nobody` says that this is the only
way: with no such wake-up pending the queue is empty.

* `queue_reach`: before the destroy the invariants of the queue hold;
* `step_destroyed`: on a destroyed semaphore nobody enters the queue.
-/

namespace LinuxHacks.Semaphore

open LinuxHacks.Lib

/-- A queued thread has a message to read, or is back from `sthread_suspend`
and has not looked at the semaphore yet. -/
def WakeupPending (s : State) : Prop :=
  ∃ t q, (s.pc t = .suspending q ∧ 0 < s.tokens t) ∨ s.pc t = .woken q

/-- No thread is queued, or on its way out of the queue. -/
def NobodyQueued (s : State) : Prop :=
  ∀ t q, s.pc t ≠ .suspending q ∧ s.pc t ≠ .woken q

theorem nobodyQueued_iff {s : State} : NobodyQueued s ↔ ∀ t, (s.pc t).queued = none := by
  constructor
  · intro h t
    cases hq : (s.pc t).queued with
    | none => rfl
    | some q =>
        rcases Pc.queued_eq_some.mp hq with hpc | hpc
        · exact absurd hpc (h t q).1
        · exact absurd hpc (h t q).2
  · intro h t q
    refine ⟨fun hpc => ?_, fun hpc => ?_⟩
    · have hn := h t
      rw [hpc] at hn
      cases hn
    · have hn := h t
      rw [hpc] at hn
      cases hn

/-! ## Steps on a destroyed semaphore -/

/-- Nobody enters the queue of a destroyed semaphore any more. -/
theorem step_destroyed {s s' : State} {a : Label} (hd : s.sem.destroyed = true)
    (hst : Step s a s') (h : NobodyQueued s) : s'.sem.destroyed = true ∧ NobodyQueued s' := by
  rw [nobodyQueued_iff] at h ⊢
  -- the moving thread ends outside the queue, the others stay where they are
  have hmove : ∀ (t : ThreadId) (pc : Pc), pc.queued = none →
      ∀ u, (Function.update s.pc t pc u).queued = none := by
    intro t pc hpc u
    by_cases hu : u = t
    · rw [hu, Function.update_self, hpc]
    · rw [Function.update_of_ne hu]
      exact h u
  cases hst with
  | @callTryDown t _ => exact ⟨hd, hmove t _ rfl⟩
  | @callDown t _ => exact ⟨hd, hmove t _ rfl⟩
  | @callUp t _ => exact ⟨hd, hmove t _ rfl⟩
  | @callDestroy t _ => exact ⟨hd, hmove t _ rfl⟩
  | @tryDown t inDown _ _ =>
      rw [tryDown, if_neg (by simp [hd])]
      cases inDown with
      | true => exact ⟨hd, hmove t _ rfl⟩
      | false => exact ⟨hd, hmove t _ rfl⟩
  | @makeElem t q _ _ => exact ⟨hd, hmove t _ rfl⟩
  | @noMemory t _ => exact ⟨hd, hmove t _ rfl⟩
  | @recheck t q _ _ =>
      rw [recheck, if_pos hd]
      exact ⟨hd, hmove t _ rfl⟩
  | @resume t q _ hpc _ =>
      have hn := h t
      rw [hpc] at hn
      cases hn
  | @rewake t q hpc _ =>
      have hn := h t
      rw [hpc] at hn
      cases hn
  | @freeElem t q _ => exact ⟨hd, hmove t _ rfl⟩
  | @up t _ _ =>
      rw [semUp, if_pos hd]
      exact ⟨hd, hmove t _ rfl⟩
  | @destroy t _ _ =>
      rw [semDestroy, if_pos hd]
      exact ⟨hd, hmove t _ rfl⟩

/-! ## Runs up to the destroy -/

/-- The value the semaphore was initialised with is never written. -/
theorem step_initialSemaphore {s s' : State} {a : Label} (hst : Step s a s') :
    s'.sem.initialSemaphore = s.sem.initialSemaphore := by
  cases hst with
  | tryDown _ _ =>
      rw [tryDown]
      split_ifs <;> rfl
  | recheck _ _ =>
      rw [recheck]
      split_ifs <;> rfl
  | rewake _ _ =>
      rw [rewake]
      split_ifs <;> rfl
  | up _ _ =>
      rw [semUp]
      split_ifs <;> rfl
  | destroy _ _ =>
      rw [semDestroy]
      split_ifs <;> rfl
  | _ => rfl

/-- A destroy sets the flag, and no step clears it. -/
theorem step_alive {s s' : State} {a : Label} (hst : Step s a s')
    (halive : s'.sem.destroyed = false) : s.sem.destroyed = false ∧ neverDestroyed s a := by
  cases hst with
  | tryDown _ _ =>
      rw [tryDown] at halive
      refine ⟨?_, fun _ h => (by cases h)⟩
      split_ifs at halive <;> exact halive
  | recheck _ _ =>
      rw [recheck] at halive
      refine ⟨?_, fun _ h => (by cases h)⟩
      split_ifs at halive <;> exact halive
  | rewake _ _ =>
      rw [rewake] at halive
      refine ⟨?_, fun _ h => (by cases h)⟩
      split_ifs at halive <;> exact halive
  | up _ _ =>
      rw [semUp] at halive
      refine ⟨?_, fun _ h => (by cases h)⟩
      split_ifs at halive <;> exact halive
  | destroy _ _ =>
      rw [semDestroy] at halive
      split at halive
      case isTrue hd =>
          rw [show (s.return _ _).sem.destroyed = s.sem.destroyed from rfl, hd] at halive
          cases halive
      case isFalse => split at halive <;> cases halive
  | _ => exact ⟨halive, fun _ h => (by cases h)⟩

/-- As long as the semaphore is not destroyed, nobody has called destroy with
effect, and the invariants of the queue hold. -/
theorem queue_reach {count : Int} {s : State} (h : (system count).Reach System.anyStep s) :
    s.sem.initialSemaphore = count ∧
      (s.sem.destroyed = false → ∃ l, QueueInv s l ∧ HeadRoused s l) := by
  refine h.invariant (I := fun s => s.sem.initialSemaphore = count ∧
    (s.sem.destroyed = false → ∃ l, QueueInv s l ∧ HeadRoused s l)) ?_ ?_
  · intro s hs
    rw [show s = State.init count from hs]
    exact ⟨rfl, fun _ => ⟨[], queueInv_init count, headRoused_init count⟩⟩
  · intro s a s' ⟨hcount, hinv⟩ _ hst
    refine ⟨(step_initialSemaphore hst).trans hcount, fun halive => ?_⟩
    obtain ⟨hbefore, hnever⟩ := step_alive hst halive
    exact headRoused_step hnever hst (hinv hbefore)

/-- The destroy that returns 0 finds the initial count on a live semaphore. -/
theorem semDestroy_returns_zero {s : State} {t : ThreadId} :
    (semDestroy s t).returned t = 0 ↔
      s.sem.destroyed = false ∧ s.sem.semaphore = s.sem.initialSemaphore := by
  rw [semDestroy]
  split_ifs with hd hne
  · simp [State.return, hd]
  · simp [State.return, hne]
  · simp only [Bool.not_eq_true] at hd
    rw [not_not] at hne
    simp [State.return, hd, hne]

/-- **A successful destroy strands nobody exactly when no wake-up is pending.**
For every run, when `sthread_sem_destroy` returns 0 the queue is empty if and
only if no queued thread has a message to read or is back from its sleep. After
such a destroy no thread is ever queued again, whatever the threads do. -/
theorem destroy_strands_nobody (count : Int) (hpos : 1 ≤ count) {s s' : State} {t : ThreadId}
    (h : (system count).Reach System.anyStep s) (hst : Step s (.destroy t) s')
    (hzero : s'.returned t = 0) :
    (s.sem.queue.head = none ↔ ¬ WakeupPending s) ∧
      (¬ WakeupPending s → ∀ s'',
        Relation.ReflTransGen ((system count).Admitted System.anyStep) s' s'' →
        NobodyQueued s'') := by
  obtain ⟨hinit, hinv⟩ := queue_reach h
  obtain ⟨hpc, hs'⟩ : s.pc t = .destroy ∧ s' = semDestroy s t := by
    cases hst with
    | destroy hpc _ => exact ⟨hpc, rfl⟩
  rw [hs', semDestroy_returns_zero] at hzero
  obtain ⟨halive, hidle⟩ := hzero
  obtain ⟨l, hq, hroused⟩ := hinv halive
  have hempty : s.sem.queue.head = none ↔ ¬ WakeupPending s := by
    constructor
    · rintro hnone ⟨u, q, hu⟩
      have hqueued : (s.pc u).queued = some q :=
        Pc.queued_eq_some.mpr (hu.imp And.left id)
      have hmem := ((hq.waiting u q).mp hqueued).1
      rw [hq.repr.head_eq, List.head?_eq_none_iff] at hnone
      rw [hnone] at hmem
      cases hmem
    · intro hnot
      cases hhead : s.sem.queue.head with
      | none => rfl
      | some q =>
          -- the counter is positive, so the head has been woken
          have hunit : 0 < s.sem.semaphore := by omega
          have hl : l.head? = some q := hq.repr.head_eq.symm.trans hhead
          have hwait : (s.pc (s.thread q)).queued = some q :=
            (hq.waiting _ _).mpr ⟨List.mem_of_mem_head? hl, rfl⟩
          refine absurd ⟨s.thread q, q, ?_⟩ hnot
          rcases Pc.queued_eq_some.mp hwait with hsleep | hback
          · rcases hroused hunit q hl with htok | hback
            · exact Or.inl ⟨hsleep, htok⟩
            · exact Or.inr hback
          · exact Or.inr hback
  refine ⟨hempty, fun hnot s'' hrun => ?_⟩
  have hnobody : NobodyQueued s' := by
    rw [nobodyQueued_iff]
    intro u
    have hl : l = [] := by
      have hnone := hempty.mpr hnot
      rwa [hq.repr.head_eq, List.head?_eq_none_iff] at hnone
    have hbefore : (s.pc u).queued = none := by
      cases hu : (s.pc u).queued with
      | none => rfl
      | some q =>
          have hmem := ((hq.waiting u q).mp hu).1
          rw [hl] at hmem
          cases hmem
    rw [hs', semDestroy, if_neg (by simp [halive]), if_neg (by simp [hidle])]
    show (Function.update s.pc t .idle u).queued = none
    by_cases hut : u = t
    · rw [hut, Function.update_self]
      rfl
    · rw [Function.update_of_ne hut, hbefore]
  have hdead : s'.sem.destroyed = true := by
    rw [hs', semDestroy, if_neg (by simp [halive]), if_neg (by simp [hidle])]
    rfl
  have hkept : s''.sem.destroyed = true ∧ NobodyQueued s'' :=
    System.invariant_run (I := fun s => s.sem.destroyed = true ∧ NobodyQueued s)
      (fun _ _ _ hI _ hst => step_destroyed hI.1 hst hI.2) hrun ⟨hdead, hnobody⟩
  exact hkept.2

theorem reach_next {count : Int} {s s' : State} (a : Label)
    (h : (system count).Reach System.anyStep s) (hst : Step s a s') :
    (system count).Reach System.anyStep s' :=
  h.step a trivial hst

/-! Thread 0 takes the unit and gives it back before it destroys the semaphore. -/

def unitReturned : State :=
  (semUp ((tryDown ((State.init 1).goto 0 (.tryDown false)) 0 false).goto 0 .up) 0).goto 0 .destroy

theorem unitReturned_reach : (system 1).Reach System.anyStep unitReturned := by
  have h0 : (system 1).Reach System.anyStep (State.init 1) := .init rfl
  have h1 := reach_next (.callTryDown 0) h0 (.callTryDown rfl)
  have h2 := reach_next (.tryDown 0) h1 (.tryDown rfl rfl)
  have h3 := reach_next (.callUp 0) h2 (.callUp rfl)
  have h4 := reach_next (.up 0) h3 (.up rfl rfl)
  exact reach_next (.callDestroy 0) h4 (.callDestroy rfl)

theorem unitReturned_destroyed :
    (semDestroy unitReturned 0).returned 0 = 0 ∧ ¬ WakeupPending unitReturned ∧
      ∀ s, Relation.ReflTransGen ((system 1).Admitted System.anyStep)
        (semDestroy unitReturned 0) s → NobodyQueued s := by
  have h := destroy_strands_nobody 1 (by decide) unitReturned_reach
    (Step.destroy (t := 0) rfl rfl) rfl
  have hnot : ¬ WakeupPending unitReturned := h.1.mp rfl
  exact ⟨rfl, hnot, h.2 hnot⟩

/-! Threads 1 and 2 are queued when thread 0 gives its unit back. Thread 1 is
woken, and before it runs thread 3 destroys the semaphore. -/

def twoQueued : State :=
  recheck (makeElem (tryDown (secondQueued.goto 2 (.tryDown true)) 2 true) 2 8) 2 8

def destroyDue : State := (semUp (twoQueued.goto 0 .up) 0).goto 3 .destroy

def leftBehind : State := rewake (resume (semDestroy destroyDue 3) 1 7 false) 1 7

theorem destroyDue_reach : (system 1).Reach System.anyStep destroyDue := by
  have h0 : (system 1).Reach System.anyStep secondQueued :=
    secondQueued_reach.mono (fun _ _ _ => trivial)
  have h1 := reach_next (.callDown 2) h0 (.callDown rfl)
  have h2 := reach_next (.tryDown 2) h1 (.tryDown rfl rfl)
  have h3 := reach_next (.makeElem 2) h2 (.makeElem (q := 8) rfl rfl)
  have h4 := reach_next (.recheck 2) h3 (.recheck rfl rfl)
  have h5 := reach_next (.callUp 0) h4 (.callUp rfl)
  have h6 := reach_next (.up 0) h5 (.up rfl rfl)
  exact reach_next (.callDestroy 3) h6 (.callDestroy rfl)

/-- The destroy returns 0 with two threads queued. Thread 1 wakes up and leaves
with -1, without waking its successor; thread 2 sleeps on. -/
theorem destroy_strands_waiters :
    (semDestroy destroyDue 3).returned 3 = 0 ∧ destroyDue.sem.queue.head = some 7 ∧
      Relation.ReflTransGen ((system 1).Admitted System.anyStep)
        (semDestroy destroyDue 3) leftBehind ∧
      leftBehind.returned 1 = -1 ∧ leftBehind.pc 2 = .suspending 8 ∧ leftBehind.tokens 2 = 0 ∧
      ¬ ∀ (s s' : State) (t : ThreadId), (system 1).Reach System.anyStep s →
        Step s (.destroy t) s' → s'.returned t = 0 → s.sem.queue.head = none := by
  refine ⟨rfl, rfl, ?_, rfl, rfl, rfl, fun h => ?_⟩
  · have hwoken : Step (semDestroy destroyDue 3) (.resume 1)
        (resume (semDestroy destroyDue 3) 1 7 false) := Step.resume rfl (fun _ => by decide)
    exact .tail (.tail .refl ⟨.resume 1, trivial, hwoken⟩)
      ⟨.rewake 1, trivial, Step.rewake rfl rfl⟩
  · have hnone := h destroyDue _ 3 destroyDue_reach (Step.destroy rfl rfl) rfl
    exact absurd hnone (by decide)

end LinuxHacks.Semaphore
