import LinuxHacks.Uwrr.Queues

/-!
# The invariant of the runqueue

`Core` collects what every scheduler function relies on: the queues and
counters agree with the tasks (`Holds`, `Counts`, `Linked`), every task is in
an array of its own kind and a UWRR task has the one UWRR priority (`Tasks`),
and a user has at least as many references as tasks (`Refs`).

The rest of the module says how the building blocks of the scheduler keep it: a
task changes its fields, moves within the runqueue, leaves it or enters it.
-/

namespace LinuxHacks.Uwrr

open LinuxHacks.Lib
open LinuxHacks.Lib.Placement

/-! ## One task -/

structure TaskOk (t : Task) : Prop where
  uwrr : t.policy = .uwrr → t.prio = UWRR_TASK_PRIO ∧ t.staticPrio = UWRR_TASK_PRIO
  static : MAX_RT_PRIO ≤ t.staticPrio ∧ t.staticPrio < MAX_PRIO
  prio : 0 ≤ t.prio
  queued : t.array ≠ none → t.prio < MAX_PRIO
  home : ∀ r, t.array = some r →
    (t.policy = .uwrr ∧ r = .user t.user) ∨ (t.policy ≠ .uwrr ∧ ∃ i, r = .rq i)

/-- What the invariant reads of a task. -/
structure Same (t t' : Task) : Prop where
  policy : t'.policy = t.policy
  prio : t'.prio = t.prio
  staticPrio : t'.staticPrio = t.staticPrio
  user : t'.user = t.user
  array : t'.array = t.array
  state : t'.state = t.state

theorem TaskOk.of_same {t t' : Task} (h : TaskOk t) (hs : Same t t') : TaskOk t' where
  uwrr := by
    rw [hs.policy, hs.prio, hs.staticPrio]
    exact h.uwrr
  static := by
    rw [hs.staticPrio]
    exact h.static
  prio := by
    rw [hs.prio]
    exact h.prio
  queued := by
    rw [hs.array, hs.prio]
    exact h.queued
  home := by
    rw [hs.array, hs.policy, hs.user]
    exact h.home

/-- A task taken off the runqueue. -/
theorem TaskOk.unqueued {t : Task} (h : TaskOk t) : TaskOk { t with array := none } where
  uwrr := h.uwrr
  static := h.static
  prio := h.prio
  queued := fun e => absurd rfl e
  home := fun _ e => (by cases e)

theorem TaskOk.enqueued {t : Task} (h : TaskOk t) {r : ArrayRef} (hprio : t.prio < MAX_PRIO)
    (hr : (t.policy = .uwrr ∧ r = .user t.user) ∨ (t.policy ≠ .uwrr ∧ ∃ i, r = .rq i)) :
    TaskOk { t with array := some r } where
  uwrr := h.uwrr
  static := h.static
  prio := h.prio
  queued := fun _ => hprio
  home := by
    intro r' e
    cases e
    exact hr

/-- A new priority, for a task that is not UWRR. -/
theorem TaskOk.withPrio {t : Task} (h : TaskOk t) (hpol : t.policy ≠ .uwrr) {k : Int}
    (hk : 0 ≤ k ∧ k < MAX_PRIO) : TaskOk { t with prio := k } where
  uwrr := fun e => absurd e hpol
  static := h.static
  prio := hk.1
  queued := fun _ => hk.2
  home := h.home

theorem effectivePrio_uwrr {t : Task} (h : t.policy = .uwrr) : effectivePrio t = t.prio := by
  simp [effectivePrio, h]

theorem effectivePrio_bounds {t : Task} (h : TaskOk t) :
    0 ≤ effectivePrio t ∧ effectivePrio t < MAX_PRIO := by
  have hprio := h.prio
  by_cases hpol : t.policy = .uwrr
  · rw [effectivePrio_uwrr hpol, (h.uwrr hpol).1]
    decide
  · by_cases hrt : t.prio < MAX_RT_PRIO
    · have heff : effectivePrio t = t.prio := by simp [effectivePrio, rtTask, hrt]
      rw [heff]
      simp only [ MAX_RT_PRIO, MAX_PRIO] at hrt ⊢
      omega
    · -- the bonus is cut to the range of `SCHED_NORMAL` priorities
      simp only [effectivePrio, rtTask, hrt, hpol, decide_false, Bool.or_false, Bool.false_eq_true,
        if_false]
      simp only [ MAX_RT_PRIO, MAX_PRIO]
      omega

theorem TaskOk.withEffectivePrio {t : Task} (h : TaskOk t) :
    TaskOk { t with prio := effectivePrio t } := by
  by_cases hpol : t.policy = .uwrr
  · rw [effectivePrio_uwrr hpol]
    exact h
  · exact h.withPrio hpol (effectivePrio_bounds h)

theorem TaskOk.recalc {t : Task} (h : TaskOk t) (now : Nat) : TaskOk (recalcTaskPrio t now) := by
  have h' : TaskOk { t with sleepAvg := recalcSleepAvg t now } :=
    h.of_same ⟨rfl, rfl, rfl, rfl, rfl, rfl⟩
  exact h'.withEffectivePrio

theorem TaskOk.recalc_prio_lt {t : Task} (h : TaskOk t) (now : Nat) :
    (recalcTaskPrio t now).prio < MAX_PRIO := by
  have h' : TaskOk { t with sleepAvg := recalcSleepAvg t now } :=
    h.of_same ⟨rfl, rfl, rfl, rfl, rfl, rfl⟩
  exact (effectivePrio_bounds h').2

/-- `__setscheduler` on a task that is not queued. -/
theorem TaskOk.setscheduler {t : Task} (h : TaskOk t) (harray : t.array = none) (policy : Policy)
    {prio : Int} (hprio : 0 ≤ prio ∧ prio < MAX_RT_PRIO) :
    TaskOk (setschedulerTask t policy prio) ∧ (setschedulerTask t policy prio).array = none ∧
      (setschedulerTask t policy prio).prio < MAX_PRIO := by
  have hst := h.static
  have hnone : ∀ r, t.array = some r → False := by
    intro r e
    rw [harray] at e
    cases e
  simp only [ MAX_RT_PRIO, MAX_PRIO] at hprio hst
  cases policy with
  | uwrr =>
      refine ⟨⟨fun _ => ⟨rfl, rfl⟩, ?_, ?_, fun e => absurd harray e,
        fun r e => (hnone r e).elim⟩, harray, ?_⟩
      · show MAX_RT_PRIO ≤ UWRR_TASK_PRIO ∧ UWRR_TASK_PRIO < MAX_PRIO
        decide
      · show 0 ≤ UWRR_TASK_PRIO
        decide
      · show UWRR_TASK_PRIO < MAX_PRIO
        decide
  | normal =>
      refine ⟨⟨fun e => (by cases e), h.static, ?_, fun e => absurd harray e,
        fun r e => (hnone r e).elim⟩, harray, h.static.2⟩
      show 0 ≤ t.staticPrio
      omega
  | fifo =>
      refine ⟨⟨fun e => (by cases e), h.static, ?_, fun e => absurd harray e,
        fun r e => (hnone r e).elim⟩, harray, ?_⟩
      · show 0 ≤ MAX_RT_PRIO - 1 - prio
        simp only [ MAX_RT_PRIO]
        omega
      · show MAX_RT_PRIO - 1 - prio < MAX_PRIO
        simp only [ MAX_RT_PRIO, MAX_PRIO]
        omega
  | rr =>
      refine ⟨⟨fun e => (by cases e), h.static, ?_, fun e => absurd harray e,
        fun r e => (hnone r e).elim⟩, harray, ?_⟩
      · show 0 ≤ MAX_RT_PRIO - 1 - prio
        simp only [ MAX_RT_PRIO]
        omega
      · show MAX_RT_PRIO - 1 - prio < MAX_PRIO
        simp only [ MAX_RT_PRIO, MAX_PRIO]
        omega

/-! ## All tasks -/

/-- The idle task and the children of a `fork` that has not returned: they are
runnable but in no queue. -/
def Reserved (forking : TaskId → Option TaskId) (p : TaskId) : Prop :=
  p = idle ∨ ∃ q, forking q = some p

structure Tasks (task : TaskId → Task) (created : TaskId → Bool)
    (forking : TaskId → Option TaskId) : Prop where
  ok : ∀ p, TaskOk (task p)
  known : ∀ p, (task p).array ≠ none ∨ Reserved forking p → created p = true
  reserved : ∀ p, Reserved forking p → (task p).array = none ∧ (task p).state = .running
  idle : (task idle).policy ≠ .uwrr
  notIdle : ∀ q, forking q ≠ some Uwrr.idle
  user : ∀ q c, forking q = some c → (task c).user = (task q).user
  forker : ∀ q c, forking q = some c → created q = true
  parent : ∀ q q' c, forking q = some c → forking q' = some c → q = q'

theorem user_update {task : TaskId → Task} {p : TaskId} {t : Task} (h : t.user = (task p).user)
    (q : TaskId) : (Function.update task p t q).user = (task q).user := by
  by_cases hq : q = p
  · rw [hq, Function.update_self]
    exact h
  · rw [Function.update_of_ne hq]

/-- One task changes. Its user does only outside of a `fork`. -/
theorem Tasks.update {task : TaskId → Task} {created : TaskId → Bool}
    {forking : TaskId → Option TaskId} (h : Tasks task created forking) {p : TaskId} {t : Task}
    (hok : TaskOk t)
    (huser : t.user = (task p).user ∨ (forking p = none ∧ ∀ q, forking q ≠ some p))
    (hcreated : t.array ≠ none → created p = true)
    (hreserved : Reserved forking p → t.array = none ∧ t.state = .running)
    (hidle : p = Uwrr.idle → t.policy ≠ .uwrr) :
    Tasks (Function.update task p t) created forking where
  ok := by
    intro q
    by_cases hq : q = p
    · rw [hq, Function.update_self]
      exact hok
    · rw [Function.update_of_ne hq]
      exact h.ok q
  known := by
    intro q
    by_cases hq : q = p
    · rw [hq, Function.update_self]
      rintro (ha | hr)
      · exact hcreated ha
      · exact h.known p (Or.inr hr)
    · rw [Function.update_of_ne hq]
      exact h.known q
  reserved := by
    intro q
    by_cases hq : q = p
    · rw [hq, Function.update_self]
      exact hreserved
    · rw [Function.update_of_ne hq]
      exact h.reserved q
  idle := by
    by_cases hq : Uwrr.idle = p
    · rw [← hq, Function.update_self]
      exact hidle hq.symm
    · rw [Function.update_of_ne hq]
      exact h.idle
  notIdle := h.notIdle
  user := by
    intro q c hc
    rcases huser with huser | ⟨hnone, hnot⟩
    · rw [user_update huser, user_update huser]
      exact h.user q c hc
    · have hqp : q ≠ p := by
        rintro rfl
        rw [hnone] at hc
        cases hc
      have hcp : c ≠ p := by
        rintro rfl
        exact hnot q hc
      rw [Function.update_of_ne hqp, Function.update_of_ne hcp]
      exact h.user q c hc
  forker := h.forker
  parent := h.parent

structure Refs (task : TaskId → Task) (created : TaskId → Bool) (user : UserId → User) : Prop where
  finite : {p | created p = true}.Finite
  count : ∀ u, ({p | created p = true ∧ (task p).user = u}.ncard : Int) ≤ (user u).count

theorem Refs.of_eq {task task' : TaskId → Task} {created : TaskId → Bool} {user user' : UserId → User}
    (h : Refs task created user) (htask : ∀ p, (task' p).user = (task p).user)
    (huser : ∀ u, (user' u).count = (user u).count) : Refs task' created user' where
  finite := h.finite
  count := by
    intro u
    simp only [htask, huser]
    exact h.count u

/-! ## The invariant -/

structure Core (s : State) : Prop where
  holds : Holds s.arrays (loc s.task)
  counts : Counts s.nrRunning s.uwrrRunning (loc s.task)
  linked : Linked s.uwrrUserlist (loc s.task)
  tasks : Tasks s.task s.created s.forking
  refs : Refs s.task s.created s.user
  bug : s.bug = false

/-- The current task is in a queue, unless it is the idle task. -/
def Busy (s : State) : Prop := s.curr = idle ∨ (s.task s.curr).array ≠ none

/-- Nothing leaves the runqueue. -/
structure Stays (s s' : State) : Prop where
  curr : s'.curr = s.curr
  array : ∀ p, (s.task p).array ≠ none → (s'.task p).array ≠ none

theorem Stays.refl (s : State) : Stays s s := ⟨rfl, fun _ => id⟩

theorem Stays.trans {s s' s'' : State} (h : Stays s s') (h' : Stays s' s'') : Stays s s'' :=
  ⟨h'.curr.trans h.curr, fun p hp => h'.array p (h.array p hp)⟩

theorem Stays.busy {s s' : State} (h : Stays s s') (hb : Busy s) : Busy s' := by
  rcases hb with hidle | hcurr
  · exact Or.inl (h.curr.trans hidle)
  · refine Or.inr ?_
    rw [h.curr]
    exact h.array _ hcurr

/-- One task changes and stays queued. -/
theorem Stays.of_update {s s' : State} {p : TaskId} {t : Task} (hcurr : s'.curr = s.curr)
    (htask : s'.task = Function.update s.task p t)
    (harray : (s.task p).array ≠ none → t.array ≠ none) : Stays s s' := by
  refine ⟨hcurr, ?_⟩
  intro q hq
  rw [htask]
  by_cases hqp : q = p
  · rw [hqp, Function.update_self]
    exact harray (hqp ▸ hq)
  · rw [Function.update_of_ne hqp]
    exact hq

/-- A task changes fields without moving. -/
theorem Core.modTask {s : State} (h : Core s) (p : TaskId) (f : Task → Task)
    (harray : (f (s.task p)).array = (s.task p).array)
    (hprio : (s.task p).array ≠ none → (f (s.task p)).prio = (s.task p).prio)
    (huser : (f (s.task p)).user = (s.task p).user) (hok : TaskOk (f (s.task p)))
    (hstate : Reserved s.forking p → (f (s.task p)).state = .running)
    (hidle : p = idle → (f (s.task p)).policy ≠ .uwrr) : Core (s.modTask p f) := by
  have hloc : loc (s.modTask p f).task = loc s.task :=
    loc_update_same harray (fun e => hprio (harray ▸ e))
  refine ⟨?_, ?_, ?_, ?_, ?_, h.bug⟩
  · rw [hloc]
    exact h.holds
  · rw [hloc]
    exact h.counts
  · rw [hloc]
    exact h.linked
  · refine h.tasks.update hok (Or.inl huser) ?_ ?_ hidle
    · rw [harray]
      exact fun e => h.tasks.known p (Or.inl e)
    · intro hr
      rw [harray]
      exact ⟨(h.tasks.reserved p hr).1, hstate hr⟩
  · exact h.refs.of_eq (user_update huser) (fun _ => rfl)

theorem Core.retask {s : State} (h : Core s) (p : TaskId) (f : Task → Task)
    (hs : Same (s.task p) (f (s.task p))) : Core (s.modTask p f) := by
  refine h.modTask p f hs.array (fun _ => hs.prio) hs.user ((h.tasks.ok p).of_same hs) ?_ ?_
  · rw [hs.state]
    exact fun hr => (h.tasks.reserved p hr).2
  · rintro rfl
    rw [hs.policy]
    exact h.tasks.idle

theorem Stays.modTask (s : State) (p : TaskId) (f : Task → Task)
    (harray : (f (s.task p)).array = (s.task p).array) : Stays s (s.modTask p f) :=
  Stays.of_update rfl rfl (by rw [harray]; exact id)

theorem Core.resched {s : State} (h : Core s) (p : TaskId) : Core (reschedTask s p) :=
  h.retask p _ ⟨rfl, rfl, rfl, rfl, rfl, rfl⟩

theorem Stays.resched (s : State) (p : TaskId) : Stays s (reschedTask s p) :=
  Stays.modTask s p _ rfl

/-- Changes that no part of the invariant reads. -/
theorem Core.of_eq {s s' : State} (h : Core s) (harrays : s'.arrays = s.arrays)
    (htask : s'.task = s.task) (hnr : s'.nrRunning = s.nrRunning)
    (huwrr : s'.uwrrRunning = s.uwrrRunning) (hlist : Linked s'.uwrrUserlist (loc s.task))
    (hcreated : s'.created = s.created) (hforking : s'.forking = s.forking)
    (huser : ∀ u, (s'.user u).count = (s.user u).count) (hbug : s'.bug = s.bug) : Core s' := by
  refine ⟨?_, ?_, ?_, ?_, ?_, hbug.trans h.bug⟩
  · rw [harrays, htask]
    exact h.holds
  · rw [hnr, huwrr, htask]
    exact h.counts
  · rw [htask]
    exact hlist
  · rw [htask, hcreated, hforking]
    exact h.tasks
  · rw [hcreated]
    exact h.refs.of_eq (by rw [htask]; exact fun _ => rfl) huser

theorem Core.loc_curr {s : State} {p : TaskId} {r : ArrayRef} (hp : (s.task p).array = some r) :
    loc s.task p = some (r, (s.task p).prio) := loc_eq_some.mpr ⟨hp, rfl⟩

/-- `requeue_task`. -/
theorem Core.requeue {s : State} (h : Core s) {p : TaskId} {r : ArrayRef}
    (hp : (s.task p).array = some r) : Core (requeueTask s p r) :=
  ⟨h.holds.requeue (Core.loc_curr hp), h.counts, h.linked, h.tasks, h.refs, h.bug⟩

/-- The counters, the lists and the current task did not change. -/
structure SameRest (s m : State) : Prop where
  nrRunning : m.nrRunning = s.nrRunning
  uwrrRunning : m.uwrrRunning = s.uwrrRunning
  userlist : m.uwrrUserlist = s.uwrrUserlist
  created : m.created = s.created
  forking : m.forking = s.forking
  user : m.user = s.user
  bug : m.bug = s.bug
  curr : m.curr = s.curr

theorem enqueueTask_task (s : State) (p : TaskId) (r : ArrayRef) :
    (enqueueTask s p r).task = Function.update s.task p { s.task p with array := some r } := rfl

/-- `dequeue_task`, new fields, `enqueue_task`: the task changes its queue. `m`
is the state in between. -/
theorem Core.move {s m : State} (h : Core s) {p : TaskId} {r r' : ArrayRef} {t : Task}
    (hp : (s.task p).array = some r) (hr : SameKind r r')
    (harrays : m.arrays = (dequeueTask s p r).arrays)
    (htask : m.task = Function.update s.task p t)
    (hok : TaskOk { t with array := some r' }) (huser : t.user = (s.task p).user)
    (hrest : SameRest s m) : Core (enqueueTask m p r') ∧ Stays s (enqueueTask m p r') := by
  have hpl := Core.loc_curr hp
  have hmt : m.task p = t := by rw [htask, Function.update_self]
  have htask' : (enqueueTask m p r').task =
      Function.update s.task p { t with array := some r' } := by
    rw [enqueueTask_task, hmt, htask, Function.update_idem]
  have hloc : loc (enqueueTask m p r').task =
      Function.update (loc s.task) p (some (r', t.prio)) := by
    rw [htask', loc_update]
    rfl
  have hcr : s.created p = true := h.tasks.known p (Or.inl (by rw [hp]; simp))
  have hnone : Reserved s.forking p → False := by
    intro hres
    have hnone := (h.tasks.reserved p hres).1
    rw [hp] at hnone
    cases hnone
  refine ⟨⟨?_, ?_, ?_, ?_, ?_, hrest.bug.trans h.bug⟩,
    Stays.of_update hrest.curr htask' (fun _ e => (by cases e))⟩
  · have hdeq := h.holds.dequeue hpl
    rw [← harrays] at hdeq
    have henq := hdeq.enqueue (Function.update_self ..) r'
    rw [Function.update_idem, hmt] at henq
    rw [hloc]
    exact henq
  · rw [hloc]
    show Counts m.nrRunning m.uwrrRunning _
    rw [hrest.nrRunning, hrest.uwrrRunning]
    exact h.counts.move h.holds.finitary hpl hr t.prio
  · rw [hloc]
    show Linked m.uwrrUserlist _
    rw [hrest.userlist]
    exact h.linked.of_iff (occupied_move hpl hr t.prio)
  · rw [htask']
    show Tasks _ m.created m.forking
    rw [hrest.created, hrest.forking]
    exact h.tasks.update hok (Or.inl huser) (fun _ => hcr) (fun hres => (hnone hres).elim)
      (fun hidle => (hnone (Or.inl hidle)).elim)
  · rw [htask']
    show Refs _ m.created m.user
    rw [hrest.created, hrest.user]
    exact h.refs.of_eq (user_update huser) (fun _ => rfl)

/-! ## Leaving and entering the runqueue -/

/-- What `deactivate_task` does to a queued task. -/
structure Deactivated (s : State) (p : TaskId) (r : ArrayRef) (s' : State) : Prop where
  arrays : s'.arrays = (dequeueTask s p r).arrays
  task : s'.task = Function.update s.task p { s.task p with array := none }
  nrRunning : s'.nrRunning = s.nrRunning - 1
  uwrrRunning : s'.uwrrRunning = s.uwrrRunning - if (s.task p).policy = .uwrr then 1 else 0
  userlist : s'.uwrrUserlist =
    if (s.task p).policy = .uwrr ∧ (s.arrays r).nrActive = 1 then
      s.uwrrUserlist.erase (s.task p).user else s.uwrrUserlist
  created : s'.created = s.created
  forking : s'.forking = s.forking
  user : s'.user = s.user
  bug : s'.bug = s.bug
  curr : s'.curr = s.curr

theorem deactivateTask_eq {s : State} {p : TaskId} {r : ArrayRef}
    (hp : (s.task p).array = some r) :
    ∃ s', deactivateTask s p = some s' ∧ Deactivated s p r s' := by
  rw [deactivateTask, hp]
  refine ⟨_, rfl, ?_⟩
  by_cases hpol : (s.task p).policy = .uwrr
  · by_cases hone : (s.arrays r).nrActive = 1
    · constructor <;> simp [hpol, hone, State.modTask, dequeueTask, State.modArray]
    · constructor <;> simp [hpol, hone, State.modTask, dequeueTask, State.modArray]
  · constructor <;> simp [hpol, State.modTask, dequeueTask, State.modArray]

/-- The array a task is put in. -/
def homeArray (s : State) (p : TaskId) : ArrayRef :=
  if (s.task p).policy = .uwrr then .user (s.task p).user else s.activeArray

theorem homeArray_home (s : State) (p : TaskId) :
    ((s.task p).policy = .uwrr ∧ homeArray s p = .user (s.task p).user) ∨
      ((s.task p).policy ≠ .uwrr ∧ ∃ i, homeArray s p = .rq i) := by
  by_cases hpol : (s.task p).policy = .uwrr
  · exact Or.inl ⟨hpol, if_pos hpol⟩
  · exact Or.inr ⟨hpol, s.active, if_neg hpol⟩

/-- What `__activate_task` does. -/
structure Activated (s : State) (p : TaskId) (s' : State) : Prop where
  arrays : s'.arrays = (enqueueTask s p (homeArray s p)).arrays
  task : s'.task = Function.update s.task p { s.task p with array := some (homeArray s p) }
  nrRunning : s'.nrRunning = s.nrRunning + 1
  uwrrRunning : s'.uwrrRunning = s.uwrrRunning + if (s.task p).policy = .uwrr then 1 else 0
  userlist : s'.uwrrUserlist =
    if (s.task p).policy = .uwrr ∧ (s.task p).user ∉ s.uwrrUserlist then
      s.uwrrUserlist ++ [(s.task p).user] else s.uwrrUserlist
  created : s'.created = s.created
  forking : s'.forking = s.forking
  user : s'.user = s.user
  bug : s'.bug = s.bug
  curr : s'.curr = s.curr

theorem activateTask'_eq (s : State) (p : TaskId) : Activated s p (activateTask' s p) := by
  by_cases hpol : (s.task p).policy = .uwrr
  · by_cases hin : (s.task p).user ∈ s.uwrrUserlist
    · constructor <;>
        simp [activateTask', homeArray, hpol, hin, enqueueTask, State.modTask, State.modArray]
    · constructor <;>
        simp [activateTask', homeArray, hpol, hin, enqueueTask, State.modTask, State.modArray]
  · constructor <;>
      simp [activateTask', homeArray, hpol, enqueueTask, State.modTask, State.modArray]

/-- Off the runqueue. -/
theorem Core.deactivate {s s' : State} (h : Core s) {p : TaskId} {r : ArrayRef}
    (hp : (s.task p).array = some r) (hd : Deactivated s p r s') : Core s' := by
  have hpl := Core.loc_curr hp
  have hok := h.tasks.ok p
  have hloc : loc s'.task = Function.update (loc s.task) p none := by
    rw [hd.task, loc_update]
    rfl
  refine ⟨?_, ?_, ?_, ?_, ?_, ?_⟩
  · rw [hd.arrays, hloc]
    exact h.holds.dequeue hpl
  · rw [hd.nrRunning, hd.uwrrRunning, hloc]
    have hrem := h.counts.remove h.holds.finitary hpl
    rcases hok.home r hp with ⟨hpol, rfl⟩ | ⟨hpol, i, rfl⟩
    · rw [if_pos hpol]
      exact hrem
    · rw [if_neg hpol]
      exact hrem
  · rw [hd.userlist, hloc]
    rcases hok.home r hp with ⟨hpol, rfl⟩ | ⟨hpol, i, rfl⟩
    · have hrem := h.linked.remove h.holds.finitary hpl
      rw [h.holds.nrActive]
      simp only [hpol, true_and]
      exact hrem
    · rw [if_neg (fun e => hpol e.1)]
      exact h.linked.of_iff fun u => occupied_remove_other hpl (by simp)
  · rw [hd.task, hd.created, hd.forking]
    refine h.tasks.update hok.unqueued (Or.inl rfl) (fun e => absurd rfl e) ?_ ?_
    · exact fun hres => ⟨rfl, (h.tasks.reserved p hres).2⟩
    · rintro rfl
      exact h.tasks.idle
  · rw [hd.task, hd.created, hd.user]
    exact h.refs.of_eq (user_update rfl) (fun _ => rfl)
  · exact hd.bug.trans h.bug

/-- On the runqueue. -/
theorem Core.activate' {s s' : State} (h : Core s) {p : TaskId} (hp : (s.task p).array = none)
    (hcreated : s.created p = true) (hres : ¬ Reserved s.forking p)
    (hprio : (s.task p).prio < MAX_PRIO) (ha : Activated s p s') : Core s' := by
  have hpl : loc s.task p = none := loc_eq_none.mpr hp
  have hloc : loc s'.task =
      Function.update (loc s.task) p (some (homeArray s p, (s.task p).prio)) := by
    rw [ha.task, loc_update]
    rfl
  have hhome := homeArray_home s p
  refine ⟨?_, ?_, ?_, ?_, ?_, ?_⟩
  · rw [ha.arrays, hloc]
    exact h.holds.enqueue hpl _
  · rw [ha.nrRunning, ha.uwrrRunning, hloc]
    have hins := h.counts.insert h.holds.finitary hpl (homeArray s p) (s.task p).prio
    rcases hhome with ⟨hpol, hr⟩ | ⟨hpol, i, hr⟩
    · rw [hr] at hins ⊢
      rw [if_pos hpol]
      exact hins
    · rw [hr] at hins ⊢
      rw [if_neg hpol]
      exact hins
  · rw [ha.userlist, hloc]
    rcases hhome with ⟨hpol, hr⟩ | ⟨hpol, i, hr⟩
    · have hins := h.linked.insert hpl (s.task p).user (s.task p).prio
      rw [hr]
      simp only [hpol, true_and, ite_not]
      exact hins
    · rw [if_neg (fun e => hpol e.1), hr]
      refine h.linked.of_iff fun u => ?_
      rw [occupied_put hpl]
      exact ⟨fun e => e.resolve_right (by simp), Or.inl⟩
  · rw [ha.task, ha.created, ha.forking]
    refine h.tasks.update ((h.tasks.ok p).enqueued hprio hhome) (Or.inl rfl) (fun _ => hcreated)
      ?_ ?_
    · exact fun e => absurd e hres
    · exact fun e => absurd (Or.inl e) hres
  · rw [ha.task, ha.created, ha.user]
    exact h.refs.of_eq (user_update rfl) (fun _ => rfl)
  · exact ha.bug.trans h.bug

end LinuxHacks.Uwrr
