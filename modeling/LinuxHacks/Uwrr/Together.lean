import LinuxHacks.Uwrr.Cpus

/-!
# The UWRR tasks of a user on one CPU

What happens on several runqueues when a user's runnable UWRR tasks never are on
two of them (`Home`): every operation keeps `MachineInv`, so each CPU has a runqueue
in order and picks its own tasks. Nothing in the kernel sees to it, and without it
`schedule` reaches its `BUG_ON` (`two_cpus_bug`).

* `Parts.deactivate`, `Parts.activate`, `Parts.pull`: off a runqueue, on another;
* `MachineInv.runOp`: one operation;
* `machineInv_reach`: every reached machine.
-/

namespace LinuxHacks.Uwrr

open LinuxHacks.Lib
open LinuxHacks.Lib.Placement
open Machine

variable {Cpu : Type} [DecidableEq Cpu]

/-- The other runnable UWRR tasks of the user of `p` are on the CPU `c`. -/
def Home (m : Machine Cpu) (p : TaskId) (c : Cpu) : Prop :=
  (m.task p).policy = .uwrr → ∀ q, q ≠ p → (m.task q).policy = .uwrr →
    (m.task q).user = (m.task p).user → (m.task q).array ≠ none → m.cpu q = c

section OneCall

variable {m m' : Machine Cpu} {c d : Cpu} {s s' : State} {p : TaskId} {r : ArrayRef}

/-! ## Off a runqueue -/

theorem Parts.alone_of_queued (h : Parts m) (hp : (m.view c).live p = true)
    (hr : ((m.load c).task p).array = some r) (hpol : ((m.load c).task p).policy = .uwrr) :
    m.Alone c ((m.load c).task p).user := by
  have hshown := (h.part c).shown hp hr
  rcases ((h.part c).taskOk hp).home r hr with ⟨_, rfl⟩ | ⟨hno, _⟩
  · exact view_shown.mp hshown
  · exact absurd hpol hno

theorem Deactivated.busy (hd : Deactivated s p r s') (hne : s.curr ≠ p) (hb : Busy s) :
    Busy s' := by
  rw [Busy, hd.curr, hd.task, Function.update_of_ne hne]
  exact hb

theorem Deactivated.list (hd : Deactivated s p r s') : s'.uwrrUserlist ⊆ s.uwrrUserlist := by
  rw [hd.userlist]
  split
  · exact List.erase_subset
  · exact fun _ => id

/-- The machine without a task that was queued and not running. -/
structure TakenOff (m : Machine Cpu) (p : TaskId) (m' : Machine Cpu) : Prop where
  keeps : Keeps m m'
  task : m'.task = Function.update m.task p { m.task p with array := none }
  curr : ∀ d, (m'.rq d).curr = (m.rq d).curr

theorem Parts.takenOff (h : Parts m) (hp : p ≠ idle) (hcurr : (m.rq c).curr ≠ p)
    (hm : Moves (m.view c) (m.load c) s) (hd : Deactivated (m.load c) p r s) :
    TakenOff m p (m.store c s) where
  keeps := h.keeps hm (hd.busy hcurr) hd.curr fun u hu => h.apart c u (hd.list hu)
  task := by
    have htask : (m.store c s).task = Function.update s.task idle (m.task idle) := rfl
    rw [htask, hd.task, task_load hp, load]
    dsimp only
    rw [Function.update_comm hp.symm, Function.update_idem, Function.update_comm hp,
      Function.update_eq_self]
  curr := by
    intro d
    by_cases hdc : d = c
    · rw [hdc]
      exact (congrArg State.curr
        (load_store (m := m) (c := c) hm.owners.created hm.owners.forking)).trans hd.curr
    · rw [rq_store_of_ne hdc]

/-- `deactivate_task`. -/
theorem Parts.deactivate (h : Parts m) (hp : (m.view c).live p = true)
    (hr : ((m.load c).task p).array = some r) :
    ∃ s, m.deactivateTask c p = some (m.store c s) ∧ Moves (m.view c) (m.load c) s ∧
      Deactivated (m.load c) p r s := by
  obtain ⟨s, hs, hm, hd⟩ := (h.part c).deactivate hp hr
  refine ⟨s, ?_, hm, hd⟩
  rw [Machine.deactivateTask_eq (h.alone_of_queued hp hr), hs, Option.map_some]

theorem Parts.deactivate_off (h : Parts m) (hp : m.NotRunning p) (hcpu : m.cpu p = c)
    (hqueued : (m.task p).array ≠ none) :
    ∃ m', m.deactivateTask c p = some m' ∧ TakenOff m p m' := by
  obtain ⟨r, hr⟩ := Option.ne_none_iff_exists'.mp hqueued
  rw [← task_load (c := c) hp.1] at hr
  obtain ⟨s, hs, hm, hd⟩ := h.deactivate (view_live.mpr (Or.inr hcpu)) hr
  exact ⟨_, hs, h.takenOff hp.1 (hp.2 c) hm hd⟩

/-! ## On a runqueue -/

/-- A user in the list of a CPU has a UWRR task there. -/
theorem Parts.linked (h : Parts m) {u : UserId} (hu : u ∈ (m.rq c).uwrrUserlist) :
    ∃ p, (m.task p).policy = .uwrr ∧ (m.task p).user = u ∧
      (m.task p).array = some (.user u) ∧ m.cpu p = c := by
  obtain ⟨p, hp, hr⟩ := (h.part c).linked (s := m.load c) hu
  obtain ⟨hpol, huser⟩ : ((m.load c).task p).policy = .uwrr ∧ ((m.load c).task p).user = u := by
    rcases ((h.part c).taskOk hp).home _ hr with ⟨hpol, huser⟩ | ⟨_, i, hi⟩
    · exact ⟨hpol, (ArrayRef.user.inj huser).symm⟩
    · cases hi
  have hidle : p ≠ idle := by
    rintro rfl
    exact h.idle_not_uwrr c hpol
  rw [task_load hidle] at hpol huser hr
  exact ⟨p, hpol, huser, hr, (view_live.mp hp).resolve_left hidle⟩

/-- A user whose other tasks are on `c` is in no other list. -/
theorem Parts.alone_of_home (h : Parts m) (hnone : (m.task p).array = none)
    (hpol : (m.task p).policy = .uwrr) (hhome : Home m p c) : m.Alone c (m.task p).user := by
  intro d hd hu
  obtain ⟨q, hq, huser, hr, hcpu⟩ := h.linked hu
  have hqp : q ≠ p := by
    rintro rfl
    rw [hnone] at hr
    cases hr
  exact hd (hcpu.symm.trans (hhome hpol q hqp hq huser (by rw [hr]; simp)))

theorem Stays.activate (s : State) (p : TaskId) (now : Nat) (inInterrupt : Bool) :
    Stays s (activateTask s p now inInterrupt) := by
  have hact := activateTask'_eq (s.modTask p fun t =>
    let t := recalcTaskPrio t now
    { t with
      activated := if t.activated = 0 then (if inInterrupt then 2 else 1) else t.activated
      timestamp := now }) p
  refine (Stays.modTask s p _ rfl).trans (Stays.of_update hact.curr hact.task ?_)
  exact fun _ e => by cases e

/-- `activate_task`, where the other tasks of the user are. -/
theorem Parts.activate [Fintype Cpu] (h : Parts m) (hp : p ≠ idle) (hcpu : m.cpu p = c)
    (hnone : (m.task p).array = none) (hcreated : m.created p = true) (hhome : Home m p c)
    (this : Cpu) (now : Nat) (inInterrupt : Bool) :
    Keeps m (m.activateTask c this p now inInterrupt) := by
  have halone : (m.task p).policy = .uwrr → m.Alone c (m.task p).user :=
    fun hpol => h.alone_of_home hnone hpol hhome
  have hload : (m.load c).task p = m.task p := task_load hp
  have hshown : (m.view c).shown (homeArray (m.load c) p) = true := by
    rw [homeArray, hload]
    split
    · rename_i hpol
      exact view_shown.mpr (halone hpol)
    · rfl
  obtain ⟨hm, hlist⟩ := (h.part c).activate (view_live.mpr (Or.inr hcpu))
    (by rw [hload]; exact hnone) hcreated (view_not_reserved hp) hshown (m.rqClock c this now) inInterrupt
  have hstays := Stays.activate (m.load c) p (m.rqClock c this now) inInterrupt
  rw [activateTask_eq hp halone]
  refine h.keeps hm hstays.busy hstays.curr fun u hu => ?_
  rw [hlist, enteredList, hload] at hu
  split at hu
  · rename_i hnew
    rcases List.mem_append.mp hu with hu | hu
    · exact h.apart c u hu
    · rw [List.mem_singleton.mp hu]
      exact halone hnew.1
  · exact h.apart c u hu

/-! ## Fields of a task -/

theorem Parts.retask (h : Parts m) (hp : p ≠ idle) {f : Task → Task}
    (hf : ∀ t o, f { t with user := o } = { f t with user := o })
    (hs : Same (m.task p) (f (m.task p))) : Keeps m (m.modTask p f) := by
  have hload : (m.load (m.cpu p)).task p = m.task p := task_load hp
  have hm := (h.part (m.cpu p)).retask (view_live.mpr (Or.inr rfl)) hf
    (by rw [hload]; exact hs)
  rw [modTask_eq (c := m.cpu p) hp]
  refine h.keeps_stays hm (Stays.modTask _ p f ?_) fun _ => id
  rw [hload]
  exact hs.array

theorem Parts.resched (h : Parts m) (c : Cpu) :
    Keeps m (m.store c (reschedTask (m.load c) (m.load c).curr)) :=
  h.keeps_stays ((h.part c).resched (h.running c)) (Stays.resched _ _) fun _ => id

theorem Parts.preemptCurr (h : Parts m) (c : Cpu) (p : TaskId) : Keeps m (m.preemptCurr c p) := by
  rw [Machine.preemptCurr]
  split
  · exact h.resched c
  · exact .refl h

theorem Parts.setState (h : Parts m) (hp : p ≠ idle) (st : RunState) :
    Keeps m (m.modTask p fun t => { t with state := st }) := by
  have hlive : (m.view (m.cpu p)).live p = true := view_live.mpr (Or.inr rfl)
  have hok := (h.part (m.cpu p)).core.tasks.ok p
  have hres := view_not_reserved (m := m) (c := m.cpu p) hp
  have hm := (h.part (m.cpu p)).modTask (f := fun t => { t with state := st }) hlive
    (fun _ _ => rfl) rfl ((h.part (m.cpu p)).core.modTask p _ rfl (fun _ => rfl) rfl
      ⟨hok.uwrr, hok.static, hok.prio, hok.queued, hok.home⟩ (fun e => absurd e hres)
      (fun e => absurd e hp))
  rw [modTask_eq (c := m.cpu p) hp]
  exact h.keeps_stays hm (Stays.modTask _ p _ rfl) fun _ => id

theorem Parts.created_of_queued (h : Parts m) (hp : p ≠ idle) (hqueued : (m.task p).array ≠ none) :
    m.created p = true := by
  refine (h.part (m.cpu p)).core.tasks.known p (Or.inl ?_)
  rw [(h.part (m.cpu p)).see_task (view_live.mpr (Or.inr rfl)), task_load hp]
  exact hqueued

/-! ## Another CPU -/

omit [DecidableEq Cpu] in
theorem Home.of_eq (h : Home m p c) (htask : ∀ q, q ≠ p → m'.task q = m.task q)
    (hcpu : ∀ q, q ≠ p → m'.cpu q = m.cpu q) (hpol : (m'.task p).policy = (m.task p).policy)
    (huser : (m'.task p).user = (m.task p).user) : Home m' p c := by
  intro hp q hq hqpol hquser hqueued
  rw [htask q hq] at hqpol hquser hqueued
  rw [hcpu q hq]
  exact h (hpol ▸ hp) q hq hqpol (hquser.trans huser) hqueued

/-- `__migrate_task`, to where the other tasks of the user are. -/
theorem Parts.migrate [Fintype Cpu] (h : Parts m) (hp : m.NotRunning p) {src dest : Cpu}
    (hhome : m.cpu p = src → m.cpusAllowed p dest = true → (m.task p).array ≠ none →
      Home m p dest) (now : Nat) :
    ∃ m', m.migrateTask p src dest now = some m' ∧ Keeps m m' := by
  rw [migrateTask]
  split
  · exact ⟨_, rfl, .refl h⟩
  rename_i hsrc
  have hsrc : m.cpu p = src := not_not.mp hsrc
  split
  · exact ⟨_, rfl, .refl h⟩
  rename_i hallowed
  dsimp only
  split
  · rename_i hnone
    exact ⟨_, rfl, h.setTaskCpu hp hnone dest⟩
  rename_i hqueued
  have hqueued : (m.task p).array ≠ none := hqueued
  have hhome := hhome hsrc (by simpa using hallowed) hqueued
  set f : Task → Task := fun t =>
    { t with timestamp := (m.setTaskCpu p dest).movedTimestamp src dest t } with hf
  set m₁ := m.modTask p f with hm₁
  have h₁ : Keeps m m₁ := h.retask hp.1 (fun _ _ => rfl) ⟨rfl, rfl, rfl, rfl, rfl, rfl⟩
  have htask₁ : m₁.task p = f (m.task p) := Function.update_self ..
  have hqueued₁ : (m₁.task p).array ≠ none := by
    rw [htask₁]
    exact hqueued
  obtain ⟨r, hr⟩ := Option.ne_none_iff_exists'.mp hqueued₁
  rw [← task_load (c := src) hp.1] at hr
  have hlive : (m₁.view src).live p = true := view_live.mpr (Or.inr hsrc)
  obtain ⟨s, hs, hmoves, hd⟩ := (h₁.parts.part src).deactivate hlive hr
  -- `deactivate_task` does not look at the CPU of the task
  have hoff : (m₁.setTaskCpu p dest).deactivateTask src p =
      some ((m₁.store src s).setTaskCpu p dest) := by
    rw [Machine.deactivateTask_eq (m := m₁.setTaskCpu p dest) (h₁.parts.alone_of_queued hlive hr),
      show (m₁.setTaskCpu p dest).load src = m₁.load src from rfl, hs, Option.map_some]
    rfl
  have hoff₁ : TakenOff m₁ p (m₁.store src s) :=
    h₁.parts.takenOff hp.1 (hp.2 src) hmoves hd
  have hnone : ((m₁.store src s).task p).array = none := by
    rw [hoff₁.task, Function.update_self]
  have h₃ := hoff₁.keeps.parts.setTaskCpu ⟨hp.1, fun d e => hp.2 d ((hoff₁.curr d).symm.trans e)⟩
    hnone dest
  have hhome₃ : Home ((m₁.store src s).setTaskCpu p dest) p dest := by
    refine hhome.of_eq (fun q hq => ?_) (fun q hq => Function.update_of_ne hq _ _) ?_ ?_
    · show (m₁.store src s).task q = m.task q
      rw [hoff₁.task, Function.update_of_ne hq]
      exact Function.update_of_ne hq _ _
    · show ((m₁.store src s).task p).policy = _
      rw [hoff₁.task, Function.update_self, htask₁]
    · show ((m₁.store src s).task p).user = _
      rw [hoff₁.task, Function.update_self, htask₁]
  have h₄ := h₃.parts.activate hp.1 (Function.update_self ..) hnone
    (h₁.parts.created_of_queued hp.1 hqueued₁) hhome₃ src now false
  refine ⟨_, ?_, (((h₁.trans hoff₁.keeps).trans h₃).trans h₄).trans (h₄.parts.preemptCurr dest p)⟩
  show (do
    let m ← (m₁.setTaskCpu p dest).deactivateTask src p
    some ((m.activateTask dest src p now false).preemptCurr dest p)) = _
  rw [hoff]
  rfl

/-- `dequeue_task` does not reset `p->array`; `enqueue_task` overwrites it. -/
theorem enqueueTask_unqueued (s : State) (p : TaskId) (r : ArrayRef) :
    enqueueTask (s.modTask p fun t => { t with array := none }) p r = enqueueTask s p r := by
  simp only [enqueueTask, State.modTask, State.modArray, Function.update_self,
    Function.update_idem]

theorem store_modTask (hp : p ≠ idle) (f : Task → Task) :
    m.store c (s.modTask p f) = (m.store c s).modTask p f := by
  have hself : (m.store c s).task p = s.task p := task_store hp
  have hidle : (s.modTask p f).task idle = s.task idle := Function.update_of_ne hp.symm _ _
  have htask : Function.update (s.modTask p f).task idle (m.task idle) =
      Function.update (m.store c s).task p (f ((m.store c s).task p)) := by
    rw [hself]
    exact Function.update_comm hp _ _ _
  rw [Machine.store, hidle, htask]
  rfl

/-- What `pull_task` does to the runqueue the task leaves. -/
def detach (s : State) (p : TaskId) (i : Bool) : State :=
  (dequeueTask { s with nrRunning := s.nrRunning - 1 } p (.rq i)).modTask p fun t =>
    { t with array := none }

/-- What it does to the one the task enters. -/
def attach (s : State) (p : TaskId) (i : Bool) : State :=
  enqueueTask { s with nrRunning := s.nrRunning + 1 } p (.rq i)

theorem detach_eq {i : Bool} (hr : (s.task p).array = some (.rq i))
    (hpol : (s.task p).policy ≠ .uwrr) : deactivateTask s p = some (detach s p i) := by
  rw [deactivateTask, hr]
  dsimp only
  rw [if_neg hpol]
  rfl

theorem attach_unqueued (hp : p ≠ idle) (i : Bool) :
    (m.modTask p fun t => { t with array := none }).store c
        (attach ((m.modTask p fun t => { t with array := none }).load c) p i) =
      m.store c (attach (m.load c) p i) := by
  have hmod := modTask_eq (m := m) (c := c) hp fun t => { t with array := none }
  have hattach : attach ((m.load c).modTask p fun t => { t with array := none }) p i =
      attach (m.load c) p i :=
    enqueueTask_unqueued { m.load c with nrRunning := (m.load c).nrRunning + 1 } p (.rq i)
  rw [load_modTask hp, hattach, hmod, store_store]

/-- `pull_task`: off the runqueue of its CPU, to the CPU `c`, on its runqueue. -/
theorem pullTask_eq (hp : p ≠ idle) (c : Cpu) (i : Bool) : ∃ j,
    let a := (m.store (m.cpu p) (detach (m.load (m.cpu p)) p i)).setTaskCpu p c
    let b := a.store c (attach (a.load c) p j)
    m.pullTask c p i =
      (b.modTask p fun t => { t with timestamp := b.movedTimestamp (m.cpu p) c t }).preemptCurr
        c p := by
  set a₀ := (m.store (m.cpu p) (dequeueTask { m.load (m.cpu p) with
    nrRunning := (m.load (m.cpu p)).nrRunning - 1 } p (.rq i))).setTaskCpu p c with ha₀
  set j : Bool := if decide (i ≠ (m.rq (m.cpu p)).active) then !(a₀.load c).active
    else (a₀.load c).active with hj
  refine ⟨j, ?_⟩
  dsimp only
  have hoff : (m.store (m.cpu p) (detach (m.load (m.cpu p)) p i)).setTaskCpu p c =
      a₀.modTask p fun t => { t with array := none } := by
    rw [detach, store_modTask hp]
    rfl
  have harray : (if decide (i ≠ (m.rq (m.cpu p)).active) then (a₀.load c).expiredArray
      else (a₀.load c).activeArray) = ArrayRef.rq j := by
    rw [hj]
    split
    · rfl
    · rfl
  rw [hoff, attach_unqueued hp, pullTask, attach, ← harray]
  rfl

theorem Parts.notRunning (h : Parts m) (hp : p ≠ idle) (hcurr : (m.rq (m.cpu p)).curr ≠ p) :
    m.NotRunning p := by
  refine ⟨hp, fun d hd => ?_⟩
  have hlive := h.running d
  rw [hd] at hlive
  rw [(view_live.mp hlive).resolve_left hp] at hcurr
  exact hcurr hd

theorem Parts.detached (h : Parts m) (hp : p ≠ idle) {i : Bool}
    (hi : (m.task p).array = some (.rq i)) (hpol : (m.task p).policy ≠ .uwrr)
    (hcurr : (m.rq (m.cpu p)).curr ≠ p) :
    TakenOff m p (m.store (m.cpu p) (detach (m.load (m.cpu p)) p i)) := by
  rw [← task_load (c := m.cpu p) hp] at hi hpol
  obtain ⟨s, hs, hm, hd⟩ := (h.part (m.cpu p)).deactivate (view_live.mpr (Or.inr rfl)) hi
  rw [detach_eq hi hpol] at hs
  obtain rfl := Option.some.inj hs
  exact h.takenOff hp hcurr hm hd

theorem Parts.attached (h : Parts m) (hp : p ≠ idle) (hcpu : m.cpu p = c)
    (hnone : (m.task p).array = none) (hcreated : m.created p = true)
    (hprio : (m.task p).prio < MAX_PRIO) (hpol : (m.task p).policy ≠ .uwrr) (i : Bool) :
    Keeps m (m.store c (attach (m.load c) p i)) := by
  rw [← task_load (c := c) hp] at hnone hprio hpol
  have hm := (h.part c).enterRq (view_live.mpr (Or.inr hcpu)) hnone hcreated
    (view_not_reserved hp) hprio hpol i
  exact h.keeps_stays hm (Stays.of_update rfl rfl fun _ e => by cases e) fun _ => id

/-- `pull_task` of a task that is not running. -/
theorem Parts.pull (h : Parts m) {i : Bool} (hi : (m.task p).array = some (.rq i))
    (hcurr : (m.rq (m.cpu p)).curr ≠ p) : Keeps m (m.pullTask c p i) := by
  have hp : p ≠ idle := by
    rintro rfl
    rw [h.spare] at hi
    cases hi
  have hqueued : (m.task p).array ≠ none := by
    rw [hi]
    simp
  have hpol : (m.task p).policy ≠ .uwrr := by
    intro hpol
    rcases (h.taskOk hp).home _ hi with ⟨_, hu⟩ | ⟨hno, _⟩
    · cases hu
    · exact hno hpol
  obtain ⟨j, hpull⟩ := pullTask_eq (m := m) hp c i
  have hoff := h.detached hp hi hpol hcurr
  set m₁ := m.store (m.cpu p) (detach (m.load (m.cpu p)) p i) with hm₁
  have htask₁ : m₁.task p = { m.task p with array := none } := by
    rw [hoff.task, Function.update_self]
  have hnone : (m₁.task p).array = none := by rw [htask₁]
  have hnot := h.notRunning hp hcurr
  have h₂ := hoff.keeps.parts.setTaskCpu
    ⟨hp, fun d e => hnot.2 d ((hoff.curr d).symm.trans e)⟩ hnone c
  have h₃ := h₂.parts.attached hp (Function.update_self ..) hnone (h.created_of_queued hp hqueued)
    (by
      show (m₁.task p).prio < MAX_PRIO
      rw [htask₁]
      exact (h.taskOk hp).queued hqueued)
    (by
      show (m₁.task p).policy ≠ .uwrr
      rw [htask₁]
      exact hpol) j
  set m₃ := (m₁.setTaskCpu p c).store c (attach ((m₁.setTaskCpu p c).load c) p j) with hm₃
  have h₄ : Keeps m₃ (m₃.modTask p fun t =>
      { t with timestamp := m₃.movedTimestamp (m.cpu p) c t }) :=
    h₃.parts.retask hp (fun _ _ => rfl) ⟨rfl, rfl, rfl, rfl, rfl, rfl⟩
  rw [hpull]
  exact (((hoff.keeps.trans h₂).trans h₃).trans h₄).trans (h₄.parts.preemptCurr c p)

/-- `move_tasks`. -/
theorem Parts.moveTasks (h : Parts m) (c : Cpu) (tasks : List TaskId) :
    Keeps m (m.moveTasks c tasks) := by
  induction tasks generalizing m with
  | nil => exact .refl h
  | cons p tasks ih =>
      rw [Machine.moveTasks]
      split
      · rename_i i hi
        split
        · rename_i hok
          have hpull := h.pull (c := c) hi hok.2.1
          exact hpull.trans (ih hpull.parts)
        · exact ih h
      · exact ih h

/-! ## The tick -/

theorem TaskOk.rtTask {t : Task} (h : TaskOk t) (hpol : t.policy = .uwrr) : rtTask t = false := by
  rw [Uwrr.rtTask, (h.uwrr hpol).1]
  decide

/-- The UWRR branch of `scheduler_tick`. -/
theorem Parts.tickUwrr (h : Parts m) {r : ArrayRef}
    (hr : ((m.load c).task (m.rq c).curr).array = some r)
    (hpol : ((m.load c).task (m.rq c).curr).policy = .uwrr) :
    ∃ m', m.uwrrTick c (m.rq c).curr = some m' ∧ Keeps m m' := by
  set p := (m.rq c).curr with hp
  have hlive : (m.view c).live p = true := h.running c
  have hok := (h.part c).taskOk hlive
  obtain ⟨hprio, hstatic⟩ := hok.uwrr hpol
  have hhome : r = .user ((m.load c).task p).user := by
    rcases hok.home r hr with ⟨_, hr⟩ | ⟨hno, _⟩
    · exact hr
    · exact absurd hpol hno
  obtain ⟨s, hs, hm, hlist, hstays, hsame⟩ := (h.part c).tickTask hlive hr
  obtain ⟨hm', hstays', hlist'⟩ := hm.part.tickUser hlive
    (by rw [hsame.array, hsame.user, hr, hhome])
  have htick : Uwrr.uwrrTick (m.load c) p = some (Uwrr.uwrrTickUser s p) := by
    rw [Uwrr.uwrrTick, hs]
    simp [hprio, hstatic]
  refine ⟨m.store c (Uwrr.uwrrTickUser s p), ?_, ?_⟩
  · rw [Machine.uwrrTick_eq (h.alone_of_queued hlive hr hpol) (fun s' hs' => ?_), htick,
      Option.map_some]
    rw [hs] at hs'
    obtain rfl := Option.some.inj hs'
    exact hm.owners
  · refine h.keeps_stays (hm.trans hm') (hstays.trans hstays') fun u hu => ?_
    rw [hlist', hlist] at hu
    exact hu

theorem load_clock (m : Machine Cpu) (c : Cpu) (now : Nat) (d : Cpu) :
    ({ m with rq := Function.update m.rq c { m.rq c with timestampLastTick := now } } :
      Machine Cpu).load d = m.load d := by
  by_cases hd : d = c
  · simp only [hd, load, Function.update_self]
  · simp only [load, Function.update_of_ne hd]

theorem MachineInv.tick (h : MachineInv m) (c : Cpu) (now jiffies : Nat) :
    ∃ m', m.schedulerTick c now jiffies = some m' ∧ MachineInv m' := by
  set a : Machine Cpu :=
    { m with rq := Function.update m.rq c { m.rq c with timestampLastTick := now } } with ha
  have hclock : MachineInv a := h.keeps (h.parts.of_load (load_clock m c now) rfl rfl)
  rw [Machine.schedulerTick]
  dsimp only
  rw [← ha]
  split
  · rename_i huwrr
    obtain ⟨hidle, hpol, -⟩ := huwrr
    obtain ⟨r, hr⟩ := (hclock.busy c).array hidle
    obtain ⟨m', hm', hk⟩ := hclock.parts.tickUwrr hr hpol
    exact ⟨m', hm', hclock.keeps hk⟩
  · rename_i hother
    have hlive := hclock.parts.running c
    have hpol : ((a.load c).task (a.load c).curr).policy ≠ .uwrr := by
      intro hpol
      by_cases hidle : (a.load c).curr = idle
      · rw [hidle] at hpol
        exact hclock.parts.idle_not_uwrr c hpol
      · exact hother ⟨hidle, hpol, ((hclock.parts.part c).taskOk hlive).rtTask hpol⟩
    obtain ⟨s, hs, hm, hb, hlist, hcurr⟩ :=
      (hclock.parts.part c).tick (hclock.busy c) hlive hpol jiffies
    rw [hs]
    refine ⟨_, rfl, hclock.keeps (hclock.parts.keeps hm (fun _ => hb) hcurr fun u hu => ?_)⟩
    rw [hlist] at hu
    exact hclock.parts.apart c u hu

/-! ## `schedule` -/

/-- `schedule` picks the idle task or a task of its CPU. -/
theorem MachineInv.schedule (h : MachineInv m) (c : Cpu) (now : Nat)
    (preemptActive signalPending : Bool) (pulled : List TaskId) :
    ∃ m', m.schedule c now preemptActive signalPending pulled = some m' ∧ MachineInv m' ∧
      ((m'.rq c).curr = idle ∨ m'.cpu (m'.rq c).curr = c) := by
  have hlive := h.parts.running c
  obtain ⟨s₁, hs₁, hmoves₁, hlist₁, hcurr₁⟩ :=
    (h.parts.part c).putPrev (h.busy c) hlive preemptActive signalPending
  have hput : m.putPrev c preemptActive signalPending = some (m.store c s₁) := by
    rw [Machine.putPrev_eq (fun hpol => ?_), hs₁, Option.map_some]
    rcases h.busy c with hidle | hqueued
    · rw [show (m.rq c).curr = idle from hidle] at hpol
      exact absurd hpol (h.parts.idle_not_uwrr c)
    · obtain ⟨r, hr⟩ := Option.ne_none_iff_exists'.mp hqueued
      exact h.parts.alone_of_queued hlive hr hpol
  obtain ⟨hparts₁, hothers₁⟩ := h.parts.store hmoves₁ (by rw [hcurr₁]; exact hlive)
    fun u hu => h.parts.apart c u (hlist₁ hu)
  set m₁ := m.store c s₁ with hm₁
  set m₂ := if (m₁.rq c).nrRunning = 0 then m₁.moveTasks c pulled else m₁ with hm₂
  have hk : Keeps m₁ m₂ := by
    rw [hm₂]
    split
    · exact hparts₁.moveTasks c pulled
    · exact .refl hparts₁
  obtain ⟨s₃, hs₃, hm₃, hb₃, hlive₃, hlist₃⟩ := (hk.parts.part c).pickNext view_idle
    (hk.parts.running c) now (runTime ((m.load c).task (m.rq c).curr) now)
  obtain ⟨hparts₃, hothers₃⟩ := hk.parts.store hm₃ hlive₃
    fun u hu => hk.parts.apart c u (hlist₃ hu)
  have hload₃ : (m₂.store c s₃).load c = s₃ := load_store hm₃.owners.created hm₃.owners.forking
  refine ⟨m₂.store c s₃, ?_, ⟨hparts₃, fun d => ?_⟩, ?_⟩
  · rw [Machine.schedule]
    simp only [Option.bind_eq_bind, hput, Option.bind_some]
    rw [← hm₂, hs₃, Option.map_some]
  · by_cases hd : d = c
    · rw [hd, hload₃]
      exact hb₃
    · exact hothers₃ d hd (hk.busy d (hothers₁ d hd (h.busy d)))
  · have hcurr₃ : ((m₂.store c s₃).rq c).curr = s₃.curr := congrArg State.curr hload₃
    rw [hcurr₃]
    exact view_live.mp hlive₃

end OneCall

section Runs

variable {m : Machine Cpu}

/-- What `schedule` relies on, and what it does, on the CPU `c`. -/
structure CpuOk (m : Machine Cpu) (c : Cpu) : Prop where
  user : 0 < (m.rq c).uwrrRunning → ∃ u ∈ (m.rq c).uwrrUserlist, ∃ p,
    (m.task p).policy = .uwrr ∧ (m.task p).user = u ∧ (m.task p).array = some (.user u) ∧
      m.cpu p = c
  picks : ∀ now preemptActive signalPending pulled, ∃ m',
    m.schedule c now preemptActive signalPending pulled = some m' ∧
      ((m'.rq c).curr = idle ∨ m'.cpu (m'.rq c).curr = c)

theorem MachineInv.cpuOk (h : MachineInv m) (c : Cpu) : CpuOk m c where
  user := by
    intro hrun
    have hcore := (h.parts.part c).core
    obtain ⟨u, hocc⟩ := hcore.occupied (show (m.rq c).uwrrRunning ≠ 0 by omega)
    have hu : u ∈ (m.rq c).uwrrUserlist := (hcore.linked.mem u).mpr hocc
    exact ⟨u, hu, h.parts.linked hu⟩
  picks := by
    intro now preemptActive signalPending pulled
    obtain ⟨m', hm', -, hcurr⟩ := h.schedule c now preemptActive signalPending pulled
    exact ⟨m', hm', hcurr⟩

/-! ## The initial machines -/

omit [DecidableEq Cpu] in
theorem Machine.Boot.taskOk (h : Boot m) (c : Cpu) (p : TaskId) :
    TaskOk ((m.load c).task p) ∧ ((m.load c).task p).array = none := by
  by_cases hp : p = Uwrr.idle
  · obtain ⟨clock, hrq⟩ := h.rq c
    rw [hp, load_idle, hrq]
    exact ⟨idleTask_ok, rfl⟩
  · rw [task_load hp]
    obtain ⟨hprio, hstatic⟩ := h.prio p
    refine ⟨⟨h.uwrr p, hstatic, hprio, fun e => absurd (h.array p) e, fun r e => ?_⟩, h.array p⟩
    rw [h.array p] at e
    cases e

theorem Machine.Boot.part (h : Boot m) (c : Cpu) : Part (m.view c) (m.load c) := by
  obtain ⟨clock, hrq⟩ := h.rq c
  have hidle : ((m.view c).see (m.load c).uwrrUserlist (m.load c)).task Uwrr.idle = idleTask := by
    rw [view_task, if_pos view_idle, load_idle, hrq]
  refine ⟨fun _ => rfl, fun _ => rfl, Core.of_empty ?_ ?_ ?_ ?_ ?_ (fun _ => rfl) ?_ ?_ ?_ h.idle
    ⟨h.finite, fun u => ?_⟩ h.bug⟩
  · intro r
    show (if (m.view c).shown r then (m.load c).arrays r else emptyArray) = emptyArray
    split
    · cases r with
      | rq i => rw [load, hrq]
      | user u => exact h.uwrrTasks u
    · rfl
  · intro p
    rw [view_task]
    split
    · exact (h.taskOk c p).2
    · rfl
  · rw [show ((m.view c).see _ (m.load c)).nrRunning = (m.rq c).nrRunning from rfl, hrq]
  · rw [show ((m.view c).see _ (m.load c)).uwrrRunning = (m.rq c).uwrrRunning from rfl, hrq]
  · rw [show ((m.view c).see (m.load c).uwrrUserlist (m.load c)).uwrrUserlist =
      (m.rq c).uwrrUserlist from rfl, hrq]
  · intro p
    rw [view_task]
    split
    · exact (h.taskOk c p).1
    · exact idleTask_ok
  · rw [hidle]
    exact fun e => by cases e
  · rw [hidle]
    rfl
  · have hsub : {p | m.created p = true ∧
        (((m.view c).see (m.load c).uwrrUserlist (m.load c)).task p).user = u} ⊆
          {p | m.created p = true} := fun q hq => hq.1
    exact Int.ofNat_le.mpr (Set.ncard_le_ncard hsub h.finite)

theorem machineInv_boot (h : Boot m) : MachineInv m := by
  refine ⟨⟨h.part, fun c u hu => ?_, fun c => ?_, h.array idle⟩, fun c => Or.inl ?_⟩
  · obtain ⟨clock, hrq⟩ := h.rq c
    rw [hrq] at hu
    cases hu
  · obtain ⟨clock, hrq⟩ := h.rq c
    rw [hrq]
    exact view_idle
  · obtain ⟨clock, hrq⟩ := h.rq c
    show (m.rq c).curr = idle
    rw [hrq]

/-! ## Runs -/

/-- A task is put on a runqueue only where the runnable UWRR tasks of its user are. -/
def HomeOk (m : Machine Cpu) : MachineOp Cpu → Prop
  | .activate p _ _ _ => Home m p (m.cpu p)
  | .migrate p src dest _ =>
      m.cpu p = src → m.cpusAllowed p dest = true → (m.task p).array ≠ none → Home m p dest
  | _ => True

variable [Fintype Cpu]

/-- **No operation reaches a `BUG`.** -/
theorem MachineInv.runOp (h : MachineInv m) {op : MachineOp Cpu} (hen : Machine.Enabled m op)
    (hok : HomeOk m op) : ∃ m', Machine.runOp m op = some m' ∧ MachineInv m' := by
  cases op with
  | setTaskCpu p c => exact ⟨_, rfl, h.keeps (h.parts.setTaskCpu hen.1 hen.2 c)⟩
  | activate p this now inInterrupt =>
      exact ⟨_, rfl, h.keeps (h.parts.activate hen.2.1 rfl hen.2.2 hen.1 hok this now inInterrupt)⟩
  | deactivate p =>
      obtain ⟨m', hm', hoff⟩ := h.parts.deactivate_off hen.1 rfl hen.2
      exact ⟨m', hm', h.keeps hoff.keeps⟩
  | setState p st => exact ⟨_, rfl, h.keeps (h.parts.setState hen st)⟩
  | setCpusAllowed p mask => exact ⟨_, rfl, h.keeps (h.parts.of_load (fun _ => rfl) rfl rfl)⟩
  | migrate p src dest now =>
      obtain ⟨m', hm', hk⟩ := h.parts.migrate hen hok now
      exact ⟨m', hm', h.keeps hk⟩
  | tick c now jiffies => exact h.tick c now jiffies
  | rebalance c tasks => exact ⟨_, rfl, h.keeps (h.parts.moveTasks c tasks)⟩
  | schedule c now preemptActive signalPending pulled =>
      obtain ⟨m', hm', hinv, -⟩ := h.schedule c now preemptActive signalPending pulled
      exact ⟨m', hm', hinv⟩

theorem MachineInv.step {m' : Machine Cpu} {op : MachineOp Cpu} (h : MachineInv m)
    (hok : HomeOk m op) (hst : Machine.Step m op m') : MachineInv m' := by
  cases hst with
  | run hen hrun =>
      obtain ⟨n, hn, hinv⟩ := h.runOp hen hok
      rw [hrun] at hn
      obtain rfl := Option.some.inj hn
      exact hinv
  | bug hen hbug =>
      obtain ⟨n, hn, -⟩ := h.runOp hen hok
      rw [hbug] at hn
      cases hn

theorem machineInv_reach (h : Machine.system.Reach HomeOk m) : MachineInv m :=
  h.invariant (fun _ => machineInv_boot) fun _ _ _ hinv hok hst => hinv.step hok hst

/-- **Each CPU finds its own UWRR tasks** as long as no user has runnable ones on two
CPUs. -/
theorem cpus_ok (h : Machine.system.Reach HomeOk m) :
    m.bug = false ∧ ∀ c, CpuOk m c := by
  have hinv := machineInv_reach h
  exact ⟨(hinv.parts.part (m.cpu idle)).core.bug, hinv.cpuOk⟩

end Runs

/-! ## Two CPUs -/

/-- Two tasks of the user 1: the task 1 on one CPU, the task 2 on the other. -/
def twoCpus : Machine Bool where
  rq := fun _ => ⟨idleTask, fun _ => emptyArray, false, 0, 0, [], idle, 0, MAX_PRIO, 0, 0⟩
  task := fun p =>
    if p = 1 ∨ p = 2 then
      { idleTask with policy := .uwrr, prio := UWRR_TASK_PRIO, staticPrio := UWRR_TASK_PRIO, user := 1 }
    else idleTask
  created := fun p => decide (p < 3)
  cpu := fun p => decide (p ≠ 1)
  cpusAllowed := fun _ _ => true
  user := fun _ => freshUser
  uwrrTasks := fun _ => emptyArray
  bug := false

theorem twoCpus_array (p : TaskId) : (twoCpus.task p).array = none := by
  rw [twoCpus]
  dsimp only
  split
  · rfl
  · rfl

theorem twoCpus_boot : Boot twoCpus where
  rq := fun _ => ⟨0, rfl⟩
  uwrrTasks := fun _ => rfl
  array := twoCpus_array
  prio := by
    intro p
    rw [twoCpus]
    dsimp only
    split
    · decide
    · decide
  uwrr := by
    intro p
    rw [twoCpus]
    dsimp only
    split
    · exact fun _ => ⟨rfl, rfl⟩
    · exact fun e => by cases e
  idle := rfl
  finite := (Set.finite_lt_nat 3).subset fun p hp => of_decide_eq_true hp
  bug := rfl

/-- After the first task woke up. -/
def oneAwake : Machine Bool := twoCpus.activateTask false false 1 0 false

/-- The first task moves to the CPU of the second before that one wakes up. -/
theorem moved_together : ∃ m : Machine Bool, Machine.system.Reach HomeOk m ∧
    (m.rq true).uwrrRunning = 2 ∧ m.bug = false ∧ ∀ c, CpuOk m c := by
  have hone : Machine.system.Reach HomeOk oneAwake := by
    refine .step (.activate 1 false 0 false) (.init twoCpus_boot) ?_ (.run ⟨rfl, by decide, rfl⟩ rfl)
    exact fun _ q _ _ _ hq => absurd (twoCpus_array q) hq
  set moved : Machine Bool := (oneAwake.migrateTask 1 false true 0).getD oneAwake with hmoved
  have hmove : Machine.system.Reach HomeOk moved := by
    refine .step (.migrate 1 false true 0) hone ?_ (.run ⟨by decide, ?_⟩ rfl)
    · exact fun _ _ _ _ q hq _ _ _ => decide_eq_true hq
    · intro c
      cases c with
      | false => exact fun e => by cases e
      | true => exact fun e => by cases e
  have hboth : Machine.system.Reach HomeOk (moved.activateTask true true 2 0 false) := by
    refine .step (.activate 2 true 0 false) hmove ?_ (.run ⟨rfl, by decide, rfl⟩ rfl)
    intro _ q hq _ _ _
    show Function.update twoCpus.cpu 1 true q = true
    by_cases hq1 : q = 1
    · rw [hq1, Function.update_self]
    · rw [Function.update_of_ne hq1]
      exact decide_eq_true hq1
  exact ⟨_, hboth, rfl, cpus_ok hboth⟩

/-- **Both tasks wake up, each on its CPU**: the second runqueue counts a UWRR task
and has nobody in its list, so `schedule` there is a `BUG`. -/
theorem two_cpus_bug : ∃ m : Machine Bool, Machine.system.Reach System.anyStep m ∧
    (m.rq true).uwrrRunning = 1 ∧ (m.rq true).uwrrUserlist = [] ∧
      Machine.runOp m (.schedule true 0 false false []) = none := by
  refine ⟨oneAwake.activateTask true true 2 0 false, ?_, rfl, rfl, rfl⟩
  have hone : Machine.system.Reach System.anyStep oneAwake :=
    .step (.activate 1 false 0 false) (.init twoCpus_boot) trivial (.run ⟨rfl, by decide, rfl⟩ rfl)
  exact .step (.activate 2 true 0 false) hone trivial (.run ⟨rfl, by decide, rfl⟩ rfl)

end LinuxHacks.Uwrr
