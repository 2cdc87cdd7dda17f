import LinuxHacks.Uwrr.Part

/-!
# Every CPU a runqueue of its own

As long as no user is in the lists of two runqueues, a function that works on the
CPU `c` does to the machine what the function of the model of one runqueue does to
what `c` sees (`activateTask'_eq`, `deactivateTask_eq`, `uwrrTick_eq`), and the
other CPUs do not notice (`Parts.store`).

* `Machine.view`: the part of the machine that belongs to a CPU;
* `Parts`: each CPU's part is a runqueue in order, and the lists of users are
  disjoint;
* `Keeps`: what a call leaves, on the CPU it works on and on the others.
-/

namespace LinuxHacks.Uwrr

open LinuxHacks.Lib
open LinuxHacks.Lib.Placement

variable {Cpu : Type} [DecidableEq Cpu]

namespace Machine

variable {m : Machine Cpu} {c d : Cpu} {s s' : State} {p : TaskId} {u : UserId}

/-! ## Loading and storing -/

theorem rq_store_of_ne (h : d ≠ c) : (m.store c s).rq d = m.rq d := Function.update_of_ne h _ _

theorem list_store_self : ((m.store c s).rq c).uwrrUserlist = s.uwrrUserlist := by
  rw [store]
  dsimp only
  rw [Function.update_self]

theorem task_store (hp : p ≠ idle) : (m.store c s).task p = s.task p :=
  Function.update_of_ne hp _ _

theorem task_idle_store : (m.store c s).task idle = m.task idle := by
  simp only [store, Function.update_self]

omit [DecidableEq Cpu] in
theorem task_load (hp : p ≠ idle) : (m.load c).task p = m.task p := Function.update_of_ne hp _ _

omit [DecidableEq Cpu] in
theorem load_idle : (m.load c).task idle = (m.rq c).idleTask := by
  simp only [load, Function.update_self]

/-- A state that a function of the scheduler made of what `c` sees. -/
theorem load_store (hcreated : s.created = m.created) (hforking : s.forking = fun _ => none) :
    (m.store c s).load c = s := by
  have htask : ((m.store c s).load c).task = s.task := by
    simp only [load, store, Function.update_self, Function.update_idem, Function.update_eq_self]
  have harrays : ((m.store c s).load c).arrays = s.arrays := by
    funext r
    cases r with
    | rq i => simp only [load, store, Function.update_self]
    | user u => rfl
  have hrq : (m.store c s).rq c =
      ⟨s.task idle, fun i => s.arrays (.rq i), s.active, s.nrRunning, s.uwrrRunning,
        s.uwrrUserlist, s.curr, s.expiredTimestamp, s.bestExpiredPrio, s.nrUninterruptible,
        (m.rq c).timestampLastTick⟩ := Function.update_self ..
  have hload : (m.store c s).load c =
      { (m.store c s).load c with
        task := s.task, created := s.created, forking := s.forking, arrays := s.arrays } := by
    rw [← htask, ← harrays, hcreated, hforking]
    rfl
  rw [hload, load, hrq]
  rfl

theorem store_store : (m.store c s).store c s' = m.store c s' := by
  simp only [store, Function.update_self, Function.update_idem]

theorem store_load : m.store c (m.load c) = m := by
  have htask : Function.update (Function.update m.task idle (m.rq c).idleTask) idle (m.task idle) =
      m.task := by
    rw [Function.update_idem, Function.update_eq_self]
  simp only [load, store, Function.update_self, htask, Function.update_eq_self]

omit [DecidableEq Cpu] in
theorem load_modTask (hp : p ≠ idle) (f : Task → Task) :
    (m.modTask p f).load c = (m.load c).modTask p f := by
  have htask : Function.update (Function.update m.task p (f (m.task p))) idle (m.rq c).idleTask =
      Function.update (m.load c).task p (f ((m.load c).task p)) := by
    rw [task_load hp, load, Function.update_comm hp]
  show { m.load c with
    task := Function.update (Function.update m.task p (f (m.task p))) idle (m.rq c).idleTask } = _
  rw [htask]
  rfl

/-- A change of one task, as the CPU `c` makes it. -/
theorem modTask_eq (hp : p ≠ idle) (f : Task → Task) :
    m.modTask p f = m.store c ((m.load c).modTask p f) := by
  have hidle : (m.modTask p f).task idle = m.task idle := Function.update_of_ne hp.symm _ _
  have hstore := store_load (m := m.modTask p f) (c := c)
  rw [load_modTask hp, store, hidle] at hstore
  exact hstore.symm

/-! ## The list of users -/

/-- No other runqueue has the user in its list. -/
def Alone (m : Machine Cpu) (c : Cpu) (u : UserId) : Prop :=
  ∀ d, d ≠ c → u ∉ (m.rq d).uwrrUserlist

theorem Alone.linked (h : m.Alone c u) : m.Linked u ↔ u ∈ (m.rq c).uwrrUserlist := by
  constructor
  · rintro ⟨d, hd⟩
    by_cases hdc : d = c
    · rwa [hdc] at hd
    · exact absurd hd (h d hdc)
  · exact fun hu => ⟨c, hu⟩

theorem Alone.store (h : m.Alone c u) (s : State) : (m.store c s).Alone c u := by
  intro d hd
  rw [rq_store_of_ne hd]
  exact h d hd

theorem Alone.listDel (h : m.Alone c u) :
    m.listDel u =
      m.store c { m.load c with uwrrUserlist := (m.rq c).uwrrUserlist.erase u } := by
  have hrq : (m.listDel u).rq =
      (m.store c { m.load c with uwrrUserlist := (m.rq c).uwrrUserlist.erase u }).rq := by
    funext d
    by_cases hd : d = c
    · rw [hd, Machine.store]
      dsimp only
      rw [Function.update_self]
      simp [Machine.listDel, load]
    · rw [rq_store_of_ne hd, Machine.listDel]
      dsimp only
      rw [List.erase_of_not_mem (h d hd)]
  have htask : Function.update (Function.update m.task idle (m.rq c).idleTask) idle (m.task idle) =
      m.task := by
    rw [Function.update_idem, Function.update_eq_self]
  show Machine.mk (m.listDel u).rq m.task m.created m.cpu m.cpusAllowed m.user m.uwrrTasks m.bug = _
  rw [hrq]
  show _ = Machine.mk _ (Function.update (m.load c).task idle (m.task idle)) _ _ _ _ _ _
  rw [show Function.update (m.load c).task idle (m.task idle) = m.task from htask]
  rfl

theorem Alone.listDel_store (h : m.Alone c u) (hcreated : s.created = m.created)
    (hforking : s.forking = fun _ => none) :
    (m.store c s).listDel u = m.store c { s with uwrrUserlist := s.uwrrUserlist.erase u } := by
  rw [(h.store s).listDel, load_store hcreated hforking, list_store_self, store_store]

theorem listAddTail_store (hcreated : s.created = m.created)
    (hforking : s.forking = fun _ => none) :
    (m.store c s).listAddTail c u =
      m.store c { s with uwrrUserlist := s.uwrrUserlist ++ [u] } := by
  rw [listAddTail, load_store hcreated hforking]
  exact store_store

/-! ## The functions that use the list -/

section OneRunqueue

variable [Fintype Cpu]

/-- `__activate_task`, of a user that no other runqueue has. -/
theorem activateTask'_eq (hp : p ≠ idle)
    (halone : (m.task p).policy = .uwrr → m.Alone c (m.task p).user) :
    m.activateTask' c p = m.store c (Uwrr.activateTask' (m.load c) p) := by
  have htask : (m.load c).task p = m.task p := task_load hp
  rw [activateTask', Uwrr.activateTask', htask]
  by_cases hpol : (m.task p).policy = .uwrr
  · simp only [if_pos hpol]
    set a := enqueueTask { m.load c with uwrrRunning := (m.load c).uwrrRunning + 1 } p
      (.user (m.task p).user) with ha
    have hload : (m.store c a).load c = a := load_store rfl rfl
    have hlinked : (m.store c a).Linked (m.task p).user ↔ (m.task p).user ∈ a.uwrrUserlist := by
      rw [((halone hpol).store a).linked, list_store_self]
    by_cases hin : (m.task p).user ∈ a.uwrrUserlist
    · rw [if_pos (hlinked.mpr hin), if_pos hin, hload, store_store]
    · rw [if_neg (fun e => hin (hlinked.mp e)), if_neg hin, listAddTail_store rfl rfl,
        load_store rfl rfl, store_store]
  · simp only [if_neg hpol]
    rw [load_store rfl rfl, store_store]

/-- `activate_task`. -/
theorem activateTask_eq (hp : p ≠ idle)
    (halone : (m.task p).policy = .uwrr → m.Alone c (m.task p).user) (this : Cpu) (now : Nat)
    (inInterrupt : Bool) :
    m.activateTask c this p now inInterrupt =
      m.store c (Uwrr.activateTask (m.load c) p (m.rqClock c this now) inInterrupt) := by
  set f : Task → Task := fun t =>
    let t := recalcTaskPrio t (m.rqClock c this now)
    { t with
      activated := if t.activated = 0 then (if inInterrupt then 2 else 1) else t.activated
      timestamp := m.rqClock c this now } with hf
  have hmod : m.modTask p f = m.store c ((m.load c).modTask p f) := modTask_eq hp f
  have hload : (m.modTask p f).load c = (m.load c).modTask p f := by
    rw [hmod]
    exact load_store rfl rfl
  have hself : (m.modTask p f).task p = f (m.task p) := Function.update_self ..
  rw [activateTask, Uwrr.activateTask]
  show (m.modTask p f).activateTask' c p = _
  rw [activateTask'_eq hp, hload, hmod, store_store]
  rw [hself]
  exact halone

end OneRunqueue

/-- `deactivate_task`, of a user that no other runqueue has. -/
theorem deactivateTask_eq (halone : ((m.load c).task p).policy = .uwrr →
      m.Alone c ((m.load c).task p).user) :
    m.deactivateTask c p = (Uwrr.deactivateTask (m.load c) p).map (m.store c) := by
  rw [deactivateTask, Uwrr.deactivateTask]
  dsimp only
  cases ((m.load c).task p).array with
  | none => rfl
  | some r =>
      dsimp only
      by_cases hpol : ((m.load c).task p).policy = .uwrr
      · simp only [if_pos hpol]
        rw [load_store rfl rfl, store_store]
        set a : State := { m.load c with
          nrRunning := (m.load c).nrRunning - 1
          uwrrRunning := (m.load c).uwrrRunning - 1 } with ha
        by_cases hone : ((m.load c).arrays r).nrActive = 1
        · have hlast : ((m.store c a).rq c).uwrrUserlist = a.uwrrUserlist := list_store_self
          have hload : (m.store c a).load c = a := load_store rfl rfl
          rw [if_pos hone, if_pos hone, ((halone hpol).store a).listDel, hload, hlast, store_store,
            store_store, load_store rfl rfl]
          rfl
        · rw [if_neg hone, if_neg hone, load_store rfl rfl, store_store]
          rfl
      · simp only [if_neg hpol]
        rw [load_store rfl rfl, store_store]
        rfl

theorem reschedTask_list (s : State) (p : TaskId) (l : List UserId) :
    { reschedTask s p with uwrrUserlist := l } = reschedTask { s with uwrrUserlist := l } p := rfl

/-- The slice of a user that no other runqueue has. -/
theorem uwrrTickUser_eq (hcreated : s.created = m.created) (hforking : s.forking = fun _ => none)
    (halone : m.Alone c (s.task p).user) :
    (m.store c s).uwrrTickUser c p = m.store c (Uwrr.uwrrTickUser s p) := by
  rw [uwrrTickUser, Uwrr.uwrrTickUser, load_store hcreated hforking]
  dsimp only
  split
  · rw [store_store, listMoveTail, halone.listDel_store, listAddTail_store]
    · exact congrArg (m.store c) (reschedTask_list _ p _)
    · exact hcreated
    · exact hforking
    · exact hcreated
    · exact hforking
  · rw [store_store]

theorem uwrrTick_eq (halone : m.Alone c ((m.load c).task p).user)
    (hkeep : ∀ s, uwrrTickTask (m.load c) p = some s → SameOwners (m.load c) s) :
    m.uwrrTick c p = (Uwrr.uwrrTick (m.load c) p).map (m.store c) := by
  rw [uwrrTick, Uwrr.uwrrTick]
  split
  · rfl
  · cases hs : uwrrTickTask (m.load c) p with
    | none => rfl
    | some s =>
        have howners := hkeep s hs
        have huser : m.Alone c (s.task p).user := by
          rw [howners.user p]
          exact halone
        simp only [Option.bind_eq_bind, Option.bind_some, Option.map_some]
        rw [uwrrTickUser_eq howners.created howners.forking huser]

/-- The previous task, if its user is in no other runqueue's list. -/
theorem putPrev_eq {preemptActive signalPending : Bool}
    (halone : ((m.load c).task (m.rq c).curr).policy = .uwrr →
      m.Alone c ((m.load c).task (m.rq c).curr).user) :
    m.putPrev c preemptActive signalPending =
      (Uwrr.putPrev (m.load c) preemptActive signalPending).map (m.store c) := by
  have hcurr : (m.rq c).curr = (m.load c).curr := rfl
  rw [hcurr] at halone
  rw [putPrev, Uwrr.putPrev]
  split
  · rw [Option.map_some, store_load]
  · split
    · rfl
    · split
      · set a : State := { m.load c with nrUninterruptible := (m.load c).nrUninterruptible + 1 }
          with ha
        have hload : (m.store c a).load c = a := load_store rfl rfl
        rw [deactivateTask_eq (m := m.store c a), hload]
        · refine congrArg (fun f => (Uwrr.deactivateTask a (m.load c).curr).map f) ?_
          funext s
          exact store_store
        · rw [hload]
          exact fun hpol => (halone hpol).store a
      · exact deactivateTask_eq halone

/-! ## The part of a CPU -/

open Classical in
/-- The idle task and the tasks of the CPU, its arrays, and the arrays of the
users that no other CPU has in its list. -/
noncomputable def view (m : Machine Cpu) (c : Cpu) : View where
  live := fun p => decide (p = idle ∨ m.cpu p = c)
  owner := fun p => ((m.load c).task p).user
  shown
    | .rq _ => true
    | .user u => decide (m.Alone c u)
  users := fun _ => { freshUser with count := {p | m.created p = true}.ncard }
  created := m.created
  forking := fun _ => none

theorem view_live : (m.view c).live p = true ↔ p = idle ∨ m.cpu p = c := decide_eq_true_iff

theorem view_shown : (m.view c).shown (.user u) = true ↔ m.Alone c u :=
  @decide_eq_true_iff _ (Classical.propDecidable _)

theorem view_idle : (m.view c).live idle = true := view_live.mpr (Or.inl rfl)

theorem view_not_reserved (hp : p ≠ idle) : ¬ Reserved (m.view c).forking p := by
  rintro (hidle | ⟨q, hq⟩)
  · exact hp hidle
  · cases hq

theorem view_task {l : List UserId} : ((m.view c).see l (m.load c)).task p =
    if (m.view c).live p then (m.load c).task p else idleTask := rfl

theorem alone_store : (m.store c s).Alone c u ↔ m.Alone c u := by
  constructor
  · intro h d hd
    have hnot := h d hd
    rwa [rq_store_of_ne hd] at hnot
  · exact fun h => h.store s

theorem view_store (h : SameOwners (m.load c) s) : (m.store c s).view c = m.view c := by
  have howner : ∀ p, (((m.store c s).load c).task p).user = ((m.load c).task p).user := by
    rw [load_store h.created h.forking]
    exact h.user
  have hshown : ((m.store c s).view c).shown = (m.view c).shown := by
    funext r
    cases r with
    | rq i => rfl
    | user u => rw [Bool.eq_iff_iff, view_shown, view_shown, alone_store]
  show View.mk _ _ _ _ _ _ = View.mk _ _ _ _ _ _
  rw [View.mk.injEq]
  exact ⟨rfl, funext howner, hshown, rfl, rfl, rfl⟩

end Machine

open Machine

/-- **Every CPU has a runqueue in order**, with a task of its own running. -/
structure Parts (m : Machine Cpu) : Prop where
  part : ∀ c, Part (m.view c) (m.load c)
  apart : ∀ c, ∀ u ∈ (m.rq c).uwrrUserlist, m.Alone c u
  running : ∀ c, (m.view c).live (m.rq c).curr = true
  /-- The CPUs have idle tasks of their own. -/
  spare : (m.task idle).array = none

/-- Between two calls. -/
structure MachineInv (m : Machine Cpu) : Prop where
  parts : Parts m
  busy : ∀ c, Busy (m.load c)

section Parts

variable {m : Machine Cpu} {c d : Cpu} {s : State} {p : TaskId} {u : UserId}

theorem Core.empty_array {s : State} (h : Core s) (hu : u ∉ s.uwrrUserlist) :
    s.arrays (.user u) = emptyArray := by
  have hfree : ∀ q k, loc s.task q ≠ some (.user u, k) :=
    fun q k hq => hu ((h.linked.mem u).mpr ⟨q, k, hq⟩)
  have hqueue : ∀ k, (s.arrays (.user u)).queue k = [] := by
    intro k
    refine List.eq_nil_iff_forall_not_mem.mpr fun q hq => ?_
    exact hfree q k ((h.holds.mem _ k q).mp hq)
  have hbitmap : ∀ k, (s.arrays (.user u)).bitmap k = false := by
    intro k
    refine Bool.eq_false_of_not_eq_true fun hk => ?_
    exact (h.holds.bitmap _ k).mp hk (hqueue k)
  have hnr := h.holds.nrActive_eq_zero.mpr hfree
  revert hqueue hbitmap hnr
  cases s.arrays (.user u) with
  | mk nrActive bitmap queue =>
      intro hqueue hbitmap hnr
      rw [emptyArray, PrioArray.mk.injEq]
      exact ⟨hnr, funext hbitmap, funext hqueue⟩

/-- The array of a user, as a CPU sees it, is empty unless the CPU has the user in
its list. -/
theorem Parts.empty_array (h : Parts m) (hu : u ∉ (m.rq c).uwrrUserlist) :
    ((m.view c).see (m.rq c).uwrrUserlist (m.load c)).arrays (.user u) = emptyArray :=
  (h.part c).core.empty_array hu

/-! ### A call on one CPU -/

theorem Parts.apart_store (h : Parts m) (hlist : ∀ u ∈ s.uwrrUserlist, m.Alone c u) (d : Cpu) :
    ∀ u ∈ ((m.store c s).rq d).uwrrUserlist, (m.store c s).Alone d u := by
  intro u hu e he
  by_cases hd : d = c
  · rw [hd] at hu he
    rw [list_store_self] at hu
    rw [rq_store_of_ne he]
    exact hlist u hu e he
  · rw [rq_store_of_ne hd] at hu
    by_cases hec : e = c
    · rw [hec, list_store_self]
      exact fun hus => hlist u hus d hd hu
    · rw [rq_store_of_ne hec]
      exact h.apart d u hu e he

theorem task_other (h : Untouched (m.view c) (m.load c) s) (hd : d ≠ c)
    (hp : (m.view d).live p = true) : ((m.store c s).load d).task p = (m.load d).task p := by
  by_cases hidle : p = idle
  · rw [hidle, load_idle, load_idle, rq_store_of_ne hd]
  · have hcpu : m.cpu p = d := (view_live.mp hp).resolve_left hidle
    have hhidden : (m.view c).live p = false := by
      refine Bool.eq_false_of_not_eq_true fun hlive => ?_
      exact hd (hcpu.symm.trans ((view_live.mp hlive).resolve_left hidle))
    rw [task_load hidle, task_store hidle, h.task p hhidden, task_load hidle, task_load hidle]

/-- The arrays another CPU sees. -/
theorem Parts.arrays_other (h : Parts m) (hm : Moves (m.view c) (m.load c) s)
    (hlist : ∀ u ∈ s.uwrrUserlist, m.Alone c u) (hd : d ≠ c) (u : UserId) :
    (((m.store c s).view d).see (m.rq d).uwrrUserlist ((m.store c s).load d)).arrays (.user u) =
      ((m.view d).see (m.rq d).uwrrUserlist (m.load d)).arrays (.user u) := by
  by_cases hu : u ∈ (m.rq d).uwrrUserlist
  · have hhidden : (m.view c).shown (.user u) = false := by
      refine Bool.eq_false_of_not_eq_true fun hshown => ?_
      exact view_shown.mp hshown d hd hu
    have hkept : (m.store c s).Alone d u := h.apart_store hlist d u (by rwa [rq_store_of_ne hd])
    rw [see_arrays (view_shown.mpr hkept), see_arrays (view_shown.mpr (h.apart d u hu))]
    exact hm.untouched.arrays _ hhidden
  · rw [h.empty_array hu]
    by_cases halone : (m.store c s).Alone d u
    · rw [see_arrays (view_shown.mpr halone)]
      -- nobody has the user in its list
      have hc : m.Alone c u := by
        intro e he
        by_cases hed : e = d
        · rwa [hed]
        · rw [← rq_store_of_ne he]
          exact halone e hed
      have hus : u ∉ s.uwrrUserlist := by
        have hnot := halone c hd.symm
        rwa [list_store_self] at hnot
      have hempty := hm.part.core.empty_array hus
      rw [see_arrays (view_shown.mpr hc)] at hempty
      exact hempty
    · exact if_neg fun hshown => halone (view_shown.mp hshown)

theorem Parts.part_other (h : Parts m) (hm : Moves (m.view c) (m.load c) s)
    (hlist : ∀ u ∈ s.uwrrUserlist, m.Alone c u) (hd : d ≠ c) :
    Part ((m.store c s).view d) ((m.store c s).load d) := by
  have hrq : (m.store c s).rq d = m.rq d := rq_store_of_ne hd
  have hus : ((m.store c s).load d).uwrrUserlist = (m.rq d).uwrrUserlist :=
    congrArg Runqueue.uwrrUserlist hrq
  refine ⟨fun _ => rfl, fun _ => rfl, ?_⟩
  refine (h.part d).core.of_eq ?_ ?_ ?_ ?_ ?_ ?_ rfl ?_ ?_
  · funext r
    cases r with
    | rq i => exact congrArg (fun q => q.arrays i) hrq
    | user u =>
        rw [hus]
        exact h.arrays_other hm hlist hd u
  · funext p
    rw [view_task, view_task]
    by_cases hp : (m.view d).live p = true
    · rw [if_pos hp, task_other hm.untouched hd hp]
      exact if_pos hp
    · rw [if_neg hp]
      exact if_neg hp
  · exact congrArg Runqueue.nrRunning hrq
  · exact congrArg Runqueue.uwrrRunning hrq
  · show Linked ((m.store c s).load d).uwrrUserlist _
    rw [hus]
    exact (h.part d).core.linked
  · rfl
  · exact fun _ => rfl
  · exact hm.part.core.bug.trans (h.part d).core.bug.symm

/-- **A call on one CPU.** The others keep their parts, and their tasks stay in the
queues. -/
theorem Parts.store (h : Parts m) (hm : Moves (m.view c) (m.load c) s)
    (hcurr : (m.view c).live s.curr = true) (hlist : ∀ u ∈ s.uwrrUserlist, m.Alone c u) :
    Parts (m.store c s) ∧ ∀ d, d ≠ c → Busy (m.load d) → Busy ((m.store c s).load d) := by
  have hload : (m.store c s).load c = s := load_store hm.owners.created hm.owners.forking
  refine ⟨⟨fun d => ?_, h.apart_store hlist, fun d => ?_, ?_⟩, fun d hd hb => ?_⟩
  · by_cases hd : d = c
    · rw [hd, view_store hm.owners, hload]
      exact hm.part
    · exact h.part_other hm hlist hd
  · by_cases hd : d = c
    · rw [hd, show ((m.store c s).rq c).curr = s.curr from congrArg State.curr hload]
      exact hcurr
    · rw [rq_store_of_ne hd]
      exact h.running d
  · rw [task_idle_store]
    exact h.spare
  · have hcurr' : ((m.store c s).load d).curr = (m.load d).curr :=
      congrArg Runqueue.curr (rq_store_of_ne hd)
    have harray : (((m.store c s).load d).task (m.load d).curr).array =
        ((m.load d).task (m.load d).curr).array :=
      congrArg Task.array (task_other hm.untouched hd (h.running d))
    rw [Busy, hcurr', harray]
    exact hb

/-- The parts stay in order, and who is busy stays so. -/
structure Keeps (m m' : Machine Cpu) : Prop where
  parts : Parts m'
  busy : ∀ d, Busy (m.load d) → Busy (m'.load d)

theorem Keeps.refl (h : Parts m) : Keeps m m := ⟨h, fun _ => id⟩

theorem Keeps.trans {m' m'' : Machine Cpu} (h : Keeps m m') (h' : Keeps m' m'') : Keeps m m'' :=
  ⟨h'.parts, fun d hd => h'.busy d (h.busy d hd)⟩

theorem MachineInv.keeps {m' : Machine Cpu} (h : MachineInv m) (hk : Keeps m m') :
    MachineInv m' := ⟨hk.parts, fun d => hk.busy d (h.busy d)⟩

theorem Parts.keeps (h : Parts m) (hm : Moves (m.view c) (m.load c) s)
    (hbusy : Busy (m.load c) → Busy s) (hcurr : s.curr = (m.rq c).curr)
    (hlist : ∀ u ∈ s.uwrrUserlist, m.Alone c u) : Keeps m (m.store c s) := by
  obtain ⟨hparts, hothers⟩ := h.store hm (by rw [hcurr]; exact h.running c) hlist
  refine ⟨hparts, fun d hb => ?_⟩
  by_cases hd : d = c
  · rw [hd] at hb ⊢
    rw [load_store hm.owners.created hm.owners.forking]
    exact hbusy hb
  · exact hothers d hd hb

/-- A call that takes nothing off the runqueue and links nobody. -/
theorem Parts.keeps_stays (h : Parts m) (hm : Moves (m.view c) (m.load c) s)
    (hstays : Stays (m.load c) s) (hlist : s.uwrrUserlist ⊆ (m.rq c).uwrrUserlist) :
    Keeps m (m.store c s) :=
  h.keeps hm hstays.busy hstays.curr fun u hu => h.apart c u (hlist hu)

/-- What no CPU sees. -/
theorem Parts.of_load {m' : Machine Cpu} (h : Parts m) (hload : ∀ d, m'.load d = m.load d)
    (hcpu : m'.cpu = m.cpu) (htask : m'.task idle = m.task idle) : Keeps m m' := by
  have hlist : ∀ d, (m'.rq d).uwrrUserlist = (m.rq d).uwrrUserlist :=
    fun d => congrArg State.uwrrUserlist (hload d)
  have halone : ∀ d u, m'.Alone d u ↔ m.Alone d u := by
    intro d u
    exact forall_congr' fun e => by rw [hlist e]
  have hview : ∀ d, m'.view d = m.view d := by
    intro d
    have hshown : (m'.view d).shown = (m.view d).shown := by
      funext r
      cases r with
      | rq i => rfl
      | user u => rw [Bool.eq_iff_iff, view_shown, view_shown, halone]
    have hcreated : m'.created = m.created := congrArg State.created (hload d)
    show View.mk _ _ _ _ _ _ = View.mk _ _ _ _ _ _
    rw [View.mk.injEq, hcpu, hload d, hcreated]
    exact ⟨rfl, rfl, hshown, rfl, rfl, rfl⟩
  refine ⟨⟨fun d => ?_, fun d u hu => ?_, fun d => ?_, ?_⟩, fun d => ?_⟩
  · rw [hview, hload]
    exact h.part d
  · rw [halone]
    rw [hlist] at hu
    exact h.apart d u hu
  · rw [hview, show (m'.rq d).curr = (m.rq d).curr from congrArg State.curr (hload d)]
    exact h.running d
  · rw [htask]
    exact h.spare
  · rw [hload]
    exact id

/-! ### A task that changes its CPU -/

theorem Parts.idle_not_uwrr (h : Parts m) (c : Cpu) :
    ((m.load c).task idle).policy ≠ .uwrr := by
  have hidle := (h.part c).core.tasks.idle
  rwa [(h.part c).see_task view_idle] at hidle

theorem Parts.taskOk (h : Parts m) (hp : p ≠ idle) : TaskOk (m.task p) := by
  have hok := (h.part (m.cpu p)).taskOk (p := p) (view_live.mpr (Or.inr rfl))
  rwa [task_load hp] at hok

/-- A task in no queue is replaced by another one. -/
theorem Core.replace {s : State} (h : Core s) {t : Task} (hp : p ≠ idle)
    (hforking : s.forking = fun _ => none) (hnone : (s.task p).array = none)
    (ht : t.array = none) (hok : TaskOk t)
    (hrefs : ∀ u, (s.user u).count = {p | s.created p = true}.ncard) :
    Core { s with task := Function.update s.task p t } := by
  have hres : ¬ Reserved s.forking p := by
    rintro (hidle | ⟨q, hq⟩)
    · exact hp hidle
    · rw [hforking] at hq
      cases hq
  have hloc : loc (Function.update s.task p t) = loc s.task :=
    loc_update_same (ht.trans hnone.symm) fun e => absurd ht e
  refine ⟨?_, ?_, ?_, ?_, ⟨h.refs.finite, fun u => ?_⟩, h.bug⟩
  · rw [hloc]
    exact h.holds
  · rw [hloc]
    exact h.counts
  · rw [hloc]
    exact h.linked
  · refine h.tasks.update hok (Or.inr ?_) (fun e => absurd ht e) (fun e => absurd e hres)
      (fun e => absurd e hp)
    rw [hforking]
    exact ⟨rfl, fun _ e => by cases e⟩
  · have hsub : {q | s.created q = true ∧ (Function.update s.task p t q).user = u} ⊆
        {q | s.created q = true} := fun q hq => hq.1
    rw [hrefs u]
    exact_mod_cast Set.ncard_le_ncard hsub h.refs.finite

theorem view_setTaskCpu (hp : p ≠ idle) (c d : Cpu) (l : List UserId) :
    ((m.setTaskCpu p c).view d).see l ((m.setTaskCpu p c).load d) =
      { (m.view d).see l (m.load d) with
        task := Function.update ((m.view d).see l (m.load d)).task p
          (if c = d then m.task p else idleTask) } := by
  have htask : (((m.setTaskCpu p c).view d).see l ((m.setTaskCpu p c).load d)).task =
      Function.update ((m.view d).see l (m.load d)).task p
        (if c = d then m.task p else idleTask) := by
    funext q
    by_cases hq : q = p
    · rw [hq, Function.update_self, view_task, show (m.setTaskCpu p c).load d = m.load d from rfl,
        task_load hp]
      have hlive : ((m.setTaskCpu p c).view d).live p = true ↔ c = d := by
        rw [view_live, setTaskCpu]
        dsimp only
        rw [Function.update_self]
        exact ⟨fun e => e.resolve_left hp, Or.inr⟩
      simp only [hlive]
    · rw [Function.update_of_ne hq, view_task, view_task]
      have hlive : ((m.setTaskCpu p c).view d).live q = true ↔ (m.view d).live q = true := by
        rw [view_live, view_live, setTaskCpu]
        dsimp only
        rw [Function.update_of_ne hq]
      simp only [hlive]
      rfl
  exact congrArg (fun task => { (m.view d).see l (m.load d) with task := task }) htask

/-- `set_task_cpu`, of a task that is neither running nor queued. -/
theorem Parts.setTaskCpu (h : Parts m) (hp : m.NotRunning p) (hnone : (m.task p).array = none)
    (c : Cpu) : Keeps m (m.setTaskCpu p c) := by
  obtain ⟨hidle, hcurr⟩ := hp
  refine ⟨⟨fun d => ⟨fun _ => rfl, fun _ => rfl, ?_⟩, h.apart, fun d => ?_, h.spare⟩, fun _ => id⟩
  · rw [view_setTaskCpu hidle]
    refine (h.part d).core.replace hidle rfl ?_ ?_ ?_ fun _ => rfl
    · rw [view_task, task_load hidle]
      split
      · exact hnone
      · rfl
    · split
      · exact hnone
      · rfl
    · split
      · exact h.taskOk hidle
      · exact idleTask_ok
  · rw [view_live, Machine.setTaskCpu]
    dsimp only
    rw [Function.update_of_ne (hcurr d)]
    exact view_live.mp (h.running d)

end Parts

end LinuxHacks.Uwrr
