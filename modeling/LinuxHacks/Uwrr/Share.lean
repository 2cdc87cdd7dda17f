import LinuxHacks.Uwrr.Invariant

/-!
# The weighted share of a user

Ticks, with `schedule` whenever the current task needs it, and nothing else. A
user at the head of `uwrr_userlist` is charged until its slice is used up; then
it goes to the end of the list with a full slice. The tasks of a user rotate
inside its array in the meantime, which changes who runs but not who pays.

`Ready` is what the argument needs of the runqueue, `AtHead` that the task that
should run does.
-/

namespace LinuxHacks.Uwrr

open LinuxHacks.Lib

/-! ## The driver -/

/-- What the clock and the environment say at a tick. -/
structure Tick where
  jiffies : Nat
  now : Nat
  preemptActive : Bool
  signalPending : Bool

/-- The user that `scheduler_tick` charges. -/
def chargedUser (s : State) : Option UserId :=
  if s.curr ≠ idle ∧ (s.task s.curr).policy = .uwrr then some (s.task s.curr).user else none

def tickAndSchedule (s : State) (t : Tick) : Option State := do
  let s ← schedulerTick s t.jiffies
  if (s.task s.curr).needResched then schedule s t.now t.preemptActive t.signalPending
  else some s

/-- The users charged, in order, and the last state. -/
def drive : State → List Tick → Option (List (Option UserId) × State)
  | s, [] => some ([], s)
  | s, t :: ts => do
      let s' ← tickAndSchedule s t
      let (charged, s'') ← drive s' ts
      some (chargedUser s :: charged, s'')

theorem drive_append (s : State) (ts ts' : List Tick) :
    drive s (ts ++ ts') =
      (drive s ts).bind fun r => (drive r.2 ts').map fun r' => (r.1 ++ r'.1, r'.2) := by
  induction ts generalizing s with
  | nil =>
      simp only [List.nil_append, drive, Option.bind_some]
      cases drive s ts' with
      | none => rfl
      | some r => rfl
  | cons t ts ih =>
      simp only [List.cons_append, drive, Option.bind_eq_bind]
      cases tickAndSchedule s t with
      | none => rfl
      | some s' =>
          simp only [Option.bind_some, ih]
          cases drive s' ts with
          | none => rfl
          | some r =>
              simp only [Option.bind_some]
              cases drive r.2 ts' with
              | none => rfl
              | some r' => rfl

/-! ## States in which only UWRR tasks run -/

/-- A runnable UWRR task of `u`. -/
structure Shares (s : State) (u : UserId) (p : TaskId) : Prop where
  policy : (s.task p).policy = .uwrr
  prio : (s.task p).prio = UWRR_TASK_PRIO
  staticPrio : (s.task p).staticPrio = UWRR_TASK_PRIO
  user : (s.task p).user = u
  array : (s.task p).array = some (.user u)
  state : (s.task p).state = .running
  notIdle : p ≠ idle

instance (s : State) (u : UserId) (p : TaskId) : Decidable (Shares s u p) :=
  decidable_of_iff ((s.task p).policy = .uwrr ∧ (s.task p).prio = UWRR_TASK_PRIO ∧
      (s.task p).staticPrio = UWRR_TASK_PRIO ∧ (s.task p).user = u ∧
      (s.task p).array = some (.user u) ∧ (s.task p).state = .running ∧ p ≠ idle)
    ⟨fun ⟨h₁, h₂, h₃, h₄, h₅, h₆, h₇⟩ => ⟨h₁, h₂, h₃, h₄, h₅, h₆, h₇⟩,
      fun ⟨h₁, h₂, h₃, h₄, h₅, h₆, h₇⟩ => ⟨h₁, h₂, h₃, h₄, h₅, h₆, h₇⟩⟩

def uwrrQueue (s : State) (u : UserId) : List TaskId :=
  (s.arrays (.user u)).queue UWRR_TASK_PRIO

/-- Every listed user has runnable tasks; no real-time task is runnable. -/
structure Ready (s : State) : Prop where
  nodup : s.uwrrUserlist.Nodup
  queue : ∀ u ∈ s.uwrrUserlist, uwrrQueue s u ≠ []
  nrActive : ∀ u ∈ s.uwrrUserlist, (s.arrays (.user u)).nrActive ≠ 0
  task : ∀ u ∈ s.uwrrUserlist, ∀ p ∈ uwrrQueue s u, Shares s u p
  uwrrRunning : 0 < s.uwrrRunning
  nrRunning : s.nrRunning ≠ 0
  noRt : (s.arrays s.activeArray).nrActive ≠ 0 →
    MAX_RT_PRIO ≤ schedFindFirstBit (s.arrays s.activeArray)

/-- The head task of the head user runs. -/
def AtHead (s : State) : Prop :=
  ∃ u l p q, s.uwrrUserlist = u :: l ∧ uwrrQueue s u = p :: q ∧ s.curr = p

/-- What ticks and `schedule` leave alone here. -/
structure Frame (s s' : State) : Prop where
  task : ∀ p, Same (s.task p) (s'.task p)
  nrActive : ∀ r, (s'.arrays r).nrActive = (s.arrays r).nrActive
  bitmap : ∀ r, (s'.arrays r).bitmap = (s.arrays r).bitmap
  queue : ∀ u p, p ∈ uwrrQueue s' u ↔ p ∈ uwrrQueue s u
  active : s'.active = s.active
  uwrrRunning : s'.uwrrRunning = s.uwrrRunning
  nrRunning : s'.nrRunning = s.nrRunning

theorem Same.refl (t : Task) : Same t t := ⟨rfl, rfl, rfl, rfl, rfl, rfl⟩

theorem Same.trans {t t' t'' : Task} (h : Same t t') (h' : Same t' t'') : Same t t'' :=
  ⟨h'.policy.trans h.policy, h'.prio.trans h.prio, h'.staticPrio.trans h.staticPrio,
    h'.user.trans h.user, h'.array.trans h.array, h'.state.trans h.state⟩

theorem Same.update {task : TaskId → Task} {p : TaskId} {t : Task} (h : Same (task p) t)
    (q : TaskId) : Same (task q) (Function.update task p t q) := by
  by_cases hq : q = p
  · rw [hq, Function.update_self]
    exact h
  · rw [Function.update_of_ne hq]
    exact Same.refl _

theorem Frame.trans {s s' s'' : State} (h : Frame s s') (h' : Frame s' s'') : Frame s s'' :=
  ⟨fun p => (h.task p).trans (h'.task p), fun r => (h'.nrActive r).trans (h.nrActive r),
    fun r => (h'.bitmap r).trans (h.bitmap r), fun u p => (h'.queue u p).trans (h.queue u p),
    h'.active.trans h.active, h'.uwrrRunning.trans h.uwrrRunning, h'.nrRunning.trans h.nrRunning⟩

/-- Only a task's accounting changes. -/
theorem Frame.modTask (s : State) (p : TaskId) (f : Task → Task)
    (h : Same (s.task p) (f (s.task p))) : Frame s (s.modTask p f) :=
  ⟨Same.update h, fun _ => rfl, fun _ => rfl, fun _ _ => Iff.rfl, rfl, rfl, rfl⟩

theorem schedFindFirstBit_congr {a b : PrioArray} (h : a.bitmap = b.bitmap) :
    schedFindFirstBit a = schedFindFirstBit b := by
  rw [schedFindFirstBit, schedFindFirstBit, h]

theorem Ready.of_frame {s s' : State} (h : Ready s) (hf : Frame s s')
    (hnodup : s'.uwrrUserlist.Nodup) (hlist : ∀ u, u ∈ s'.uwrrUserlist ↔ u ∈ s.uwrrUserlist) :
    Ready s' where
  nodup := hnodup
  queue := by
    intro u hu hnil
    obtain ⟨p, hp⟩ := List.exists_mem_of_ne_nil _ (h.queue u ((hlist u).mp hu))
    rw [← hf.queue, hnil] at hp
    cases hp
  nrActive := by
    intro u hu
    rw [hf.nrActive]
    exact h.nrActive u ((hlist u).mp hu)
  task := by
    intro u hu p hp
    have hs := hf.task p
    have ht := h.task u ((hlist u).mp hu) p ((hf.queue u p).mp hp)
    exact ⟨hs.policy.trans ht.policy, hs.prio.trans ht.prio, hs.staticPrio.trans ht.staticPrio,
      hs.user.trans ht.user, hs.array.trans ht.array, hs.state.trans ht.state, ht.notIdle⟩
  uwrrRunning := by
    rw [hf.uwrrRunning]
    exact h.uwrrRunning
  nrRunning := by
    rw [hf.nrRunning]
    exact h.nrRunning
  noRt := by
    rw [State.activeArray, hf.active, hf.nrActive, schedFindFirstBit_congr (hf.bitmap _)]
    exact h.noRt

/-! ## One tick -/

theorem dec32_eq {n : Nat} (hpos : 0 < n) (hlt : n < 2 ^ 32) : dec32 n = n - 1 := by
  rw [dec32, u32]
  omega

/-- The task at the end of its slice goes to the end of its queue. -/
theorem Frame.requeue {s : State} {u : UserId} {p : TaskId} (hp : p ∈ uwrrQueue s u)
    (hprio : (s.task p).prio = UWRR_TASK_PRIO) : Frame s (requeueTask s p (.user u)) := by
  have harrays : ∀ r, r ≠ .user u → (requeueTask s p (.user u)).arrays r = s.arrays r :=
    fun r hr => Function.update_of_ne hr ..
  have hself : (requeueTask s p (.user u)).arrays (.user u) =
      { (s.arrays (.user u)).listDel p with
        queue := Function.update ((s.arrays (.user u)).listDel p).queue UWRR_TASK_PRIO
          (((s.arrays (.user u)).listDel p).queue UWRR_TASK_PRIO ++ [p]) } := by
    rw [← hprio]
    exact Function.update_self ..
  refine ⟨fun _ => Same.refl _, ?_, ?_, ?_, rfl, rfl, rfl⟩
  · intro r
    by_cases hr : r = .user u
    · rw [hr, hself]
      rfl
    · rw [harrays r hr]
  · intro r
    by_cases hr : r = .user u
    · rw [hr, hself]
      rfl
    · rw [harrays r hr]
  · intro v x
    by_cases hv : v = u
    · rw [hv, uwrrQueue, hself]
      simp only [Function.update_self, List.mem_append, List.mem_singleton]
      show x ∈ (uwrrQueue s u).erase p ∨ x = p ↔ x ∈ uwrrQueue s u
      constructor
      · rintro (hx | rfl)
        · exact List.mem_of_mem_erase hx
        · exact hp
      · intro hx
        by_cases hxp : x = p
        · exact Or.inr hxp
        · exact Or.inl ((List.mem_erase_of_ne hxp).mpr hx)
    · rw [uwrrQueue, harrays _ (fun e => hv (ArrayRef.user.inj e)), uwrrQueue]

theorem uwrrTickTask_share {s : State} {u : UserId} {p : TaskId} (hp : p ∈ uwrrQueue s u)
    (hs : Shares s u p) :
    ∃ s', uwrrTickTask s p = some s' ∧ Frame s s' ∧ s'.curr = s.curr ∧ s'.user = s.user ∧
      s'.uwrrUserlist = s.uwrrUserlist ∧
      ((s'.task p).needResched = true ∨ uwrrQueue s' u = uwrrQueue s u) := by
  set m := s.modTask p fun t => { t with timeSlice := dec32 t.timeSlice } with hm
  have hmp : m.task p = { s.task p with timeSlice := dec32 (s.task p).timeSlice } :=
    Function.update_self ..
  have hframe : Frame s m := Frame.modTask s p _ ⟨rfl, rfl, rfl, rfl, rfl, rfl⟩
  rw [uwrrTickTask]
  split
  · set m' := m.modTask p refillSlice with hm'
    have hmp' : m'.task p = refillSlice (m.task p) := Function.update_self ..
    have hframe' : Frame s m' :=
      hframe.trans (Frame.modTask m p _ ⟨rfl, rfl, rfl, rfl, rfl, rfl⟩)
    have hreq : Frame m' (requeueTask m' p (.user u)) := by
      refine Frame.requeue ((hframe'.queue u p).mpr hp) ?_
      rw [(hframe'.task p).prio]
      exact hs.prio
    rw [← hm, hmp]
    simp only [hs.array]
    refine ⟨_, rfl, hframe'.trans hreq, rfl, rfl, rfl, Or.inl ?_⟩
    show (m'.task p).needResched = true
    rw [hmp']
    rfl
  · exact ⟨m, rfl, hframe, rfl, rfl, rfl, Or.inr rfl⟩

/-- The user of a tick after it: one unit less, or a full slice again. -/
def chargedSlice (v : User) : User :=
  { v with uwrrTimeSlice :=
      if v.uwrrTimeSlice = 1 then u32 (100 * v.uwrrWeight) else v.uwrrTimeSlice - 1 }

theorem uwrrTickUser_share {s : State} {u : UserId} {l : List UserId} {p : TaskId}
    (hlist : s.uwrrUserlist = u :: l) (huser : (s.task p).user = u)
    (hpos : 0 < (s.user u).uwrrTimeSlice) (hlt : (s.user u).uwrrTimeSlice < 2 ^ 32) :
    Frame s (uwrrTickUser s p) ∧ (uwrrTickUser s p).curr = s.curr ∧
      (uwrrTickUser s p).user = Function.update s.user u (chargedSlice (s.user u)) ∧
      (uwrrTickUser s p).uwrrUserlist =
        (if (s.user u).uwrrTimeSlice = 1 then l ++ [u] else u :: l) ∧
      ((uwrrTickUser s p).task p).needResched =
        ((s.task p).needResched || decide ((s.user u).uwrrTimeSlice = 1)) ∧
      uwrrQueue (uwrrTickUser s p) u = uwrrQueue s u := by
  have hself : (s.modUser u fun v => { v with uwrrTimeSlice := dec32 v.uwrrTimeSlice }).user u =
      { s.user u with uwrrTimeSlice := dec32 (s.user u).uwrrTimeSlice } := Function.update_self ..
  have hdec : ((s.modUser u fun v => { v with uwrrTimeSlice := dec32 v.uwrrTimeSlice }).user
      u).uwrrTimeSlice = (s.user u).uwrrTimeSlice - 1 := by
    rw [hself]
    exact dec32_eq hpos hlt
  have hzero : (s.user u).uwrrTimeSlice - 1 = 0 ↔ (s.user u).uwrrTimeSlice = 1 := by omega
  rw [uwrrTickUser]
  simp only [huser, hdec, hzero]
  by_cases hone : (s.user u).uwrrTimeSlice = 1
  · rw [if_pos hone, if_pos hone]
    refine ⟨?_, rfl, ?_, ?_, ?_, rfl⟩
    · have hsame : Same (s.task p) { s.task p with needResched := true } :=
        ⟨rfl, rfl, rfl, rfl, rfl, rfl⟩
      exact ⟨Same.update hsame, fun _ => rfl, fun _ => rfl, fun _ _ => Iff.rfl, rfl, rfl, rfl⟩
    · show Function.update (Function.update s.user u _) u _ = _
      rw [Function.update_idem, hself, chargedSlice, if_pos hone]
    · show s.uwrrUserlist.erase u ++ [u] = l ++ [u]
      rw [hlist, List.erase_cons_head]
    · show (Function.update s.task p _ p).needResched = _
      rw [Function.update_self, hone]
      simp
  · rw [if_neg hone, if_neg hone]
    refine ⟨⟨fun _ => Same.refl _, fun _ => rfl, fun _ => rfl, fun _ _ => Iff.rfl, rfl, rfl, rfl⟩,
      rfl, ?_, hlist, ?_, rfl⟩
    · show Function.update s.user u _ = _
      dsimp only
      rw [chargedSlice, if_neg hone, dec32_eq hpos hlt]
    · show (s.task p).needResched = _
      simp [hone]

theorem schedulerTick_share {s : State} {u : UserId} {l : List UserId}
    (hs : Shares s u s.curr) (hp : s.curr ∈ uwrrQueue s u) (hlist : s.uwrrUserlist = u :: l)
    (hpos : 0 < (s.user u).uwrrTimeSlice) (hlt : (s.user u).uwrrTimeSlice < 2 ^ 32)
    (jiffies : Nat) :
    ∃ s', schedulerTick s jiffies = some s' ∧ Frame s s' ∧ s'.curr = s.curr ∧
      s'.user = Function.update s.user u (chargedSlice (s.user u)) ∧
      s'.uwrrUserlist = (if (s.user u).uwrrTimeSlice = 1 then l ++ [u] else u :: l) ∧
      ((s'.task s'.curr).needResched = true ∨
        (s.user u).uwrrTimeSlice ≠ 1 ∧ uwrrQueue s' u = uwrrQueue s u) := by
  obtain ⟨s₁, hs₁, hframe₁, hcurr₁, huser₁, hlist₁, hqueue₁⟩ := uwrrTickTask_share hp hs
  have hu₁ : (s₁.task s.curr).user = u := (hframe₁.task s.curr).user.trans hs.user
  obtain ⟨hframe₂, hcurr₂, huser₂, hlist₂, hresched, hqueue₂⟩ :=
    uwrrTickUser_share (hlist₁.trans hlist) hu₁ (by rw [huser₁]; exact hpos)
      (by rw [huser₁]; exact hlt)
  rw [huser₁] at huser₂ hlist₂ hresched
  refine ⟨uwrrTickUser s₁ s.curr, ?_, hframe₁.trans hframe₂, hcurr₂.trans hcurr₁, huser₂, hlist₂, ?_⟩
  · have hrt : rtTask (s.task s.curr) = false := by
      rw [rtTask, hs.prio]
      decide
    have htick : uwrrTick s s.curr = some (uwrrTickUser s₁ s.curr) := by
      rw [uwrrTick, hs.prio, hs.staticPrio, hs₁]
      rfl
    rw [schedulerTick]
    simp only [hs.notIdle, if_false, hs.policy, ne_eq, not_true_eq_false, and_false, hrt,
      Bool.false_eq_true, if_true]
    exact htick
  · rw [hcurr₂, hcurr₁, hresched]
    by_cases hone : (s.user u).uwrrTimeSlice = 1
    · refine Or.inl ?_
      simp [hone]
    · rcases hqueue₁ with hneed | hsame
      · refine Or.inl ?_
        simp [hneed]
      · exact Or.inr ⟨hone, hqueue₂.trans hsame⟩

/-! ## `schedule` -/

theorem switchTasks_share (s : State) (next : TaskId) (now run : Nat) :
    Frame s (switchTasks s next now run) ∧ (switchTasks s next now run).curr = next ∧
      (switchTasks s next now run).user = s.user ∧
      (switchTasks s next now run).uwrrUserlist = s.uwrrUserlist ∧
      (switchTasks s next now run).arrays = s.arrays := by
  set m := s.modTask s.curr fun t =>
    { t with needResched := false, sleepAvg := t.sleepAvg - run, timestamp := now } with hm
  have hframe : Frame s m := Frame.modTask s s.curr _ ⟨rfl, rfl, rfl, rfl, rfl, rfl⟩
  rw [switchTasks]
  dsimp only
  rw [← hm]
  split
  · have hframe' := hframe.trans (Frame.modTask m next (fun t => { t with timestamp := now })
      ⟨rfl, rfl, rfl, rfl, rfl, rfl⟩)
    exact ⟨⟨hframe'.task, fun _ => rfl, fun _ => rfl, fun _ _ => Iff.rfl, rfl, rfl, rfl⟩, rfl, rfl,
      rfl, rfl⟩
  · rename_i heq
    exact ⟨hframe, not_not.mp heq, rfl, rfl, rfl⟩

/-- Without a real-time task the head task of the head user is taken, and the
list of users stays as it is. -/
theorem schedule_share {s : State} (h : Ready s) (hstate : (s.task s.curr).state = .running)
    {u : UserId} {l : List UserId} {p : TaskId} {q : List TaskId} (hlist : s.uwrrUserlist = u :: l)
    (hqueue : uwrrQueue s u = p :: q) (now : Nat) (preemptActive signalPending : Bool) :
    ∃ s', schedule s now preemptActive signalPending = some s' ∧ Frame s s' ∧ s'.curr = p ∧
      s'.user = s.user ∧ s'.uwrrUserlist = s.uwrrUserlist ∧ s'.arrays = s.arrays := by
  have hu : u ∈ s.uwrrUserlist := by
    rw [hlist]
    exact List.mem_cons_self
  have hp : Shares s u p := h.task u hu p (by rw [hqueue]; exact List.mem_cons_self)
  have hput : putPrev s preemptActive signalPending = some s := by
    rw [putPrev, hstate]
    rfl
  have hswap : swapArrays s = s := by
    rw [swapArrays, if_neg]
    intro hboth
    have hpos := h.uwrrRunning
    omega
  have hpick : pickQueue s = some (s, p :: q) := by
    have hidx : MAX_RT_PRIO ≤ (if (s.arrays s.activeArray).nrActive ≠ 0 then
        schedFindFirstBit (s.arrays s.activeArray) else MAX_PRIO) := by
      split
      · rename_i hne
        exact h.noRt hne
      · decide
    rw [pickQueue]
    simp only [hidx, h.uwrrRunning, and_self, if_true, hlist, pickUser, h.nrActive u hu, if_false,
      Option.bind_eq_bind, Option.bind_some]
    rw [← hlist]
    exact congrArg (fun l => some (s, l)) hqueue
  have hcredit : creditNext s p now = some s := by
    rw [creditNext]
    simp [hp.policy]
  set m := s.modTask p fun t => { t with activated := 0 } with hm
  have hframe : Frame s m := Frame.modTask s p _ ⟨rfl, rfl, rfl, rfl, rfl, rfl⟩
  obtain ⟨hswitch, hcurr, huser, hlist', harrays⟩ :=
    switchTasks_share m p now (runTime (s.task s.curr) now)
  refine ⟨switchTasks m p now (runTime (s.task s.curr) now), ?_, hframe.trans hswitch, hcurr,
    huser, hlist', harrays⟩
  rw [schedule]
  simp only [hput, Option.bind_eq_bind, Option.bind_some, h.nrRunning, if_false, hswap, hpick,
    hcredit]
  rfl

/-- The runqueue of a run is such a state when it has UWRR tasks only to choose
from and none of them is about to sleep. -/
theorem Core.ready {s : State} (h : Core s) (hne : s.uwrrUserlist ≠ [])
    (hrt : ∀ p, Runnable s p → rtTask (s.task p) = false)
    (hrun : ∀ p, Runnable s p → (s.task p).policy = .uwrr → (s.task p).state = .running) :
    Ready s := by
  have hpos : 0 < s.uwrrRunning := by
    obtain ⟨u, hu⟩ := List.exists_mem_of_ne_nil _ hne
    obtain ⟨p, k, hp⟩ := (h.linked.mem u).mp hu
    rw [h.counts.uwrrRunning, Nat.cast_pos, Placement.count_pos_iff h.holds.finitary]
    exact ⟨p, _, hp, trivial⟩
  refine ⟨h.linked.nodup, fun u hu => (h.occupied_queue ((h.linked.mem u).mp hu)).2,
    fun u hu => (h.occupied_queue ((h.linked.mem u).mp hu)).1, ?_, hpos, ?_, ?_⟩
  · intro u hu p hp
    have hitem : p ∈ Placement.items (loc s.task) (fun b => b.1 = .user u) :=
      ⟨_, (h.holds.mem _ _ p).mp hp, rfl⟩
    obtain ⟨hqueued, hpol, huser⟩ := (h.inUserArray u p).mp hitem
    obtain ⟨hprio, hstatic⟩ := (h.tasks.ok p).uwrr hpol
    refine ⟨hpol, hprio, hstatic, huser, (loc_eq_some.mp ((h.holds.mem _ _ p).mp hp)).1,
      hrun p hqueued hpol, ?_⟩
    rintro rfl
    exact h.tasks.idle hpol
  · have hcounts := h.runqueueOk.nrRunning
    have hactive := h.holds.nrActive s.activeArray
    have hexpired := h.holds.nrActive s.expiredArray
    omega
  · intro hactive
    obtain ⟨hlt, hqueue⟩ := h.firstBit hactive
    obtain ⟨p, hp⟩ := List.exists_mem_of_ne_nil _ hqueue
    have hprio := (loc_eq_some.mp ((h.holds.mem _ _ p).mp hp)).2
    have hnot := hrt p (h.queued_of_mem hp)
    rw [rtTask, decide_eq_false_iff_not, not_lt, hprio] at hnot
    exact hnot

/-! ## Turns and rounds -/

/-- One tick of the head user. -/
theorem tickAndSchedule_share {s : State} (h : Ready s) (hat : AtHead s) {u : UserId}
    {l : List UserId} (hlist : s.uwrrUserlist = u :: l) (hpos : 0 < (s.user u).uwrrTimeSlice)
    (hlt : (s.user u).uwrrTimeSlice < 2 ^ 32) (t : Tick) :
    ∃ s', tickAndSchedule s t = some s' ∧ chargedUser s = some u ∧ Ready s' ∧ AtHead s' ∧
      s'.user = Function.update s.user u (chargedSlice (s.user u)) ∧
      s'.uwrrUserlist = if (s.user u).uwrrTimeSlice = 1 then l ++ [u] else u :: l := by
  obtain ⟨v, l', p, q, hlist', hqueue, hcurr⟩ := hat
  obtain ⟨rfl, rfl⟩ : v = u ∧ l' = l := by
    rw [hlist] at hlist'
    cases hlist'
    exact ⟨rfl, rfl⟩
  have hu : v ∈ s.uwrrUserlist := by
    rw [hlist]
    exact List.mem_cons_self
  have hmem : s.curr ∈ uwrrQueue s v := by
    rw [hqueue, hcurr]
    exact List.mem_cons_self
  have hs := h.task v hu s.curr hmem
  obtain ⟨s₁, hs₁, hframe₁, hcurr₁, huser₁, hlist₁, hneed⟩ :=
    schedulerTick_share hs hmem hlist hpos hlt t.jiffies
  have hcharged : chargedUser s = some v := by
    rw [chargedUser, if_pos ⟨hs.notIdle, hs.policy⟩, hs.user]
  have hnodup := h.nodup
  rw [hlist, List.nodup_cons] at hnodup
  have hnodup₁ : s₁.uwrrUserlist.Nodup := by
    rw [hlist₁]
    split
    · exact List.Nodup.append hnodup.2 (List.nodup_singleton v)
        (List.disjoint_singleton.mpr hnodup.1)
    · exact List.nodup_cons.mpr hnodup
  have hmem₁ : ∀ w, w ∈ s₁.uwrrUserlist ↔ w ∈ s.uwrrUserlist := by
    intro w
    rw [hlist₁, hlist]
    split
    · rw [List.mem_append, List.mem_singleton, List.mem_cons, or_comm]
    · exact Iff.rfl
  have h₁ := h.of_frame hframe₁ hnodup₁ hmem₁
  rw [tickAndSchedule, hs₁]
  simp only [Option.bind_eq_bind, Option.bind_some]
  by_cases hresched : (s₁.task s₁.curr).needResched = true
  · -- the head of the new list runs next
    obtain ⟨w, l₂, hlist₂⟩ := List.exists_cons_of_ne_nil
      (List.ne_nil_of_mem ((hmem₁ v).mpr hu))
    have hw : w ∈ s₁.uwrrUserlist := by
      rw [hlist₂]
      exact List.mem_cons_self
    obtain ⟨p₂, q₂, hqueue₂⟩ := List.exists_cons_of_ne_nil (h₁.queue w hw)
    have hstate : (s₁.task s₁.curr).state = .running := by
      rw [(hframe₁.task s₁.curr).state, hcurr₁]
      exact hs.state
    obtain ⟨s₂, hs₂, hframe₂, hcurr₂, huser₂, hlist₂', harrays⟩ :=
      schedule_share h₁ hstate hlist₂ hqueue₂ t.now t.preemptActive t.signalPending
    rw [if_pos hresched, hs₂]
    refine ⟨s₂, rfl, hcharged, ?_, ?_, huser₂.trans huser₁, hlist₂'.trans hlist₁⟩
    · refine h₁.of_frame hframe₂ ?_ fun x => ?_
      · rw [hlist₂']
        exact hnodup₁
      · rw [hlist₂']
    · refine ⟨w, l₂, p₂, q₂, hlist₂'.trans hlist₂, ?_, hcurr₂⟩
      rw [uwrrQueue, harrays]
      exact hqueue₂
  · rw [if_neg hresched]
    obtain ⟨hone, hsame⟩ := hneed.resolve_left hresched
    refine ⟨s₁, rfl, hcharged, h₁, ?_, huser₁, hlist₁⟩
    rw [if_neg hone] at hlist₁
    exact ⟨v, l', p, q, hlist₁, hsame.trans hqueue, hcurr₁.trans hcurr⟩

/-- The turn of the head user, until its slice is used up. -/
theorem drive_turn {s : State} (h : Ready s) (hat : AtHead s) {u : UserId} {l : List UserId}
    (hlist : s.uwrrUserlist = u :: l) {n : Nat} (hslice : (s.user u).uwrrTimeSlice = n + 1)
    (hlt : n + 1 < 2 ^ 32) (ts : List Tick) (hlen : ts.length = n + 1) :
    ∃ s', drive s ts = some (List.replicate (n + 1) (some u), s') ∧ Ready s' ∧ AtHead s' ∧
      s'.uwrrUserlist = l ++ [u] ∧
      s'.user = Function.update s.user u
        { s.user u with uwrrTimeSlice := u32 (100 * (s.user u).uwrrWeight) } := by
  induction n generalizing s ts with
  | zero =>
      obtain ⟨t, rfl⟩ := List.length_eq_one_iff.mp hlen
      obtain ⟨s', hs', hcharged, h', hat', huser, hlist'⟩ :=
        tickAndSchedule_share h hat hlist (by omega) (by omega) t
      rw [hslice, if_pos rfl] at hlist'
      rw [chargedSlice, hslice, if_pos rfl] at huser
      refine ⟨s', ?_, h', hat', hlist', huser⟩
      simp only [drive, hs', hcharged, Option.bind_eq_bind, Option.bind_some]
      rfl
  | succ n ih =>
      obtain ⟨t, ts, rfl⟩ := List.exists_cons_of_length_eq_add_one hlen
      obtain ⟨s₁, hs₁, hcharged, h₁, hat₁, huser₁, hlist₁⟩ :=
        tickAndSchedule_share h hat hlist (by omega) (by omega) t
      have hne : (s.user u).uwrrTimeSlice ≠ 1 := by omega
      rw [if_neg hne] at hlist₁
      have hu₁ : s₁.user u = { s.user u with uwrrTimeSlice := n + 1 } := by
        rw [huser₁, Function.update_self, chargedSlice, if_neg hne, hslice]
        rfl
      obtain ⟨s', hs', h', hat', hlist', huser'⟩ := ih h₁ hat₁ hlist₁ (by rw [hu₁]) (by omega)
        ts (by simpa using hlen)
      refine ⟨s', ?_, h', hat', hlist', ?_⟩
      · simp only [drive, hs₁, hcharged, hs', Option.bind_eq_bind, Option.bind_some]
        rfl
      · rw [huser', hu₁, huser₁, Function.update_idem]

/-- A full slice, which fits the counter. -/
def FullSlice (v : User) : Prop :=
  0 < 100 * v.uwrrWeight ∧ 100 * v.uwrrWeight < 2 ^ 32 ∧ v.uwrrTimeSlice = 100 * v.uwrrWeight

/-- The ticks the users of a list are charged, in order. -/
def turns (user : UserId → User) (us : List UserId) : List (Option UserId) :=
  us.flatMap fun u => List.replicate (100 * (user u).uwrrWeight) (some u)

theorem turns_length (user : UserId → User) (us : List UserId) :
    (turns user us).length = (us.map fun u => 100 * (user u).uwrrWeight).sum := by
  simp [turns, List.length_flatMap]

/-- The turns of the users at the front of the list. -/
theorem drive_turns {s : State} (h : Ready s) (hat : AtHead s) {us l : List UserId}
    (hlist : s.uwrrUserlist = us ++ l) (hfull : ∀ u ∈ us, FullSlice (s.user u)) (ts : List Tick)
    (hlen : ts.length = (turns s.user us).length) :
    ∃ s', drive s ts = some (turns s.user us, s') ∧ Ready s' ∧ AtHead s' ∧
      s'.uwrrUserlist = l ++ us ∧ s'.user = s.user := by
  induction us generalizing s l ts with
  | nil =>
      obtain rfl : ts = [] := List.length_eq_zero_iff.mp hlen
      exact ⟨s, rfl, h, hat, by rw [hlist, List.nil_append, List.append_nil], rfl⟩
  | cons u us ih =>
      obtain ⟨hpos, hlt, hslice⟩ := hfull u List.mem_cons_self
      obtain ⟨n, hn⟩ : ∃ n, 100 * (s.user u).uwrrWeight = n + 1 :=
        ⟨100 * (s.user u).uwrrWeight - 1, by omega⟩
      have hcons : turns s.user (u :: us) =
          List.replicate (n + 1) (some u) ++ turns s.user us := by
        rw [turns, List.flatMap_cons, hn]
        rfl
      rw [hcons, List.length_append, List.length_replicate] at hlen
      -- the ticks of this turn, and the others
      obtain ⟨s₁, hs₁, h₁, hat₁, hlist₁, huser₁⟩ :=
        drive_turn h hat (l := us ++ l) hlist (hslice.trans hn) (by omega) (ts.take (n + 1))
          (by rw [List.length_take]; omega)
      have huser : s₁.user = s.user := by
        rw [huser₁, u32, Nat.mod_eq_of_lt hlt, ← hslice]
        exact Function.update_eq_self ..
      obtain ⟨s', hs', h', hat', hlist', huser'⟩ := ih h₁ hat₁ (l := l ++ [u])
        (by rw [hlist₁, List.append_assoc])
        (by rw [huser]; exact fun v hv => hfull v (List.mem_cons_of_mem u hv)) (ts.drop (n + 1))
        (by rw [huser, List.length_drop]; omega)
      refine ⟨s', ?_, h', hat', ?_, huser'.trans huser⟩
      · rw [← List.take_append_drop (n + 1) ts, drive_append, hs₁, Option.bind_some, hs', hcons,
          huser]
        rfl
      · rw [hlist', List.append_assoc]
        rfl

theorem turns_count (user : UserId → User) {us : List UserId} (hnodup : us.Nodup) {u : UserId}
    (hu : u ∈ us) : (turns user us).count (some u) = 100 * (user u).uwrrWeight := by
  induction us with
  | nil => cases hu
  | cons v us ih =>
      obtain ⟨hv, hnodup⟩ := List.nodup_cons.mp hnodup
      have hcons : turns user (v :: us) =
          List.replicate (100 * (user v).uwrrWeight) (some v) ++ turns user us := rfl
      rw [hcons, List.count_append]
      rcases List.mem_cons.mp hu with rfl | hu'
      · have hzero : (turns user us).count (some u) = 0 := by
          refine List.count_eq_zero_of_not_mem fun hmem => ?_
          obtain ⟨w, hw, hmem⟩ := List.mem_flatMap.mp hmem
          obtain ⟨_, heq⟩ := List.mem_replicate.mp hmem
          cases heq
          exact hv hw
        rw [List.count_replicate_self, hzero, Nat.add_zero]
      · have hne : (some v == some u) = false := by
          rw [beq_eq_false_iff_ne]
          rintro heq
          cases heq
          exact hv hu'
        rw [List.count_replicate, hne, ih hnodup hu']
        exact Nat.zero_add _

theorem rounds_count (charged : List (Option UserId)) (r : Nat) (a : Option UserId) :
    (List.replicate r charged).flatten.count a = r * charged.count a := by
  induction r with
  | zero => simp
  | succ r ih =>
      rw [List.replicate_succ, List.flatten_cons, List.count_append, ih]
      ring

theorem drive_rounds {s : State} (h : Ready s) (hat : AtHead s)
    (hfull : ∀ u ∈ s.uwrrUserlist, FullSlice (s.user u)) (r : Nat) (ts : List Tick)
    (hlen : ts.length = r * (turns s.user s.uwrrUserlist).length) :
    ∃ s', drive s ts = some ((List.replicate r (turns s.user s.uwrrUserlist)).flatten, s') ∧
      s'.uwrrUserlist = s.uwrrUserlist ∧ s'.user = s.user := by
  induction r generalizing s ts with
  | zero =>
      obtain rfl : ts = [] := List.length_eq_zero_iff.mp (by rw [hlen, Nat.zero_mul])
      exact ⟨s, rfl, rfl, rfl⟩
  | succ r ih =>
      set n := (turns s.user s.uwrrUserlist).length with hn
      have hsucc : (r + 1) * n = n + r * n := by ring
      rw [hsucc] at hlen
      obtain ⟨s₁, hs₁, h₁, hat₁, hlist₁, huser₁⟩ := drive_turns h hat (l := [])
        (List.append_nil _).symm hfull (ts.take n) (by rw [List.length_take]; omega)
      rw [List.nil_append] at hlist₁
      obtain ⟨s', hs', hlist', huser'⟩ := ih h₁ hat₁ (by rw [hlist₁, huser₁]; exact hfull)
        (ts.drop n) (by rw [hlist₁, huser₁, ← hn, List.length_drop]; omega)
      rw [hlist₁, huser₁] at hs'
      refine ⟨s', ?_, hlist'.trans hlist₁, huser'.trans huser₁⟩
      rw [← List.take_append_drop n ts, drive_append, hs₁, Option.bind_some, hs',
        List.replicate_succ, List.flatten_cons]
      rfl

/-- **A user gets its weight.** In `r` rounds of ticks each listed user is
charged `r` times its slice; the users run in the order of the list, without
interruption within a round, and the list and the slices come back. -/
theorem uwrr_weighted_share {s : State} (h : Ready s) (hat : AtHead s)
    (hfull : ∀ u ∈ s.uwrrUserlist, FullSlice (s.user u)) (r : Nat) (ts : List Tick)
    (hlen : ts.length = r * (s.uwrrUserlist.map fun u => 100 * (s.user u).uwrrWeight).sum) :
    ∃ charged s', drive s ts = some (charged, s') ∧
      charged = (List.replicate r (turns s.user s.uwrrUserlist)).flatten ∧
      (∀ u ∈ s.uwrrUserlist, charged.count (some u) = r * (100 * (s.user u).uwrrWeight)) ∧
      s'.uwrrUserlist = s.uwrrUserlist ∧ s'.user = s.user := by
  obtain ⟨s', hs', hlist', huser'⟩ :=
    drive_rounds h hat hfull r ts (by rw [hlen, turns_length])
  refine ⟨_, s', hs', rfl, fun u hu => ?_, hlist', huser'⟩
  rw [rounds_count, turns_count s.user h.nodup hu]

/-! Two users: root with two tasks and weight 10, user 5 with one task and weight 3. -/

/-- The UWRR task of `uwrrRun` forks two more, and then becomes one of user 5. -/
def twoUsersRun : State :=
  [.schedule 0 false false, .fork 2 0 0, .wakeUpNew 2 true, .fork 3 0 0, .wakeUpNew 3 true,
    .switchUid 5, .schedule 0 false false].foldl State.after uwrrRun

def twoUsers : State :=
  { twoUsersRun with user := Function.update twoUsersRun.user 5 ⟨1, 3, 300⟩ }

theorem twoUsers_list : twoUsers.uwrrUserlist = [rootUser, 5] := by decide +kernel

theorem twoUsers_ready : Ready twoUsers ∧ AtHead twoUsers := by
  have hroot : uwrrQueue twoUsers rootUser = [2, 3] := by decide +kernel
  have hfive : uwrrQueue twoUsers 5 = [1] := by decide +kernel
  have hall : ∀ u ∈ twoUsers.uwrrUserlist, u = rootUser ∨ u = 5 := by
    intro u hu
    rw [twoUsers_list] at hu
    simpa using hu
  have hshares : ∀ e ∈ [(rootUser, 2), (rootUser, 3), (5, 1)], Shares twoUsers e.1 e.2 := by
    decide +kernel
  refine ⟨⟨?_, ?_, ?_, ?_, by decide +kernel, by decide +kernel, ?_⟩, rootUser, [5], 2, [3],
    twoUsers_list, hroot, by decide +kernel⟩
  · rw [twoUsers_list]
    decide
  · intro u hu
    rcases hall u hu with rfl | rfl
    · rw [hroot]
      exact List.cons_ne_nil _ _
    · rw [hfive]
      exact List.cons_ne_nil _ _
  · intro u hu
    rcases hall u hu with rfl | rfl
    · decide +kernel
    · decide +kernel
  · intro u hu p hp
    rcases hall u hu with rfl | rfl
    · rw [hroot] at hp
      rcases List.mem_cons.mp hp with rfl | hp
      · exact hshares (rootUser, 2) (by decide)
      · rw [List.mem_singleton.mp hp]
        exact hshares (rootUser, 3) (by decide)
    · rw [hfive] at hp
      rw [List.mem_singleton.mp hp]
      exact hshares (5, 1) (by decide)
  · intro hne
    revert hne
    decide +kernel

/-- In two rounds of 1300 ticks root is charged 2000 and user 5 is charged 600. -/
theorem twoUsers_share :
    ∃ charged s', drive twoUsers (List.replicate 2600 ⟨1, 1, false, false⟩) = some (charged, s') ∧
      charged.count (some rootUser) = 2000 ∧ charged.count (some 5) = 600 := by
  have hroot : twoUsers.user rootUser = ⟨3, 10, 1000⟩ := by decide +kernel
  have hfive : twoUsers.user 5 = ⟨1, 3, 300⟩ := by decide +kernel
  have hfull : ∀ u ∈ twoUsers.uwrrUserlist, FullSlice (twoUsers.user u) := by
    intro u hu
    rw [twoUsers_list] at hu
    rcases List.mem_cons.mp hu with rfl | hu
    · rw [hroot]
      exact ⟨by decide, by decide, by decide⟩
    · rw [List.mem_singleton.mp hu, hfive]
      exact ⟨by decide, by decide, by decide⟩
  obtain ⟨charged, s', hs', _, hcount, _⟩ :=
    uwrr_weighted_share twoUsers_ready.1 twoUsers_ready.2 hfull 2
      (List.replicate 2600 ⟨1, 1, false, false⟩) (by
        rw [List.length_replicate, twoUsers_list]
        simp only [List.map_cons, List.map_nil, hroot, hfive]
        rfl)
  refine ⟨charged, s', hs', ?_, ?_⟩
  · rw [hcount rootUser (by rw [twoUsers_list]; decide), hroot]
    rfl
  · rw [hcount 5 (by rw [twoUsers_list]; decide), hfive]
    rfl

end LinuxHacks.Uwrr
