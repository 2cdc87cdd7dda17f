import LinuxHacks.Uwrr.Invariant

/-!
# The two pickers

`schedule` and `dependent_sleeper` both determine the task to run next, in two
pieces of code of different shape: one switches the arrays and tests for
`uwrr_running`, the other does not switch and tests for its absence. Both follow
the order real-time, UWRR, `SCHED_NORMAL`, and neither uses `queue[ MAX_PRIO]`.

`PickInv` is what the two rely on: the promises of the UWRR lists and counters
(`RunqueueOk`), arrays that hold what the tasks say (`Holds`), UWRR tasks of the
one UWRR priority, and real-time tasks in the active array.
-/

namespace LinuxHacks.Uwrr

open LinuxHacks.Lib
open LinuxHacks.Lib.Placement

/-! ## `dependent_sleeper` -/

/-- The array `dependent_sleeper` looks at; the arrays are not switched. -/
def dependentArray (s : State) : ArrayRef :=
  if (s.arrays s.activeArray).nrActive = 0 ∧ s.uwrrRunning = 0 then s.expiredArray
  else s.activeArray

/-- The task `dependent_sleeper` takes for the next one, and the runqueue
without the users that it unlinked. -/
def dependentNext (s : State) : Option (State × TaskId) :=
  let array := dependentArray s
  if (s.arrays array).nrActive = 0 ∧ s.uwrrRunning = 0 then none
  else
    let idx := if (s.arrays array).nrActive ≠ 0 then schedFindFirstBit (s.arrays array)
      else MAX_PRIO
    if idx < MAX_RT_PRIO ∨ s.uwrrRunning = 0 then
      if idx = MAX_PRIO then none else ((s.arrays array).queue idx).head?.map fun p => (s, p)
    else do
      let (u, l) ← pickUser s s.uwrrUserlist
      ((s.arrays (.user u)).queue UWRR_TASK_PRIO).head?.map fun p =>
        ({ s with uwrrUserlist := l }, p)

/-- What `dependent_sleeper` reads of the runqueue of a sibling. -/
structure Sibling where
  curr : Task
  currIsIdle : Bool
  nrRunning : Int

/-- `t->time_slice * (100 - sd->per_cpu_gain) / 100`. -/
def sliceWithoutGain (t : Task) (perCpuGain : Nat) : Nat :=
  u32 (t.timeSlice * u32 (100 + 2 ^ 32 - u32 perCpuGain)) / 100

/-- The task `t` of one sibling keeps the task `p` of the other waiting. -/
def outweighs (t p : Task) (perCpuGain : Nat) : Bool :=
  (decide (taskTimeslice p < sliceWithoutGain t perCpuGain) || rtTask t) && p.hasMm && t.hasMm &&
    !rtTask p

/-- `dependent_sleeper`: whether the next task has to wait, and which siblings
are told to reschedule. `sharesPower` is `SD_SHARE_CPUPOWER` of the domain. -/
def dependentSleeper (s : State) (sharesPower : Bool) (perCpuGain : Nat) (siblings : List Sibling) :
    Option (Bool × State × List Bool) :=
  if !sharesPower || decide (s.nrRunning = 0) then some (false, s, siblings.map fun _ => false)
  else do
    let (s, p) ← dependentNext s
    some (siblings.any fun smt => outweighs smt.curr (s.task p) perCpuGain, s,
      siblings.map fun smt => outweighs (s.task p) smt.curr perCpuGain ||
        (smt.currIsIdle && decide (smt.nrRunning ≠ 0)))

/-! ## What the pickers rely on -/

structure PickInv (s : State) : Prop where
  runqueue : RunqueueOk s
  holds : Holds s.arrays (loc s.task)
  /-- The queues of an array are `queue[0]` to `queue[ MAX_PRIO - 1]`. -/
  range : ∀ p, Runnable s p → 0 ≤ (s.task p).prio ∧ (s.task p).prio < MAX_PRIO
  uwrrPrio : ∀ p, (s.task p).policy = .uwrr → Runnable s p → (s.task p).prio = UWRR_TASK_PRIO
  realtime : ∀ p, rtTask (s.task p) = true → Runnable s p →
    (s.task p).array = some s.activeArray
  nrRunning : 0 < s.nrRunning

/-- `p` is the first task of the first queue that is not empty. -/
def Heads (a : PrioArray) (p : TaskId) (k : Int) : Prop :=
  (∃ l, a.queue k = p :: l) ∧ ∀ j, j < k → a.queue j = []

theorem schedFindFirstBit_lowest {a : PrioArray} {j : Int} (hj : 0 ≤ j)
    (hlt : j < schedFindFirstBit a) (hmax : j < MAX_PRIO) : a.bitmap j = false := by
  rw [schedFindFirstBit] at hlt
  obtain ⟨n, rfl⟩ := Int.eq_ofNat_of_zero_le hj
  simp only [ MAX_PRIO] at hmax
  cases hfind : (List.range 140).find? (fun k : Nat => a.bitmap (k : Int)) with
  | none =>
      rw [List.find?_eq_none] at hfind
      exact Bool.eq_false_of_not_eq_true (hfind n (List.mem_range.mpr (by omega)))
  | some m =>
      rw [hfind] at hlt
      rw [List.find?_range_eq_some] at hfind
      have hnot := hfind.2.2 n (Int.ofNat_lt.mp hlt)
      simpa using hnot

section Pick

variable {s : State}

theorem PickInv.mem_queue (h : PickInv s) {r : ArrayRef} {k : Int} {p : TaskId} :
    p ∈ (s.arrays r).queue k ↔ (s.task p).array = some r ∧ (s.task p).prio = k := by
  rw [h.holds.mem, loc_eq_some]

theorem PickInv.runnable_of_mem (h : PickInv s) {r : ArrayRef} {k : Int} {p : TaskId}
    (hp : p ∈ (s.arrays r).queue k) : Runnable s p := by
  rw [Runnable, (h.mem_queue.mp hp).1]
  simp

/-- An array with `nr_active` 0 has only empty queues. -/
theorem PickInv.nrActive_eq_zero (h : PickInv s) (r : ArrayRef) :
    (s.arrays r).nrActive = 0 ↔ ∀ k, (s.arrays r).queue k = [] := by
  rw [h.holds.nrActive_eq_zero]
  constructor
  · intro hno k
    apply List.eq_nil_iff_forall_not_mem.mpr
    intro p hp
    exact hno p k ((h.holds.mem r k p).mp hp)
  · intro hnil p k hp
    have hmem := (h.holds.mem r k p).mpr hp
    rw [hnil k] at hmem
    cases hmem

theorem PickInv.nrActive_nonneg (h : PickInv s) (r : ArrayRef) : 0 ≤ (s.arrays r).nrActive := by
  rw [h.holds.nrActive]
  exact Int.natCast_nonneg _

/-- A task in a queue of the array: the bitmap leads to the first such queue. -/
theorem PickInv.firstBit (h : PickInv s) {r : ArrayRef} (hr : (s.arrays r).nrActive ≠ 0) :
    ∃ p, Heads (s.arrays r) p (schedFindFirstBit (s.arrays r)) ∧
      schedFindFirstBit (s.arrays r) < MAX_PRIO := by
  obtain ⟨k, hk⟩ : ∃ k, (s.arrays r).queue k ≠ [] := by
    by_contra hno
    push Not at hno
    exact hr ((h.nrActive_eq_zero r).mpr hno)
  have hrange : ∀ j, (s.arrays r).queue j ≠ [] → 0 ≤ j ∧ j < MAX_PRIO := by
    intro j hj
    obtain ⟨p, hp⟩ := List.exists_mem_of_ne_nil _ hj
    rw [← (h.mem_queue.mp hp).2]
    exact h.range p (h.runnable_of_mem hp)
  obtain ⟨hlt, hbit⟩ := schedFindFirstBit_spec (hrange k hk) ((h.holds.bitmap r k).mpr hk)
  obtain ⟨p, l, hl⟩ := List.exists_cons_of_ne_nil ((h.holds.bitmap r _).mp hbit)
  refine ⟨p, ⟨⟨l, hl⟩, fun j hj => ?_⟩, hlt⟩
  by_contra hne
  have hfalse := schedFindFirstBit_lowest (hrange j hne).1 hj (hrange j hne).2
  rw [(h.holds.bitmap r j).mpr hne] at hfalse
  cases hfalse

/-- The user array of a runnable UWRR task is not empty. -/
theorem PickInv.uwrrQueue (h : PickInv s) {p : TaskId} (hpol : (s.task p).policy = .uwrr)
    (hrun : Runnable s p) : 0 < (s.arrays (.user (s.task p).user)).nrActive := by
  have hne : (s.arrays (.user (s.task p).user)).nrActive ≠ 0 := by
    intro hzero
    have hmem := h.mem_queue.mpr ⟨h.runqueue.array p hpol hrun, rfl⟩
    rw [(h.nrActive_eq_zero _).mp hzero] at hmem
    cases hmem
  have hnn := h.nrActive_nonneg (.user (s.task p).user)
  omega

/-- The array of a user holds UWRR tasks only, as `nr_active` counts no others. -/
theorem PickInv.inUserArray (h : PickInv s) {u : UserId} {p : TaskId}
    (hp : (s.task p).array = some (.user u)) : (s.task p).policy = .uwrr := by
  have hsub : {q | Runnable s q ∧ (s.task q).policy = .uwrr ∧ (s.task q).user = u} ⊆
      items (loc s.task) (fun b => b.1 = .user u) := by
    rintro q ⟨hrun, hpol, rfl⟩
    exact ⟨_, loc_eq_some.mpr ⟨h.runqueue.array q hpol hrun, rfl⟩, rfl⟩
  have hcard : (items (loc s.task) (fun b => b.1 = .user u)).ncard ≤
      {q | Runnable s q ∧ (s.task q).policy = .uwrr ∧ (s.task q).user = u}.ncard := by
    have hnr := h.holds.nrActive (.user u)
    rw [h.runqueue.nrActive u, count] at hnr
    omega
  have heq := Set.eq_of_subset_of_ncard_le hsub hcard (h.holds.finitary.items _)
  have hmem : p ∈ items (loc s.task) (fun b => b.1 = .user u) :=
    ⟨_, loc_eq_some.mpr ⟨hp, rfl⟩, rfl⟩
  rw [← heq] at hmem
  exact hmem.2.1

theorem PickInv.finite_support (h : PickInv s) :
    (Function.support fun u => (s.arrays (.user u)).nrActive).Finite := by
  refine Set.Finite.subset s.uwrrUserlist.toFinset.finite_toSet fun u hu => ?_
  have hpos : 0 < (s.arrays (.user u)).nrActive :=
    lt_of_le_of_ne (h.nrActive_nonneg _) (Ne.symm hu)
  have hcount := h.runqueue.linked u
  rw [if_pos hpos] at hcount
  simpa using List.count_pos_iff.mp (by omega)

/-- A UWRR task is runnable exactly when the counter says so. -/
theorem PickInv.uwrrRunning_pos (h : PickInv s) :
    (∃ p, Runnable s p ∧ (s.task p).policy = .uwrr) ↔ 0 < s.uwrrRunning := by
  rw [h.runqueue.uwrrRunning]
  constructor
  · rintro ⟨p, hrun, hpol⟩
    have hle := single_le_finsum (s.task p).user h.finite_support
      fun u => h.nrActive_nonneg (.user u)
    exact lt_of_lt_of_le (h.uwrrQueue hpol hrun) hle
  · intro hpos
    by_contra hno
    push Not at hno
    have hzero : ∀ u, (s.arrays (.user u)).nrActive = 0 := by
      intro u
      rw [h.nrActive_eq_zero]
      intro k
      apply List.eq_nil_iff_forall_not_mem.mpr
      intro p hp
      exact hno p (h.runnable_of_mem hp) (h.inUserArray (h.mem_queue.mp hp).1)
    rw [finsum_eq_zero_of_forall_eq_zero hzero] at hpos
    exact lt_irrefl _ hpos

theorem PickInv.uwrrRunning_nonneg (h : PickInv s) : 0 ≤ s.uwrrRunning := by
  rw [h.runqueue.uwrrRunning]
  exact finsum_nonneg fun u => h.nrActive_nonneg (.user u)

/-- The first user has a task, in the one queue that is used. -/
theorem PickInv.firstUser (h : PickInv s) (hpos : 0 < s.uwrrRunning) :
    ∃ u us p l, s.uwrrUserlist = u :: us ∧
      pickUser s s.uwrrUserlist = some (u, s.uwrrUserlist) ∧
      (s.arrays (.user u)).queue UWRR_TASK_PRIO = p :: l := by
  obtain ⟨q, hrun, hpol⟩ := h.uwrrRunning_pos.mpr hpos
  have hcount := h.runqueue.linked (s.task q).user
  rw [if_pos (h.uwrrQueue hpol hrun)] at hcount
  have hmem : (s.task q).user ∈ s.uwrrUserlist := List.count_pos_iff.mp (by omega)
  cases hlist : s.uwrrUserlist with
  | nil =>
      rw [hlist] at hmem
      cases hmem
  | cons u us =>
      have hlinked := h.runqueue.linked u
      rw [hlist, List.count_cons_self] at hlinked
      have hactive : 0 < (s.arrays (.user u)).nrActive := by
        by_contra hno
        rw [if_neg hno] at hlinked
        omega
      have hne : (s.arrays (.user u)).nrActive ≠ 0 := ne_of_gt hactive
      -- the task that makes the array non-empty is in queue 120
      obtain ⟨p, ⟨⟨l, hl⟩, -⟩, -⟩ := h.firstBit hne
      have hp : p ∈ (s.arrays (.user u)).queue (schedFindFirstBit (s.arrays (.user u))) := by
        rw [hl]
        exact List.mem_cons_self
      obtain ⟨harray, hprio⟩ := h.mem_queue.mp hp
      rw [h.uwrrPrio p (h.inUserArray harray) (h.runnable_of_mem hp)] at hprio
      rw [← hprio] at hl
      exact ⟨u, us, p, l, rfl, by rw [pickUser, if_neg hne], hl⟩

/-- A real-time task is runnable exactly when the bitmap of the active array
shows a queue below `MAX_RT_PRIO`. -/
theorem PickInv.realtime_iff (h : PickInv s) :
    (∃ p, Runnable s p ∧ rtTask (s.task p) = true) ↔
      (s.arrays s.activeArray).nrActive ≠ 0 ∧
        schedFindFirstBit (s.arrays s.activeArray) < MAX_RT_PRIO := by
  constructor
  · rintro ⟨p, hrun, hrt⟩
    have hmem := h.mem_queue.mpr ⟨h.realtime p hrt hrun, rfl⟩
    have hne : (s.arrays s.activeArray).nrActive ≠ 0 := by
      intro hzero
      rw [(h.nrActive_eq_zero _).mp hzero] at hmem
      cases hmem
    obtain ⟨q, ⟨-, hlow⟩, -⟩ := h.firstBit hne
    refine ⟨hne, ?_⟩
    have hle : schedFindFirstBit (s.arrays s.activeArray) ≤ (s.task p).prio := by
      by_contra hlt
      rw [hlow _ (not_le.mp hlt)] at hmem
      cases hmem
    exact lt_of_le_of_lt hle (of_decide_eq_true hrt)
  · rintro ⟨hne, hlt⟩
    obtain ⟨p, ⟨⟨l, hl⟩, -⟩, -⟩ := h.firstBit hne
    have hp : p ∈ (s.arrays s.activeArray).queue (schedFindFirstBit (s.arrays s.activeArray)) := by
      rw [hl]
      exact List.mem_cons_self
    refine ⟨p, h.runnable_of_mem hp, decide_eq_true ?_⟩
    rw [(h.mem_queue.mp hp).2]
    exact hlt

/-! ## The three classes -/

theorem dependentArray_active
    (h : ¬ ((s.arrays s.activeArray).nrActive = 0 ∧ s.uwrrRunning = 0)) :
    dependentArray s = s.activeArray := if_neg h

/-- A real-time task: both pickers stay in the active array. -/
theorem PickInv.pick_realtime (h : PickInv s)
    (hrt : ∃ p, Runnable s p ∧ rtTask (s.task p) = true) :
    ∃ p k l, k < MAX_RT_PRIO ∧ Heads (s.arrays s.activeArray) p k ∧ swapArrays s = s ∧
      pickQueue s = some (s, p :: l) ∧ dependentNext s = some (s, p) := by
  obtain ⟨hne, hlt⟩ := h.realtime_iff.mp hrt
  obtain ⟨p, hheads, hmax⟩ := h.firstBit hne
  obtain ⟨l, hl⟩ := hheads.1
  refine ⟨p, _, l, hlt, hheads, ?_, ?_, ?_⟩
  · rw [swapArrays, if_neg fun e => hne e.1]
  · rw [pickQueue]
    dsimp only
    rw [if_pos hne, if_neg fun e => absurd e.1 (not_le.mpr hlt), if_neg (ne_of_lt hmax), hl]
  · rw [dependentNext, dependentArray_active fun e => hne e.1]
    dsimp only
    rw [if_neg fun e => hne e.1, if_pos hne, if_pos (Or.inl hlt), if_neg (ne_of_lt hmax), hl]
    rfl

/-- No real-time task but a UWRR task: both take the first user. -/
theorem PickInv.pick_uwrr (h : PickInv s)
    (hrt : ¬ ∃ p, Runnable s p ∧ rtTask (s.task p) = true) (hpos : 0 < s.uwrrRunning) :
    ∃ u us p l, s.uwrrUserlist = u :: us ∧
      (s.arrays (.user u)).queue UWRR_TASK_PRIO = p :: l ∧ swapArrays s = s ∧
      pickQueue s = some (s, p :: l) ∧ dependentNext s = some (s, p) := by
  obtain ⟨u, us, p, l, hlist, hpick, hl⟩ := h.firstUser hpos
  have hne : s.uwrrRunning ≠ 0 := ne_of_gt hpos
  have hidx : MAX_RT_PRIO ≤ (if (s.arrays s.activeArray).nrActive ≠ 0 then
      schedFindFirstBit (s.arrays s.activeArray) else MAX_PRIO) := by
    by_contra hlt
    rw [not_le] at hlt
    by_cases hact : (s.arrays s.activeArray).nrActive ≠ 0
    · rw [if_pos hact] at hlt
      exact hrt (h.realtime_iff.mpr ⟨hact, hlt⟩)
    · rw [if_neg hact] at hlt
      exact absurd hlt (by decide)
  refine ⟨u, us, p, l, hlist, hl, ?_, ?_, ?_⟩
  · rw [swapArrays, if_neg fun e => hne e.2]
  · rw [pickQueue]
    dsimp only
    rw [if_pos ⟨hidx, hpos⟩, hpick]
    show some (s, (s.arrays (.user u)).queue UWRR_TASK_PRIO) = _
    rw [hl]
  · rw [dependentNext, dependentArray_active fun e => hne e.2]
    dsimp only
    rw [if_neg fun e => hne e.2, if_neg (not_or.mpr ⟨not_lt.mpr hidx, hne⟩), hpick]
    show ((s.arrays (.user u)).queue UWRR_TASK_PRIO).head?.map (fun p => (s, p)) = _
    rw [hl]
    rfl

theorem PickInv.expired_nonempty (h : PickInv s) (huwrr : s.uwrrRunning = 0)
    (hact : (s.arrays s.activeArray).nrActive = 0) : (s.arrays s.expiredArray).nrActive ≠ 0 := by
  have hrun := h.runqueue.nrRunning
  have hpos := h.nrRunning
  omega

/-- Neither: both take the first queue of the array that is active after the
switch. -/
theorem PickInv.pick_normal (h : PickInv s) (huwrr : s.uwrrRunning = 0) :
    ∃ p k l, Heads ((swapArrays s).arrays (swapArrays s).activeArray) p k ∧
      ((swapArrays s).active ≠ s.active ↔ (s.arrays s.activeArray).nrActive = 0) ∧
      pickQueue (swapArrays s) = some (swapArrays s, p :: l) ∧ dependentNext s = some (s, p) := by
  -- the array both look at
  have hfinish : ∀ r, (swapArrays s).activeArray = r → (swapArrays s).arrays r = s.arrays r →
      (s.arrays r).nrActive ≠ 0 → (swapArrays s).uwrrRunning = 0 →
      dependentArray s = r →
      ∃ p k l, Heads ((swapArrays s).arrays r) p k ∧
        pickQueue (swapArrays s) = some (swapArrays s, p :: l) ∧ dependentNext s = some (s, p) := by
    intro r hactive harrays hne hzero hr
    obtain ⟨p, hheads, hmax⟩ := h.firstBit hne
    obtain ⟨l, hl⟩ := hheads.1
    refine ⟨p, _, l, by rw [harrays]; exact hheads, ?_, ?_⟩
    · rw [pickQueue, hactive, harrays]
      dsimp only
      rw [if_pos hne, if_neg fun e => absurd hzero (ne_of_gt e.2), if_neg (ne_of_lt hmax), hl]
    · rw [dependentNext, hr]
      dsimp only
      rw [if_neg fun e => hne e.1, if_pos hne, if_pos (Or.inr huwrr), if_neg (ne_of_lt hmax), hl]
      rfl
  by_cases hact : (s.arrays s.activeArray).nrActive = 0
  · have hswap : swapArrays s =
        { s with active := !s.active, expiredTimestamp := 0, bestExpiredPrio := MAX_PRIO } := by
      rw [swapArrays, if_pos ⟨hact, huwrr⟩]
    have hnew : (swapArrays s).activeArray = s.expiredArray := by rw [hswap]; rfl
    obtain ⟨p, k, l, hheads, hpick, hdep⟩ := hfinish s.expiredArray hnew (by rw [hswap])
      (h.expired_nonempty huwrr hact) (by rw [hswap]; exact huwrr) (if_pos ⟨hact, huwrr⟩)
    refine ⟨p, k, l, by rw [hnew]; exact hheads, ⟨fun _ => hact, fun _ => ?_⟩, hpick, hdep⟩
    rw [hswap]
    simp
  · have hswap : swapArrays s = s := by rw [swapArrays, if_neg fun e => hact e.1]
    obtain ⟨p, k, l, hheads, hpick, hdep⟩ := hfinish s.activeArray (by rw [hswap]) (by rw [hswap])
      hact (by rw [hswap]; exact huwrr) (if_neg fun e => hact e.1)
    refine ⟨p, k, l, by rw [hswap] at hheads ⊢; exact hheads, ?_, hpick, hdep⟩
    rw [hswap]
    exact ⟨fun e => absurd rfl e, fun e => absurd e hact⟩

/-! ## `schedule` -/

theorem switchTasks_curr (s : State) (next : TaskId) (now run : Nat) :
    (switchTasks s next now run).curr = next := by
  rw [switchTasks]
  dsimp only
  split
  · rfl
  · rename_i heq
    exact not_not.mp heq

theorem creditNext_isSome {p : TaskId} (hp : (s.task p).array ≠ none) (now : Nat) :
    ∃ s', creditNext s p now = some s' := by
  rw [creditNext]
  dsimp only
  split
  · rcases array_cases (s.task p) with hnone | ⟨r, hr⟩
    · exact absurd hnone hp
    · rw [hr]
      exact ⟨_, rfl⟩
  · exact ⟨s, rfl⟩

/-- What is picked is what runs next. -/
theorem schedule_of_pick {t : State} {preemptActive signalPending : Bool}
    (hput : putPrev t preemptActive signalPending = some s) (hrun : s.nrRunning ≠ 0) {p : TaskId}
    {l : List TaskId} (hpick : pickQueue (swapArrays s) = some (swapArrays s, p :: l))
    (hp : ((swapArrays s).task p).array ≠ none) (now : Nat) :
    ∃ s', schedule t now preemptActive signalPending = some s' ∧ s'.curr = p := by
  obtain ⟨s₁, hs₁⟩ := creditNext_isSome hp now
  rw [schedule]
  dsimp only
  rw [hput]
  simp only [Option.bind_eq_bind, Option.bind_some]
  rw [if_neg hrun, hpick]
  simp only [Option.bind_some, hs₁]
  exact ⟨_, rfl, switchTasks_curr _ p now _⟩

theorem swapArrays_arrays (s : State) : (swapArrays s).arrays = s.arrays := by
  rw [swapArrays]
  split
  · rfl
  · rfl

theorem dependentSleeper_of_next {p : TaskId} (hrun : s.nrRunning ≠ 0)
    (hnext : dependentNext s = some (s, p)) (perCpuGain : Nat) (siblings : List Sibling) :
    ∃ resched, dependentSleeper s true perCpuGain siblings =
      some (siblings.any fun smt => outweighs smt.curr (s.task p) perCpuGain, s, resched) := by
  rw [dependentSleeper, decide_eq_false hrun, hnext]
  exact ⟨_, rfl⟩

end Pick

/-- **Class order and agreement of the two pickers.** In every state that
satisfies `PickInv` there is one task `p` that both pick, `schedule` after it has
dealt with the previous task and `dependent_sleeper` on the same state, and
neither gets to the index `MAX_PRIO` or to an empty queue:

* with a real-time task runnable, `p` heads the lowest real-time queue;
* otherwise, with a UWRR task runnable, `p` is the first task of the first user of
  `uwrr_userlist`, and the arrays stay as they are;
* otherwise `p` heads the lowest queue of the active array, the arrays having been
  switched exactly when the active one was empty. -/
theorem pick_class_order (s : State) (h : PickInv s) :
    ∃ p,
      (∃ l, pickQueue (swapArrays s) = some (swapArrays s, p :: l)) ∧
      dependentNext s = some (s, p) ∧
      (∀ t now preemptActive signalPending, putPrev t preemptActive signalPending = some s →
        ∃ s', schedule t now preemptActive signalPending = some s' ∧ s'.curr = p) ∧
      (∀ perCpuGain siblings, ∃ resched, dependentSleeper s true perCpuGain siblings =
        some (siblings.any fun smt => outweighs smt.curr (s.task p) perCpuGain, s, resched)) ∧
      ((∃ q, Runnable s q ∧ rtTask (s.task q) = true) →
        swapArrays s = s ∧ ∃ k, k < MAX_RT_PRIO ∧ Heads (s.arrays s.activeArray) p k) ∧
      ((¬ ∃ q, Runnable s q ∧ rtTask (s.task q) = true) →
        (∃ q, Runnable s q ∧ (s.task q).policy = .uwrr) →
        swapArrays s = s ∧ ∃ u us l, s.uwrrUserlist = u :: us ∧
          (s.arrays (.user u)).queue UWRR_TASK_PRIO = p :: l) ∧
      ((¬ ∃ q, Runnable s q ∧ rtTask (s.task q) = true) →
        (¬ ∃ q, Runnable s q ∧ (s.task q).policy = .uwrr) →
        (∃ k, Heads ((swapArrays s).arrays (swapArrays s).activeArray) p k) ∧
        ((swapArrays s).active ≠ s.active ↔ ∀ k, (s.arrays s.activeArray).queue k = [])) := by
  have hrun : s.nrRunning ≠ 0 := ne_of_gt h.nrRunning
  -- a queued task is what `schedule` switches to
  have hswitch : ∀ (r : ArrayRef) (k : Int) (p : TaskId) (l : List TaskId),
      p ∈ (s.arrays r).queue k → pickQueue (swapArrays s) = some (swapArrays s, p :: l) →
      ∀ t now preemptActive signalPending, putPrev t preemptActive signalPending = some s →
        ∃ s', schedule t now preemptActive signalPending = some s' ∧ s'.curr = p := by
    intro r k p l hp hpick t now preemptActive signalPending hput
    refine schedule_of_pick hput hrun hpick ?_ now
    rw [swapArrays_task]
    exact h.runnable_of_mem hp
  by_cases hrt : ∃ q, Runnable s q ∧ rtTask (s.task q) = true
  · obtain ⟨p, k, l, hk, hheads, hswap, hpick, hnext⟩ := h.pick_realtime hrt
    obtain ⟨l', hl'⟩ := hheads.1
    refine ⟨p, ⟨l, by rw [hswap]; exact hpick⟩, hnext, ?_, dependentSleeper_of_next hrun hnext,
      fun _ => ⟨hswap, k, hk, hheads⟩, fun e => absurd hrt e, fun e => absurd hrt e⟩
    refine hswitch s.activeArray k p l (by rw [hl']; exact List.mem_cons_self) ?_
    rw [hswap]
    exact hpick
  · by_cases huwrr : ∃ q, Runnable s q ∧ (s.task q).policy = .uwrr
    · obtain ⟨u, us, p, l, hlist, hqueue, hswap, hpick, hnext⟩ :=
        h.pick_uwrr hrt (h.uwrrRunning_pos.mp huwrr)
      refine ⟨p, ⟨l, by rw [hswap]; exact hpick⟩, hnext, ?_, dependentSleeper_of_next hrun hnext,
        fun e => absurd e hrt, fun _ _ => ⟨hswap, u, us, l, hlist, hqueue⟩,
        fun _ e => absurd huwrr e⟩
      refine hswitch (.user u) UWRR_TASK_PRIO p l (by rw [hqueue]; exact List.mem_cons_self) ?_
      rw [hswap]
      exact hpick
    · have hzero : s.uwrrRunning = 0 := by
        have hnn := h.uwrrRunning_nonneg
        have hnot := mt h.uwrrRunning_pos.mpr huwrr
        omega
      obtain ⟨p, k, l, hheads, hswap, hpick, hnext⟩ := h.pick_normal hzero
      obtain ⟨l', hl'⟩ := hheads.1
      have hactive := hswap.trans (h.nrActive_eq_zero _)
      refine ⟨p, ⟨l, hpick⟩, hnext, ?_, dependentSleeper_of_next hrun hnext,
        fun e => absurd e hrt, fun _ e => absurd e huwrr, fun _ _ => ⟨⟨k, hheads⟩, hactive⟩⟩
      refine hswitch (swapArrays s).activeArray k p l ?_ hpick
      rw [← swapArrays_arrays, hl']
      exact List.mem_cons_self

/-- Every reachable state that has its real-time tasks in the active array and a
task to run. -/
theorem Core.pickInv {s : State} (h : Core s)
    (hrt : ∀ p, rtTask (s.task p) = true → Runnable s p →
      (s.task p).array = some s.activeArray) (hrun : 0 < s.nrRunning) : PickInv s where
  runqueue := h.runqueueOk
  holds := h.holds
  range := fun p hp => ⟨(h.tasks.ok p).prio, (h.tasks.ok p).queued hp⟩
  uwrrPrio := fun p hpol _ => ((h.tasks.ok p).uwrr hpol).1
  realtime := hrt
  nrRunning := hrun

/-- Before task 1 becomes a UWRR task, the idle task forks another child, which stays
a normal one and gets the best nice value. -/
def mixedRun : State :=
  [.fork 2 0 0, .wakeUpNew 2 true, .setUserNice 2 (-20),
    .setscheduler 1 (some .uwrr) 1 true true 0].foldl State.after wokenRun

theorem mixedRun_reach : system.Reach PrioSafe mixedRun := by
  have h₁ := reach_safe wokenRun_reach (.fork 2 0 0) ⟨by decide, by decide⟩ trivial
  have h₂ := reach_safe h₁ (.wakeUpNew 2 true) rfl (fun e => by cases e)
  have hnormal : ((((wokenRun.after (.fork 2 0 0)).after (.wakeUpNew 2 true)).task 2).policy) ≠
      .uwrr := by decide +kernel
  have h₃ := reach_safe h₂ (.setUserNice 2 (-20)) ⟨by decide +kernel, by decide⟩
    (fun e => absurd e hnormal)
  exact reach_safe h₃ (.setscheduler 1 (some .uwrr) 1 true true 0)
    ⟨by decide +kernel, by decide⟩ trivial

theorem mixedRun_runnable {p : TaskId} (hrun : Runnable mixedRun p) : p = 1 ∨ p = 2 := by
  obtain ⟨hcore, -⟩ := inv_reach mixedRun_reach
  have hcreated : mixedRun.created p = true := hcore.tasks.known p (Or.inl hrun)
  have hall : mixedRun.created =
      Function.update (Function.update (fun q => decide (q = idle)) 1 true) 2 true := rfl
  by_contra hnot
  rw [hall, Function.update_of_ne (fun e => hnot (Or.inr e)),
    Function.update_of_ne (fun e => hnot (Or.inl e))] at hcreated
  rw [of_decide_eq_true hcreated] at hrun
  exact hrun (hcore.tasks.reserved idle (Or.inl rfl)).1

theorem mixedRun_notRt {p : TaskId} (hrun : Runnable mixedRun p) :
    rtTask (mixedRun.task p) = false := by
  rcases mixedRun_runnable hrun with rfl | rfl
  · decide +kernel
  · decide +kernel

theorem mixedRun_pickInv : PickInv mixedRun := by
  obtain ⟨hcore, -⟩ := inv_reach mixedRun_reach
  refine hcore.pickInv (fun p hrt hrun => ?_) (by decide +kernel)
  exact absurd hrt (by rw [mixedRun_notRt hrun]; decide)

/-- Both pick the UWRR task, although a normal one of a better priority is runnable. -/
theorem mixedRun_picked : dependentNext mixedRun = some (mixedRun, 1) ∧
    (mixedRun.arrays mixedRun.activeArray).queue 100 = [2] := by
  obtain ⟨p, -, hnext, -, -, -, huwrr, -⟩ := pick_class_order mixedRun mixedRun_pickInv
  have hlist : mixedRun.uwrrUserlist = [rootUser] := by decide +kernel
  have hnort : ¬ ∃ q, Runnable mixedRun q ∧ rtTask (mixedRun.task q) = true := by
    rintro ⟨q, hrun, hrt⟩
    exact absurd hrt (by rw [mixedRun_notRt hrun]; decide)
  have hrun : (mixedRun.task 1).array ≠ none := by decide +kernel
  obtain ⟨-, u, us, l, hus, hqueue⟩ := huwrr hnort ⟨1, hrun, by decide +kernel⟩
  have hu : u = rootUser := by
    rw [hlist] at hus
    exact (List.cons.inj hus).1.symm
  have hone : (mixedRun.arrays (.user rootUser)).queue UWRR_TASK_PRIO = [1] := by
    decide +kernel
  rw [hu, hone] at hqueue
  rw [(List.cons.inj hqueue).1]
  exact ⟨hnext, by decide +kernel⟩

end LinuxHacks.Uwrr
