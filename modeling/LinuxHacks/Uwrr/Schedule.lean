import LinuxHacks.Uwrr.Operations

/-!
# `schedule` keeps the invariant

`schedule` takes the next task from a queue that is not empty: the bitmap of
the active array says which, or the first user of `uwrr_userlist` has a task of
priority `UWRR_TASK_PRIO`. That is why neither its `BUG_ON` on an empty list nor
the use of a list head as a task can happen.
-/

namespace LinuxHacks.Uwrr

open LinuxHacks.Lib
open LinuxHacks.Lib.Placement

/-! ## The previous task -/

theorem Core.putPrev {s : State} (h : Core s) (hb : Busy s) (preemptActive signalPending : Bool) :
    ∃ s', putPrev s preemptActive signalPending = some s' ∧ Core s' ∧ s'.curr = s.curr := by
  rw [Uwrr.putPrev]
  split
  · exact ⟨s, rfl, h, rfl⟩
  · rename_i hrun
    have hne : (s.task s.curr).state ≠ .running := by
      intro e
      simp [e] at hrun
    have hidle : s.curr ≠ idle := by
      intro e
      rw [e] at hne
      exact hne (h.tasks.reserved idle (Or.inl rfl)).2
    obtain ⟨r, hr⟩ := hb.array hidle
    have hok := h.tasks.ok s.curr
    split
    · exact ⟨_, rfl, h.modTask s.curr _ rfl (fun _ => rfl) rfl
        ⟨hok.uwrr, hok.static, hok.prio, hok.queued, hok.home⟩ (fun _ => rfl)
        (fun e => absurd e hidle), rfl⟩
    · set m : State := if (s.task s.curr).state = .uninterruptible then
        { s with nrUninterruptible := s.nrUninterruptible + 1 } else s with hm
      have hcore : Core m := by
        rw [hm]
        split
        · exact ⟨h.holds, h.counts, h.linked, h.tasks, h.refs, h.bug⟩
        · exact h
      have htask : m.task = s.task := by
        rw [hm]
        split
        · rfl
        · rfl
      have hcurr : m.curr = s.curr := by
        rw [hm]
        split
        · rfl
        · rfl
      have hmr : (m.task s.curr).array = some r := by
        rw [htask]
        exact hr
      obtain ⟨s', hs', hd⟩ := deactivateTask_eq hmr
      exact ⟨s', hs', hcore.deactivate hmr hd, hd.curr.trans hcurr⟩

/-! ## The next task -/

theorem schedFindFirstBit_spec {a : PrioArray} {k : Int} (hk : 0 ≤ k ∧ k < MAX_PRIO)
    (hbit : a.bitmap k = true) :
    schedFindFirstBit a < MAX_PRIO ∧ a.bitmap (schedFindFirstBit a) = true := by
  rw [schedFindFirstBit]
  cases hfind : (List.range 140).find? (fun k : Nat => a.bitmap (k : Int)) with
  | none =>
      rw [List.find?_eq_none] at hfind
      simp only [ MAX_PRIO] at hk
      obtain ⟨n, rfl⟩ := Int.eq_ofNat_of_zero_le hk.1
      exact absurd hbit (hfind n (List.mem_range.mpr (by omega)))
  | some n =>
      have hlt := List.mem_range.mp (List.mem_of_find?_eq_some hfind)
      have hbit : a.bitmap (n : Int) = true :=
        List.find?_some (p := fun k : Nat => a.bitmap (k : Int)) hfind
      refine ⟨?_, hbit⟩
      simp only [ MAX_PRIO]
      omega

theorem Core.firstBit {s : State} (h : Core s) {r : ArrayRef} (hr : (s.arrays r).nrActive ≠ 0) :
    schedFindFirstBit (s.arrays r) < MAX_PRIO ∧
      (s.arrays r).queue (schedFindFirstBit (s.arrays r)) ≠ [] := by
  rw [ne_eq, h.holds.nrActive_eq_zero] at hr
  push Not at hr
  obtain ⟨p, k, hp⟩ := hr
  obtain ⟨harray, hprio⟩ := loc_eq_some.mp hp
  have hok := h.tasks.ok p
  have hbit : (s.arrays r).bitmap k = true :=
    (h.holds.bitmap r k).mpr (List.ne_nil_of_mem ((h.holds.mem r k p).mpr hp))
  have hk : 0 ≤ k ∧ k < MAX_PRIO := by
    rw [← hprio]
    exact ⟨hok.prio, hok.queued (by rw [harray]; simp)⟩
  obtain ⟨hlt, hfirst⟩ := schedFindFirstBit_spec hk hbit
  exact ⟨hlt, (h.holds.bitmap r _).mp hfirst⟩

/-- A user with a task has one of priority `UWRR_TASK_PRIO`, and the array that
says so is not empty. -/
theorem Core.occupied_queue {s : State} (h : Core s) {u : UserId}
    (hu : Occupied (loc s.task) u) :
    (s.arrays (.user u)).nrActive ≠ 0 ∧ (s.arrays (.user u)).queue UWRR_TASK_PRIO ≠ [] := by
  obtain ⟨p, k, hp⟩ := hu
  obtain ⟨harray, hprio⟩ := loc_eq_some.mp hp
  refine ⟨fun hzero => h.holds.nrActive_eq_zero.mp hzero p k hp, ?_⟩
  have hpol : (s.task p).policy = .uwrr := by
    rcases (h.tasks.ok p).home _ harray with ⟨hpol, _⟩ | ⟨_, i, hi⟩
    · exact hpol
    · cases hi
  rw [← ((h.tasks.ok p).uwrr hpol).1, hprio]
  exact List.ne_nil_of_mem ((h.holds.mem _ _ p).mpr hp)

theorem Core.occupied {s : State} (h : Core s) (hrun : s.uwrrRunning ≠ 0) :
    ∃ u, Occupied (loc s.task) u := by
  have hpos : 0 < count (loc s.task) (fun b => b.1.isUser) := by
    have hcount := h.counts.uwrrRunning
    omega
  obtain ⟨p, ⟨r, k⟩, hp, hr⟩ := (count_pos_iff h.holds.finitary).mp hpos
  cases r with
  | rq i => exact hr.elim
  | user v => exact ⟨v, p, k, hp⟩

/-- **The list of users is not empty when UWRR tasks run**, and its first user
has a task. -/
theorem Core.pickUser {s : State} (h : Core s) (hrun : s.uwrrRunning ≠ 0) :
    ∃ u, pickUser s s.uwrrUserlist = some (u, s.uwrrUserlist) ∧
      (s.arrays (.user u)).queue UWRR_TASK_PRIO ≠ [] := by
  obtain ⟨v, hocc⟩ := h.occupied hrun
  have hv : v ∈ s.uwrrUserlist := (h.linked.mem v).mpr hocc
  cases hlist : s.uwrrUserlist with
  | nil =>
      rw [hlist] at hv
      cases hv
  | cons u l =>
      have hu : Occupied (loc s.task) u := (h.linked.mem u).mp (by rw [hlist]; exact List.mem_cons_self)
      obtain ⟨hnr, hqueue⟩ := h.occupied_queue hu
      exact ⟨u, by rw [Uwrr.pickUser, if_neg hnr], hqueue⟩

theorem Core.swapArrays {s : State} (h : Core s) (hrun : s.nrRunning ≠ 0) :
    Core (swapArrays s) ∧ Stays s (swapArrays s) ∧
      (((swapArrays s).arrays (swapArrays s).activeArray).nrActive ≠ 0 ∨
        (swapArrays s).uwrrRunning ≠ 0) := by
  rw [Uwrr.swapArrays]
  split
  · rename_i hempty
    obtain ⟨hactive, huwrr⟩ := hempty
    refine ⟨⟨h.holds, h.counts, h.linked, h.tasks, h.refs, h.bug⟩, ⟨rfl, fun _ => id⟩, Or.inl ?_⟩
    -- the tasks can only be in the other array
    intro hexpired
    have hpos : 0 < count (loc s.task) (fun _ => True) := by
      have hcount := h.counts.nrRunning
      omega
    obtain ⟨p, ⟨r, k⟩, hp, _⟩ := (count_pos_iff h.holds.finitary).mp hpos
    cases r with
    | user u =>
        have hpos' : 0 < count (loc s.task) (fun b => b.1.isUser) :=
          (count_pos_iff h.holds.finitary).mpr ⟨p, _, hp, trivial⟩
        have hcount := h.counts.uwrrRunning
        omega
    | rq i =>
        by_cases hi : i = s.active
        · rw [hi] at hp
          exact h.holds.nrActive_eq_zero.mp hactive p k hp
        · have hi' : i = !s.active := by
            rw [Bool.eq_not]
            exact hi
          rw [hi'] at hp
          exact h.holds.nrActive_eq_zero.mp hexpired p k hp
  · rename_i hno
    refine ⟨h, Stays.refl s, ?_⟩
    by_contra hboth
    rw [not_or, not_not, not_not] at hboth
    exact hno hboth

theorem swapArrays_task (s : State) : (swapArrays s).task = s.task := by
  rw [swapArrays]
  split
  · rfl
  · rfl

/-- `schedule` looks for the next task without changing one. -/
theorem pickQueue_task {s s' : State} {l : List TaskId} (h : pickQueue s = some (s', l)) :
    s'.task = s.task := by
  rw [pickQueue] at h
  dsimp only at h
  generalize (if (s.arrays s.activeArray).nrActive ≠ 0 then
    schedFindFirstBit (s.arrays s.activeArray) else MAX_PRIO) = idx at h
  split at h
  · obtain ⟨⟨u, us⟩, -, h⟩ := Option.bind_eq_some_iff.mp h
    obtain ⟨rfl, -⟩ := Prod.mk.inj (Option.some.inj h)
    rfl
  · split at h
    · cases h
    · obtain ⟨rfl, -⟩ := Prod.mk.inj (Option.some.inj h)
      rfl

theorem Core.queued_of_mem {s : State} (h : Core s) {r : ArrayRef} {k : Int} {p : TaskId}
    (hp : p ∈ (s.arrays r).queue k) : (s.task p).array ≠ none := by
  rw [(loc_eq_some.mp ((h.holds.mem r k p).mp hp)).1]
  simp

/-- There is a task to run. -/
theorem Core.pickQueue {s : State} (h : Core s)
    (hready : (s.arrays s.activeArray).nrActive ≠ 0 ∨ s.uwrrRunning ≠ 0) :
    ∃ s' p l, pickQueue s = some (s', p :: l) ∧ Core s' ∧ Stays s s' ∧
      (s'.task p).array ≠ none := by
  -- a queue of `s` that is not empty
  have hfinish : ∀ (r : ArrayRef) (k : Int), (s.arrays r).queue k ≠ [] →
      Uwrr.pickQueue s = some (s, (s.arrays r).queue k) →
      ∃ s' p l, Uwrr.pickQueue s = some (s', p :: l) ∧ Core s' ∧ Stays s s' ∧
        (s'.task p).array ≠ none := by
    intro r k hne hpick
    obtain ⟨p, l, hl⟩ := List.exists_cons_of_ne_nil hne
    refine ⟨s, p, l, by rw [hpick, hl], h, Stays.refl s, h.queued_of_mem (r := r) (k := k) ?_⟩
    rw [hl]
    exact List.mem_cons_self
  set idx := if (s.arrays s.activeArray).nrActive ≠ 0 then
    schedFindFirstBit (s.arrays s.activeArray) else MAX_PRIO with hidx
  by_cases hbranch : MAX_RT_PRIO ≤ idx ∧ 0 < s.uwrrRunning
  · obtain ⟨u, hpick, hqueue⟩ := h.pickUser (by omega)
    refine hfinish (.user u) UWRR_TASK_PRIO hqueue ?_
    rw [Uwrr.pickQueue]
    dsimp only
    rw [if_pos hbranch, hpick]
    rfl
  · have hactive : (s.arrays s.activeArray).nrActive ≠ 0 := by
      intro hzero
      have huwrr := hready.resolve_left (fun e => e hzero)
      have hcount := h.counts.uwrrRunning
      refine hbranch ⟨?_, by omega⟩
      rw [hidx, if_neg (fun e => e hzero)]
      decide
    have hidx' : idx = schedFindFirstBit (s.arrays s.activeArray) := if_pos hactive
    obtain ⟨hlt, hqueue⟩ := h.firstBit hactive
    rw [← hidx'] at hlt hqueue
    refine hfinish s.activeArray idx hqueue ?_
    rw [Uwrr.pickQueue]
    dsimp only
    rw [← hidx, if_neg hbranch, if_neg (ne_of_lt hlt)]

theorem Core.credit {s : State} (h : Core s) {p : TaskId} (hp : (s.task p).array ≠ none)
    (now : Nat) : ∃ s', creditNext s p now = some s' ∧ Core s' ∧ Stays s s' := by
  rw [creditNext]
  dsimp only
  split
  · rename_i hcond
    have hpol : (s.task p).policy ≠ .uwrr := by
      intro e
      simp [e] at hcond
    rcases array_cases (s.task p) with hnone | ⟨r, hr⟩
    · exact absurd hnone hp
    · rw [hr]
      refine ⟨_, rfl, ?_⟩
      have hok := h.tasks.ok p
      obtain ⟨i, rfl⟩ : ∃ i, r = .rq i := by
        rcases hok.home r hr with ⟨hu, _⟩ | ⟨_, hi⟩
        · exact absurd hu hpol
        · exact hi
      have hstate : ∀ n, (recalcTaskPrio (s.task p) n).policy = (s.task p).policy := fun _ => rfl
      refine h.move hr (SameKind.rq i i) rfl rfl ((hok.recalc _).enqueued (hok.recalc_prio_lt _)
        (Or.inr ⟨?_, i, rfl⟩)) rfl ⟨rfl, rfl, rfl, rfl, rfl, rfl, rfl, rfl⟩
      exact hpol
  · exact ⟨s, rfl, h, Stays.refl s⟩

theorem Core.switchTasks {s : State} (h : Core s) {next : TaskId}
    (hnext : next = idle ∨ (s.task next).array ≠ none) (now run : Nat) :
    Core (switchTasks s next now run) ∧ Busy (switchTasks s next now run) := by
  set m := s.modTask s.curr fun t =>
    { t with needResched := false, sleepAvg := t.sleepAvg - run, timestamp := now } with hm
  have hcore : Core m := h.retask s.curr _ ⟨rfl, rfl, rfl, rfl, rfl, rfl⟩
  have hstays : Stays s m := Stays.modTask s s.curr _ rfl
  rw [Uwrr.switchTasks]
  dsimp only
  rw [← hm]
  split
  · have hcore' : Core (m.modTask next fun t => { t with timestamp := now }) :=
      hcore.retask next _ ⟨rfl, rfl, rfl, rfl, rfl, rfl⟩
    have hstays' := Stays.modTask m next (fun t => { t with timestamp := now }) rfl
    refine ⟨⟨hcore'.holds, hcore'.counts, hcore'.linked, hcore'.tasks, hcore'.refs, hcore'.bug⟩, ?_⟩
    exact hnext.imp_right fun e => hstays'.array next (hstays.array next e)
  · rename_i heq
    rw [not_not] at heq
    refine ⟨hcore, ?_⟩
    rw [← heq] at hnext
    exact hnext.imp_right fun e => hstays.array s.curr e

/-! ## The function -/

theorem Core.schedule {s : State} (h : Core s) (hb : Busy s) (now : Nat)
    (preemptActive signalPending : Bool) :
    ∃ s', schedule s now preemptActive signalPending = some s' ∧ Core s' ∧ Busy s' := by
  obtain ⟨s₁, hs₁, h₁, _⟩ := h.putPrev hb preemptActive signalPending
  rw [Uwrr.schedule]
  dsimp only
  rw [hs₁]
  simp only [Option.bind_eq_bind, Option.bind_some]
  split
  · have hidle : Core { s₁ with expiredTimestamp := 0 } :=
      ⟨h₁.holds, h₁.counts, h₁.linked, h₁.tasks, h₁.refs, h₁.bug⟩
    exact ⟨_, rfl, hidle.switchTasks (Or.inl rfl) now _⟩
  · rename_i hrun
    obtain ⟨h₂, hstays₂, hready⟩ := h₁.swapArrays hrun
    obtain ⟨s₃, p, l, hs₃, h₃, _, hp⟩ := h₂.pickQueue hready
    obtain ⟨s₄, hs₄, h₄, hstays₄⟩ := h₃.credit hp now
    rw [hs₃]
    simp only [Option.bind_some, hs₄]
    have hact : Core (s₄.modTask p fun t => { t with activated := 0 }) :=
      h₄.retask p _ ⟨rfl, rfl, rfl, rfl, rfl, rfl⟩
    have hstays := Stays.modTask s₄ p (fun t => { t with activated := 0 }) rfl
    exact ⟨_, rfl, hact.switchTasks (Or.inr (hstays.array p (hstays₄.array p hp))) now _⟩

end LinuxHacks.Uwrr
