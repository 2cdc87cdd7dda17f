import LinuxHacks.Uwrr.Core

/-!
# The scheduler functions keep the invariant

One lemma for each function of the model: from a state that satisfies `Core`
(and, where the function works on the current task, `Busy`) it returns without
reaching a `BUG`, in a state that satisfies `Core` again. `Stays` says that it
leaves every queued task queued, so that `Busy` is kept as well.
-/

namespace LinuxHacks.Uwrr

open LinuxHacks.Lib
open LinuxHacks.Lib.Placement

theorem array_cases (t : Task) : t.array = none ∨ ∃ r, t.array = some r := by
  cases t.array with
  | none => exact Or.inl rfl
  | some r => exact Or.inr ⟨r, rfl⟩

theorem Core.not_reserved {s : State} (h : Core s) {p : TaskId} (hp : (s.task p).array ≠ none) :
    ¬ Reserved s.forking p :=
  fun hres => hp (h.tasks.reserved p hres).1

/-- The current task, unless it is the idle one, has an array. -/
theorem Busy.array {s : State} (hb : Busy s) (hcurr : s.curr ≠ idle) :
    ∃ r, (s.task s.curr).array = some r := by
  rcases array_cases (s.task s.curr) with hnone | hsome
  · exact absurd hnone (hb.resolve_left hcurr)
  · exact hsome

/-! ## Wake-ups -/

theorem Core.enter' {s : State} (h : Core s) {p : TaskId} (hp : (s.task p).array = none)
    (hcreated : s.created p = true) (hres : ¬ Reserved s.forking p)
    (hprio : (s.task p).prio < MAX_PRIO) :
    Core (activateTask' s p) ∧ Stays s (activateTask' s p) := by
  have hact := activateTask'_eq s p
  refine ⟨h.activate' hp hcreated hres hprio hact, Stays.of_update hact.curr hact.task ?_⟩
  intro _ e
  cases e

theorem Core.enter {s : State} (h : Core s) {p : TaskId} (hp : (s.task p).array = none)
    (hcreated : s.created p = true) (hres : ¬ Reserved s.forking p) (now : Nat)
    (inInterrupt : Bool) :
    Core (activateTask s p now inInterrupt) ∧ Stays s (activateTask s p now inInterrupt) := by
  have hok := (h.tasks.ok p).recalc now
  have hmod := h.modTask p (fun t =>
      let t := recalcTaskPrio t now
      { t with
        activated := if t.activated = 0 then (if inInterrupt then 2 else 1) else t.activated
        timestamp := now })
    rfl (fun e => absurd hp e) rfl (hok.of_same ⟨rfl, rfl, rfl, rfl, rfl, rfl⟩)
    (fun e => absurd e hres) (fun e => absurd (Or.inl e) hres)
  have hact := hmod.enter' (p := p) (by
      simp only [State.modTask, Function.update_self]
      exact hp) hcreated hres (by
      simp only [State.modTask, Function.update_self]
      exact (h.tasks.ok p).recalc_prio_lt now)
  exact ⟨hact.1, (Stays.modTask s p _ rfl).trans hact.2⟩

/-- The waking half of `try_to_wake_up`. -/
theorem Core.wakeUnqueued {s : State} (h : Core s) {p : TaskId} (hp : (s.task p).array = none)
    (hcreated : s.created p = true) (hres : ¬ Reserved s.forking p) (sync inInterrupt : Bool)
    (now : Nat) :
    let s' := activateTask
      (if (s.task p).state = .uninterruptible then
        { s.modTask p fun t => { t with activated := -1 } with
          nrUninterruptible := s.nrUninterruptible - 1 }
      else s) p now inInterrupt
    Core (if !sync && taskPreemptsCurr s' p then reschedTask s' s'.curr else s') ∧
      Stays s (if !sync && taskPreemptsCurr s' p then reschedTask s' s'.curr else s') := by
  intro s'
  have hs' : Core s' ∧ Stays s s' := by
    by_cases hun : (s.task p).state = .uninterruptible
    · simp only [s', if_pos hun]
      set m : State := { s.modTask p fun t => { t with activated := -1 } with
        nrUninterruptible := s.nrUninterruptible - 1 } with hm
      have hmod := h.retask p (fun t => { t with activated := -1 })
        ⟨rfl, rfl, rfl, rfl, rfl, rfl⟩
      have hmod' : Core m :=
        ⟨hmod.holds, hmod.counts, hmod.linked, hmod.tasks, hmod.refs, hmod.bug⟩
      have hstays : Stays s m := Stays.of_update rfl rfl id
      have hp' : (m.task p).array = none := by
        simp only [hm, State.modTask, Function.update_self]
        exact hp
      have hact := hmod'.enter hp' hcreated hres now inInterrupt
      exact ⟨hact.1, hstays.trans hact.2⟩
    · simp only [s', if_neg hun]
      exact h.enter hp hcreated hres now inInterrupt
  split
  · exact ⟨hs'.1.resched _, hs'.2.trans (Stays.resched _ _)⟩
  · exact hs'

theorem Core.wakeUp {s : State} (h : Core s) {p : TaskId} (hcreated : s.created p = true)
    (mask sync inInterrupt : Bool) (now : Nat) :
    Core (tryToWakeUp s p mask sync now inInterrupt) ∧
      Stays s (tryToWakeUp s p mask sync now inInterrupt) := by
  rw [tryToWakeUp]
  split
  · exact ⟨h, Stays.refl s⟩
  · rename_i hcond
    have hrun : (s.task p).state ≠ .running := by
      intro hrun
      simp [hrun] at hcond
    have hres : ¬ Reserved s.forking p := fun hres => hrun (h.tasks.reserved p hres).2
    -- the last assignment of the function
    have hset : ∀ m : State, Core m ∧ Stays s m →
        Core (m.modTask p fun t => { t with state := .running }) ∧
          Stays s (m.modTask p fun t => { t with state := .running }) := by
      rintro m ⟨hm, hsm⟩
      have hok := hm.tasks.ok p
      refine ⟨hm.modTask p _ rfl (fun _ => rfl) rfl
        ⟨hok.uwrr, hok.static, hok.prio, hok.queued, hok.home⟩ (fun _ => rfl) ?_,
        hsm.trans (Stays.modTask m p _ rfl)⟩
      rintro rfl
      exact hm.tasks.idle
    refine hset _ ?_
    rcases array_cases (s.task p) with hnone | ⟨r, hr⟩
    · rw [if_neg (fun e => e hnone)]
      exact h.wakeUnqueued hnone hcreated hres sync inInterrupt now
    · rw [if_pos (by rw [hr]; simp)]
      exact ⟨h, Stays.refl s⟩

/-! ## Policies and nice values -/

theorem setschedulerTask_user (t : Task) (policy : Policy) (prio : Int) :
    (setschedulerTask t policy prio).user = t.user := by
  cases policy with
  | normal => rfl
  | fifo => rfl
  | rr => rfl
  | uwrr => rfl

theorem setschedulerTask_state (t : Task) (policy : Policy) (prio : Int) :
    (setschedulerTask t policy prio).state = t.state := by
  cases policy with
  | normal => rfl
  | fifo => rfl
  | rr => rfl
  | uwrr => rfl

/-- `__setscheduler`. -/
theorem Core.setPolicy {s : State} (h : Core s) {p : TaskId} (hidle : p ≠ idle)
    (hp : (s.task p).array = none) (policy : Policy) {prio : Int}
    (hprio : 0 ≤ prio ∧ prio < MAX_RT_PRIO) :
    setscheduler' s p policy prio = some (s.modTask p fun t => setschedulerTask t policy prio) ∧
      Core (s.modTask p fun t => setschedulerTask t policy prio) ∧
      Stays s (s.modTask p fun t => setschedulerTask t policy prio) := by
  obtain ⟨hok, harray, _⟩ := (h.tasks.ok p).setscheduler hp policy hprio
  refine ⟨by rw [setscheduler', if_neg (fun e => e hp)], ?_, Stays.modTask s p _ ?_⟩
  · refine h.modTask p _ (harray.trans hp.symm) (fun e => absurd hp e)
      (setschedulerTask_user ..) hok ?_ (fun e => absurd e hidle)
    rw [setschedulerTask_state]
    exact fun hres => (h.tasks.reserved p hres).2
  · exact harray.trans hp.symm

/-- A queued task is taken off, changed, and put back. -/
theorem Core.setPolicyLocked {s : State} (h : Core s) {p : TaskId} (hidle : p ≠ idle)
    (policy : Policy) {prio : Int} (hprio : 0 ≤ prio ∧ prio < MAX_RT_PRIO) :
    ∃ s', setschedulerLocked s p policy prio = some s' ∧ Core s' ∧ Stays s s' := by
  rcases array_cases (s.task p) with hnone | ⟨r, hr⟩
  · obtain ⟨heq, hcore, hstays⟩ := h.setPolicy hidle hnone policy hprio
    exact ⟨_, by rw [setschedulerLocked, if_pos hnone, heq], hcore, hstays⟩
  · have hqueued : (s.task p).array ≠ none := by rw [hr]; simp
    obtain ⟨s₁, hs₁, hd⟩ := deactivateTask_eq hr
    have h₁ := h.deactivate hr hd
    have hp₁ : s₁.task p = { s.task p with array := none } := by
      rw [hd.task, Function.update_self]
    have hnone₁ : (s₁.task p).array = none := by rw [hp₁]
    obtain ⟨hs₂, h₂, _⟩ := h₁.setPolicy hidle hnone₁ policy hprio
    set s₂ := s₁.modTask p fun t => setschedulerTask t policy prio with hs₂def
    have hp₂ : s₂.task p = setschedulerTask (s₁.task p) policy prio := Function.update_self ..
    obtain ⟨_, harray, hlt⟩ := (h₁.tasks.ok p).setscheduler hnone₁ policy hprio
    obtain ⟨h₃, _⟩ := h₂.enter' (p := p) (by rw [hp₂, harray])
      (by rw [hs₂def]; show s₁.created p = true; rw [hd.created]; exact h.tasks.known p (Or.inl hqueued))
      (by rw [hs₂def]; show ¬ Reserved s₁.forking p; rw [hd.forking]; exact h.not_reserved hqueued)
      (by rw [hp₂]; exact hlt)
    have hact := activateTask'_eq s₂ p
    have hstays : Stays s (activateTask' s₂ p) := by
      refine Stays.of_update (p := p) (hact.curr.trans hd.curr) ?_ (fun _ e => (by cases e))
        (t := { s₂.task p with array := some (homeArray s₂ p) })
      rw [hact.task]
      show Function.update (Function.update s₁.task p _) p _ = _
      rw [Function.update_idem, hd.task, Function.update_idem]
    have hresched : Core (reschedTask (activateTask' s₂ p) (activateTask' s₂ p).curr) ∧
        Stays s (reschedTask (activateTask' s₂ p) (activateTask' s₂ p).curr) :=
      ⟨h₃.resched _, hstays.trans (Stays.resched _ _)⟩
    rw [setschedulerLocked, if_neg hqueued, hs₁]
    simp only [Option.bind_eq_bind, Option.bind_some, hs₂]
    refine ⟨_, rfl, ?_⟩
    split
    · split
      · exact hresched
      · exact ⟨h₃, hstays⟩
    · split
      · exact hresched
      · exact ⟨h₃, hstays⟩

theorem Core.setscheduler {s : State} (h : Core s) {p : TaskId} (hidle : p ≠ idle)
    (policy : Option Policy) (prio : Int) (capable sameUid : Bool) (hook : Int) :
    ∃ ret s', schedSetscheduler s p policy prio capable sameUid hook = some (ret, s') ∧
      Core s' ∧ Stays s s' := by
  have hkeep : Core s ∧ Stays s s := ⟨h, Stays.refl s⟩
  rw [schedSetscheduler]
  split
  · exact ⟨_, s, rfl, hkeep⟩
  · rename_i hrange
    have hprio : 0 ≤ prio ∧ prio < MAX_RT_PRIO := by
      simp only [Bool.or_eq_true, decide_eq_true_eq, not_or, not_lt] at hrange
      exact ⟨hrange.1, by omega⟩
    split
    · exact ⟨_, s, rfl, hkeep⟩
    · split
      · exact ⟨_, s, rfl, hkeep⟩
      · split
        · exact ⟨_, s, rfl, hkeep⟩
        · split
          · exact ⟨_, s, rfl, hkeep⟩
          · obtain ⟨s', hs', h'⟩ :=
              h.setPolicyLocked hidle (policy.getD (s.task p).policy) hprio
            exact ⟨0, s', by rw [hs']; rfl, h'⟩

/-- A nice value that `set_user_nice` ignores for the task. -/
def NiceIgnored (t : Task) (nice : Int) : Prop :=
  nice = taskNice t ∨ nice < -20 ∨ 19 < nice

theorem TaskOk.nice {t : Task} (h : TaskOk t) (hpol : t.policy ≠ .uwrr) {nice : Int}
    (hnice : -20 ≤ nice ∧ nice ≤ 19) : TaskOk (niceTask t nice) := by
  have hprio : (niceTask t nice).prio = niceToPrio nice := by
    simp only [niceTask]
    omega
  have hbounds : MAX_RT_PRIO ≤ niceToPrio nice ∧ niceToPrio nice < MAX_PRIO := by
    simp only [niceToPrio, MAX_RT_PRIO, MAX_PRIO]
    omega
  refine ⟨fun e => absurd e hpol, hbounds, ?_, ?_, h.home⟩
  · rw [hprio]
    exact le_trans (by decide) hbounds.1
  · rw [hprio]
    exact fun _ => hbounds.2

theorem Core.nice {s : State} (h : Core s) {p : TaskId} {nice : Int}
    (hsafe : (s.task p).policy = .uwrr → NiceIgnored (s.task p) nice) :
    Core (setUserNice s p nice) ∧ Stays s (setUserNice s p nice) := by
  rw [setUserNice]
  split
  · exact ⟨h, Stays.refl s⟩
  · rename_i hcond
    simp only [Bool.or_eq_true, decide_eq_true_eq, not_or, not_lt] at hcond
    obtain ⟨⟨hne, hlow⟩, hhigh⟩ := hcond
    have hpol : (s.task p).policy ≠ .uwrr := by
      intro e
      rcases hsafe e with heq | hlt | hgt
      · exact hne heq.symm
      · omega
      · omega
    have hok := h.tasks.ok p
    have hidle : ∀ t : Task, t.policy = (s.task p).policy → p = idle → t.policy ≠ .uwrr := by
      intro t ht _
      rw [ht]
      exact hpol
    split
    · -- a real-time task only keeps the value for later
      refine ⟨h.modTask p _ rfl (fun _ => rfl) rfl ⟨fun e => absurd e hpol, ?_, hok.prio,
        hok.queued, hok.home⟩ (fun hres => (h.tasks.reserved p hres).2) (hidle _ rfl),
        Stays.modTask s p _ rfl⟩
      simp only [niceToPrio, MAX_RT_PRIO, MAX_PRIO]
      omega
    · have hnice := hok.nice hpol ⟨hlow, hhigh⟩
      split
      · rename_i hnone
        exact ⟨h.modTask p _ rfl (fun e => absurd hnone e) rfl hnice
          (fun hres => (h.tasks.reserved p hres).2) (hidle _ rfl), Stays.modTask s p _ rfl⟩
      · rename_i r hr
        have hmove := h.move (m := (dequeueTask s p r).modTask p fun t => niceTask t nice) hr
          (fun _ => Iff.rfl) rfl rfl (hnice.of_same ⟨rfl, rfl, rfl, rfl, hr.symm, rfl⟩) rfl
          ⟨rfl, rfl, rfl, rfl, rfl, rfl, rfl, rfl⟩
        dsimp only
        split
        · exact ⟨hmove.1.resched _, hmove.2.trans (Stays.resched _ _)⟩
        · exact hmove

theorem Core.sysNice {s : State} (h : Core s) {increment : Int} {capable : Bool} {hook : Int}
    (hsafe : (s.task s.curr).policy = .uwrr →
      increment = 0 ∨ (increment < 0 ∧ capable = false) ∨ hook ≠ 0) :
    Core (sysNice s increment capable hook).2 ∧ Stays s (sysNice s increment capable hook).2 := by
  rw [Uwrr.sysNice]
  split
  · exact ⟨h, Stays.refl s⟩
  · rename_i hperm
    dsimp only
    split
    · exact ⟨h, Stays.refl s⟩
    · rename_i hhook
      refine h.nice fun hpol => Or.inl ?_
      rcases hsafe hpol with hzero | ⟨hneg, hcap⟩ | hne
      · -- the nice value of the task is in the range it is cut to
        have hst := (h.tasks.ok s.curr).static
        simp only [hzero, taskNice, prioToNice, MAX_RT_PRIO, MAX_PRIO] at hst ⊢
        omega
      · simp [hneg, hcap] at hperm
      · exact absurd hne hhook

/-! ## Yield and tick -/

theorem Core.yield {s : State} (h : Core s) (hb : Busy s) (hcurr : s.curr ≠ idle) :
    ∃ s', sysSchedYield s = some s' ∧ Core s' ∧ Stays s s' := by
  obtain ⟨r, hr⟩ := hb.array hcurr
  have hrequeue : Core (requeueTask s s.curr r) ∧ Stays s (requeueTask s s.curr r) :=
    ⟨h.requeue hr, ⟨rfl, fun _ => id⟩⟩
  have hok := h.tasks.ok s.curr
  rw [sysSchedYield, hr]
  refine ⟨_, rfl, ?_⟩
  rcases hok.home r hr with ⟨hpol, _⟩ | ⟨hpol, i, rfl⟩
  · simp only [hpol, if_true, ne_eq, not_true_eq_false, if_false]
    exact hrequeue
  · -- between the two arrays of the runqueue
    obtain ⟨j, hj⟩ : ∃ j, (if rtTask (s.task s.curr) then s.activeArray else s.expiredArray) =
        .rq j := by
      split
      · exact ⟨_, rfl⟩
      · exact ⟨_, rfl⟩
    have hself : (dequeueTask s s.curr (.rq i)).task =
        Function.update s.task s.curr (s.task s.curr) := (Function.update_eq_self ..).symm
    simp only [hpol, if_false, hj]
    split
    · exact h.move hr (SameKind.rq i j) rfl hself
        (hok.enqueued (hok.queued (by rw [hr]; simp)) (Or.inr ⟨hpol, j, rfl⟩)) rfl
        ⟨rfl, rfl, rfl, rfl, rfl, rfl, rfl, rfl⟩
    · exact hrequeue

/-- A user that is in the list moves to its end. -/
theorem Linked.rotate {userlist : List UserId} {l : Loc} (h : Linked userlist l) {u : UserId}
    (hu : Occupied l u) : Linked (userlist.erase u ++ [u]) l := by
  refine ⟨List.Nodup.append (h.nodup.erase u) (List.nodup_singleton u)
    (List.disjoint_singleton.mpr h.nodup.not_mem_erase), fun v => ?_⟩
  rw [List.mem_append, List.mem_singleton, h.nodup.mem_erase_iff, h.mem]
  by_cases hv : v = u
  · rw [hv]
    exact ⟨fun _ => hu, fun _ => Or.inr rfl⟩
  · exact ⟨fun e => (e.resolve_right hv).2, fun e => Or.inl ⟨hv, e⟩⟩

theorem Core.modUser {s : State} (h : Core s) (u : UserId) (f : User → User)
    (hf : (f (s.user u)).count = (s.user u).count) : Core (s.modUser u f) := by
  refine h.of_eq rfl rfl rfl rfl h.linked rfl rfl ?_ rfl
  intro v
  by_cases hv : v = u
  · rw [hv]
    show (Function.update s.user u _ u).count = _
    rw [Function.update_self, hf]
  · show (Function.update s.user u _ v).count = _
    rw [Function.update_of_ne hv]

theorem Core.tickTask {s : State} (h : Core s) {p : TaskId} {r : ArrayRef}
    (hr : (s.task p).array = some r) :
    ∃ s', uwrrTickTask s p = some s' ∧ Core s' ∧ Stays s s' ∧ Same (s.task p) (s'.task p) := by
  set m := s.modTask p fun t => { t with timeSlice := dec32 t.timeSlice } with hm
  have hmp : m.task p = { s.task p with timeSlice := dec32 (s.task p).timeSlice } :=
    Function.update_self ..
  have hcore : Core m := h.retask p _ ⟨rfl, rfl, rfl, rfl, rfl, rfl⟩
  have hstays : Stays s m := Stays.modTask s p _ rfl
  rw [uwrrTickTask]
  split
  · have hcore' : Core (m.modTask p refillSlice) := hcore.retask p _ ⟨rfl, rfl, rfl, rfl, rfl, rfl⟩
    have hmp' : (m.modTask p refillSlice).task p = refillSlice (m.task p) :=
      Function.update_self ..
    rw [← hm, hmp]
    simp only [hr]
    refine ⟨_, rfl, hcore'.requeue ?_, hstays.trans (Stays.of_update rfl rfl id), ?_⟩
    · rw [hmp', hmp]
      exact hr
    · show Same (s.task p) ((m.modTask p refillSlice).task p)
      rw [hmp', hmp]
      exact ⟨rfl, rfl, rfl, rfl, rfl, rfl⟩
  · refine ⟨m, rfl, hcore, hstays, ?_⟩
    rw [hmp]
    exact ⟨rfl, rfl, rfl, rfl, rfl, rfl⟩

theorem Core.tickUser {s : State} (h : Core s) {p : TaskId}
    (hr : (s.task p).array = some (.user (s.task p).user)) :
    Core (uwrrTickUser s p) ∧ Stays s (uwrrTickUser s p) := by
  have hdec := h.modUser (s.task p).user (fun v => { v with uwrrTimeSlice := dec32 v.uwrrTimeSlice })
    rfl
  rw [uwrrTickUser]
  split
  · have hfill := hdec.modUser (s.task p).user
      (fun v => { v with uwrrTimeSlice := u32 (100 * v.uwrrWeight) }) rfl
    have hrot := h.linked.rotate ⟨p, _, Core.loc_curr hr⟩
    have hcore : Core { (s.modUser (s.task p).user fun v =>
        { v with uwrrTimeSlice := dec32 v.uwrrTimeSlice }).modUser (s.task p).user fun v =>
          { v with uwrrTimeSlice := u32 (100 * v.uwrrWeight) } with
        uwrrUserlist := s.uwrrUserlist.erase (s.task p).user ++ [(s.task p).user] } :=
      hfill.of_eq rfl rfl rfl rfl hrot rfl rfl (fun _ => rfl) rfl
    exact ⟨hcore.resched p, Stays.of_update rfl rfl id⟩
  · exact ⟨hdec, ⟨rfl, fun _ => id⟩⟩

theorem Core.tickUwrr {s : State} (h : Core s) {p : TaskId} {r : ArrayRef}
    (hr : (s.task p).array = some r) (hpol : (s.task p).policy = .uwrr) :
    ∃ s', uwrrTick s p = some s' ∧ Core s' ∧ Stays s s' := by
  obtain ⟨hprio, hstatic⟩ := (h.tasks.ok p).uwrr hpol
  obtain ⟨s₁, hs₁, h₁, hstays₁, hsame⟩ := h.tickTask hr
  have hr₁ : (s₁.task p).array = some (.user (s₁.task p).user) := by
    have hr₁ := hsame.array.trans hr
    rcases (h₁.tasks.ok p).home r hr₁ with ⟨_, hu⟩ | ⟨hno, _⟩
    · rw [hr₁, hu]
    · exact absurd (hsame.policy.trans hpol) hno
  obtain ⟨h₂, hstays₂⟩ := h₁.tickUser hr₁
  refine ⟨uwrrTickUser s₁ p, ?_, h₂, hstays₁.trans hstays₂⟩
  rw [uwrrTick, hprio, hstatic, hs₁]
  rfl

/-- A `SCHED_NORMAL` task at the end of its slice. -/
theorem Core.expire {s : State} (h : Core s) {p : TaskId} (hr : (s.task p).array = some s.activeArray)
    (jiffies : Nat) : Core (expireTask s p jiffies) ∧ Stays s (expireTask s p jiffies) := by
  have hok := h.tasks.ok p
  have hpol : (s.task p).policy ≠ .uwrr := by
    rcases hok.home _ hr with ⟨_, hu⟩ | ⟨hpol, _⟩
    · cases hu
    · exact hpol
  set t := refillSlice { s.task p with prio := effectivePrio (s.task p) } with ht
  have hok' : TaskOk t := hok.withEffectivePrio.of_same ⟨rfl, rfl, rfl, rfl, rfl, rfl⟩
  -- the state in which the task is put back
  set m : State :=
    let s := (dequeueTask s p s.activeArray).modTask p fun t =>
      refillSlice { t with prio := effectivePrio t }
    if s.expiredTimestamp = 0 then { s with expiredTimestamp := jiffies } else s with hm
  have hmove : ∀ i : Bool,
      Core (enqueueTask m p (.rq i)) ∧ Stays s (enqueueTask m p (.rq i)) := by
    intro i
    refine h.move (t := t) hr (SameKind.rq s.active i) ?_ ?_
      (hok'.enqueued (effectivePrio_bounds hok).2 (Or.inr ⟨hpol, i, rfl⟩)) rfl ?_
    · simp only [hm]
      split <;> rfl
    · simp only [hm]
      split <;> rfl
    · simp only [hm]
      split <;> exact ⟨rfl, rfl, rfl, rfl, rfl, rfl, rfl, rfl⟩
  rw [expireTask]
  dsimp only
  rw [← hm]
  split
  · obtain ⟨hcore, hstays⟩ := hmove (!m.active)
    split
    · exact ⟨⟨hcore.holds, hcore.counts, hcore.linked, hcore.tasks, hcore.refs, hcore.bug⟩,
        ⟨hstays.curr, hstays.array⟩⟩
    · exact ⟨hcore, hstays⟩
  · exact hmove m.active

theorem Core.tick {s : State} (h : Core s) (hb : Busy s) (jiffies : Nat) :
    ∃ s', schedulerTick s jiffies = some s' ∧ Core s' ∧ Stays s s' := by
  rw [schedulerTick]
  dsimp only
  split
  · exact ⟨s, rfl, h, Stays.refl s⟩
  · rename_i hidle
    obtain ⟨r, hr⟩ := hb.array hidle
    split
    · exact ⟨_, rfl, h.resched _, Stays.resched _ _⟩
    · rename_i hactive
      -- a task that is not UWRR is in the active array here
      have hact : (s.task s.curr).policy ≠ .uwrr →
          (s.task s.curr).array = some s.activeArray := by
        intro hpol
        by_contra hne
        exact hactive ⟨hne, hpol⟩
      -- the tick is taken from the slice
      set m := s.modTask s.curr fun t => { t with timeSlice := dec32 t.timeSlice } with hm
      have hcore : Core m := h.retask s.curr _ ⟨rfl, rfl, rfl, rfl, rfl, rfl⟩
      have hstays : Stays s m := Stays.modTask s s.curr _ rfl
      have hmp : m.task s.curr = { s.task s.curr with
          timeSlice := dec32 (s.task s.curr).timeSlice } := Function.update_self ..
      split
      · split
        · rename_i hrr
          have hpol : (s.task s.curr).policy ≠ .uwrr := by rw [hrr]; simp
          split
          · have hfill : Core (m.modTask s.curr refillSlice) :=
              hcore.retask s.curr _ ⟨rfl, rfl, rfl, rfl, rfl, rfl⟩
            refine ⟨_, rfl, hfill.requeue ?_, hstays.trans (Stays.of_update rfl rfl id)⟩
            show (Function.update m.task s.curr _ s.curr).array = _
            rw [Function.update_self, hmp]
            exact hact hpol
          · exact ⟨m, rfl, hcore, hstays⟩
        · exact ⟨s, rfl, h, Stays.refl s⟩
      · split
        · rename_i hpol
          exact h.tickUwrr hr hpol
        · rename_i hpol
          have hr' : (m.task s.curr).array = some m.activeArray := by
            rw [hmp]
            exact hact hpol
          split
          · obtain ⟨hexp, hstays'⟩ := hcore.expire hr' jiffies
            exact ⟨_, rfl, hexp, hstays.trans hstays'⟩
          · split
            · refine ⟨_, rfl, (hcore.requeue hr').resched _, hstays.trans ?_⟩
              exact Stays.of_update rfl rfl id
            · exact ⟨m, rfl, hcore, hstays⟩

end LinuxHacks.Uwrr
