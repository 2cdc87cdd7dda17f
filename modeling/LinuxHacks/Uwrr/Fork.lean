import LinuxHacks.Uwrr.Operations

/-!
# Fork and change of user

The two places where tasks and users meet outside of `__activate_task`:
`wake_up_new_task` puts a child next to its parent without looking at its
policy, and `switch_uid` moves a queued UWRR task from the array of one user to
that of another. `Refs` is what keeps `free_uid` from unlinking a user that
still has tasks.
-/

namespace LinuxHacks.Uwrr

open LinuxHacks.Lib
open LinuxHacks.Lib.Placement

/-! ## Fork -/

/-- The child of a `fork`. -/
theorem Tasks.fork {task : TaskId → Task} {created : TaskId → Bool}
    {forking : TaskId → Option TaskId} (h : Tasks task created forking) {q child : TaskId}
    {t : Task} (hchild : created child = false) (hq : created q = true) (hnone : forking q = none)
    (hok : TaskOk t) (harray : t.array = none) (hstate : t.state = .running)
    (huser : t.user = (task q).user) :
    Tasks (Function.update task child t) (Function.update created child true)
      (Function.update forking q (some child)) := by
  have hne : ∀ p, created p = true → p ≠ child := by
    rintro p hp rfl
    rw [hchild] at hp
    cases hp
  have hidle : Uwrr.idle ≠ child := hne _ (h.known _ (Or.inr (Or.inl rfl)))
  have hforking : ∀ x c, Function.update forking q (some child) x = some c →
      (x = q ∧ c = child) ∨ (x ≠ q ∧ forking x = some c) := by
    intro x c hc
    by_cases hx : x = q
    · rw [hx, Function.update_self] at hc
      exact Or.inl ⟨hx, (Option.some.inj hc).symm⟩
    · rw [Function.update_of_ne hx] at hc
      exact Or.inr ⟨hx, hc⟩
  have hcne : ∀ x c, forking x = some c → c ≠ child :=
    fun x c hc => hne c (h.known c (Or.inr (Or.inr ⟨x, hc⟩)))
  have hreserved : ∀ p, p ≠ child → Reserved (Function.update forking q (some child)) p →
      Reserved forking p := by
    rintro p hp (hidle | ⟨x, hx⟩)
    · exact Or.inl hidle
    · rcases hforking x p hx with ⟨_, hpc⟩ | ⟨_, hx⟩
      · exact absurd hpc hp
      · exact Or.inr ⟨x, hx⟩
  refine ⟨?_, ?_, ?_, ?_, ?_, ?_, ?_, ?_⟩
  · intro p
    by_cases hp : p = child
    · rw [hp, Function.update_self]
      exact hok
    · rw [Function.update_of_ne hp]
      exact h.ok p
  · intro p
    by_cases hp : p = child
    · rw [hp, Function.update_self]
      exact fun _ => Function.update_self ..
    · rw [Function.update_of_ne hp, Function.update_of_ne hp]
      exact fun hor => h.known p (hor.imp_right (hreserved p hp))
  · intro p
    by_cases hp : p = child
    · rw [hp, Function.update_self]
      exact fun _ => ⟨harray, hstate⟩
    · rw [Function.update_of_ne hp]
      exact fun hres => h.reserved p (hreserved p hp hres)
  · rw [Function.update_of_ne hidle]
    exact h.idle
  · intro x hx
    rcases hforking x _ hx with ⟨_, hc⟩ | ⟨_, hx⟩
    · exact hidle hc
    · exact h.notIdle x hx
  · intro x c hc
    rcases hforking x c hc with ⟨rfl, rfl⟩ | ⟨_, hc⟩
    · rw [Function.update_self, Function.update_of_ne (hne x hq)]
      exact huser
    · rw [Function.update_of_ne (hcne x c hc), Function.update_of_ne (hne x (h.forker x c hc))]
      exact h.user x c hc
  · intro x c hc
    rcases hforking x c hc with ⟨rfl, rfl⟩ | ⟨_, hc⟩
    · rw [Function.update_of_ne (hne x hq)]
      exact hq
    · rw [Function.update_of_ne (hne x (h.forker x c hc))]
      exact h.forker x c hc
  · intro x y c hx hy
    rcases hforking x c hx with ⟨rfl, hc⟩ | ⟨_, hx⟩
    · rcases hforking y c hy with ⟨rfl, _⟩ | ⟨_, hy⟩
      · rfl
      · exact absurd hc (hcne y c hy)
    · rcases hforking y c hy with ⟨_, hc⟩ | ⟨_, hy⟩
      · exact absurd hc (hcne x c hx)
      · exact h.parent x y c hx hy

/-- The reference the child holds. -/
theorem Refs.fork {task : TaskId → Task} {created : TaskId → Bool} {user : UserId → User}
    (h : Refs task created user) (child : TaskId) (t : Task) :
    Refs (Function.update task child t) (Function.update created child true)
      (Function.update user t.user
        { user t.user with count := (user t.user).count + 1 }) := by
  have hother : ∀ p, p ≠ child →
      (Function.update created child true p = created p ∧ Function.update task child t p = task p) :=
    fun p hp => ⟨Function.update_of_ne hp .., Function.update_of_ne hp ..⟩
  refine ⟨(h.finite.insert child).subset ?_, ?_⟩
  · intro p hp
    by_cases hpc : p = child
    · exact Or.inl hpc
    · refine Or.inr ?_
      have hp' : Function.update created child true p = true := hp
      rwa [(hother p hpc).1] at hp'
  · intro u
    have hfin : {p | created p = true ∧ (task p).user = u}.Finite :=
      h.finite.subset fun p hp => hp.1
    by_cases hu : u = t.user
    · -- the child is one more
      have hsub : {p | Function.update created child true p = true ∧
          (Function.update task child t p).user = u} ⊆
          insert child {p | created p = true ∧ (task p).user = u} := by
        rintro p ⟨hc, hpu⟩
        by_cases hpc : p = child
        · exact Or.inl hpc
        · rw [(hother p hpc).1] at hc
          rw [(hother p hpc).2] at hpu
          exact Or.inr ⟨hc, hpu⟩
      have hle := Set.ncard_le_ncard hsub (hfin.insert child)
      have hins := Set.ncard_insert_le child {p | created p = true ∧ (task p).user = u}
      have hcount := h.count u
      rw [hu, Function.update_self]
      rw [hu] at hle hins hcount
      dsimp only
      omega
    · have hsub : {p | Function.update created child true p = true ∧
          (Function.update task child t p).user = u} ⊆
          {p | created p = true ∧ (task p).user = u} := by
        rintro p ⟨hc, hpu⟩
        by_cases hpc : p = child
        · rw [hpc, Function.update_self] at hpu
          exact absurd hpu.symm hu
        · rw [(hother p hpc).1] at hc
          rw [(hother p hpc).2] at hpu
          exact ⟨hc, hpu⟩
      have hle := Set.ncard_le_ncard hsub hfin
      have hcount := h.count u
      rw [Function.update_of_ne hu]
      omega

theorem Core.curr_created {s : State} (h : Core s) (hb : Busy s) : s.created s.curr = true := by
  rcases hb with hidle | hcurr
  · exact h.tasks.known _ (Or.inr (Or.inl hidle))
  · exact h.tasks.known _ (Or.inl hcurr)

theorem Core.fork {s : State} (h : Core s) (hb : Busy s) {child : TaskId}
    (hchild : s.created child = false) (hnone : s.forking s.curr = none) (now jiffies : Nat) :
    ∃ s', fork s child now jiffies = some s' ∧ Core s' ∧ Stays s s' := by
  have hcurr := h.curr_created hb
  have hne : s.curr ≠ child := by
    rintro rfl
    rw [hchild] at hcurr
    cases hcurr
  have harray : (s.task child).array = none := by
    by_contra hsome
    have hknown := h.tasks.known child (Or.inl hsome)
    rw [hchild] at hknown
    cases hknown
  have hcok := h.tasks.ok s.curr
  set t : Task := { s.task s.curr with
    state := .running
    array := none
    timeSlice := u32 ((s.task s.curr).timeSlice + 1) / 2
    firstTimeSlice := true
    timestamp := now } with ht
  have hok : TaskOk t := ⟨hcok.uwrr, hcok.static, hcok.prio, fun e => absurd rfl e,
    fun _ e => (by cases e)⟩
  -- the child exists; the parent's slice is still whole
  set m : State := { s.modUser t.user fun v => { v with count := v.count + 1 } with
    created := Function.update s.created child true
    forking := Function.update s.forking s.curr (some child)
    task := Function.update s.task child t } with hm
  have hloc : loc m.task = loc s.task := loc_update_same harray.symm (fun e => absurd rfl e)
  have hcore : Core m := by
    refine ⟨?_, ?_, ?_, h.tasks.fork hchild hcurr hnone hok rfl rfl rfl, h.refs.fork child t, h.bug⟩
    · rw [hloc]
      exact h.holds
    · rw [hloc]
      exact h.counts
    · rw [hloc]
      exact h.linked
  have hstays : Stays s m := Stays.of_update (p := child) rfl rfl (fun e => absurd harray e)
  set m₂ := m.modTask m.curr fun t => { t with timeSlice := t.timeSlice / 2 } with hm₂
  have hhalf : Core m₂ := hcore.retask m.curr _ ⟨rfl, rfl, rfl, rfl, rfl, rfl⟩
  have hstays₂ : Stays s m₂ := hstays.trans (Stays.modTask m m.curr _ rfl)
  show ∃ s', (if (m₂.task m₂.curr).timeSlice = 0 then
      schedulerTick (m₂.modTask m₂.curr fun t => { t with timeSlice := 1 }) jiffies
    else some m₂) = some s' ∧ Core s' ∧ Stays s s'
  split
  · -- the parent gave its last jiffy away
    have hone := hhalf.retask m₂.curr (fun t => { t with timeSlice := 1 })
      ⟨rfl, rfl, rfl, rfl, rfl, rfl⟩
    have hstays₃ := hstays₂.trans (Stays.modTask m₂ m₂.curr (fun t => { t with timeSlice := 1 }) rfl)
    obtain ⟨s', hs', hcore', hs''⟩ := hone.tick (hstays₃.busy hb) jiffies
    exact ⟨s', hs', hcore', hstays₃.trans hs''⟩
  · exact ⟨m₂, rfl, hhalf, hstays₂⟩

/-- `sleep_avg` is not a part of the invariant. -/
theorem penalizeSleepAvg_same (t : Task) (penalty : Nat) : Same t (penalizeSleepAvg t penalty) := by
  cases t
  exact ⟨rfl, rfl, rfl, rfl, rfl, rfl⟩

theorem newTaskPrio_array (t : Task) : (newTaskPrio t).array = t.array := by
  cases t
  rfl

theorem newTaskPrio_user (t : Task) : (newTaskPrio t).user = t.user := by
  cases t
  rfl

theorem newTaskPrio_policy (t : Task) : (newTaskPrio t).policy = t.policy := by
  cases t
  rfl

theorem TaskOk.newTaskPrio {t : Task} (h : TaskOk t) :
    TaskOk (newTaskPrio t) ∧ (newTaskPrio t).prio < MAX_PRIO := by
  have hpen := h.of_same (penalizeSleepAvg_same t 95)
  exact ⟨hpen.withEffectivePrio, (effectivePrio_bounds hpen).2⟩

/-- The child is given to the scheduler. -/
theorem Tasks.joined {task : TaskId → Task} {created : TaskId → Bool}
    {forking : TaskId → Option TaskId} (h : Tasks task created forking) {q child : TaskId}
    (hq : forking q = some child) :
    Tasks task created (Function.update forking q none) ∧
      ¬ Reserved (Function.update forking q none) child := by
  have hforking : ∀ x c, Function.update forking q none x = some c → x ≠ q ∧ forking x = some c := by
    intro x c hc
    by_cases hx : x = q
    · rw [hx, Function.update_self] at hc
      cases hc
    · rw [Function.update_of_ne hx] at hc
      exact ⟨hx, hc⟩
  have hreserved : ∀ p, Reserved (Function.update forking q none) p → Reserved forking p := by
    rintro p (hidle | ⟨x, hx⟩)
    · exact Or.inl hidle
    · exact Or.inr ⟨x, (hforking x p hx).2⟩
  refine ⟨⟨h.ok, fun p hor => h.known p (hor.imp_right (hreserved p)),
    fun p hres => h.reserved p (hreserved p hres), h.idle,
    fun x hx => h.notIdle x (hforking x _ hx).2, fun x c hc => h.user x c (hforking x c hc).2,
    fun x c hc => h.forker x c (hforking x c hc).2,
    fun x y c hx hy => h.parent x y c (hforking x c hx).2 (hforking y c hy).2⟩, ?_⟩
  rintro (hidle | ⟨x, hx⟩)
  · exact h.notIdle q (hidle ▸ hq)
  · exact (hforking x child hx).1 (h.parent x q child (hforking x child hx).2 hq)

/-- The fast path of `wake_up_new_task`: the child shares queue and priority of
its parent. -/
theorem Core.beside {s : State} (h : Core s) {p : TaskId} {r : ArrayRef}
    (hp : (s.task p).array = none) (hcreated : s.created p = true) (hres : ¬ Reserved s.forking p)
    (hr : (s.task s.curr).array = some r) (huser : (s.task p).user = (s.task s.curr).user)
    (hpol : (s.task p).policy = .uwrr ↔ (s.task s.curr).policy = .uwrr) :
    Core (enterBeside s p r) ∧ Stays s (enterBeside s p r) := by
  have hpl : loc s.task p = none := loc_eq_none.mpr hp
  have hql := Core.loc_curr hr
  have hcok := h.tasks.ok s.curr
  have hne : s.curr ≠ p := by
    intro e
    rw [e, hp] at hr
    cases hr
  set t : Task := { s.task p with prio := (s.task s.curr).prio, array := some r } with ht
  have htask : (enterBeside s p r).task = Function.update s.task p t := rfl
  have hloc : loc (enterBeside s p r).task =
      Function.update (loc s.task) p (some (r, (s.task s.curr).prio)) := by
    rw [htask, loc_update]
    rfl
  have harrays : (enterBeside s p r).arrays = Function.update s.arrays r
      ⟨(s.arrays r).nrActive + 1, (s.arrays r).bitmap,
        fun k => insertBefore p s.curr ((s.arrays r).queue k)⟩ := rfl
  have huwrr : (enterBeside s p r).uwrrRunning =
      s.uwrrRunning + if (s.task p).policy = .uwrr then 1 else 0 := by
    have hpolicy : ((s.modTask p fun t =>
        { t with prio := (s.task s.curr).prio, array := some r }).task p).policy =
        (s.task p).policy := by
      show (Function.update s.task p _ p).policy = _
      rw [Function.update_self]
    show (if ((s.modTask p fun t => { t with prio := (s.task s.curr).prio, array := some r }).task
      p).policy = .uwrr then s.uwrrRunning + 1 else s.uwrrRunning) = _
    rw [hpolicy]
    split
    · rfl
    · rw [add_zero]
  have hhome : ((s.task p).policy = .uwrr ∧ r = .user (s.task p).user) ∨
      ((s.task p).policy ≠ .uwrr ∧ ∃ i, r = .rq i) := by
    rcases hcok.home r hr with ⟨hc, hu⟩ | ⟨hc, hi⟩
    · exact Or.inl ⟨hpol.mpr hc, by rw [huser, hu]⟩
    · exact Or.inr ⟨fun e => hc (hpol.mp e), hi⟩
  have hok : TaskOk t := by
    refine ⟨?_, (h.tasks.ok p).static, hcok.prio, fun _ => hcok.queued (by rw [hr]; simp), ?_⟩
    · intro e
      exact ⟨(hcok.uwrr (hpol.mp e)).1, ((h.tasks.ok p).uwrr e).2⟩
    · intro r' e
      cases e
      exact hhome
  refine ⟨⟨?_, ?_, ?_, ?_, ?_, h.bug⟩, Stays.of_update rfl htask (fun _ e => (by cases e))⟩
  · rw [harrays, hloc]
    exact h.holds.insertBefore hpl hql
  · have hins := h.counts.insert h.holds.finitary hpl r (s.task s.curr).prio
    rw [hloc, huwrr]
    rcases hhome with ⟨hu, rfl⟩ | ⟨hu, i, rfl⟩
    · rw [if_pos hu]
      exact hins
    · rw [if_neg hu]
      exact hins
  · -- the queue of the parent has tasks already
    rw [hloc]
    refine h.linked.of_iff fun u => ?_
    rw [occupied_put hpl]
    refine ⟨fun e => e.elim id ?_, Or.inl⟩
    rintro rfl
    exact ⟨s.curr, _, hql⟩
  · rw [htask]
    exact h.tasks.update hok (Or.inl rfl) (fun _ => hcreated) (fun e => absurd e hres)
      (fun e => absurd (Or.inl e) hres)
  · rw [htask]
    exact h.refs.of_eq (user_update rfl) (fun _ => rfl)

theorem Core.wakeUpNew {s : State} (h : Core s) (hb : Busy s) {p : TaskId}
    (hp : s.forking s.curr = some p) {cloneVm : Bool}
    (hsafe : cloneVm = false → (s.task s.curr).array ≠ none →
      ((s.task p).policy = .uwrr ↔ (s.task s.curr).policy = .uwrr)) :
    ∃ s', wakeUpNewTask s p cloneVm = some s' ∧ Core s' ∧ Stays s s' := by
  have hreserved : Reserved s.forking p := Or.inr ⟨s.curr, hp⟩
  obtain ⟨harray, hstate⟩ := h.tasks.reserved p hreserved
  have hne : s.curr ≠ p := by
    intro e
    rcases hb with hidle | hqueued
    · exact h.tasks.notIdle s.curr (by rw [hp, ← e, hidle])
    · rw [e] at hqueued
      exact hqueued harray
  obtain ⟨hjoined, hres⟩ := h.tasks.joined hp
  -- the child with its new priority
  obtain ⟨hok, hlt⟩ := (h.tasks.ok p).newTaskPrio
  have hcarray := newTaskPrio_array (s.task p)
  have hjoin : Core { s with forking := Function.update s.forking s.curr none } :=
    ⟨h.holds, h.counts, h.linked, hjoined, h.refs, h.bug⟩
  set m := State.modTask { s with forking := Function.update s.forking s.curr none } p newTaskPrio
    with hm
  have hcore : Core m := hjoin.modTask p newTaskPrio hcarray (fun e => absurd harray e)
    (newTaskPrio_user _) hok (fun e => absurd e hres) (fun e => absurd (Or.inl e) hres)
  have hstays : Stays s m :=
    Stays.of_update (p := p) rfl rfl (by rw [newTaskPrio_array]; exact id)
  have hmp : m.task p = newTaskPrio (s.task p) := Function.update_self ..
  have hmc : m.task s.curr = s.task s.curr := Function.update_of_ne hne ..
  have hmarray : (m.task p).array = none := by
    rw [hmp, hcarray]
    exact harray
  have hmcreated : m.created p = true := h.tasks.known p (Or.inr hreserved)
  have henter := hcore.enter' hmarray hmcreated hres (by
    rw [hmp]
    exact hlt)
  -- the parent pays for the child last
  have hpay : ∀ s' : State, Core s' ∧ Stays m s' →
      Core (s'.modTask s'.curr fun t => penalizeSleepAvg t 100) ∧
        Stays s (s'.modTask s'.curr fun t => penalizeSleepAvg t 100) := by
    rintro s' ⟨hcore', hstays'⟩
    have hpaid := penalizeSleepAvg_same (s'.task s'.curr) 100
    exact ⟨hcore'.retask s'.curr _ hpaid,
      (hstays.trans hstays').trans (Stays.modTask s' s'.curr _ hpaid.array)⟩
  have hplace : Core (placeNewTask m p cloneVm) ∧ Stays m (placeNewTask m p cloneVm) := by
    rw [placeNewTask]
    cases cloneVm with
    | true => exact henter
    | false =>
        rcases array_cases (m.task m.curr) with hnone | ⟨r, hr⟩
        · rw [hnone]
          exact ⟨henter.1.resched _, henter.2.trans (Stays.resched _ _)⟩
        · rw [hr]
          have hr' : (s.task s.curr).array = some r := by
            rw [← hmc]
            exact hr
          obtain ⟨hbeside, hstays'⟩ := hcore.beside hmarray hmcreated hres hr
            (by
              show (m.task p).user = (m.task s.curr).user
              rw [hmp, hmc, newTaskPrio_user]
              exact h.tasks.user _ _ hp)
            (by
              show (m.task p).policy = .uwrr ↔ (m.task s.curr).policy = .uwrr
              rw [hmp, hmc, newTaskPrio_policy]
              exact hsafe rfl (by rw [hr']; simp))
          exact ⟨hbeside.resched _, hstays'.trans (Stays.resched _ _)⟩
  rw [wakeUpNewTask, if_neg (fun e => e hstate)]
  exact ⟨_, rfl, hpay _ hplace⟩

/-! ## Changing the user -/

/-- The reference moves with the task: the new user has one more, and the old
one has one to give back. -/
theorem Refs.switch {task : TaskId → Task} {created : TaskId → Bool} {user : UserId → User}
    (h : Refs task created user) {p : TaskId} (hp : created p = true) (t : Task) :
    let user' := Function.update user t.user { user t.user with count := (user t.user).count + 1 }
    Refs (Function.update task p t) created user' ∧
      ({q | created q = true ∧ (Function.update task p t q).user = (task p).user}.ncard : Int) + 1 ≤
        (user' (task p).user).count := by
  intro user'
  have hfin : ∀ u, {q | created q = true ∧ (task q).user = u}.Finite :=
    fun u => h.finite.subset fun q hq => hq.1
  have hsub : ∀ u, {q | created q = true ∧ (Function.update task p t q).user = u} ⊆
      insert p {q | created q = true ∧ (task q).user = u} := by
    rintro u q ⟨hc, hu⟩
    by_cases hq : q = p
    · exact Or.inl hq
    · rw [Function.update_of_ne hq] at hu
      exact Or.inr ⟨hc, hu⟩
  have hsub' : ∀ u, u ≠ t.user →
      {q | created q = true ∧ (Function.update task p t q).user = u} ⊆
        {q | created q = true ∧ (task q).user = u} \ {p} := by
    rintro u hu q ⟨hc, hqu⟩
    by_cases hq : q = p
    · rw [hq, Function.update_self] at hqu
      exact absurd hqu.symm hu
    · rw [Function.update_of_ne hq] at hqu
      exact ⟨⟨hc, hqu⟩, hq⟩
  have hnew : (user' t.user).count = (user t.user).count + 1 := by
    simp only [user', Function.update_self]
  have hother : ∀ u, u ≠ t.user → (user' u).count = (user u).count := by
    intro u hu
    simp only [user', Function.update_of_ne hu]
  refine ⟨⟨h.finite, fun u => ?_⟩, ?_⟩
  · have hcount := h.count u
    by_cases hu : u = t.user
    · have hle := Set.ncard_le_ncard (hsub u) ((hfin u).insert p)
      have hins := Set.ncard_insert_le p {q | created q = true ∧ (task q).user = u}
      rw [hu, hnew]
      rw [hu] at hle hins hcount
      omega
    · have hle := Set.ncard_le_ncard ((hsub' u hu).trans Set.sdiff_subset) (hfin u)
      rw [hother u hu]
      omega
  · have hcount := h.count (task p).user
    have hmem : p ∈ {q | created q = true ∧ (task q).user = (task p).user} := ⟨hp, rfl⟩
    by_cases hu : (task p).user = t.user
    · have hle := Set.ncard_le_ncard (hsub (task p).user) ((hfin _).insert p)
      rw [Set.insert_eq_of_mem hmem] at hle
      rw [hu] at hle hcount ⊢
      rw [hnew]
      omega
    · have hle := Set.ncard_le_ncard (hsub' (task p).user hu) ((hfin _).sdiff)
      have hlt := Set.ncard_sdiff_singleton_lt_of_mem hmem (hfin _)
      rw [hother _ hu]
      omega

/-- The reference is given back. A user that is freed has no task left, so it
is in no list. -/
theorem Core.freeUid {s : State} (h : Core s) {u : UserId}
    (hslack : ({p | s.created p = true ∧ (s.task p).user = u}.ncard : Int) + 1 ≤
      (s.user u).count) : Core (freeUid s u) ∧ Stays s (freeUid s u) := by
  have hrefs : ∀ user' : UserId → User, (user' u).count = (s.user u).count - 1 →
      (∀ v, v ≠ u → (user' v).count = (s.user v).count) → Refs s.task s.created user' := by
    intro user' hu hother
    refine ⟨h.refs.finite, fun v => ?_⟩
    by_cases hv : v = u
    · rw [hv, hu]
      omega
    · rw [hother v hv]
      exact h.refs.count v
  have hdec : Core (s.modUser u fun v => { v with count := v.count - 1 }) := by
    refine ⟨h.holds, h.counts, h.linked, h.tasks, hrefs _ ?_ ?_, h.bug⟩
    · show (Function.update s.user u _ u).count = _
      rw [Function.update_self]
    · intro v hv
      show (Function.update s.user u _ v).count = _
      rw [Function.update_of_ne hv]
  rw [Uwrr.freeUid]
  split
  · rename_i hfree
    have hzero : (s.user u).count - 1 = 0 := by
      have hcount := hfree.1
      rwa [show ((s.modUser u fun v => { v with count := v.count - 1 }).user u).count =
        (s.user u).count - 1 by
          show (Function.update s.user u _ u).count = _
          rw [Function.update_self]] at hcount
    have hnot : u ∉ s.uwrrUserlist := by
      rw [h.linked.mem]
      rintro ⟨p, k, hp⟩
      obtain ⟨harray, _⟩ := loc_eq_some.mp hp
      rcases (h.tasks.ok p).home _ harray with ⟨_, hu⟩ | ⟨_, i, hi⟩
      · have hmem : p ∈ {p | s.created p = true ∧ (s.task p).user = u} :=
          ⟨h.tasks.known p (Or.inl (by rw [harray]; simp)), (ArrayRef.user.inj hu).symm⟩
        have hpos := (Set.ncard_pos (h.refs.finite.subset fun q hq => hq.1)).mpr ⟨p, hmem⟩
        omega
      · cases hi
    have hlist : s.uwrrUserlist.erase u = s.uwrrUserlist := List.erase_of_not_mem hnot
    refine ⟨⟨h.holds, h.counts, ?_, h.tasks, hrefs _ ?_ ?_, h.bug⟩, ⟨rfl, fun _ => id⟩⟩
    · show Linked (s.uwrrUserlist.erase u) _
      rw [hlist]
      exact h.linked
    · show (Function.update (Function.update s.user u _) u _ u).count = _
      rw [Function.update_self, hzero]
      rfl
    · intro v hv
      show (Function.update (Function.update s.user u _) u _ v).count = _
      rw [Function.update_of_ne hv, Function.update_of_ne hv]
  · exact ⟨hdec, ⟨rfl, fun _ => id⟩⟩

/-- `uwrr_switch_user` on the list of users. `deactivate_task` sees the new user
in the task: with the last task of `old` it unlinks `new`, which
`__activate_task` links again; `old` is unlinked at the end. -/
theorem Linked.switch {userlist list₁ list₂ : List UserId} {l : Loc} (h : Linked userlist l)
    {p : TaskId} {old : UserId} {k : Int} (hp : l p = some (.user old, k)) {new : UserId}
    (h₁ : list₁ = userlist ∨ list₁ = userlist.erase new)
    (h₂ : list₂ = if new ∉ list₁ then list₁ ++ [new] else list₁) (k' : Int) :
    let l' := Function.update l p (some (.user new, k'))
    (Occupied l' old → Linked list₂ l') ∧ (¬ Occupied l' old → Linked (list₂.erase old) l') := by
  intro l'
  have hnodup₁ : list₁.Nodup := by
    rcases h₁ with rfl | rfl
    · exact h.nodup
    · exact h.nodup.erase new
  have hmem₁ : ∀ v, v ≠ new → (v ∈ list₁ ↔ v ∈ userlist) := by
    intro v hv
    rcases h₁ with rfl | rfl
    · exact Iff.rfl
    · rw [h.nodup.mem_erase_iff]
      exact ⟨fun e => e.2, fun e => ⟨hv, e⟩⟩
  have hnodup₂ : list₂.Nodup := by
    rw [h₂]
    split
    · rename_i hnot
      exact List.Nodup.append hnodup₁ (List.nodup_singleton new) (List.disjoint_singleton.mpr hnot)
    · exact hnodup₁
  have hmem₂ : ∀ v, v ∈ list₂ ↔ v ∈ userlist ∨ v = new := by
    intro v
    by_cases hv : v = new
    · refine ⟨fun _ => Or.inr hv, fun _ => ?_⟩
      rw [h₂, hv]
      split
      · exact List.mem_append_right _ (List.mem_singleton_self new)
      · rename_i hin
        exact not_not.mp hin
    · rw [← hmem₁ v hv, h₂]
      split
      · rw [List.mem_append, List.mem_singleton]
      · exact ⟨Or.inl, fun e => e.resolve_right hv⟩
  have hocc : ∀ v, v ≠ old → (Occupied l' v ↔ v ∈ userlist ∨ v = new) := by
    intro v hv
    have hput := occupied_put (Function.update_self p none l) (.user new) k' v
    rw [Function.update_idem, occupied_remove_other hp (fun e => hv (ArrayRef.user.inj e).symm),
      ArrayRef.user.injEq, eq_comm (a := new)] at hput
    rw [h.mem]
    exact hput
  have hold : old ∈ list₂ := (hmem₂ old).mpr (Or.inl ((h.mem old).mpr ⟨p, k, hp⟩))
  constructor
  · intro hoccupied
    refine ⟨hnodup₂, fun v => ?_⟩
    by_cases hv : v = old
    · rw [hv]
      exact ⟨fun _ => hoccupied, fun _ => hold⟩
    · rw [hmem₂, hocc v hv]
  · intro hempty
    refine ⟨hnodup₂.erase old, fun v => ?_⟩
    rw [hnodup₂.mem_erase_iff]
    by_cases hv : v = old
    · rw [hv]
      exact ⟨fun e => absurd rfl e.1, fun e => absurd e hempty⟩
    · rw [hmem₂, hocc v hv]
      exact ⟨fun e => e.2, fun e => ⟨hv, e⟩⟩

/-- The user of the current task is set and its task moves to the new array. -/
theorem Core.moveUser {s : State} (h : Core s) (hb : Busy s) (hcurr : s.curr ≠ idle)
    (hnone : s.forking s.curr = none) (new : UserId) :
    let m := (s.modUser new fun v => { v with count := v.count + 1 }).modTask s.curr
      fun t => { t with user := new }
    ∃ s', uwrrSwitchUser m s.curr (s.task s.curr).user = some s' ∧ Core s' ∧ Stays s s' ∧
      s'.created = m.created ∧ s'.user = m.user ∧ ∀ p, (s'.task p).user = (m.task p).user := by
  intro m
  obtain ⟨r, hr⟩ := hb.array hcurr
  have hqueued : (s.task s.curr).array ≠ none := by rw [hr]; simp
  have hres := h.not_reserved hqueued
  have hok := h.tasks.ok s.curr
  have hcreated := h.curr_created hb
  have hcl := Core.loc_curr hr
  have hmp : m.task s.curr = { s.task s.curr with user := new } := Function.update_self ..
  have hfree : s.forking s.curr = none ∧ ∀ q, s.forking q ≠ some s.curr :=
    ⟨hnone, fun q hq => hres (Or.inr ⟨q, hq⟩)⟩
  have hrefs : Refs m.task m.created m.user :=
    (h.refs.switch hcreated { s.task s.curr with user := new }).1
  by_cases hpol : (s.task s.curr).policy = .uwrr
  · obtain rfl : r = .user (s.task s.curr).user := by
      rcases hok.home r hr with ⟨_, hu⟩ | ⟨hno, _⟩
      · exact hu
      · exact absurd hpol hno
    set old := (s.task s.curr).user with hold
    have hmr : (m.task s.curr).array = some (.user old) := by
      rw [hmp]
      exact hr
    have hmpol : (m.task s.curr).policy = .uwrr := by
      rw [hmp]
      exact hpol
    -- off the old user's array, with the new user in the task
    obtain ⟨s₁, hs₁, hd⟩ := deactivateTask_eq hmr
    have hp₁ : s₁.task s.curr = { s.task s.curr with user := new, array := none } := by
      rw [hd.task, Function.update_self, hmp]
    have hhome : homeArray s₁ s.curr = .user new := by
      rw [homeArray, hp₁, if_pos hpol]
    -- on the new user's array
    have ha := activateTask'_eq s₁ s.curr
    set s₂ := activateTask' s₁ s.curr with hs₂
    have htask₂ : s₂.task = Function.update s.task s.curr
        { s.task s.curr with user := new, array := some (.user new) } := by
      rw [ha.task, hp₁, hhome, hd.task, Function.update_idem]
      show Function.update (Function.update s.task s.curr _) s.curr _ = _
      rw [Function.update_idem]
    have hloc₂ : loc s₂.task =
        Function.update (loc s.task) s.curr (some (.user new, (s.task s.curr).prio)) := by
      rw [htask₂, loc_update]
      rfl
    have hholds : Holds s₂.arrays (loc s₂.task) := by
      have hdeq := Holds.dequeue (s := m) (p := s.curr) (r := .user old) h.holds
        (by rw [hcl, hmp])
      rw [← hd.arrays] at hdeq
      have henq := hdeq.enqueue (Function.update_self ..) (.user new)
      rw [Function.update_idem, hp₁] at henq
      rw [ha.arrays, hhome, hloc₂]
      exact henq
    have hcounts : Counts s₂.nrRunning s₂.uwrrRunning (loc s₂.task) := by
      have hrem := h.counts.remove h.holds.finitary hcl
      have hins := hrem.insert (h.holds.finitary.update s.curr none) (Function.update_self ..)
        (.user new) (s.task s.curr).prio
      rw [Function.update_idem] at hins
      rw [ha.nrRunning, ha.uwrrRunning, hd.nrRunning, hd.uwrrRunning, hloc₂, hp₁, if_pos hmpol,
        if_pos hpol]
      exact hins
    have hlist₁ : s₁.uwrrUserlist = s.uwrrUserlist ∨
        s₁.uwrrUserlist = s.uwrrUserlist.erase new := by
      rw [hd.userlist, hmp]
      split
      · exact Or.inr rfl
      · exact Or.inl rfl
    have hlist₂ : s₂.uwrrUserlist = if new ∉ s₁.uwrrUserlist then
        s₁.uwrrUserlist ++ [new] else s₁.uwrrUserlist := by
      rw [ha.userlist, hp₁]
      simp only [hpol, true_and]
    obtain ⟨hlinked, hunlinked⟩ := h.linked.switch hcl hlist₁ hlist₂ (s.task s.curr).prio
    rw [← hloc₂] at hlinked hunlinked
    have htasks : Tasks s₂.task s₂.created s₂.forking := by
      rw [htask₂, ha.created, hd.created, ha.forking, hd.forking]
      refine h.tasks.update ?_ (Or.inr hfree) (fun _ => hcreated) (fun e => absurd e hres)
        (fun e => absurd e hcurr)
      refine ⟨hok.uwrr, hok.static, hok.prio, fun _ => hok.queued hqueued, fun r' hr' => ?_⟩
      cases hr'
      exact Or.inl ⟨hpol, rfl⟩
    have huser₂ : ∀ p, (s₂.task p).user = (m.task p).user := by
      intro p
      rw [htask₂]
      show (Function.update s.task s.curr _ p).user = (Function.update s.task s.curr _ p).user
      by_cases hp : p = s.curr
      · rw [hp, Function.update_self, Function.update_self]
      · rw [Function.update_of_ne hp, Function.update_of_ne hp]
    have hcreated₂ : s₂.created = m.created := ha.created.trans hd.created
    have huserfun₂ : s₂.user = m.user := ha.user.trans hd.user
    have hrefs₂ : Refs s₂.task s₂.created s₂.user := by
      rw [hcreated₂, huserfun₂]
      exact hrefs.of_eq huser₂ (fun _ => rfl)
    have hbug₂ : s₂.bug = false := (ha.bug.trans hd.bug).trans h.bug
    have hstays₂ : Stays s s₂ :=
      Stays.of_update (ha.curr.trans hd.curr) htask₂ (fun _ e => (by cases e))
    have hswitch : uwrrSwitchUser m s.curr old =
        some (if (s₂.arrays (.user old)).nrActive = 0 then
          { s₂ with uwrrUserlist := s₂.uwrrUserlist.erase old } else s₂) := by
      rw [uwrrSwitchUser, if_neg (fun e => e hmpol), if_neg (by rw [hmr]; simp), hs₁]
      rfl
    rw [hswitch]
    refine ⟨_, rfl, ?_⟩
    -- the old user is left in the list exactly when it has other tasks
    have hempty : (s₂.arrays (.user old)).nrActive = 0 ↔ ¬ Occupied (loc s₂.task) old := by
      rw [hholds.nrActive_eq_zero]
      constructor
      · rintro hno ⟨p, k, hp⟩
        exact hno p k hp
      · exact fun hno p k hp => hno ⟨p, k, hp⟩
    split
    · rename_i hzero
      exact ⟨⟨hholds, hcounts, hunlinked (hempty.mp hzero), htasks, hrefs₂, hbug₂⟩,
        ⟨hstays₂.curr, hstays₂.array⟩, hcreated₂, huserfun₂, huser₂⟩
    · rename_i hne
      have hocc : Occupied (loc s₂.task) old := by
        by_contra hno
        exact hne (hempty.mpr hno)
      exact ⟨⟨hholds, hcounts, hlinked hocc, htasks, hrefs₂, hbug₂⟩, hstays₂, hcreated₂,
        huserfun₂, huser₂⟩
  · -- other tasks stay in the array they are in
    have hmpol : (m.task s.curr).policy ≠ .uwrr := by
      rw [hmp]
      exact hpol
    rw [uwrrSwitchUser, if_pos hmpol]
    have hok' : TaskOk { s.task s.curr with user := new } := by
      refine ⟨hok.uwrr, hok.static, hok.prio, hok.queued, fun r' hr' => ?_⟩
      rcases hok.home r' hr' with ⟨hu, _⟩ | hrq
      · exact absurd hu hpol
      · exact Or.inr hrq
    have hloc : loc m.task = loc s.task := loc_update_same rfl (fun _ => rfl)
    refine ⟨m, rfl, ⟨?_, ?_, ?_, ?_, hrefs, h.bug⟩, Stays.of_update (p := s.curr) rfl rfl id,
      rfl, rfl, fun _ => rfl⟩
    · rw [hloc]
      exact h.holds
    · rw [hloc]
      exact h.counts
    · rw [hloc]
      exact h.linked
    · exact h.tasks.update hok' (Or.inr hfree) (fun _ => hcreated) (fun e => absurd e hres)
        (fun _ => hpol)

theorem Core.switch {s : State} (h : Core s) (hb : Busy s) (hcurr : s.curr ≠ idle)
    (hnone : s.forking s.curr = none) (new : UserId) :
    ∃ s', switchUid s new = some s' ∧ Core s' ∧ Stays s s' := by
  obtain ⟨s', hs', hcore, hstays, hcreated, huser, htask⟩ := h.moveUser hb hcurr hnone new
  have hslack := (h.refs.switch (h.curr_created hb) { s.task s.curr with user := new }).2
  have hfree := hcore.freeUid (u := (s.task s.curr).user) (by
    simp only [hcreated, huser, htask]
    exact hslack)
  refine ⟨Uwrr.freeUid s' (s.task s.curr).user, ?_, hfree.1, hstays.trans hfree.2⟩
  exact (congrArg (fun o => o.bind fun s' => some (Uwrr.freeUid s' (s.task s.curr).user)) hs').trans
    rfl

end LinuxHacks.Uwrr
