import LinuxHacks.Uwrr.Invariant
import LinuxHacks.Uwrr.View

/-!
# A runqueue with other owners

`Housed v l s`: the runqueue `s` satisfies `Core` once the tasks have the owners
that `v` shows and the list of users is `l`. That is the case while a task is in
the array of a user that is not its own any more.

Each function of the scheduler does to the view what it does to the runqueue
(`see_*`), so it keeps `Housed` because it keeps `Core`; and because it commutes
with the view of everything as it is (`State.whole`), it changes no owner
(`SameOwners`). Only the list of users takes an argument of its own: the list of
the view stays part of the real one unless `deactivate_task` unlinks a user that
has tasks (`Strands`).
-/

namespace LinuxHacks.Uwrr

open LinuxHacks.Lib
open LinuxHacks.Lib.Placement

/-- The last task in the array of another user, while its own user has tasks. -/
def Strands (s : State) (p : TaskId) : Prop :=
  ∃ r, (s.task p).array = some r ∧ (s.task p).policy = .uwrr ∧ (s.arrays r).nrActive = 1 ∧
    r ≠ .user (s.task p).user ∧ (s.arrays (.user (s.task p).user)).nrActive ≠ 0

/-! ## The whole runqueue -/

/-- Everything, as it is. -/
def State.whole (s : State) : View where
  live := fun _ => true
  owner := fun p => (s.task p).user
  shown := fun _ => true
  users := s.user
  created := s.created
  forking := s.forking

theorem whole_see (s : State) : s.whole.see s.uwrrUserlist s = s := rfl

/-- Owners and references did not change. -/
structure SameOwners (s s' : State) : Prop where
  user : ∀ p, (s'.task p).user = (s.task p).user
  created : s'.created = s.created
  forking : s'.forking = s.forking
  count : ∀ u, (s'.user u).count = (s.user u).count

theorem SameOwners.refl (s : State) : SameOwners s s := ⟨fun _ => rfl, rfl, rfl, fun _ => rfl⟩

theorem SameOwners.trans {s s' s'' : State} (h : SameOwners s s') (h' : SameOwners s' s'') :
    SameOwners s s'' where
  user := fun p => (h'.user p).trans (h.user p)
  created := h'.created.trans h.created
  forking := h'.forking.trans h.forking
  count := fun u => (h'.count u).trans (h.count u)

/-- A function that commutes with views writes nothing that a view can replace. -/
theorem SameOwners.of_whole {s s' : State} {l : List UserId} (h : s' = s.whole.see l s') :
    SameOwners s s' where
  user := by
    intro p
    rw [h]
    rfl
  created := by
    rw [h]
    rfl
  forking := by
    rw [h]
    rfl
  count := by
    intro u
    rw [h]
    rfl

theorem list_of_whole {s s' : State} {l : List UserId} (h : s' = s.whole.see l s') :
    s'.uwrrUserlist = l := by
  rw [h]
  rfl

/-- The same for a function that may reach a `BUG`. -/
theorem whole_of_map {s s' : State} {f : State → Option State} {l : List UserId}
    (hsee : f (s.whole.see s.uwrrUserlist s) = (f s).map (s.whole.see l))
    (hs' : f s = some s') : s' = s.whole.see l s' := by
  rw [whole_see, hs'] at hsee
  exact Option.some.inj hsee

/-! ## The owners before the switch -/

/-- The runqueue is in order for the owners in `v`. -/
structure Housed (v : View) (l : List UserId) (s : State) : Prop where
  live : ∀ p, v.live p = true
  shown : ∀ r, v.shown r = true
  created : v.created = s.created
  forking : v.forking = s.forking
  core : Core (v.see l s)
  nodup : s.uwrrUserlist.Nodup

section Housed

variable {v : View} {l : List UserId} {s s' : State} {p : TaskId}

/-- A function that does to the view what it does to the runqueue. -/
theorem Housed.of_see (h : Housed v l s) {l' : List UserId} (howners : SameOwners s s')
    (hcore : Core (v.see l' s')) (hnodup : s'.uwrrUserlist.Nodup) : Housed v l' s' :=
  ⟨h.live, h.shown, h.created.trans howners.created.symm, h.forking.trans howners.forking.symm,
    hcore, hnodup⟩

theorem Housed.task (h : Housed v l s) (p : TaskId) :
    (v.see l s).task p = { s.task p with user := v.owner p } := see_task (h.live p)

theorem Housed.arrays (h : Housed v l s) : (v.see l s).arrays = s.arrays :=
  funext fun r => see_arrays (h.shown r)

theorem Housed.created_iff (h : Housed v l s) (p : TaskId) :
    (v.see l s).created p = s.created p := congrFun h.created p

theorem Housed.notReserved (h : Housed v l s) (hp : ¬ Reserved s.forking p) :
    ¬ Reserved (v.see l s).forking p := by
  rw [show (v.see l s).forking = s.forking from h.forking]
  exact hp

/-- What `Tasks` says about a queued task. -/
theorem Housed.queued (h : Housed v l s) (hp : (s.task p).array ≠ none) :
    ¬ Reserved s.forking p ∧ s.created p = true := by
  refine ⟨fun hres => ?_, ?_⟩
  · rw [← h.forking] at hres
    have hnone := (h.core.tasks.reserved p hres).1
    rw [h.task] at hnone
    exact hp hnone
  · rw [← h.created_iff]
    exact h.core.tasks.known p (Or.inl (by rw [h.task]; exact hp))

theorem Housed.busy (h : Housed v l s) (hb : Busy s) : Busy (v.see l s) := by
  rw [Busy, show (v.see l s).curr = s.curr from rfl, h.task]
  exact hb

theorem Housed.unbusy (h : Housed v l s) (hb : Busy (v.see l s)) : Busy s := by
  rw [Busy, show (v.see l s).curr = s.curr from rfl, h.task] at hb
  exact hb

theorem Housed.linked_iff (h : Housed v l s) (u : UserId) :
    u ∈ l ↔ (s.arrays (.user u)).nrActive ≠ 0 := by
  have hpos := h.core.nrActive_pos u
  have hnn : 0 ≤ (s.arrays (.user u)).nrActive := by
    have hcount := h.core.holds.nrActive (.user u)
    rw [h.arrays] at hcount
    omega
  rw [h.arrays] at hpos
  rw [show (u ∈ l ↔ Occupied _ u) from h.core.linked.mem u, ← hpos]
  omega

/-- The list of the view can be cut to the users with tasks. -/
theorem Housed.relist (h : Housed v l s) (hsub : l ⊆ s.uwrrUserlist) :
    Housed v (queuedUsers s) s := by
  refine h.of_see (SameOwners.refl s) ?_ h.nodup
  refine h.core.of_eq rfl rfl rfl rfl ⟨h.nodup.filter _, fun u => ?_⟩ rfl rfl (fun _ => rfl) rfl
  rw [← h.core.linked.mem u]
  show u ∈ s.uwrrUserlist.filter _ ↔ u ∈ l
  rw [List.mem_filter, decide_eq_true_eq, ← h.linked_iff]
  exact ⟨fun hu => hu.2, fun hu => ⟨hsub hu, hu⟩⟩

/-! ### The lists -/

theorem enteredList_nodup {us : List UserId} (hus : us.Nodup) (t : Task) :
    (enteredList us t).Nodup := by
  rw [enteredList]
  split
  · rename_i hnew
    exact List.Nodup.append hus (List.nodup_singleton _) (List.disjoint_singleton.mpr hnew.2)
  · exact hus

theorem mem_enteredList {us : List UserId} {t : Task} {u : UserId} :
    u ∈ enteredList us t ↔ u ∈ us ∨ (t.policy = .uwrr ∧ u = t.user) := by
  rw [enteredList]
  split
  · rename_i hnew
    rw [List.mem_append, List.mem_singleton]
    exact or_congr_right ⟨fun e => ⟨hnew.1, e⟩, fun e => e.2⟩
  · rename_i hold
    refine ⟨Or.inl, ?_⟩
    rintro (hu | ⟨hpol, rfl⟩)
    · exact hu
    · by_contra hnot
      exact hold ⟨hpol, hnot⟩

theorem leftList_nodup {us : List UserId} (hus : us.Nodup) (t : Task) (a : PrioArray)
    (u : UserId) : (leftList us t a u).Nodup := by
  rw [leftList]
  split
  · exact hus.erase u
  · exact hus

theorem mem_leftList {us : List UserId} (hus : us.Nodup) {t : Task} {a : PrioArray}
    {u w : UserId} :
    w ∈ leftList us t a u ↔ w ∈ us ∧ ¬ (t.policy = .uwrr ∧ a.nrActive = 1 ∧ w = u) := by
  rw [leftList]
  split
  · rename_i hlast
    rw [hus.mem_erase_iff]
    exact ⟨fun e => ⟨e.2, fun h => e.1 h.2.2⟩, fun e => ⟨fun h => e.2 ⟨hlast.1, hlast.2, h⟩, e.1⟩⟩
  · rename_i hnot
    exact ⟨fun e => ⟨e, fun h => hnot ⟨h.1, h.2.1⟩⟩, fun e => e.1⟩

/-! ### Leaving and entering -/

theorem Housed.deactivate (h : Housed v l s) {r : ArrayRef} (hr : (s.task p).array = some r) :
    ∃ s', deactivateTask s p = some s' ∧ Deactivated s p r s' ∧ SameOwners s s' ∧
      Housed v (leftList l (s.task p) (s.arrays r) (v.owner p)) s' ∧
      s'.uwrrUserlist = leftList s.uwrrUserlist (s.task p) (s.arrays r) (s.task p).user := by
  obtain ⟨s', hs', hd⟩ := deactivateTask_eq hr
  have hr' : ((v.see l s).task p).array = some r := by
    rw [h.task]
    exact hr
  have howners : SameOwners s s' := ⟨by rw [hd.task]; exact user_update rfl, hd.created, hd.forking,
    by rw [hd.user]; exact fun _ => rfl⟩
  obtain ⟨m, hm, hd'⟩ := deactivateTask_eq hr'
  have hcore := h.core.deactivate hr' hd'
  rw [see_deactivate (h.live p) hr (h.shown r), hs', Option.map_some] at hm
  obtain rfl := Option.some.inj hm
  have hlist : s'.uwrrUserlist = leftList s.uwrrUserlist (s.task p) (s.arrays r) (s.task p).user :=
    hd.userlist
  refine ⟨s', hs', hd, howners, h.of_see howners hcore ?_, hlist⟩
  rw [hlist]
  exact leftList_nodup h.nodup _ _ _

theorem Housed.activate' (h : Housed v l s) (howner : v.owner p = (s.task p).user)
    (hp : (s.task p).array = none) (hcreated : s.created p = true)
    (hres : ¬ Reserved s.forking p) (hprio : (s.task p).prio < MAX_PRIO) :
    Housed v (enteredList l (s.task p)) (activateTask' s p) ∧ SameOwners s (activateTask' s p) ∧
      Stays s (activateTask' s p) ∧
      (activateTask' s p).uwrrUserlist = enteredList s.uwrrUserlist (s.task p) := by
  have hact := activateTask'_eq s p
  have howners : SameOwners s (activateTask' s p) := ⟨by rw [hact.task]; exact user_update rfl,
    hact.created, hact.forking, by rw [hact.user]; exact fun _ => rfl⟩
  have hlist : (activateTask' s p).uwrrUserlist = enteredList s.uwrrUserlist (s.task p) :=
    hact.userlist
  have hcore := (h.core.enter' (p := p) (by rw [h.task]; exact hp)
    ((h.created_iff p).trans hcreated) (h.notReserved hres) (by rw [h.task]; exact hprio)).1
  rw [see_activate (h.live p) howner (h.shown _)] at hcore
  refine ⟨h.of_see howners hcore ?_, howners,
    Stays.of_update hact.curr hact.task fun _ e => (by cases e), hlist⟩
  rw [hlist]
  exact enteredList_nodup h.nodup _

/-! ### Calls that change no owner -/

/-- What a call leaves that does not look at the owners. -/
structure Goes (v : View) (s s' : State) : Prop where
  housed : ∃ l, Housed v l s' ∧ l ⊆ s'.uwrrUserlist
  busy : Busy s'
  owners : SameOwners s s'

theorem Housed.wakeUp (h : Housed v l s) (hsub : l ⊆ s.uwrrUserlist) (hb : Busy s)
    (hcreated : s.created p = true)
    (howner : (s.task p).array = none → v.owner p = (s.task p).user)
    (mask sync inInterrupt : Bool) (now : Nat) :
    Goes v s (tryToWakeUp s p mask sync now inInterrupt) := by
  have hsee := see_wakeUp (l := l) (h.live p) (h.live s.curr)
    (fun hp => ⟨howner hp, h.shown _⟩) mask sync inInterrupt now
  have hwhole : tryToWakeUp s p mask sync now inInterrupt =
      s.whole.see (wokenList s.uwrrUserlist (s.task p) mask)
        (tryToWakeUp s p mask sync now inInterrupt) :=
    see_wakeUp (v := s.whole) (l := s.uwrrUserlist) rfl rfl (fun _ => ⟨rfl, rfl⟩) mask sync
      inInterrupt now
  obtain ⟨hcore, hstays⟩ := h.core.wakeUp ((h.created_iff p).trans hcreated) mask sync
    inInterrupt now
  rw [hsee] at hcore hstays
  have howners := SameOwners.of_whole hwhole
  have hlists : wokenList l (s.task p) mask ⊆ wokenList s.uwrrUserlist (s.task p) mask ∧
      (wokenList s.uwrrUserlist (s.task p) mask).Nodup := by
    rw [wokenList, wokenList]
    split
    · exact ⟨hsub, h.nodup⟩
    · split
      · exact ⟨hsub, h.nodup⟩
      · refine ⟨fun u hu => ?_, enteredList_nodup h.nodup _⟩
        rw [mem_enteredList] at hu ⊢
        exact hu.imp_left fun e => hsub e
  rw [← list_of_whole hwhole] at hlists
  have hhoused := h.of_see howners hcore hlists.2
  exact ⟨⟨_, hhoused, hlists.1⟩, hhoused.unbusy (hstays.busy (h.busy hb)), howners⟩

theorem Housed.activate (h : Housed v l s) (hsub : l ⊆ s.uwrrUserlist) (hb : Busy s)
    (howner : v.owner p = (s.task p).user) (hp : (s.task p).array = none)
    (hcreated : s.created p = true) (hres : ¬ Reserved s.forking p) (now : Nat)
    (inInterrupt : Bool) : Goes v s (activateTask s p now inInterrupt) := by
  have hsee := see_activateTask (l := l) (h.live p) howner (h.shown _) now inInterrupt
  have hwhole : activateTask s p now inInterrupt =
      s.whole.see (enteredList s.uwrrUserlist (s.task p)) (activateTask s p now inInterrupt) :=
    see_activateTask (v := s.whole) (l := s.uwrrUserlist) rfl rfl rfl now inInterrupt
  obtain ⟨hcore, hstays⟩ := h.core.enter (p := p) (by rw [h.task]; exact hp)
    ((h.created_iff p).trans hcreated) (h.notReserved hres) now inInterrupt
  rw [hsee] at hcore hstays
  have howners := SameOwners.of_whole hwhole
  have hlist := list_of_whole hwhole
  have hhoused := h.of_see howners hcore (by rw [hlist]; exact enteredList_nodup h.nodup _)
  refine ⟨⟨_, hhoused, fun u hu => ?_⟩, hhoused.unbusy (hstays.busy (h.busy hb)), howners⟩
  rw [hlist, mem_enteredList]
  exact (mem_enteredList.mp hu).imp_left fun e => hsub e

theorem Housed.setState (h : Housed v l s) (hsub : l ⊆ s.uwrrUserlist) (hb : Busy s)
    (hcurr : s.curr ≠ idle) (st : RunState) :
    Goes v s (s.modTask s.curr fun t => { t with state := st }) := by
  have hb' := h.busy hb
  obtain ⟨r, hr⟩ := hb'.array hcurr
  have hok := h.core.tasks.ok s.curr
  have hres := h.core.not_reserved (p := s.curr) (by rw [show s.curr = (v.see l s).curr from rfl, hr]; simp)
  have hcore := h.core.modTask s.curr (fun t => { t with state := st }) rfl (fun _ => rfl) rfl
    ⟨hok.uwrr, hok.static, hok.prio, hok.queued, hok.home⟩ (fun e => absurd e hres)
    (fun e => absurd e hcurr)
  have hstays := Stays.modTask (v.see l s) s.curr (fun t => { t with state := st }) rfl
  rw [see_modTask (h.live _) fun _ _ => rfl] at hcore hstays
  have howners : SameOwners s (s.modTask s.curr fun t => { t with state := st }) :=
    ⟨user_update rfl, rfl, rfl, fun _ => rfl⟩
  have hhoused := h.of_see howners hcore h.nodup
  exact ⟨⟨_, hhoused, hsub⟩, hhoused.unbusy (hstays.busy hb'), howners⟩

/-- The owners and the list of users are as before. -/
theorem Housed.through (h : Housed v l s) (hsub : l ⊆ s.uwrrUserlist)
    (hwhole : s' = s.whole.see s.uwrrUserlist s') (hcore : Core (v.see l s')) :
    Housed v l s' ∧ l ⊆ s'.uwrrUserlist ∧ SameOwners s s' := by
  have howners := SameOwners.of_whole hwhole
  have hlist := list_of_whole hwhole
  refine ⟨h.of_see howners hcore ?_, ?_, howners⟩
  · rw [hlist]
    exact h.nodup
  · rw [hlist]
    exact hsub

/-! ### The tick -/

theorem modUser_count (s : State) (u : UserId) {f : User → User}
    (hf : (f (s.user u)).count = (s.user u).count) (w : UserId) :
    ((s.modUser u f).user w).count = (s.user w).count := by
  by_cases hw : w = u
  · rw [hw]
    show (Function.update s.user u _ u).count = _
    rw [Function.update_self]
    exact hf
  · show (Function.update s.user u _ w).count = _
    rw [Function.update_of_ne hw]

/-- The slice of the user of `p`, and when it is used up the end of the list. -/
theorem uwrrTickUser_cases (s : State) (p : TaskId) :
    ∃ users : UserId → User, (∀ u, (users u).count = (s.user u).count) ∧
      (uwrrTickUser s p = { s with user := users } ∨
        uwrrTickUser s p = reschedTask { s with
          user := users
          uwrrUserlist := s.uwrrUserlist.erase (s.task p).user ++ [(s.task p).user] } p) := by
  set m := s.modUser (s.task p).user fun w => { w with uwrrTimeSlice := dec32 w.uwrrTimeSlice }
    with hm
  have hdec : ∀ u, (m.user u).count = (s.user u).count := modUser_count s _ rfl
  rw [uwrrTickUser]
  dsimp only
  rw [← hm]
  split
  · refine ⟨(m.modUser (s.task p).user fun w =>
      { w with uwrrTimeSlice := u32 (100 * w.uwrrWeight) }).user, fun u => ?_, Or.inr rfl⟩
    exact (modUser_count m (s.task p).user (f := fun w =>
      { w with uwrrTimeSlice := u32 (100 * w.uwrrWeight) }) rfl u).trans (hdec u)
  · exact ⟨m.user, hdec, Or.inl rfl⟩

theorem Housed.tickUser (h : Housed v l s) (hsub : l ⊆ s.uwrrUserlist) (hb : Busy s)
    (p : TaskId) : Goes v s (uwrrTickUser s p) := by
  obtain ⟨users, hcount, hs' | hs'⟩ := uwrrTickUser_cases s p
  · rw [hs']
    exact ⟨⟨l, ⟨h.live, h.shown, h.created, h.forking, h.core, h.nodup⟩, hsub⟩, hb,
      ⟨fun _ => rfl, rfl, rfl, hcount⟩⟩
  · rw [hs']
    set m : State := { s with
      user := users
      uwrrUserlist := s.uwrrUserlist.erase (s.task p).user ++ [(s.task p).user] } with hm
    have hcore : Core (v.see l (reschedTask m p)) := by
      rw [← see_resched (h.live p)]
      exact h.core.resched p
    have howners : SameOwners s (reschedTask m p) := ⟨user_update rfl, rfl, rfl, hcount⟩
    refine ⟨⟨l, h.of_see howners hcore ?_, fun u hu => ?_⟩, (Stays.resched m p).busy hb, howners⟩
    · exact List.Nodup.append (h.nodup.erase _) (List.nodup_singleton _)
        (List.disjoint_singleton.mpr h.nodup.not_mem_erase)
    · show u ∈ s.uwrrUserlist.erase (s.task p).user ++ [(s.task p).user]
      rw [List.mem_append, List.mem_singleton, h.nodup.mem_erase_iff]
      by_cases he : u = (s.task p).user
      · exact Or.inr he
      · exact Or.inl ⟨he, hsub hu⟩

theorem Housed.tickUwrr (h : Housed v l s) (hsub : l ⊆ s.uwrrUserlist) (hb : Busy s)
    {r : ArrayRef} (hr : (s.task s.curr).array = some r)
    (hpol : (s.task s.curr).policy = .uwrr) :
    ∃ s', uwrrTick s s.curr = some s' ∧ Goes v s s' := by
  have hok := h.core.tasks.ok s.curr
  rw [h.task] at hok
  obtain ⟨hprio, hstatic⟩ := hok.uwrr hpol
  have hprio : (s.task s.curr).prio = UWRR_TASK_PRIO := hprio
  have hstatic : (s.task s.curr).staticPrio = UWRR_TASK_PRIO := hstatic
  obtain ⟨m, hm, hcore, hstays, -⟩ := h.core.tickTask (p := s.curr) (by rw [h.task]; exact hr)
  rw [see_tickTask (h.live _) hr (h.shown r)] at hm
  obtain ⟨s₁, hs₁, rfl⟩ := Option.map_eq_some_iff.mp hm
  have hwhole : s₁ = s.whole.see s.uwrrUserlist s₁ :=
    whole_of_map (f := fun s => uwrrTickTask s s.curr)
      (see_tickTask (v := s.whole) (l := s.uwrrUserlist) rfl hr rfl) hs₁
  obtain ⟨h₁, hsub₁, howners⟩ := h.through hsub hwhole hcore
  obtain ⟨hhoused, hbusy, howners₁⟩ := h₁.tickUser hsub₁
    (h₁.unbusy (hstays.busy (h.busy hb))) s.curr
  refine ⟨uwrrTickUser s₁ s.curr, ?_, hhoused, hbusy, howners.trans howners₁⟩
  rw [uwrrTick, hprio, hstatic, hs₁]
  rfl

theorem Housed.tick (h : Housed v l s) (hsub : l ⊆ s.uwrrUserlist) (hb : Busy s)
    (jiffies : Nat) : ∃ s', schedulerTick s jiffies = some s' ∧ Goes v s s' := by
  by_cases hpol : (s.task s.curr).policy = .uwrr
  · have hidle : s.curr ≠ idle := by
      intro e
      have hno := h.core.tasks.idle
      rw [h.task, ← e] at hno
      exact hno hpol
    obtain ⟨r, hr⟩ := hb.array hidle
    have hok := h.core.tasks.ok s.curr
    rw [h.task] at hok
    have hprio : (s.task s.curr).prio = UWRR_TASK_PRIO := (hok.uwrr hpol).1
    have hrt : ¬ rtTask (s.task s.curr) = true := by
      rw [rtTask, hprio]
      decide
    obtain ⟨s', hs', hgoes⟩ := h.tickUwrr hsub hb hr hpol
    refine ⟨s', ?_, hgoes⟩
    rw [schedulerTick]
    dsimp only
    rw [if_neg hidle, if_neg (fun e => e.2 hpol), if_neg hrt, if_pos hpol, hs']
  · obtain ⟨m, hm, hcore, hstays⟩ := h.core.tick (h.busy hb) jiffies
    rw [see_tick (h.live _) (fun i => h.shown _) hpol] at hm
    obtain ⟨s', hs', rfl⟩ := Option.map_eq_some_iff.mp hm
    have hwhole : s' = s.whole.see s.uwrrUserlist s' :=
      whole_of_map (f := fun s => schedulerTick s jiffies)
        (see_tick (v := s.whole) (l := s.uwrrUserlist) rfl (fun _ => rfl) hpol jiffies) hs'
    obtain ⟨hhoused, hsub', howners⟩ := h.through hsub hwhole hcore
    exact ⟨s', hs', ⟨l, hhoused, hsub'⟩, hhoused.unbusy (hstays.busy (h.busy hb)), howners⟩

/-! ### `schedule` -/

theorem putList_sub (hl : l.Nodup) (h : Housed v l s) (hsub : l ⊆ s.uwrrUserlist)
    (preemptActive signalPending : Bool) :
    putList l s preemptActive signalPending ⊆
        putList s.uwrrUserlist s preemptActive signalPending ∧
      (putList s.uwrrUserlist s preemptActive signalPending).Nodup := by
  rw [putList, putList]
  split
  · exact ⟨hsub, h.nodup⟩
  · split
    · exact ⟨hsub, h.nodup⟩
    · split
      · exact ⟨hsub, h.nodup⟩
      · refine ⟨fun u hu => ?_, leftList_nodup h.nodup _ _ _⟩
        rw [mem_leftList h.nodup]
        rw [mem_leftList hl] at hu
        exact hu.imp_left fun e => hsub e

theorem Housed.putPrev (h : Housed v l s) (hsub : l ⊆ s.uwrrUserlist) (hb : Busy s)
    {preemptActive : Bool} (howner : preemptActive = false → v.owner s.curr = (s.task s.curr).user)
    (signalPending : Bool) :
    ∃ s' l', putPrev s preemptActive signalPending = some s' ∧ Housed v l' s' ∧
      l' ⊆ s'.uwrrUserlist ∧ SameOwners s s' := by
  obtain ⟨m, hm, hcore, -⟩ := h.core.putPrev (h.busy hb) preemptActive signalPending
  rw [see_putPrev (h.live _) howner (fun r _ => h.shown r)] at hm
  obtain ⟨s', hs', rfl⟩ := Option.map_eq_some_iff.mp hm
  have hwhole : s' = s.whole.see (putList s.uwrrUserlist s preemptActive signalPending) s' :=
    whole_of_map (f := fun s => Uwrr.putPrev s preemptActive signalPending)
      (see_putPrev (v := s.whole) (l := s.uwrrUserlist) rfl (fun _ => rfl) (fun _ _ => rfl)
        signalPending) hs'
  have howners := SameOwners.of_whole hwhole
  have hlists := putList_sub h.core.linked.nodup h hsub preemptActive signalPending
  rw [← list_of_whole hwhole] at hlists
  exact ⟨s', _, hs', h.of_see howners hcore hlists.2, hlists.1, howners⟩

theorem Housed.switchTasks (h : Housed v l s) (hsub : l ⊆ s.uwrrUserlist) {next : TaskId}
    (hnext : next = idle ∨ (s.task next).array ≠ none) (now run : Nat) :
    Goes v s (switchTasks s next now run) := by
  have hnext' : next = idle ∨ ((v.see l s).task next).array ≠ none := by
    rw [h.task]
    exact hnext
  obtain ⟨hcore, hbusy⟩ := h.core.switchTasks hnext' now run
  rw [see_switch (h.live _) (h.live _)] at hcore hbusy
  have hwhole : Uwrr.switchTasks s next now run =
      s.whole.see s.uwrrUserlist (Uwrr.switchTasks s next now run) :=
    see_switch (v := s.whole) (l := s.uwrrUserlist) rfl rfl now run
  obtain ⟨hhoused, hsub', howners⟩ := h.through hsub hwhole hcore
  exact ⟨⟨l, hhoused, hsub'⟩, hhoused.unbusy hbusy, howners⟩

/-- The search for the next task. -/
theorem Housed.pickQueue (h : Housed v l s) (hsub : l ⊆ s.uwrrUserlist)
    (hready : (s.arrays s.activeArray).nrActive ≠ 0 ∨ s.uwrrRunning ≠ 0) :
    ∃ s' p queue, pickQueue s = some (s', p :: queue) ∧ Housed v (queuedUsers s') s' ∧
      (s'.task p).array ≠ none ∧ SameOwners s s' := by
  have h' := h.relist hsub
  obtain ⟨m, p, queue, hm, hcore, -, hp⟩ := h'.core.pickQueue (by
    rw [h'.arrays]
    exact hready)
  rw [see_pickQueue (fun i => h.shown _) (fun u _ => h.shown _)] at hm
  obtain ⟨⟨s', q⟩, hs', heq⟩ := Option.map_eq_some_iff.mp hm
  obtain ⟨rfl, rfl⟩ := Prod.mk.inj heq
  obtain ⟨us, hus, rfl⟩ := pickQueue_suffix hs'
  have howners : SameOwners s { s with uwrrUserlist := us } := ⟨fun _ => rfl, rfl, rfl, fun _ => rfl⟩
  refine ⟨_, p, queue, hs', h'.of_see howners hcore (h.nodup.sublist hus.sublist), ?_, howners⟩
  rw [see_task (h.live p)] at hp
  exact hp

theorem queuedUsers_sub (s : State) : queuedUsers s ⊆ s.uwrrUserlist :=
  fun _ hu => (List.mem_filter.mp hu).1

theorem Housed.swapArrays (h : Housed v l s) (hsub : l ⊆ s.uwrrUserlist) (hrun : s.nrRunning ≠ 0) :
    Housed v l (swapArrays s) ∧ l ⊆ (swapArrays s).uwrrUserlist ∧ SameOwners s (swapArrays s) ∧
      (((swapArrays s).arrays (swapArrays s).activeArray).nrActive ≠ 0 ∨
        (swapArrays s).uwrrRunning ≠ 0) := by
  obtain ⟨hcore, -, hready⟩ := h.core.swapArrays hrun
  rw [see_swapArrays fun i => h.shown _] at hcore hready
  have hwhole : Uwrr.swapArrays s = s.whole.see s.uwrrUserlist (Uwrr.swapArrays s) :=
    see_swapArrays (v := s.whole) (l := s.uwrrUserlist) fun _ => rfl
  obtain ⟨hhoused, hsub', howners⟩ := h.through hsub hwhole hcore
  rw [hhoused.arrays] at hready
  exact ⟨hhoused, hsub', howners, hready⟩

theorem Housed.credit (h : Housed v l s) (hsub : l ⊆ s.uwrrUserlist)
    (hp : (s.task p).array ≠ none) (now : Nat) :
    ∃ s', creditNext s p now = some s' ∧ Housed v l s' ∧ l ⊆ s'.uwrrUserlist ∧
      SameOwners s s' ∧ (s'.task p).array ≠ none := by
  obtain ⟨m, hm, hcore, hstays⟩ := h.core.credit (p := p) (by rw [h.task]; exact hp) now
  rw [see_credit (h.live p) fun r _ => h.shown r] at hm
  obtain ⟨s', hs', rfl⟩ := Option.map_eq_some_iff.mp hm
  have hwhole : s' = s.whole.see s.uwrrUserlist s' :=
    whole_of_map (f := fun s => creditNext s p now)
      (see_credit (v := s.whole) (l := s.uwrrUserlist) rfl (fun _ _ => rfl) now) hs'
  obtain ⟨hhoused, hsub', howners⟩ := h.through hsub hwhole hcore
  have hqueued := hstays.array p (by rw [h.task]; exact hp)
  rw [hhoused.task] at hqueued
  exact ⟨s', hs', hhoused, hsub', howners, hqueued⟩

theorem Housed.schedule (h : Housed v l s) (hsub : l ⊆ s.uwrrUserlist) (hb : Busy s)
    {preemptActive : Bool} (howner : preemptActive = false → v.owner s.curr = (s.task s.curr).user)
    (now : Nat) (signalPending : Bool) :
    ∃ s', schedule s now preemptActive signalPending = some s' ∧ Goes v s s' := by
  obtain ⟨s₁, l₁, hs₁, h₁, hsub₁, howners₁⟩ := h.putPrev hsub hb howner signalPending
  rw [Uwrr.schedule]
  dsimp only
  rw [hs₁]
  simp only [Option.bind_eq_bind, Option.bind_some]
  split
  · have hidle : Housed v l₁ { s₁ with expiredTimestamp := 0 } :=
      ⟨h₁.live, h₁.shown, h₁.created, h₁.forking,
        h₁.core.of_eq rfl rfl rfl rfl h₁.core.linked rfl rfl (fun _ => rfl) rfl, h₁.nodup⟩
    have hgoes := hidle.switchTasks hsub₁ (Or.inl rfl) now (runTime (s.task s.curr) now)
    exact ⟨_, rfl, hgoes.housed, hgoes.busy,
      ⟨fun p => (hgoes.owners.user p).trans (howners₁.user p),
        hgoes.owners.created.trans howners₁.created, hgoes.owners.forking.trans howners₁.forking,
        fun u => (hgoes.owners.count u).trans (howners₁.count u)⟩⟩
  · rename_i hrun
    obtain ⟨h₂, hsub₂, howners₂, hready⟩ := h₁.swapArrays hsub₁ hrun
    obtain ⟨s₃, p, queue, hs₃, h₃, hp, howners₃⟩ := h₂.pickQueue hsub₂ hready
    obtain ⟨s₄, hs₄, h₄, hsub₄, howners₄, hp₄⟩ := h₃.credit (queuedUsers_sub s₃) hp now
    rw [hs₃]
    simp only [Option.bind_some, hs₄]
    have howners := ((howners₁.trans howners₂).trans howners₃).trans howners₄
    have hchosen : Housed v (queuedUsers s₃) (s₄.modTask p fun t => { t with activated := 0 }) := by
      have hcore := h₄.core.retask p (fun t => { t with activated := 0 })
        ⟨rfl, rfl, rfl, rfl, rfl, rfl⟩
      rw [see_modTask (h₄.live p) fun _ _ => rfl] at hcore
      exact h₄.of_see ⟨user_update rfl, rfl, rfl, fun _ => rfl⟩ hcore h₄.nodup
    have hqueued := (Stays.modTask s₄ p (fun t => { t with activated := 0 }) rfl).array p hp₄
    have hgoes := hchosen.switchTasks hsub₄ (Or.inr hqueued) now (runTime (s.task s.curr) now)
    have hact : SameOwners s₄ (s₄.modTask p fun t => { t with activated := 0 }) :=
      ⟨user_update rfl, rfl, rfl, fun _ => rfl⟩
    exact ⟨_, rfl, hgoes.housed, hgoes.busy, (howners.trans hact).trans hgoes.owners⟩

/-! ### The owner of a task changes -/

/-- The user of a task that is in no array of a user. -/
theorem Core.reown {s : State} (h : Core s) {p : TaskId} (u : UserId)
    (harray : ∀ w, (s.task p).array ≠ some (.user w))
    (hfork : s.forking p = none ∧ ∀ q, s.forking q ≠ some p) :
    Core { s with
      task := Function.update s.task p { s.task p with user := u }
      user := fun w => { s.user w with count := (s.user w).count + 1 } } := by
  have hok := h.tasks.ok p
  have hloc : Uwrr.loc (Function.update s.task p { s.task p with user := u }) = Uwrr.loc s.task :=
    loc_update_same rfl fun _ => rfl
  refine ⟨?_, ?_, ?_, ?_, ⟨h.refs.finite, fun w => ?_⟩, h.bug⟩
  · rw [hloc]
    exact h.holds
  · rw [hloc]
    exact h.counts
  · rw [hloc]
    exact h.linked
  · refine h.tasks.update ⟨hok.uwrr, hok.static, hok.prio, hok.queued, fun r hr => ?_⟩
      (Or.inr hfork) (fun e => h.tasks.known p (Or.inl e)) (h.tasks.reserved p) ?_
    · rcases hok.home r hr with ⟨-, rfl⟩ | hrq
      · exact absurd hr (harray _)
      · exact Or.inr hrq
    · rintro rfl
      exact h.tasks.idle
  · have hsub : {q | s.created q = true ∧
        (Function.update s.task p { s.task p with user := u } q).user = w} ⊆
        insert p {q | s.created q = true ∧ (s.task q).user = w} := by
      rintro q ⟨hq, hu⟩
      by_cases hqp : q = p
      · exact Or.inl hqp
      · rw [Function.update_of_ne hqp] at hu
        exact Or.inr ⟨hq, hu⟩
    have hfin : {q | s.created q = true ∧ (s.task q).user = w}.Finite :=
      h.refs.finite.subset fun q hq => hq.1
    have hle := Set.ncard_le_ncard hsub (hfin.insert p)
    have hins := Set.ncard_insert_le p {q | s.created q = true ∧ (s.task q).user = w}
    have hcount := h.refs.count w
    have hgoal : ({q | s.created q = true ∧
        (Function.update s.task p { s.task p with user := u } q).user = w}.ncard : Int) ≤
        (s.user w).count + 1 := by omega
    exact hgoal

/-- `v'` shows the user of `p`, and is `v` otherwise. -/
structure Resettles (v v' : View) (p : TaskId) (u : UserId) : Prop where
  self : v'.owner p = u
  other : ∀ q, q ≠ p → v'.owner q = v.owner q

theorem Housed.resettle (h : Housed v l s) (harray : ∀ w, (s.task p).array ≠ some (.user w))
    (hfork : v.owner p = (s.task p).user ∨ (s.forking p = none ∧ ∀ q, s.forking q ≠ some p)) :
    ∃ v', Housed v' l s ∧ Resettles v v' p (s.task p).user := by
  by_cases howner : v.owner p = (s.task p).user
  · exact ⟨v, h, howner, fun _ _ => rfl⟩
  · set v' : View := { v with
      owner := Function.update v.owner p (s.task p).user
      users := fun w => { v.users w with count := (v.users w).count + 1 } } with hv'
    have hcore := h.core.reown (p := p) (s.task p).user (by rw [h.task]; exact harray)
      (by rw [show (v.see l s).forking = s.forking from h.forking]
          exact hfork.resolve_left howner)
    have htask : Function.update (v.see l s).task p
        { (v.see l s).task p with user := (s.task p).user } = (v'.see l s).task := by
      funext q
      by_cases hq : q = p
      · rw [hq, Function.update_self, h.task, see_task (v := v') (h.live p)]
        show _ = { s.task p with user := Function.update v.owner p (s.task p).user p }
        rw [Function.update_self]
      · rw [Function.update_of_ne hq, h.task, see_task (v := v') (h.live q)]
        show _ = { s.task q with user := Function.update v.owner p (s.task p).user q }
        rw [Function.update_of_ne hq]
    rw [htask] at hcore
    refine ⟨v', ⟨h.live, h.shown, h.created, h.forking, hcore, h.nodup⟩, Function.update_self ..,
      fun q hq => Function.update_of_ne hq ..⟩

/-- Without a stranded user the list of the view stays part of the list. -/
theorem Housed.leftList_sub (h : Housed v l s) (hsub : l ⊆ s.uwrrUserlist) {r : ArrayRef}
    (hr : (s.task p).array = some r) (hkeep : ¬ Strands s p) :
    leftList l (s.task p) (s.arrays r) (v.owner p) ⊆
      leftList s.uwrrUserlist (s.task p) (s.arrays r) (s.task p).user := by
  intro w hw
  have hl : l.Nodup := h.core.linked.nodup
  rw [mem_leftList hl] at hw
  rw [mem_leftList h.nodup]
  refine ⟨hsub hw.1, ?_⟩
  rintro ⟨hpol, hone, rfl⟩
  have hok := h.core.tasks.ok p
  rw [h.task] at hok
  rcases hok.home r hr with ⟨-, hhome⟩ | ⟨hno, -⟩
  · by_cases howner : v.owner p = (s.task p).user
    · exact hw.2 ⟨hpol, hone, howner.symm⟩
    · refine hkeep ⟨r, hr, hpol, hone, ?_, (h.linked_iff _).mp hw.1⟩
      rw [show r = .user (v.owner p) from hhome]
      exact fun e => howner (ArrayRef.user.inj e)
  · exact hno hpol

/-! ### `sched_setscheduler` -/

/-- Every owner of `v'` is the one of `v`, or the user of the task. -/
def Follows (v v' : View) (s : State) : Prop :=
  ∀ q, v'.owner q = v.owner q ∨ v'.owner q = (s.task q).user

theorem Resettles.follows {v' : View} (h : Resettles v v' p (s.task p).user) : Follows v v' s := by
  intro q
  by_cases hq : q = p
  · rw [hq]
    exact Or.inr h.self
  · exact Or.inl (h.other q hq)

theorem setschedulerTask_owner (t : Task) (o : UserId) (policy : Policy) (prio : Int) :
    setschedulerTask { t with user := o } policy prio =
      { setschedulerTask t policy prio with user := o } := by
  cases policy with
  | normal => rfl
  | fifo => rfl
  | rr => rfl
  | uwrr => rfl

theorem Housed.setPolicy (h : Housed v l s) (hidle : p ≠ idle) (hp : (s.task p).array = none)
    (policy : Policy) {prio : Int} (hprio : 0 ≤ prio ∧ prio < MAX_RT_PRIO) :
    setscheduler' s p policy prio = some (s.modTask p fun t => setschedulerTask t policy prio) ∧
      Housed v l (s.modTask p fun t => setschedulerTask t policy prio) ∧
      SameOwners s (s.modTask p fun t => setschedulerTask t policy prio) ∧
      Stays s (s.modTask p fun t => setschedulerTask t policy prio) ∧
      (setschedulerTask (s.task p) policy prio).array = none ∧
      (setschedulerTask (s.task p) policy prio).prio < MAX_PRIO := by
  have hok := h.core.tasks.ok p
  rw [h.task] at hok
  obtain ⟨-, harray, hlt⟩ := hok.setscheduler hp policy hprio
  rw [setschedulerTask_owner] at harray hlt
  obtain ⟨-, hcore, -⟩ := h.core.setPolicy hidle (by rw [h.task]; exact hp) policy hprio
  rw [see_modTask (h.live p) fun t o => setschedulerTask_owner t o policy prio] at hcore
  have howners : SameOwners s (s.modTask p fun t => setschedulerTask t policy prio) :=
    ⟨user_update (setschedulerTask_user ..), rfl, rfl, fun _ => rfl⟩
  exact ⟨by rw [setscheduler', if_neg (fun e => e hp)], h.of_see howners hcore h.nodup, howners,
    Stays.modTask s p _ (harray.trans hp.symm), harray, hlt⟩

theorem Housed.resched (h : Housed v l s) (p : TaskId) : Housed v l (reschedTask s p) := by
  have hcore := h.core.resched p
  rw [see_resched (h.live p)] at hcore
  exact h.of_see ⟨user_update rfl, rfl, rfl, fun _ => rfl⟩ hcore h.nodup

theorem Housed.setschedulerLocked (h : Housed v l s) (hsub : l ⊆ s.uwrrUserlist) (hb : Busy s)
    (hidle : p ≠ idle)
    (hfork : v.owner p = (s.task p).user ∨ (s.forking p = none ∧ ∀ q, s.forking q ≠ some p))
    (policy : Policy) {prio : Int} (hprio : 0 ≤ prio ∧ prio < MAX_RT_PRIO)
    (hkeep : policy ≠ .uwrr → ¬ Strands s p) :
    ∃ s' v', setschedulerLocked s p policy prio = some s' ∧ Goes v' s s' ∧ Follows v v' s := by
  rcases array_cases (s.task p) with hnone | ⟨r, hr⟩
  · obtain ⟨heq, h', howners, hstays, -⟩ := h.setPolicy hidle hnone policy hprio
    exact ⟨_, v, by rw [Uwrr.setschedulerLocked, if_pos hnone, heq],
      ⟨⟨l, h', hsub⟩, hstays.busy hb, howners⟩, fun _ => Or.inl rfl⟩
  · have hqueued : (s.task p).array ≠ none := by
      rw [hr]
      simp
    obtain ⟨hres, hcreated⟩ := h.queued hqueued
    -- off the runqueue, and the owner follows
    obtain ⟨s₁, hs₁, hd, howners₁, h₁, hlist₁⟩ := h.deactivate hr
    have hp₁ : (s₁.task p).array = none := by rw [hd.task, Function.update_self]
    obtain ⟨v', h₁', hset⟩ := h₁.resettle (p := p) (by rw [hp₁]; simp) (by
      rw [howners₁.user p, howners₁.forking]
      exact hfork)
    rw [howners₁.user p] at hset
    -- and back
    obtain ⟨hs₂, h₂, howners₂, -, harray, hlt⟩ := h₁'.setPolicy hidle hp₁ policy hprio
    set s₂ := s₁.modTask p fun t => setschedulerTask t policy prio with hs₂def
    have hp₂ : s₂.task p = setschedulerTask (s₁.task p) policy prio := Function.update_self ..
    obtain ⟨h₃, howners₃, -, hlist₃⟩ := h₂.activate' (p := p)
      (by rw [hp₂, setschedulerTask_user, howners₁.user p]; exact hset.self)
      (by rw [hp₂, harray]) (by rw [howners₂.created, howners₁.created]; exact hcreated)
      (by rw [howners₂.forking, howners₁.forking]; exact hres) (by rw [hp₂]; exact hlt)
    have howners := (howners₁.trans howners₂).trans howners₃
    have hact := activateTask'_eq s₂ p
    have hstays : Stays s (activateTask' s₂ p) := by
      refine Stays.of_update (p := p) (hact.curr.trans hd.curr) ?_ (fun _ e => (by cases e))
        (t := { s₂.task p with array := some (homeArray s₂ p) })
      rw [hact.task]
      show Function.update (Function.update s₁.task p _) p _ = _
      rw [Function.update_idem, hd.task, Function.update_idem]
    have hsub₃ : enteredList (leftList l (s.task p) (s.arrays r) (v.owner p)) (s₂.task p) ⊆
        (activateTask' s₂ p).uwrrUserlist := by
      intro w hw
      have hl : l.Nodup := h.core.linked.nodup
      rw [hlist₃, mem_enteredList]
      rcases mem_enteredList.mp hw with hw | hw
      · by_cases hpol : policy = .uwrr
        · -- the user is linked again
          by_cases hself : w = (s.task p).user
          · refine Or.inr ⟨by rw [hp₂, hpol]; rfl, ?_⟩
            rw [hp₂, setschedulerTask_user, howners₁.user p]
            exact hself
          · refine Or.inl ?_
            show w ∈ s₁.uwrrUserlist
            rw [hlist₁, mem_leftList h.nodup]
            exact ⟨hsub ((mem_leftList hl).mp hw).1, fun e => hself e.2.2⟩
        · refine Or.inl ?_
          show w ∈ s₁.uwrrUserlist
          rw [hlist₁]
          exact h.leftList_sub hsub hr (hkeep hpol) hw
      · exact Or.inr hw
    have hgoes : Goes v' s (activateTask' s₂ p) := ⟨⟨_, h₃, hsub₃⟩, hstays.busy hb, howners⟩
    have hresched : Goes v' s (reschedTask (activateTask' s₂ p) (activateTask' s₂ p).curr) :=
      ⟨⟨_, h₃.resched _, hsub₃⟩, (hstays.trans (Stays.resched _ _)).busy hb,
        howners.trans ⟨user_update rfl, rfl, rfl, fun _ => rfl⟩⟩
    rw [Uwrr.setschedulerLocked, if_neg hqueued, hs₁]
    simp only [Option.bind_eq_bind, Option.bind_some, hs₂]
    refine ⟨_, v', rfl, ?_, hset.follows⟩
    split
    · split
      · exact hresched
      · exact hgoes
    · split
      · exact hresched
      · exact hgoes

/-! ### The second step -/

/-- A user without tasks leaves the list. -/
theorem Housed.unlink (h : Housed v l s) (hsub : l ⊆ s.uwrrUserlist) {u : UserId} (hu : u ∉ l) :
    Housed v l { s with uwrrUserlist := s.uwrrUserlist.erase u } ∧
      l ⊆ s.uwrrUserlist.erase u := by
  refine ⟨⟨h.live, h.shown, h.created, h.forking, h.core, h.nodup.erase u⟩, fun w hw => ?_⟩
  rw [h.nodup.mem_erase_iff]
  exact ⟨fun e => hu (e ▸ hw), hsub hw⟩

/-- `deactivate_task` and `__activate_task` of `uwrr_switch_user`. -/
theorem Housed.rehouse (h : Housed v l s) (hsub : l ⊆ s.uwrrUserlist) {r : ArrayRef}
    (hr : (s.task p).array = some r) (hpol : (s.task p).policy = .uwrr)
    (hfork : v.owner p = (s.task p).user ∨ (s.forking p = none ∧ ∀ q, s.forking q ≠ some p)) :
    ∃ s' v' l', deactivateTask s p = some s' ∧ Housed v' l' (activateTask' s' p) ∧
      l' ⊆ (activateTask' s' p).uwrrUserlist ∧ SameOwners s (activateTask' s' p) ∧
      Stays s (activateTask' s' p) ∧ Resettles v v' p (s.task p).user := by
  have hqueued : (s.task p).array ≠ none := by
    rw [hr]
    simp
  obtain ⟨hres, hcreated⟩ := h.queued hqueued
  have hprio : (s.task p).prio < MAX_PRIO := by
    have hlt := (h.core.tasks.ok p).queued (by rw [h.task]; exact hqueued)
    rw [h.task] at hlt
    exact hlt
  obtain ⟨s₁, hs₁, hd, howners₁, h₁, hlist₁⟩ := h.deactivate hr
  have hp₁ : s₁.task p = { s.task p with array := none } := by rw [hd.task, Function.update_self]
  obtain ⟨v', h₁', hset⟩ := h₁.resettle (p := p) (by rw [hp₁]; simp) (by
    rw [howners₁.user p, howners₁.forking]
    exact hfork)
  rw [howners₁.user p] at hset
  obtain ⟨h₂, howners₂, -, hlist₂⟩ := h₁'.activate' (p := p)
    (by rw [howners₁.user p]; exact hset.self) (by rw [hp₁])
    (by rw [howners₁.created]; exact hcreated) (by rw [howners₁.forking]; exact hres)
    (by rw [hp₁]; exact hprio)
  have hact := activateTask'_eq s₁ p
  refine ⟨s₁, v', _, hs₁, h₂, fun w hw => ?_, howners₁.trans howners₂, ?_, hset⟩
  · have hl : l.Nodup := h.core.linked.nodup
    rw [hlist₂, mem_enteredList]
    rcases mem_enteredList.mp hw with hw | hw
    · by_cases hself : w = (s.task p).user
      · refine Or.inr ⟨by rw [hp₁]; exact hpol, ?_⟩
        rw [howners₁.user p]
        exact hself
      · refine Or.inl ?_
        rw [hlist₁, mem_leftList h.nodup]
        exact ⟨hsub ((mem_leftList hl).mp hw).1, fun e => hself e.2.2⟩
    · exact Or.inr hw
  · refine Stays.of_update (p := p) (hact.curr.trans hd.curr) ?_ (fun _ e => (by cases e))
      (t := { s₁.task p with array := some (homeArray s₁ p) })
    rw [hact.task, hd.task, Function.update_idem]

theorem Housed.switchUser (h : Housed v l s) (hsub : l ⊆ s.uwrrUserlist) (hb : Busy s)
    (hfork : v.owner p = (s.task p).user ∨ (s.forking p = none ∧ ∀ q, s.forking q ≠ some p))
    (old : UserId) :
    ∃ s' v', uwrrSwitchUser s p old = some s' ∧ Goes v' s s' ∧
      Resettles v v' p (s.task p).user := by
  rw [uwrrSwitchUser]
  by_cases hpol : (s.task p).policy ≠ .uwrr
  · -- not in the array of a user
    obtain ⟨v', h', hset⟩ := h.resettle (p := p) (by
      intro w hw
      have hok := h.core.tasks.ok p
      rw [h.task] at hok
      rcases hok.home _ hw with ⟨hu, -⟩ | ⟨-, i, hi⟩
      · exact hpol hu
      · cases hi) hfork
    exact ⟨s, v', by rw [if_pos hpol], ⟨⟨l, h', hsub⟩, hb, SameOwners.refl s⟩, hset⟩
  · rw [if_neg hpol]
    rw [not_not] at hpol
    -- the queue first, then the list
    have hlast : ∀ {m : State} {v' : View} {l' : List UserId}, Housed v' l' m →
        l' ⊆ m.uwrrUserlist → Busy m → SameOwners s m →
        Goes v' s (if (m.arrays (.user old)).nrActive = 0 then
          { m with uwrrUserlist := m.uwrrUserlist.erase old } else m) := by
      intro m v' l' hm hsub' hbusy howners
      split
      · rename_i hzero
        obtain ⟨hh, hs⟩ := hm.unlink hsub' (u := old) fun e => (hm.linked_iff old).mp e hzero
        exact ⟨⟨l', hh, hs⟩, hbusy, howners.user, howners.created, howners.forking, howners.count⟩
      · exact ⟨⟨l', hm, hsub'⟩, hbusy, howners⟩
    rcases array_cases (s.task p) with hnone | ⟨r, hr⟩
    · obtain ⟨v', h', hset⟩ := h.resettle (p := p) (by rw [hnone]; simp) hfork
      refine ⟨_, v', by rw [if_pos hnone]; rfl, hlast h' hsub hb (SameOwners.refl s), hset⟩
    · obtain ⟨s₁, v', l', hs₁, h', hsub', howners, hstays, hset⟩ := h.rehouse hsub hr hpol hfork
      refine ⟨_, v', ?_, hlast h' hsub' (hstays.busy hb) howners, hset⟩
      rw [if_neg (by rw [hr]; simp), hs₁]
      rfl

end Housed

end LinuxHacks.Uwrr
