import LinuxHacks.Uwrr.Housed
import LinuxHacks.Uwrr.Machine
import LinuxHacks.Uwrr.Pick

/-!
# The functions of the scheduler on part of the tasks

`Part v s`: what `v` shows of `s` is a runqueue in order, with the list of users of
`s` and the owners that its tasks have. Each function keeps that, and leaves what
`v` hides alone (`Untouched`), as long as it works on tasks that `v` shows.

* `of_views`: a function that commutes with views keeps `Core` of a part because
  it keeps `Core` of a whole runqueue;
* `Moves`: what a call leaves.
-/

namespace LinuxHacks.Uwrr

open LinuxHacks.Lib
open LinuxHacks.Lib.Placement

/-! ## What stays alone -/

structure Untouched (v : View) (s s' : State) : Prop where
  task : ∀ p, v.live p = false → s'.task p = s.task p
  arrays : ∀ r, v.shown r = false → s'.arrays r = s.arrays r

namespace Untouched

variable {v : View} {s s' s'' m : State} {p : TaskId} {r : ArrayRef}

theorem refl (v : View) (s : State) : Untouched v s s := ⟨fun _ _ => rfl, fun _ _ => rfl⟩

theorem of_eq (htask : s'.task = s.task) (harrays : s'.arrays = s.arrays) : Untouched v s s' :=
  ⟨fun _ _ => by rw [htask], fun _ _ => by rw [harrays]⟩

theorem trans (h : Untouched v s s') (h' : Untouched v s' s'') : Untouched v s s'' :=
  ⟨fun p hp => (h'.task p hp).trans (h.task p hp),
    fun r hr => (h'.arrays r hr).trans (h.arrays r hr)⟩

theorem ne_of_live {q : TaskId} (hp : v.live p = true) (hq : v.live q = false) : q ≠ p := by
  rintro rfl
  rw [hp] at hq
  cases hq

theorem modTask (h : Untouched v s m) (hp : v.live p = true) (f : Task → Task) :
    Untouched v s (m.modTask p f) :=
  h.trans ⟨fun _ hq => Function.update_of_ne (ne_of_live hp hq) _ _, fun _ _ => rfl⟩

theorem modArray (h : Untouched v s m) (hr : v.shown r = true) (f : PrioArray → PrioArray) :
    Untouched v s (m.modArray r f) := by
  refine h.trans ⟨fun _ _ => rfl, fun r' hr' => ?_⟩
  have hne : r' ≠ r := by
    rintro rfl
    rw [hr] at hr'
    cases hr'
  exact Function.update_of_ne hne _ _

theorem dequeue (h : Untouched v s m) (hr : v.shown r = true) (p : TaskId) :
    Untouched v s (dequeueTask m p r) := h.modArray hr _

theorem requeue (h : Untouched v s m) (hr : v.shown r = true) (p : TaskId) :
    Untouched v s (requeueTask m p r) := h.modArray hr _

theorem enqueue (h : Untouched v s m) (hp : v.live p = true) (hr : v.shown r = true) :
    Untouched v s (enqueueTask m p r) := (h.modArray hr _).modTask hp _

theorem resched (h : Untouched v s m) (hp : v.live p = true) :
    Untouched v s (reschedTask m p) := h.modTask hp _

/-- Other fields of the runqueue. -/
theorem fields (h : Untouched v s m) (htask : s'.task = m.task) (harrays : s'.arrays = m.arrays) :
    Untouched v s s' := h.trans (.of_eq htask harrays)

theorem deactivate (hp : v.live p = true) (harray : (s.task p).array = some r)
    (hr : v.shown r = true) (hs' : deactivateTask s p = some s') : Untouched v s s' := by
  obtain ⟨m, hm, hd⟩ := deactivateTask_eq harray
  rw [hm] at hs'
  obtain rfl := Option.some.inj hs'
  refine ⟨fun q hq => ?_, fun r' hr' => ?_⟩
  · rw [hd.task]
    exact Function.update_of_ne (ne_of_live hp hq) _ _
  · rw [hd.arrays]
    exact ((refl v s).dequeue hr p).arrays r' hr'

theorem activate (hp : v.live p = true) (hr : v.shown (homeArray s p) = true) :
    Untouched v s (activateTask' s p) := by
  rw [activateTask'_state]
  exact ((refl v s).enqueue hp hr).fields rfl rfl

theorem activateTask (hp : v.live p = true) (hr : v.shown (homeArray s p) = true) (now : Nat)
    (inInterrupt : Bool) : Untouched v s (activateTask s p now inInterrupt) := by
  rw [Uwrr.activateTask]
  refine ((refl v s).modTask hp _).trans (activate hp ?_)
  rw [homeArray, modTask_self]
  exact hr

theorem tickTask (hp : v.live p = true) (harray : (s.task p).array = some r)
    (hr : v.shown r = true) (hs' : uwrrTickTask s p = some s') : Untouched v s s' := by
  have hdec := (refl v s).modTask hp fun t => { t with timeSlice := dec32 t.timeSlice }
  have hmp : ((s.modTask p fun t => { t with timeSlice := dec32 t.timeSlice }).task p).array =
      some r := by
    rw [modTask_self]
    exact harray
  rw [uwrrTickTask] at hs'
  split at hs'
  · rw [hmp] at hs'
    obtain rfl := Option.some.inj hs'
    exact (hdec.modTask hp _).requeue hr p
  · obtain rfl := Option.some.inj hs'
    exact hdec

theorem expire (hp : v.live p = true) (hrq : ∀ i, v.shown (.rq i) = true) (jiffies : Nat) :
    Untouched v s (expireTask s p jiffies) := by
  set d := (dequeueTask s p s.activeArray).modTask p fun t =>
    refillSlice { t with prio := effectivePrio t } with hd
  set m : State := if d.expiredTimestamp = 0 then { d with expiredTimestamp := jiffies } else d
    with hm
  have hmove : Untouched v s d := ((refl v s).dequeue (hrq s.active) p).modTask hp _
  have hm' : Untouched v s m := by
    rw [hm]
    split
    · exact hmove.fields rfl rfl
    · exact hmove
  rw [expireTask]
  dsimp only
  rw [← hd, ← hm]
  split
  · have hexp : Untouched v s (enqueueTask m p m.expiredArray) := hm'.enqueue hp (hrq _)
    split
    · exact hexp.fields rfl rfl
    · exact hexp
  · exact hm'.enqueue hp (hrq _)

/-- A tick of a task that is not UWRR. -/
theorem tick (hcurr : v.live s.curr = true) (hrq : ∀ i, v.shown (.rq i) = true)
    (hpol : s.curr ≠ idle → rtTask (s.task s.curr) = false → (s.task s.curr).policy ≠ .uwrr)
    {jiffies : Nat} (hs' : schedulerTick s jiffies = some s') : Untouched v s s' := by
  have hdec := (refl v s).modTask hcurr fun t => { t with timeSlice := dec32 t.timeSlice }
  rw [schedulerTick] at hs'
  dsimp only at hs'
  split at hs'
  · obtain rfl := Option.some.inj hs'
    exact refl v s
  · rename_i hidle
    split at hs'
    · obtain rfl := Option.some.inj hs'
      exact (refl v s).resched hcurr
    · split at hs'
      · split at hs'
        · split at hs'
          · obtain rfl := Option.some.inj hs'
            exact (hdec.modTask hcurr _).requeue (hrq _) _
          · obtain rfl := Option.some.inj hs'
            exact hdec
        · obtain rfl := Option.some.inj hs'
          exact refl v s
      · rename_i hrt
        rw [if_neg (hpol hidle (Bool.eq_false_of_not_eq_true hrt))] at hs'
        split at hs'
        · obtain rfl := Option.some.inj hs'
          exact hdec.trans (expire hcurr hrq jiffies)
        · split at hs'
          · obtain rfl := Option.some.inj hs'
            exact (hdec.requeue (hrq _) _).resched hcurr
          · obtain rfl := Option.some.inj hs'
            exact hdec

theorem putPrev (hcurr : v.live s.curr = true)
    (hr : ∀ r, (s.task s.curr).array = some r → v.shown r = true) {preemptActive : Bool}
    {signalPending : Bool} (hs' : putPrev s preemptActive signalPending = some s') :
    Untouched v s s' := by
  rw [Uwrr.putPrev] at hs'
  split at hs'
  · obtain rfl := Option.some.inj hs'
    exact refl v s
  · split at hs'
    · obtain rfl := Option.some.inj hs'
      exact (refl v s).modTask hcurr _
    · have hcount : ∀ m : State, m.task = s.task → m.arrays = s.arrays →
          Uwrr.deactivateTask m s.curr = some s' → Untouched v s s' := by
        intro m htask harrays hm
        rcases array_cases (m.task s.curr) with hnone | ⟨r, harray⟩
        · rw [deactivateTask, hnone] at hm
          cases hm
        · have hshown : v.shown r = true := hr r (by rw [← htask]; exact harray)
          exact (of_eq htask harrays).trans (deactivate hcurr harray hshown hm)
      split at hs'
      · exact hcount { s with nrUninterruptible := s.nrUninterruptible + 1 } rfl rfl hs'
      · exact hcount s rfl rfl hs'

theorem swapArrays (v : View) (s : State) : Untouched v s (swapArrays s) := by
  rw [Uwrr.swapArrays]
  split
  · exact of_eq rfl rfl
  · exact refl v s

theorem credit (hp : v.live p = true) (hr : ∀ r, (s.task p).array = some r → v.shown r = true)
    {now : Nat} (hs' : creditNext s p now = some s') : Untouched v s s' := by
  rw [creditNext] at hs'
  dsimp only at hs'
  split at hs'
  · rcases array_cases (s.task p) with hnone | ⟨r, harray⟩
    · rw [hnone] at hs'
      cases hs'
    · rw [harray] at hs'
      obtain rfl := Option.some.inj hs'
      exact (((refl v s).dequeue (hr r harray) p).modTask hp _).enqueue hp (hr r harray)
  · obtain rfl := Option.some.inj hs'
    exact refl v s

theorem switchTasks {next : TaskId} (hcurr : v.live s.curr = true) (hnext : v.live next = true)
    (now run : Nat) : Untouched v s (switchTasks s next now run) := by
  have hprev := (refl v s).modTask hcurr fun t =>
    { t with needResched := false, sleepAvg := t.sleepAvg - run, timestamp := now }
  rw [Uwrr.switchTasks]
  dsimp only
  split
  · exact (hprev.modTask hnext fun t => { t with timestamp := now }).fields rfl rfl
  · exact hprev

end Untouched

/-! ## A part in order -/

structure Part (v : View) (s : State) : Prop where
  owner : ∀ p, v.owner p = (s.task p).user
  rq : ∀ i, v.shown (.rq i) = true
  core : Core (v.see s.uwrrUserlist s)

/-- What a call leaves that works on the part. -/
structure Moves (v : View) (s s' : State) : Prop where
  part : Part v s'
  owners : SameOwners s s'
  untouched : Untouched v s s'

section Part

variable {v : View} {s s' s'' : State} {p : TaskId} {r : ArrayRef}

theorem Moves.trans (h : Moves v s s') (h' : Moves v s' s'') : Moves v s s'' :=
  ⟨h'.part, h.owners.trans h'.owners, h.untouched.trans h'.untouched⟩

theorem Part.of_core (h : Part v s) (howners : SameOwners s s')
    (hcore : Core (v.see s'.uwrrUserlist s')) : Part v s' :=
  ⟨fun p => (h.owner p).trans (howners.user p).symm, h.rq, hcore⟩

/-- A shown task is seen as it is. -/
theorem Part.see_task (h : Part v s) (hp : v.live p = true) {l : List UserId} :
    (v.see l s).task p = s.task p := by
  rw [Uwrr.see_task hp, h.owner]

theorem live_of_queued {l : List UserId} (hp : ((v.see l s).task p).array ≠ none) :
    v.live p = true := by
  by_contra hlive
  refine hp ?_
  show (if v.live p then { s.task p with user := v.owner p } else idleTask).array = none
  rw [if_neg hlive]
  rfl

/-- The array of a queued task is shown. -/
theorem Part.shown (h : Part v s) (hp : v.live p = true) (hr : (s.task p).array = some r) :
    v.shown r = true := by
  by_contra hshown
  have hloc : loc (v.see s.uwrrUserlist s).task p = some (r, (s.task p).prio) := by
    rw [loc_eq_some, h.see_task hp]
    exact ⟨hr, rfl⟩
  have hmem := (h.core.holds.mem r (s.task p).prio p).mpr hloc
  have hempty : (v.see s.uwrrUserlist s).arrays r = emptyArray := if_neg hshown
  rw [hempty] at hmem
  cases hmem

theorem Part.taskOk (h : Part v s) (hp : v.live p = true) : TaskOk (s.task p) := by
  have hok := h.core.tasks.ok p
  rwa [h.see_task hp] at hok

theorem Part.busy (h : Part v s) (hb : Busy s) (hcurr : v.live s.curr = true) :
    Busy (v.see s.uwrrUserlist s) := by
  rw [Busy, show (v.see s.uwrrUserlist s).curr = s.curr from rfl, h.see_task hcurr]
  exact hb

theorem Part.unbusy (h : Part v s) (hb : Busy (v.see s.uwrrUserlist s)) :
    Busy s ∧ (s.curr = idle ∨ v.live s.curr = true) := by
  rcases hb with hidle | hqueued
  · exact ⟨Or.inl hidle, Or.inl hidle⟩
  · have hlive := live_of_queued hqueued
    rw [h.see_task hlive] at hqueued
    exact ⟨Or.inr hqueued, Or.inr hlive⟩

/-- **A function that commutes with views keeps a part in order** when it keeps a
whole runqueue in order. -/
theorem Part.of_views (h : Part v s) {f : State → Option State} {l : List UserId}
    {Q : State → Prop} (hv : f (v.see s.uwrrUserlist s) = (f s).map (v.see l))
    (hw : f (s.whole.see s.uwrrUserlist s) = (f s).map (s.whole.see l))
    (hcore : ∃ t, f (v.see s.uwrrUserlist s) = some t ∧ Core t ∧ Q t) :
    ∃ s', f s = some s' ∧ Part v s' ∧ SameOwners s s' ∧ s'.uwrrUserlist = l ∧
      Q (v.see s'.uwrrUserlist s') := by
  obtain ⟨t, ht, hcore, hQ⟩ := hcore
  rw [hv] at ht
  obtain ⟨s', hs', rfl⟩ := Option.map_eq_some_iff.mp ht
  have hwhole : s' = s.whole.see l s' := whole_of_map hw hs'
  have howners := SameOwners.of_whole hwhole
  have hlist := list_of_whole hwhole
  rw [← hlist] at hcore hQ
  exact ⟨s', hs', h.of_core howners hcore, howners, hlist, hQ⟩

/-- The same for a function that cannot fail. -/
theorem Part.of_views' (h : Part v s) {f : State → State} {l : List UserId}
    {Q : State → Prop} (hv : f (v.see s.uwrrUserlist s) = v.see l (f s))
    (hw : f (s.whole.see s.uwrrUserlist s) = s.whole.see l (f s))
    (hcore : Core (f (v.see s.uwrrUserlist s)) ∧ Q (f (v.see s.uwrrUserlist s))) :
    Part v (f s) ∧ SameOwners s (f s) ∧ (f s).uwrrUserlist = l ∧
      Q (v.see (f s).uwrrUserlist (f s)) := by
  obtain ⟨s', hs', hrest⟩ := h.of_views (f := fun s => some (f s)) (l := l) (Q := Q)
    (congrArg some hv) (congrArg some hw) ⟨_, rfl, hcore⟩
  obtain rfl := Option.some.inj hs'
  exact hrest

/-! ### Changes of one task -/

theorem Part.modTask (h : Part v s) (hp : v.live p = true) {f : Task → Task}
    (hf : ∀ t o, f { t with user := o } = { f t with user := o })
    (huser : (f (s.task p)).user = (s.task p).user)
    (hcore : Core ((v.see s.uwrrUserlist s).modTask p f)) : Moves v s (s.modTask p f) := by
  have howners : SameOwners s (s.modTask p f) := ⟨user_update huser, rfl, rfl, fun _ => rfl⟩
  refine ⟨h.of_core howners ?_, howners, (Untouched.refl v s).modTask hp f⟩
  rw [see_modTask hp hf] at hcore
  exact hcore

theorem Part.retask (h : Part v s) (hp : v.live p = true) {f : Task → Task}
    (hf : ∀ t o, f { t with user := o } = { f t with user := o })
    (hs : Same (s.task p) (f (s.task p))) : Moves v s (s.modTask p f) := by
  refine h.modTask hp hf hs.user (h.core.retask p f ?_)
  rw [h.see_task hp]
  exact hs

theorem Part.resched (h : Part v s) (hp : v.live p = true) : Moves v s (reschedTask s p) :=
  h.retask hp (fun _ _ => rfl) ⟨rfl, rfl, rfl, rfl, rfl, rfl⟩

/-- Fields of the runqueue that no invariant reads. -/
theorem Part.fields (h : Part v s) (harrays : s'.arrays = s.arrays) (htask : s'.task = s.task)
    (hnr : s'.nrRunning = s.nrRunning) (huwrr : s'.uwrrRunning = s.uwrrRunning)
    (hlist : s'.uwrrUserlist = s.uwrrUserlist) (hcreated : s'.created = s.created)
    (hforking : s'.forking = s.forking) (huser : ∀ u, (s'.user u).count = (s.user u).count)
    (hbug : s'.bug = s.bug) : Moves v s s' := by
  have howners : SameOwners s s' := ⟨fun p => by rw [htask], hcreated, hforking, huser⟩
  refine ⟨h.of_core howners ?_, howners, .of_eq htask harrays⟩
  refine h.core.of_eq ?_ ?_ hnr huwrr ?_ rfl rfl (fun _ => rfl) hbug
  · funext r
    show (if v.shown r then s'.arrays r else emptyArray) = _
    rw [harrays]
    rfl
  · funext p
    show (if v.live p then { s'.task p with user := v.owner p } else idleTask) = _
    rw [htask]
    rfl
  · rw [hlist]
    exact h.core.linked

/-! ### On and off the runqueue -/

theorem Part.deactivate (h : Part v s) (hp : v.live p = true) (hr : (s.task p).array = some r) :
    ∃ s', deactivateTask s p = some s' ∧ Moves v s s' ∧ Deactivated s p r s' := by
  have hshown := h.shown hp hr
  have hsee : ((v.see s.uwrrUserlist s).task p).array = some r := by
    rw [h.see_task hp]
    exact hr
  obtain ⟨t, ht, hd⟩ := deactivateTask_eq hsee
  obtain ⟨s', hs', hpart, howners, -⟩ := h.of_views (f := fun s => deactivateTask s p)
    (l := leftList s.uwrrUserlist (s.task p) (s.arrays r) (s.task p).user) (Q := fun _ => True)
    (by rw [see_deactivate hp hr hshown, h.owner]) (see_deactivate rfl hr rfl)
    ⟨t, ht, h.core.deactivate hsee hd, trivial⟩
  obtain ⟨m, hm, hd'⟩ := deactivateTask_eq hr
  rw [hs'] at hm
  obtain rfl := Option.some.inj hm
  exact ⟨s', hs', ⟨hpart, howners, .deactivate hp hr hshown hs'⟩, hd'⟩

theorem Part.enter (h : Part v s) (hp : v.live p = true) (hnone : (s.task p).array = none)
    (hcreated : v.created p = true) (hres : ¬ Reserved v.forking p)
    (hprio : (s.task p).prio < MAX_PRIO) (hshown : v.shown (homeArray s p) = true) :
    Moves v s (activateTask' s p) := by
  have hsee := h.see_task hp (l := s.uwrrUserlist)
  obtain ⟨hpart, howners, -, -⟩ := h.of_views' (f := fun s => activateTask' s p)
    (Q := fun _ => True) (see_activate hp (h.owner p) hshown) (see_activate rfl rfl rfl)
    ⟨(h.core.enter' (p := p) (by rw [hsee]; exact hnone) hcreated hres
      (by rw [hsee]; exact hprio)).1, trivial⟩
  exact ⟨hpart, howners, .activate hp hshown⟩

/-- A task that is not UWRR, into one of the two arrays. -/
theorem Part.enterRq (h : Part v s) (hp : v.live p = true) (hnone : (s.task p).array = none)
    (hcreated : v.created p = true) (hres : ¬ Reserved v.forking p)
    (hprio : (s.task p).prio < MAX_PRIO) (hpol : (s.task p).policy ≠ .uwrr) (i : Bool) :
    Moves v s (enqueueTask { s with nrRunning := s.nrRunning + 1 } p (.rq i)) := by
  -- `__activate_task`, as if `i` were the active array
  set a : State := { s with active := i } with ha
  have hactive : Moves v s a := h.fields rfl rfl rfl rfl rfl rfl rfl (fun _ => rfl) rfl
  have hhome : homeArray a p = .rq i := if_neg hpol
  have henter : Moves v a (activateTask' a p) :=
    hactive.part.enter hp hnone hcreated hres hprio (by rw [hhome]; exact h.rq i)
  have hback : Moves v (activateTask' a p) { activateTask' a p with active := s.active } :=
    henter.part.fields rfl rfl rfl rfl rfl rfl rfl (fun _ => rfl) rfl
  have hstate : ({ activateTask' a p with active := s.active } : State) =
      enqueueTask { s with nrRunning := s.nrRunning + 1 } p (.rq i) := by
    rw [activateTask', if_neg (show (a.task p).policy ≠ .uwrr from hpol)]
    rfl
  rw [← hstate]
  exact (hactive.trans henter).trans hback

theorem Part.activate (h : Part v s) (hp : v.live p = true) (hnone : (s.task p).array = none)
    (hcreated : v.created p = true) (hres : ¬ Reserved v.forking p)
    (hshown : v.shown (homeArray s p) = true) (now : Nat) (inInterrupt : Bool) :
    Moves v s (activateTask s p now inInterrupt) ∧
      (activateTask s p now inInterrupt).uwrrUserlist = enteredList s.uwrrUserlist (s.task p) := by
  obtain ⟨hpart, howners, hlist, -⟩ := h.of_views' (f := fun s => activateTask s p now inInterrupt)
    (Q := fun _ => True) (see_activateTask hp (h.owner p) hshown now inInterrupt)
    (see_activateTask rfl rfl rfl now inInterrupt)
    ⟨(h.core.enter (p := p) (by rw [h.see_task hp]; exact hnone) hcreated hres now inInterrupt).1,
      trivial⟩
  exact ⟨⟨hpart, howners, .activateTask hp hshown now inInterrupt⟩, hlist⟩

/-! ### The tick -/

/-- A tick of a task that is not UWRR. -/
theorem Part.tick (h : Part v s) (hb : Busy s) (hcurr : v.live s.curr = true)
    (hpol : (s.task s.curr).policy ≠ .uwrr) (jiffies : Nat) :
    ∃ s', schedulerTick s jiffies = some s' ∧ Moves v s s' ∧ Busy s' ∧
      s'.uwrrUserlist = s.uwrrUserlist ∧ s'.curr = s.curr := by
  have hb' := h.busy hb hcurr
  obtain ⟨t, ht, hcore, hstays⟩ := h.core.tick hb' jiffies
  obtain ⟨s', hs', hpart, howners, hlist, hstays⟩ := h.of_views
    (f := fun s => schedulerTick s jiffies) (Q := Stays (v.see s.uwrrUserlist s))
    (see_tick hcurr h.rq hpol jiffies) (see_tick rfl (fun _ => rfl) hpol jiffies)
    ⟨t, ht, hcore, hstays⟩
  exact ⟨s', hs', ⟨hpart, howners, .tick hcurr h.rq (fun _ _ => hpol) hs'⟩,
    (hpart.unbusy (hstays.busy hb')).1, hlist, hstays.curr⟩

theorem Part.tickTask (h : Part v s) (hp : v.live p = true) (hr : (s.task p).array = some r) :
    ∃ s', uwrrTickTask s p = some s' ∧ Moves v s s' ∧ s'.uwrrUserlist = s.uwrrUserlist ∧
      Stays s s' ∧ Same (s.task p) (s'.task p) := by
  have hshown := h.shown hp hr
  obtain ⟨t, ht, hcore, hstays, hsame⟩ := h.core.tickTask (p := p) (r := r)
    (by rw [h.see_task hp]; exact hr)
  obtain ⟨s', hs', hpart, howners, hlist, hstays, hsame⟩ := h.of_views
    (f := fun s => uwrrTickTask s p)
    (Q := fun t => Stays (v.see s.uwrrUserlist s) t ∧
      Same ((v.see s.uwrrUserlist s).task p) (t.task p))
    (see_tickTask hp hr hshown) (see_tickTask rfl hr rfl) ⟨t, ht, hcore, hstays, hsame⟩
  rw [h.see_task hp, hpart.see_task hp] at hsame
  have huntouched := Untouched.tickTask hp hr hshown hs'
  refine ⟨s', hs', ⟨hpart, howners, huntouched⟩, hlist, ⟨hstays.curr, fun q hq => ?_⟩, hsame⟩
  by_cases hlive : v.live q = true
  · have hkept := hstays.array q (by rw [h.see_task hlive]; exact hq)
    rwa [hpart.see_task hlive] at hkept
  · rw [huntouched.task q (Bool.eq_false_of_not_eq_true hlive)]
    exact hq

theorem Part.tickUser (h : Part v s) (hp : v.live p = true)
    (hr : (s.task p).array = some (.user (s.task p).user)) :
    Moves v s (uwrrTickUser s p) ∧ Stays s (uwrrTickUser s p) ∧
      ∀ u, u ∈ (uwrrTickUser s p).uwrrUserlist ↔ u ∈ s.uwrrUserlist := by
  obtain ⟨users, hcount, hs' | hs'⟩ := uwrrTickUser_cases s p
  · rw [hs']
    exact ⟨h.fields rfl rfl rfl rfl rfl rfl rfl hcount rfl, ⟨rfl, fun _ => id⟩, fun _ => Iff.rfl⟩
  · set m : State := { s with
      user := users
      uwrrUserlist := s.uwrrUserlist.erase (s.task p).user ++ [(s.task p).user] } with hm
    rw [hs']
    have hocc : Occupied (loc (v.see s.uwrrUserlist s).task) (s.task p).user := by
      refine ⟨p, (s.task p).prio, ?_⟩
      rw [loc_eq_some, h.see_task hp]
      exact ⟨hr, rfl⟩
    have hrot := h.core.linked.rotate hocc
    have hmoves : Moves v s m :=
      ⟨h.of_core ⟨fun _ => rfl, rfl, rfl, hcount⟩
        (h.core.of_eq rfl rfl rfl rfl hrot rfl rfl (fun _ => rfl) rfl),
        ⟨fun _ => rfl, rfl, rfl, hcount⟩, .of_eq rfl rfl⟩
    refine ⟨hmoves.trans (hmoves.part.resched hp), Stays.of_update rfl rfl id, fun u => ?_⟩
    exact (hrot.mem u).trans (h.core.linked.mem u).symm

/-! ### `schedule` -/

theorem Part.putPrev (h : Part v s) (hb : Busy s) (hcurr : v.live s.curr = true)
    (preemptActive signalPending : Bool) :
    ∃ s', putPrev s preemptActive signalPending = some s' ∧ Moves v s s' ∧
      s'.uwrrUserlist ⊆ s.uwrrUserlist ∧ s'.curr = s.curr := by
  have hshown : ∀ r, (s.task s.curr).array = some r → v.shown r = true :=
    fun r hr => h.shown hcurr hr
  obtain ⟨t, ht, hcore, hsame⟩ := h.core.putPrev (h.busy hb hcurr) preemptActive signalPending
  obtain ⟨s', hs', hpart, howners, hlist, hkept⟩ := h.of_views
    (f := fun s => Uwrr.putPrev s preemptActive signalPending) (Q := fun t => t.curr = s.curr)
    (see_putPrev hcurr (fun _ => h.owner _) hshown signalPending)
    (see_putPrev rfl (fun _ => rfl) (fun _ _ => rfl) signalPending) ⟨t, ht, hcore, hsame⟩
  refine ⟨s', hs', ⟨hpart, howners, .putPrev hcurr hshown hs'⟩, ?_, hkept⟩
  rw [hlist, putList]
  split
  · exact fun _ => id
  · split
    · exact fun _ => id
    · split
      · exact fun _ => id
      · exact fun u hu => ((mem_leftList h.core.linked.nodup).mp hu).1

theorem Part.linked (h : Part v s) {u : UserId} (hu : u ∈ s.uwrrUserlist) :
    ∃ p, v.live p = true ∧ (s.task p).array = some (.user u) := by
  obtain ⟨p, k, hp⟩ := (h.core.linked.mem u).mp hu
  obtain ⟨harray, -⟩ := loc_eq_some.mp hp
  have hlive : v.live p = true := live_of_queued (by rw [harray]; simp)
  rw [h.see_task hlive] at harray
  exact ⟨p, hlive, harray⟩

theorem Part.nrActive_ne_zero (h : Part v s) {u : UserId} (hu : u ∈ s.uwrrUserlist) :
    (s.arrays (.user u)).nrActive ≠ 0 := by
  obtain ⟨p, hp, hr⟩ := h.linked hu
  have hnr := (h.core.occupied_queue ((h.core.linked.mem u).mp hu)).1
  rwa [see_arrays (h.shown hp hr)] at hnr

theorem Part.queuedUsers (h : Part v s) {us : List UserId} (hus : us ⊆ s.uwrrUserlist) :
    queuedUsers { s with uwrrUserlist := us } = us := by
  refine List.filter_eq_self.mpr fun u hu => ?_
  exact decide_eq_true (h.nrActive_ne_zero (hus hu))

/-- The search for the next task. -/
theorem Part.pickQueue (h : Part v s)
    (hready : ((v.see s.uwrrUserlist s).arrays s.activeArray).nrActive ≠ 0 ∨
      s.uwrrRunning ≠ 0) :
    ∃ s' p queue, pickQueue s = some (s', p :: queue) ∧ Moves v s s' ∧ v.live p = true ∧
      (s'.task p).array ≠ none ∧ s'.uwrrUserlist ⊆ s.uwrrUserlist ∧ s'.curr = s.curr := by
  have hall : Uwrr.queuedUsers s = s.uwrrUserlist := h.queuedUsers fun _ => id
  obtain ⟨t, p, queue, ht, hcore, -, hp⟩ := h.core.pickQueue hready
  have hsee := see_pickQueue (v := v) (s := s) h.rq (fun u hu => by
    rw [hall] at hu
    obtain ⟨q, hq, hr⟩ := h.linked hu
    exact h.shown hq hr)
  rw [hall, ht] at hsee
  obtain ⟨⟨s', q⟩, hs', heq⟩ := Option.map_eq_some_iff.mp hsee.symm
  obtain ⟨rfl, rfl⟩ := Prod.mk.inj heq
  obtain ⟨us, hus, rfl⟩ := pickQueue_suffix hs'
  have hsub : us ⊆ s.uwrrUserlist := hus.subset
  have howners : SameOwners s { s with uwrrUserlist := us } :=
    ⟨fun _ => rfl, rfl, rfl, fun _ => rfl⟩
  have hlive := live_of_queued hp
  dsimp only at hcore hp
  rw [h.queuedUsers hsub] at hcore
  have hpart := h.of_core howners hcore
  rw [hpart.see_task hlive] at hp
  exact ⟨_, p, queue, hs', ⟨hpart, howners, .of_eq rfl rfl⟩, hlive, hp, hsub, rfl⟩

theorem Part.swapArrays (h : Part v s) (hrun : s.nrRunning ≠ 0) :
    Moves v s (swapArrays s) ∧ (swapArrays s).uwrrUserlist = s.uwrrUserlist ∧
      (swapArrays s).curr = s.curr ∧
      (((v.see (swapArrays s).uwrrUserlist (swapArrays s)).arrays
        (swapArrays s).activeArray).nrActive ≠ 0 ∨ (swapArrays s).uwrrRunning ≠ 0) := by
  obtain ⟨hcore, hstays, hready⟩ := h.core.swapArrays hrun
  obtain ⟨hpart, howners, hlist, hstays, hready⟩ := h.of_views' (f := Uwrr.swapArrays)
    (Q := fun t => Stays (v.see s.uwrrUserlist s) t ∧
      ((t.arrays t.activeArray).nrActive ≠ 0 ∨ t.uwrrRunning ≠ 0))
    (see_swapArrays h.rq) (see_swapArrays fun _ => rfl) ⟨hcore, hstays, hready⟩
  exact ⟨⟨hpart, howners, .swapArrays v s⟩, hlist, hstays.curr, hready⟩

theorem Part.credit (h : Part v s) (hp : v.live p = true) (hqueued : (s.task p).array ≠ none)
    (now : Nat) :
    ∃ s', creditNext s p now = some s' ∧ Moves v s s' ∧ (s'.task p).array ≠ none ∧
      s'.uwrrUserlist = s.uwrrUserlist ∧ s'.curr = s.curr := by
  have hshown : ∀ r, (s.task p).array = some r → v.shown r = true := fun r hr => h.shown hp hr
  have hsee : ((v.see s.uwrrUserlist s).task p).array ≠ none := by
    rw [h.see_task hp]
    exact hqueued
  obtain ⟨t, ht, hcore, hstays⟩ := h.core.credit hsee now
  obtain ⟨s', hs', hpart, howners, hlist, hstays⟩ := h.of_views
    (f := fun s => creditNext s p now) (Q := Stays (v.see s.uwrrUserlist s))
    (see_credit hp hshown now) (see_credit rfl (fun _ _ => rfl) now) ⟨t, ht, hcore, hstays⟩
  have hkept := hstays.array p hsee
  rw [hpart.see_task hp] at hkept
  exact ⟨s', hs', ⟨hpart, howners, .credit hp hshown hs'⟩, hkept, hlist, hstays.curr⟩

theorem Part.switchTasks (h : Part v s) {next : TaskId} (hcurr : v.live s.curr = true)
    (hlive : v.live next = true) (hnext : next = idle ∨ (s.task next).array ≠ none)
    (now run : Nat) :
    Moves v s (switchTasks s next now run) ∧ Busy (switchTasks s next now run) ∧
      (switchTasks s next now run).uwrrUserlist = s.uwrrUserlist ∧
      (switchTasks s next now run).curr = next := by
  obtain ⟨hpart, howners, hlist, hbusy⟩ := h.of_views'
    (f := fun s => Uwrr.switchTasks s next now run) (Q := Busy)
    (see_switch hcurr hlive now run) (see_switch rfl rfl now run)
    (h.core.switchTasks (by rw [h.see_task hlive]; exact hnext) now run)
  exact ⟨⟨hpart, howners, .switchTasks hcurr hlive now run⟩, (hpart.unbusy hbusy).1, hlist,
    switchTasks_curr s next now run⟩

/-- **`schedule` picks a task of the part**, or the idle task. -/
theorem Part.pickNext (h : Part v s) (hidle : v.live idle = true) (hcurr : v.live s.curr = true)
    (now run : Nat) :
    ∃ s', Machine.pickNext s now run = some s' ∧ Moves v s s' ∧ Busy s' ∧
      v.live s'.curr = true ∧ s'.uwrrUserlist ⊆ s.uwrrUserlist := by
  rw [Machine.pickNext]
  split
  · have hreset : Moves v s { s with expiredTimestamp := 0 } :=
      h.fields rfl rfl rfl rfl rfl rfl rfl (fun _ => rfl) rfl
    obtain ⟨hmoves, hbusy, hlist, hnext⟩ :=
      hreset.part.switchTasks hcurr hidle (Or.inl rfl) now run
    refine ⟨_, rfl, hreset.trans hmoves, hbusy, ?_, ?_⟩
    · rw [hnext]
      exact hidle
    · rw [hlist]
      exact fun _ => id
  · rename_i hrun
    obtain ⟨h₁, hlist₁, hcurr₁, hready⟩ := h.swapArrays hrun
    obtain ⟨s₂, p, queue, hs₂, h₂, hp, hqueued, hsub₂, hcurr₂⟩ := h₁.part.pickQueue hready
    obtain ⟨s₃, hs₃, h₃, hqueued₃, hlist₃, hcurr₃⟩ := h₂.part.credit hp hqueued now
    have h₄ : Moves v s₃ (s₃.modTask p fun t => { t with activated := 0 }) :=
      h₃.part.retask hp (fun _ _ => rfl) ⟨rfl, rfl, rfl, rfl, rfl, rfl⟩
    have hqueued₄ := (Stays.modTask s₃ p (fun t => { t with activated := 0 }) rfl).array p hqueued₃
    have hcurr₄ : v.live s₃.curr = true := by
      rw [hcurr₃, hcurr₂, hcurr₁]
      exact hcurr
    obtain ⟨h₅, hbusy, hlist₅, hnext⟩ := h₄.part.switchTasks hcurr₄ hp (Or.inr hqueued₄) now run
    rw [hs₂]
    simp only [Option.bind_eq_bind, Option.bind_some, hs₃]
    refine ⟨_, rfl, (((h₁.trans h₂).trans h₃).trans h₄).trans h₅, hbusy, ?_, ?_⟩
    · rw [hnext]
      exact hp
    · rw [hlist₅, show (s₃.modTask p _).uwrrUserlist = s₃.uwrrUserlist from rfl, hlist₃]
      exact fun u hu => hlist₁ ▸ hsub₂ hu

end Part

end LinuxHacks.Uwrr
