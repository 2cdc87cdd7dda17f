import LinuxHacks.Uwrr.Fork
import LinuxHacks.Uwrr.Schedule

/-!
# Runs of the scheduler

`Inv` holds after every step whose call is `PrioSafe`, and then no `BUG` can be
reached. Two calls are excluded: `set_user_nice` with an effect on a UWRR task,
and the fast path of `wake_up_new_task` for parent and child of which only one
is UWRR. Without the first exclusion a UWRR task gets another priority
(`renicedRun`).
-/

namespace LinuxHacks.Uwrr

open LinuxHacks.Lib
open LinuxHacks.Lib.Placement

/-! ## Steps -/

/-- The calls that leave the priority of UWRR tasks alone. -/
def PrioSafe (s : State) : Op → Prop
  | .setUserNice p nice => (s.task p).policy = .uwrr → NiceIgnored (s.task p) nice
  | .sysNice increment capable hook => (s.task s.curr).policy = .uwrr →
      increment = 0 ∨ (increment < 0 ∧ capable = false) ∨ hook ≠ 0
  | .wakeUpNew p cloneVm => cloneVm = false → (s.task s.curr).array ≠ none →
      ((s.task p).policy = .uwrr ↔ (s.task s.curr).policy = .uwrr)
  | _ => True

structure Inv (s : State) : Prop where
  core : Core s
  busy : Busy s

theorem Stays.inv {s s' : State} (hb : Busy s) (h : Core s' ∧ Stays s s') : Inv s' :=
  ⟨h.1, h.2.busy hb⟩

/-- **No call reaches a `BUG`**, and each keeps the invariant. -/
theorem Inv.runOp {s : State} (h : Inv s) {op : Op} (hen : Enabled s op) (hsafe : PrioSafe s op) :
    ∃ s', runOp s op = some s' ∧ Inv s' := by
  obtain ⟨hcore, hb⟩ := h
  cases op with
  | wakeUp p mask sync inInterrupt now =>
      exact ⟨_, rfl, Stays.inv hb (hcore.wakeUp hen mask sync inInterrupt now)⟩
  | activate p inInterrupt now =>
      obtain ⟨hcreated, hidle, harray, hfork⟩ := hen
      refine ⟨_, rfl, Stays.inv hb (hcore.enter harray hcreated ?_ now inInterrupt)⟩
      rintro (e | ⟨q, hq⟩)
      · exact hidle e
      · exact hfork q hq
  | deactivate p =>
      obtain ⟨hqueued, hne⟩ := hen
      rcases array_cases (s.task p) with hnone | ⟨r, hr⟩
      · exact absurd hnone hqueued
      · obtain ⟨s', hs', hd⟩ := deactivateTask_eq hr
        refine ⟨s', hs', hcore.deactivate hr hd, ?_⟩
        rw [Busy, hd.curr, hd.task, Function.update_of_ne (Ne.symm hne)]
        exact hb
  | setscheduler p policy prio capable sameUid hook =>
      obtain ⟨ret, s', hs', h'⟩ := hcore.setscheduler hen.2 policy prio capable sameUid hook
      refine ⟨s', ?_, Stays.inv hb h'⟩
      rw [Uwrr.runOp, hs']
      rfl
  | setUserNice p nice => exact ⟨_, rfl, Stays.inv hb (hcore.nice hsafe)⟩
  | sysNice increment capable hook => exact ⟨_, rfl, Stays.inv hb (hcore.sysNice hsafe)⟩
  | yield =>
      obtain ⟨s', hs', h'⟩ := hcore.yield hb hen
      exact ⟨s', hs', Stays.inv hb h'⟩
  | tick jiffies =>
      obtain ⟨s', hs', h'⟩ := hcore.tick hb jiffies
      exact ⟨s', hs', Stays.inv hb h'⟩
  | fork child now jiffies =>
      obtain ⟨s', hs', h'⟩ := hcore.fork hb hen.1 hen.2 now jiffies
      exact ⟨s', hs', Stays.inv hb h'⟩
  | wakeUpNew p cloneVm =>
      obtain ⟨s', hs', h'⟩ := hcore.wakeUpNew hb hen hsafe
      exact ⟨s', hs', Stays.inv hb h'⟩
  | switchUid new =>
      obtain ⟨s', hs', h'⟩ := hcore.switch hb hen.1 hen.2 new
      exact ⟨s', hs', Stays.inv hb h'⟩
  | setState st =>
      obtain ⟨r, hr⟩ := hb.array hen
      have hok := hcore.tasks.ok s.curr
      have hqueued : (s.task s.curr).array ≠ none := by rw [hr]; simp
      exact ⟨_, rfl, Stays.inv hb ⟨hcore.modTask s.curr _ rfl (fun _ => rfl) rfl
        ⟨hok.uwrr, hok.static, hok.prio, hok.queued, hok.home⟩
        (fun e => absurd e (hcore.not_reserved hqueued)) (fun e => absurd e hen),
        Stays.modTask s s.curr _ rfl⟩⟩
  | schedule now preemptActive signalPending =>
      obtain ⟨s', hs', hcore', hb'⟩ := hcore.schedule hb now preemptActive signalPending
      exact ⟨s', hs', hcore', hb'⟩

theorem Inv.step {s s' : State} {op : Op} (h : Inv s) (hsafe : PrioSafe s op)
    (hst : Step s op s') : Inv s' := by
  cases hst with
  | run hen hrun =>
      obtain ⟨m, hm, hinv⟩ := h.runOp hen hsafe
      rw [hm] at hrun
      cases hrun
      exact hinv
  | bug hen hbug =>
      obtain ⟨m, hm, _⟩ := h.runOp hen hsafe
      rw [hm] at hbug
      cases hbug

/-! ## The initial state -/

theorem count_unplaced {l : Loc} (hl : ∀ p, l p = none) (P : ArrayRef × Int → Prop) :
    count l P = 0 := by
  have hempty : items l P = ∅ := by
    ext p
    refine ⟨?_, fun e => e.elim⟩
    rintro ⟨b, hb, _⟩
    rw [hl p] at hb
    cases hb
  rw [count, hempty, Set.ncard_empty]

theorem idleTask_ok : TaskOk idleTask := by
  refine ⟨fun e => (by cases e), by decide, by decide, fun e => absurd rfl e, ?_⟩
  intro r e
  cases e

/-- Nothing is queued and nobody forks. -/
theorem Core.of_empty {s : State} (harrays : ∀ r, s.arrays r = emptyArray)
    (hnone : ∀ p, (s.task p).array = none) (hnr : s.nrRunning = 0) (huwrr : s.uwrrRunning = 0)
    (hlist : s.uwrrUserlist = []) (hforking : ∀ p, s.forking p = none)
    (hok : ∀ p, TaskOk (s.task p)) (hpol : (s.task idle).policy ≠ .uwrr)
    (hstate : (s.task idle).state = .running) (hcreated : s.created idle = true)
    (hrefs : Refs s.task s.created s.user) (hbug : s.bug = false) : Core s := by
  have hloc : ∀ p, loc s.task p = none := fun p => loc_eq_none.mpr (hnone p)
  have hfork : ∀ q c, s.forking q ≠ some c := by
    intro q c e
    rw [hforking] at e
    cases e
  have hres : ∀ p, Reserved s.forking p → p = idle :=
    fun p hp => hp.resolve_right fun ⟨q, hq⟩ => hfork q p hq
  refine ⟨⟨?_, ?_, ?_, ?_, ?_⟩, ⟨?_, ?_⟩, ⟨?_, ?_⟩, ⟨hok, ?_, ?_, hpol, ?_, ?_, ?_, ?_⟩, hrefs, hbug⟩
  · intro r k
    rw [harrays]
    exact List.nodup_nil
  · intro r k p
    rw [harrays, hloc]
    exact ⟨fun e => (by cases e), fun e => (by cases e)⟩
  · intro r k
    rw [harrays]
    exact ⟨fun e => (by cases e), fun e => absurd rfl e⟩
  · exact Set.Finite.subset Set.finite_empty fun p hp => hp (hloc p)
  · intro r
    rw [harrays, count_unplaced hloc]
    rfl
  · rw [hnr, count_unplaced hloc]
    rfl
  · rw [huwrr, count_unplaced hloc]
    rfl
  · rw [hlist]
    exact List.nodup_nil
  · intro u
    rw [hlist]
    refine ⟨fun e => (by cases e), ?_⟩
    rintro ⟨p, k, hp⟩
    rw [hloc] at hp
    cases hp
  · rintro p (he | hp)
    · exact absurd (hnone p) he
    · rw [hres p hp]
      exact hcreated
  · intro p hp
    rw [hres p hp]
    exact ⟨hnone idle, hstate⟩
  · exact fun q => hfork q idle
  · exact fun q c e => absurd e (hfork q c)
  · exact fun q c e => absurd e (hfork q c)
  · exact fun q q' c e => absurd e (hfork q c)

theorem inv_init : Inv State.init := by
  refine ⟨Core.of_empty (fun _ => rfl) (fun _ => rfl) rfl rfl rfl (fun _ => rfl)
    (fun _ => idleTask_ok) (fun e => (by cases e)) rfl rfl ⟨?_, ?_⟩ rfl, Or.inl rfl⟩
  · refine (Set.finite_singleton idle).subset ?_
    intro p hp
    exact of_decide_eq_true hp
  · intro u
    have hsub : {p | State.init.created p = true ∧ (State.init.task p).user = u} ⊆ {idle} :=
      fun p hp => of_decide_eq_true hp.1
    have hle := Set.ncard_le_ncard hsub (Set.finite_singleton idle)
    rw [Set.ncard_singleton] at hle
    by_cases hu : u = rootUser
    · simp only [State.init, hu, if_true]
      rw [hu] at hle
      exact_mod_cast hle
    · have hempty : {p | State.init.created p = true ∧ (State.init.task p).user = u} = ∅ := by
        ext p
        refine ⟨?_, fun e => e.elim⟩
        rintro ⟨_, hp⟩
        exact absurd hp.symm hu
      rw [hempty]
      simp [State.init, hu]

theorem inv_reach {s : State} (h : system.Reach PrioSafe s) : Inv s := by
  refine System.Reach.invariant (I := Inv) ?_ ?_ h
  · rintro s rfl
    exact inv_init
  · intro s op s' hI hsafe hst
    exact hI.step hsafe hst

/-! ## The counters and the lists -/

def Runnable (s : State) (p : TaskId) : Prop := (s.task p).array ≠ none

/-- What the two levels of lists and the four counters promise each other. -/
structure RunqueueOk (s : State) : Prop where
  linked : ∀ u, s.uwrrUserlist.count u = if 0 < (s.arrays (.user u)).nrActive then 1 else 0
  array : ∀ p, (s.task p).policy = .uwrr → Runnable s p →
    (s.task p).array = some (.user (s.task p).user)
  queued : ∀ p, (s.task p).policy = .uwrr → Runnable s p → ∀ r k,
    ((s.arrays r).queue k).count p =
      if r = .user (s.task p).user ∧ k = (s.task p).prio then 1 else 0
  nrActive : ∀ u, (s.arrays (.user u)).nrActive =
    {p | Runnable s p ∧ (s.task p).policy = .uwrr ∧ (s.task p).user = u}.ncard
  uwrrRunning : s.uwrrRunning = ∑ᶠ u, (s.arrays (.user u)).nrActive
  nrRunning : s.nrRunning = s.uwrrRunning + (s.arrays s.activeArray).nrActive +
    (s.arrays s.expiredArray).nrActive

theorem count_nodup {α : Type} [DecidableEq α] {l : List α} (hl : l.Nodup) (a : α) :
    l.count a = if a ∈ l then 1 else 0 := by
  split
  · rename_i ha
    exact List.count_eq_one_of_mem hl ha
  · rename_i ha
    exact List.count_eq_zero_of_not_mem ha

theorem Core.nrActive_pos {s : State} (h : Core s) (u : UserId) :
    0 < (s.arrays (.user u)).nrActive ↔ Occupied (loc s.task) u := by
  rw [h.holds.nrActive, Nat.cast_pos, occupied_iff_count h.holds.finitary]

theorem Core.inUserArray {s : State} (h : Core s) (u : UserId) (p : TaskId) :
    p ∈ items (loc s.task) (fun b => b.1 = .user u) ↔
      Runnable s p ∧ (s.task p).policy = .uwrr ∧ (s.task p).user = u := by
  constructor
  · rintro ⟨⟨_, k⟩, hp, rfl⟩
    obtain ⟨harray, _⟩ := loc_eq_some.mp hp
    rcases (h.tasks.ok p).home _ harray with ⟨hpol, hu⟩ | ⟨_, i, hi⟩
    · refine ⟨?_, hpol, (ArrayRef.user.inj hu).symm⟩
      rw [Runnable, harray]
      simp
    · cases hi
  · rintro ⟨hrun, hpol, rfl⟩
    rcases array_cases (s.task p) with hnone | ⟨r, hr⟩
    · exact absurd hnone hrun
    · rcases (h.tasks.ok p).home r hr with ⟨_, hu⟩ | ⟨hno, _⟩
      · exact ⟨_, Core.loc_curr hr, hu⟩
      · exact absurd hpol hno

theorem Core.runqueueOk {s : State} (h : Core s) : RunqueueOk s := by
  have harray : ∀ p, (s.task p).policy = .uwrr → Runnable s p →
      (s.task p).array = some (.user (s.task p).user) := by
    intro p hpol hrun
    obtain ⟨⟨r, k⟩, hp, hr⟩ := (h.inUserArray _ p).mpr ⟨hrun, hpol, rfl⟩
    rw [← hr]
    exact (loc_eq_some.mp hp).1
  refine ⟨?_, harray, ?_, ?_, ?_, ?_⟩
  · intro u
    rw [count_nodup h.linked.nodup]
    exact if_congr ((h.linked.mem u).trans (h.nrActive_pos u).symm) rfl rfl
  · intro p hpol hrun r k
    have hmem : p ∈ (s.arrays r).queue k ↔ r = .user (s.task p).user ∧ k = (s.task p).prio := by
      rw [h.holds.mem, loc_eq_some, harray p hpol hrun, Option.some.injEq]
      exact ⟨fun e => ⟨e.1.symm, e.2.symm⟩, fun e => ⟨e.1.symm, e.2.symm⟩⟩
    rw [count_nodup (h.holds.nodup r k)]
    exact if_congr hmem rfl rfl
  · intro u
    rw [h.holds.nrActive, count]
    congr 2
    ext p
    exact h.inUserArray u p
  · have hsum := count_eq_finsum h.holds.finitary Prod.fst (g := ArrayRef.user)
      (fun u v e => ArrayRef.user.inj e)
    have huser : ∀ b : ArrayRef × Int, b.1.isUser ↔ ∃ u, b.1 = .user u := by
      rintro ⟨r, k⟩
      cases r with
      | rq i =>
          refine ⟨fun e => e.elim, ?_⟩
          rintro ⟨u, hu⟩
          cases hu
      | user u => exact ⟨fun _ => ⟨u, rfl⟩, fun _ => trivial⟩
    rw [h.counts.uwrrRunning, count_congr huser, hsum]
    simp only [h.holds.nrActive]
  · -- every queued task is in one of the three kinds of arrays
    have hkinds : ∀ b : ArrayRef × Int,
        True ↔ b.1.isUser ∨ (b.1 = s.activeArray ∨ b.1 = s.expiredArray) := by
      rintro ⟨r, k⟩
      refine ⟨fun _ => ?_, fun _ => trivial⟩
      cases r with
      | user u => exact Or.inl trivial
      | rq i =>
          refine Or.inr ?_
          by_cases hi : i = s.active
          · exact Or.inl (congrArg ArrayRef.rq hi)
          · exact Or.inr (congrArg ArrayRef.rq (Bool.eq_not.mpr hi))
    have hout : ∀ b : ArrayRef × Int, b.1.isUser →
        ¬ (b.1 = s.activeArray ∨ b.1 = s.expiredArray) := by
      rintro ⟨r, k⟩ hu (rfl | rfl)
      · exact hu
      · exact hu
    have hne : ∀ b : ArrayRef × Int, b.1 = s.activeArray → ¬ b.1 = s.expiredArray := by
      rintro ⟨r, k⟩ rfl he
      have hb := ArrayRef.rq.inj he
      cases hs : s.active <;> rw [hs] at hb <;> cases hb
    rw [h.counts.nrRunning, count_congr hkinds, count_or h.holds.finitary hout,
      count_or h.holds.finitary hne, h.counts.uwrrRunning, h.holds.nrActive, h.holds.nrActive]
    push_cast
    omega

/-- No `set_user_nice` on a UWRR task, and a child enters with the policy and
the user of its parent. -/
def Admitted (s : State) : Op → Prop
  | .setUserNice p _ => (s.task p).policy ≠ .uwrr
  | .sysNice _ _ _ => (s.task s.curr).policy ≠ .uwrr
  | .wakeUpNew p _ => (s.task p).policy = (s.task s.curr).policy ∧
      (s.task p).user = (s.task s.curr).user
  | _ => True

theorem Admitted.prioSafe {s : State} {op : Op} (h : Admitted s op) : PrioSafe s op := by
  cases op with
  | setUserNice p nice => exact fun e => absurd e h
  | sysNice increment capable hook => exact fun e => absurd e h
  | wakeUpNew p cloneVm =>
      intro _ _
      rw [h.1]
  | wakeUp p mask sync inInterrupt now => trivial
  | activate p inInterrupt now => trivial
  | deactivate p => trivial
  | setscheduler p policy prio capable sameUid hook => trivial
  | yield => trivial
  | tick jiffies => trivial
  | fork child now jiffies => trivial
  | switchUid new => trivial
  | setState st => trivial
  | schedule now preemptActive signalPending => trivial

/-- **The runqueue counts its UWRR tasks.** In every reachable state the list of
users and all counters agree with the tasks; no `BUG` was reached, and the next
`schedule` reaches none. -/
theorem uwrr_runqueue_invariant (s : State) (h : system.Reach Admitted s) :
    RunqueueOk s ∧ s.bug = false ∧ (0 < s.uwrrRunning → s.uwrrUserlist ≠ []) ∧
      ∀ now preemptActive signalPending, schedule s now preemptActive signalPending ≠ none := by
  obtain ⟨hcore, hb⟩ := inv_reach (h.mono fun _ _ => Admitted.prioSafe)
  refine ⟨hcore.runqueueOk, hcore.bug, ?_, ?_⟩
  · intro hpos hnil
    obtain ⟨u, hpick, _⟩ := hcore.pickUser (by omega)
    rw [hnil] at hpick
    cases hpick
  · intro now preemptActive signalPending hnone
    obtain ⟨s', hs', _⟩ := hcore.schedule hb now preemptActive signalPending
    rw [hnone] at hs'
    cases hs'

/-! ## UWRR tasks keep their priority -/

/-- **UWRR tasks keep the UWRR priority.** In every run without the two calls
that `PrioSafe` excludes, a UWRR task has `prio` and `static_prio` 120 and every
task in the array of a user is in queue 120. No `BUG` was reached, and neither
the next tick nor the next `schedule` reaches one. -/
theorem uwrr_priority_fixed (s : State) (h : system.Reach PrioSafe s) :
    (∀ p, (s.task p).policy = .uwrr →
      (s.task p).prio = UWRR_TASK_PRIO ∧ (s.task p).staticPrio = UWRR_TASK_PRIO) ∧
    (∀ u k p, p ∈ (s.arrays (.user u)).queue k → k = UWRR_TASK_PRIO) ∧
    s.bug = false ∧
    (∀ jiffies, schedulerTick s jiffies ≠ none) ∧
    ∀ now preemptActive signalPending, schedule s now preemptActive signalPending ≠ none := by
  obtain ⟨hcore, hb⟩ := inv_reach h
  refine ⟨fun p => (hcore.tasks.ok p).uwrr, ?_, hcore.bug, ?_, ?_⟩
  · intro u k p hp
    obtain ⟨harray, hprio⟩ := loc_eq_some.mp ((hcore.holds.mem _ k p).mp hp)
    rcases (hcore.tasks.ok p).home _ harray with ⟨hpol, _⟩ | ⟨_, i, hi⟩
    · rw [← hprio]
      exact ((hcore.tasks.ok p).uwrr hpol).1
    · cases hi
  · intro jiffies hnone
    obtain ⟨s', hs', _⟩ := hcore.tick hb jiffies
    rw [hnone] at hs'
    cases hs'
  · intro now preemptActive signalPending hnone
    obtain ⟨s', hs', _⟩ := hcore.schedule hb now preemptActive signalPending
    rw [hnone] at hs'
    cases hs'

/-- One call of the run, and what it leaves. -/
def State.after (s : State) (op : Op) : State := (runOp s op).getD s

theorem Step.after {s : State} {op : Op} (hen : Enabled s op) (hrun : (runOp s op).isSome = true) :
    Step s op (s.after op) := by
  obtain ⟨s', hs'⟩ := Option.isSome_iff_exists.mp hrun
  have hafter : s.after op = s' := by rw [State.after, hs', Option.getD_some]
  rw [hafter]
  exact .run hen hs'

/-- A run goes on with any call that is enabled and admitted. -/
theorem reach_after {s : State} (h : system.Reach Admitted s) (op : Op) (hen : Enabled s op)
    (hadm : Admitted s op) : system.Reach Admitted (s.after op) := by
  have hinv := inv_reach (h.mono fun _ _ => Admitted.prioSafe)
  obtain ⟨s', hs', -⟩ := hinv.runOp hen hadm.prioSafe
  exact h.step op hadm (Step.after hen (by rw [hs']; rfl))

theorem reach_safe {s : State} (h : system.Reach PrioSafe s) (op : Op) (hen : Enabled s op)
    (hok : PrioSafe s op) : system.Reach PrioSafe (s.after op) := by
  obtain ⟨s', hs', -⟩ := (inv_reach h).runOp hen hok
  exact h.step op hok (Step.after hen (by rw [hs']; rfl))

/-! The idle task forks a child, which becomes a UWRR task. -/

def forkedRun : State := State.init.after (.fork 1 0 0)

def wokenRun : State := forkedRun.after (.wakeUpNew 1 true)

def uwrrRun : State := wokenRun.after (.setscheduler 1 (some .uwrr) 1 true true 0)

def renicedRun : State := uwrrRun.after (.setUserNice 1 5)

theorem wokenRun_reach : system.Reach PrioSafe wokenRun := by
  have h₁ : system.Reach PrioSafe forkedRun :=
    reach_safe (.init rfl) (.fork 1 0 0) ⟨by decide, rfl⟩ trivial
  exact reach_safe h₁ (.wakeUpNew 1 true) rfl (fun e => by cases e)

theorem uwrrRun_reach : system.Reach PrioSafe uwrrRun :=
  reach_safe wokenRun_reach (.setscheduler 1 (some .uwrr) 1 true true 0) ⟨by decide, by decide⟩
    trivial

theorem uwrrRun_prio :
    (uwrrRun.task 1).policy = .uwrr ∧ (uwrrRun.task 1).prio = UWRR_TASK_PRIO ∧
      uwrrRun.uwrrUserlist = [rootUser] := by
  have hpol : (uwrrRun.task 1).policy = .uwrr := by decide
  obtain ⟨hprio, _⟩ := uwrr_priority_fixed uwrrRun uwrrRun_reach
  exact ⟨hpol, (hprio 1 hpol).1, by decide⟩

theorem uwrrRun_counts : uwrrRun.uwrrRunning = 1 ∧ RunqueueOk uwrrRun := by
  have h₀ : system.Reach Admitted State.init := .init rfl
  have h₁ : system.Reach Admitted forkedRun :=
    h₀.step (.fork 1 0 0) trivial (Step.after ⟨by decide, rfl⟩ (by decide))
  have h₂ : system.Reach Admitted wokenRun :=
    h₁.step (.wakeUpNew 1 true) ⟨by decide, by decide⟩ (Step.after rfl (by decide))
  have h₃ : system.Reach Admitted uwrrRun :=
    h₂.step (.setscheduler 1 (some .uwrr) 1 true true 0) trivial
      (Step.after ⟨by decide, by decide⟩ (by decide))
  exact ⟨by decide, (uwrr_runqueue_invariant uwrrRun h₃).1⟩

/-- `set_user_nice` moves the UWRR task to queue 125 of its user. -/
theorem uwrr_priority_not_fixed :
    ¬ ∀ s, system.Reach System.anyStep s → ∀ p, (s.task p).policy = .uwrr →
      (s.task p).prio = UWRR_TASK_PRIO ∧ (s.task p).staticPrio = UWRR_TASK_PRIO := by
  intro hall
  have hreach : system.Reach System.anyStep renicedRun :=
    (uwrrRun_reach.mono fun _ _ _ => trivial).step (.setUserNice 1 5) trivial
      (Step.after ⟨by decide, by decide⟩ (by decide))
  have hprio := (hall renicedRun hreach 1 (by decide)).1
  revert hprio
  decide

end LinuxHacks.Uwrr
