import LinuxHacks.Uwrr.Housed
import LinuxHacks.Uwrr.Preempt

/-!
# `switch_uid` in two steps

`switch_uid` writes `current->user` without the runqueue lock and calls
`uwrr_switch_user` afterwards. In between the caller can be preempted, and its
`user` is the new one while its `array` is still that of the old one. `old p` is
the `old_user` of a task `p` that is between the two steps.

* `KeepsUsers`: the last task in the array of its old user is not taken off the
  runqueue, where `deactivate_task` would unlink the new user, unless that has no
  tasks.
* `SwitchInv`: the runqueue is `Housed` by the owners before the switch, in runs in
  which that does not happen. The first step is not visible there (`see_begin`).
-/

namespace LinuxHacks.Uwrr

open LinuxHacks.Lib
open LinuxHacks.Lib.Placement

/-! ## The two steps -/

/-- `switch_uid` up to `current->user = new_user`. -/
def switchUidBegin (s : State) (new : UserId) : State :=
  let s := s.modUser new fun v => { v with count := v.count + 1 }
  s.modTask s.curr fun t => { t with user := new }

/-- The calls of `uwrr_switch_user` and `free_uid`. -/
def switchUidFinish (s : State) (old : UserId) : Option State := do
  let s ← uwrrSwitchUser s s.curr old
  some (freeUid s old)

theorem switchUid_eq (s : State) (new : UserId) :
    switchUid s new = switchUidFinish (switchUidBegin s new) (s.task s.curr).user := rfl

structure Switching where
  rq : State
  old : TaskId → Option UserId

/-- The first step, by the current task. -/
def Switching.begin (s : Switching) (new : UserId) : Switching where
  rq := switchUidBegin s.rq new
  old := Function.update s.old s.rq.curr (some (s.rq.task s.rq.curr).user)

inductive SwitchOp where
  | begin (new : UserId)
  | finish
  | other (op : Op)

/-- What happens besides, `inside` being whether the current task is between the
two steps: then only interrupts, and `schedule` when they end. -/
def Interleaved (inside : Bool) : Op → Prop
  | .wakeUp _ _ _ _ _ => True
  | .activate _ _ _ => True
  | .deactivate _ => True
  | .tick _ => True
  | .setscheduler _ _ _ _ _ _ => inside = false
  | .setState _ => inside = false
  | .schedule _ preemptActive _ => inside = true → preemptActive = true
  | _ => False

inductive SwitchStep : Switching → SwitchOp → Switching → Prop
  | begin {s : Switching} (new : UserId) : s.rq.curr ≠ idle → s.rq.forking s.rq.curr = none →
      s.old s.rq.curr = none → SwitchStep s (.begin new) (s.begin new)
  | finish {s : Switching} {u : UserId} {m : State} : s.old s.rq.curr = some u →
      switchUidFinish s.rq u = some m →
      SwitchStep s .finish ⟨m, Function.update s.old s.rq.curr none⟩
  | bug {s : Switching} {u : UserId} : s.old s.rq.curr = some u →
      switchUidFinish s.rq u = none →
      SwitchStep s .finish ⟨{ s.rq with bug := true }, s.old⟩
  | other {s : Switching} {op : Op} {m : State} : Interleaved (s.old s.rq.curr).isSome op →
      Step s.rq op m → SwitchStep s (.other op) ⟨m, s.old⟩

/-- A run starts anywhere in a run of the scheduler, with no task between the steps. -/
def switching : System Switching SwitchOp where
  init := fun s => system.Reach Admitted s.rq ∧ ∀ p, s.old p = none
  step := SwitchStep

/-- Such a task is not deactivated, and does not lose its policy. -/
def KeepsUsers (s : Switching) : SwitchOp → Prop
  | .other (.deactivate p) => ¬ Strands s.rq p
  | .other (.setscheduler p policy prio capable sameUid hook) =>
      Accepts (policy.getD (s.rq.task p).policy) prio capable sameUid hook →
        policy.getD (s.rq.task p).policy ≠ .uwrr → ¬ Strands s.rq p
  | _ => True

/-! ## The invariant -/

/-- The references on users: of a task on its user, and of a task between the two
steps on its old one. -/
def Switching.held (s : Switching) : TaskId ⊕ TaskId → Option UserId
  | .inl p => if s.rq.created p then some (s.rq.task p).user else none
  | .inr p => s.old p

/-- The owner of a task is its user, or the user before the first step. -/
def OwnedBy (v : View) (s : Switching) : Prop :=
  ∀ p, v.owner p = (s.rq.task p).user ∨ s.old p = some (v.owner p)

structure SwitchInv (s : Switching) : Prop where
  busy : Busy s.rq
  housed : ∃ v l, Housed v l s.rq ∧ l ⊆ s.rq.uwrrUserlist ∧ OwnedBy v s
  forking : ∀ q c, s.rq.forking q = some c → s.old q = none ∧ s.old c = none
  finite : Finitary s.held
  count : ∀ u, (count s.held (fun w => w = u) : Int) ≤ (s.rq.user u).count

section Steps

variable {s : Switching} {v v' : View} {l : List UserId}

/-- A task whose owner is not its user is not in a `fork`. -/
theorem SwitchInv.notForking (h : SwitchInv s) (hv : OwnedBy v s) (p : TaskId) :
    v.owner p = (s.rq.task p).user ∨
      (s.rq.forking p = none ∧ ∀ q, s.rq.forking q ≠ some p) := by
  refine (hv p).imp_right fun hold => ⟨?_, fun q hq => ?_⟩
  · cases hf : s.rq.forking p with
    | none => rfl
    | some c =>
        have hnone := (h.forking p c hf).1
        rw [hold] at hnone
        cases hnone
  · have hnone := (h.forking q p hq).2
    rw [hold] at hnone
    cases hnone

theorem OwnedBy.follows (hv : OwnedBy v s) (hf : Follows v v' s.rq) : OwnedBy v' s := by
  intro p
  rcases hf p with he | he
  · rw [he]
    exact hv p
  · exact Or.inl he

theorem held_of_owners {m : State} (h : SameOwners s.rq m) :
    Switching.held ⟨m, s.old⟩ = s.held := by
  funext x
  cases x with
  | inl p =>
      show (if m.created p then some (m.task p).user else none) = _
      rw [h.created, h.user]
      rfl
  | inr p => rfl

/-- The calls besides. -/
theorem SwitchInv.goes (h : SwitchInv s) {m : State} (hgoes : Goes v s.rq m)
    (hv : OwnedBy v s) : SwitchInv ⟨m, s.old⟩ := by
  obtain ⟨⟨l, hhoused, hsub⟩, hbusy, howners⟩ := hgoes
  refine ⟨hbusy, ⟨v, l, hhoused, hsub, fun p => ?_⟩, fun q c hq => ?_, ?_, fun u => ?_⟩
  · rw [howners.user p]
    exact hv p
  · rw [howners.forking] at hq
    exact h.forking q c hq
  · rw [held_of_owners howners]
    exact h.finite
  · rw [held_of_owners howners, howners.count]
    exact h.count u

/-- The owner of a task that is not queued is its user. -/
theorem SwitchInv.settled (h : SwitchInv s) (hhoused : Housed v l s.rq) (hv : OwnedBy v s)
    {p : TaskId} (hp : (s.rq.task p).array = none) :
    ∃ v', Housed v' l s.rq ∧ OwnedBy v' s ∧ v'.owner p = (s.rq.task p).user := by
  obtain ⟨v', h', hset⟩ := hhoused.resettle (p := p) (by rw [hp]; simp) (h.notForking hv p)
  exact ⟨v', h', hv.follows hset.follows, hset.self⟩

/-- A user in the list of the view is held. -/
theorem held_of_mem (hhoused : Housed v l s.rq) (hv : OwnedBy v s) (hfin : Finitary s.held)
    {u : UserId} (hu : u ∈ l) : 0 < count s.held (fun w => w = u) := by
  obtain ⟨p, k, hp⟩ := (hhoused.core.linked.mem u).mp hu
  obtain ⟨harray, -⟩ := loc_eq_some.mp hp
  have hcreated := hhoused.core.tasks.known p (Or.inl (by rw [harray]; simp))
  rw [hhoused.created_iff] at hcreated
  have howner : v.owner p = u := by
    have hok := hhoused.core.tasks.ok p
    rw [hhoused.task] at hok harray
    rcases hok.home _ harray with ⟨-, he⟩ | ⟨-, i, hi⟩
    · exact (ArrayRef.user.inj he).symm
    · cases hi
  rw [count_pos_iff hfin]
  rcases hv p with he | he
  · refine ⟨.inl p, u, ?_, rfl⟩
    show (if s.rq.created p then some (s.rq.task p).user else none) = some u
    rw [if_pos hcreated, ← he, howner]
  · refine ⟨.inr p, u, ?_, rfl⟩
    show s.old p = some u
    rw [he, howner]

/-- **A call besides keeps the invariant**, and reaches no `BUG`. -/
theorem SwitchInv.runOp (h : SwitchInv s) {op : Op}
    (hint : Interleaved (s.old s.rq.curr).isSome op) (hkeep : KeepsUsers s (.other op))
    (hen : Enabled s.rq op) : ∃ m, runOp s.rq op = some m ∧ SwitchInv ⟨m, s.old⟩ := by
  obtain ⟨v, l, hhoused, hsub, hv⟩ := h.housed
  cases op with
  | wakeUp p mask sync inInterrupt now =>
      rcases array_cases (s.rq.task p) with hnone | ⟨r, hr⟩
      · obtain ⟨v', h', hv', howner⟩ := h.settled hhoused hv hnone
        exact ⟨_, rfl, h.goes (h'.wakeUp hsub h.busy hen (fun _ => howner) mask sync inInterrupt
          now) hv'⟩
      · refine ⟨_, rfl, h.goes (hhoused.wakeUp hsub h.busy hen (fun e => ?_) mask sync inInterrupt
          now) hv⟩
        rw [hr] at e
        cases e
  | activate p inInterrupt now =>
      obtain ⟨hcreated, hidle, hnone, hfork⟩ := hen
      obtain ⟨v', h', hv', howner⟩ := h.settled hhoused hv hnone
      refine ⟨_, rfl, h.goes (h'.activate hsub h.busy howner hnone hcreated ?_ now inInterrupt) hv'⟩
      rintro (e | ⟨q, hq⟩)
      · exact hidle e
      · exact hfork q hq
  | deactivate p =>
      obtain ⟨hqueued, hne⟩ := hen
      rcases array_cases (s.rq.task p) with hnone | ⟨r, hr⟩
      · exact absurd hnone hqueued
      · obtain ⟨m, hm, hd, howners, h', hlist⟩ := hhoused.deactivate hr
        refine ⟨m, hm, h.goes ⟨⟨_, h', ?_⟩, ?_, howners⟩ hv⟩
        · rw [hlist]
          exact hhoused.leftList_sub hsub hr hkeep
        · rw [Busy, hd.curr, hd.task, Function.update_of_ne (Ne.symm hne)]
          exact h.busy
  | setscheduler p policy prio capable sameUid hook =>
      by_cases hacc : Accepts (policy.getD (s.rq.task p).policy) prio capable sameUid hook
      · have hprio : 0 ≤ prio ∧ prio < MAX_RT_PRIO := ⟨hacc.range.1, by have := hacc.range.2; omega⟩
        obtain ⟨m, v', hm, hgoes, hfollow⟩ := hhoused.setschedulerLocked hsub h.busy hen.2
          (h.notForking hv p) (policy.getD (s.rq.task p).policy) hprio (hkeep hacc)
        refine ⟨m, ?_, h.goes hgoes (hv.follows hfollow)⟩
        rw [Uwrr.runOp, schedSetscheduler_locked hacc, hm]
        rfl
      · obtain ⟨e, -, hrefused⟩ := schedSetscheduler_refuses hacc
        exact ⟨s.rq, by rw [Uwrr.runOp, hrefused]; rfl, h⟩
  | tick jiffies =>
      obtain ⟨m, hm, hgoes⟩ := hhoused.tick hsub h.busy jiffies
      exact ⟨m, hm, h.goes hgoes hv⟩
  | setState st => exact ⟨_, rfl, h.goes (hhoused.setState hsub h.busy hen st) hv⟩
  | schedule now preemptActive signalPending =>
      have howner : preemptActive = false → v.owner s.rq.curr = (s.rq.task s.rq.curr).user := by
        intro hpre
        refine (hv s.rq.curr).resolve_right fun hold => ?_
        have hactive : preemptActive = true := hint (by rw [hold, Option.isSome_some])
        rw [hpre] at hactive
        cases hactive
      obtain ⟨m, hm, hgoes⟩ := hhoused.schedule hsub h.busy howner now signalPending
      exact ⟨m, hm, h.goes hgoes hv⟩
  | setUserNice p nice => exact hint.elim
  | sysNice increment capable hook => exact hint.elim
  | yield => exact hint.elim
  | fork child now jiffies => exact hint.elim
  | wakeUpNew p cloneVm => exact hint.elim
  | switchUid new => exact hint.elim

/-! ### `switch_uid` -/

theorem switchUidBegin_task (m : State) (new : UserId) :
    (switchUidBegin m new).task =
      Function.update m.task m.curr { m.task m.curr with user := new } := rfl

theorem switchUidBegin_count (m : State) (new u : UserId) :
    ((switchUidBegin m new).user u).count = (m.user u).count + if new = u then 1 else 0 := by
  show (Function.update m.user new _ u).count = _
  by_cases hu : u = new
  · rw [hu, Function.update_self, if_pos rfl]
  · rw [Function.update_of_ne hu, if_neg (Ne.symm hu), add_zero]

/-- The first step does not show. -/
theorem see_begin (hlive : ∀ p, v.live p = true) (m : State) (new : UserId) :
    v.see l (switchUidBegin m new) = v.see l m := by
  have htask : (v.see l (switchUidBegin m new)).task = (v.see l m).task := by
    funext p
    rw [see_task (hlive p), see_task (hlive p), switchUidBegin_task]
    by_cases hp : p = m.curr
    · rw [hp, Function.update_self]
    · rw [Function.update_of_ne hp]
  show { v.see l m with task := (v.see l (switchUidBegin m new)).task } = _
  rw [htask]

/-- The references after the first step. -/
theorem held_begin (s : Switching) (hcreated : s.rq.created s.rq.curr = true) (new : UserId) :
    (s.begin new).held =
      Function.update (Function.update s.held (.inl s.rq.curr) (some new)) (.inr s.rq.curr)
        (some (s.rq.task s.rq.curr).user) := by
  funext x
  cases x with
  | inl p =>
      rw [Function.update_of_ne (by simp)]
      by_cases hp : p = s.rq.curr
      · rw [hp, Function.update_self]
        show (if s.rq.created s.rq.curr then
          some ((switchUidBegin s.rq new).task s.rq.curr).user else none) = _
        rw [if_pos hcreated, switchUidBegin_task, Function.update_self]
      · rw [Function.update_of_ne (fun e => hp (Sum.inl.inj e))]
        show (if s.rq.created p then some ((switchUidBegin s.rq new).task p).user else none) = _
        rw [switchUidBegin_task, Function.update_of_ne hp]
        rfl
  | inr p =>
      by_cases hp : p = s.rq.curr
      · rw [hp, Function.update_self]
        exact Function.update_self ..
      · rw [Function.update_of_ne (fun e => hp (Sum.inr.inj e)), Function.update_of_ne (by simp)]
        exact Function.update_of_ne hp ..

/-- The references after the second step. -/
theorem held_finish (s : Switching) :
    Switching.held ⟨s.rq, Function.update s.old s.rq.curr none⟩ =
      Function.update s.held (.inr s.rq.curr) none := by
  funext x
  cases x with
  | inl p =>
      rw [Function.update_of_ne (by simp)]
      rfl
  | inr p =>
      by_cases hp : p = s.rq.curr
      · rw [hp, Function.update_self]
        exact Function.update_self ..
      · rw [Function.update_of_ne (fun e => hp (Sum.inr.inj e))]
        exact Function.update_of_ne hp ..

theorem SwitchInv.currCreated (h : SwitchInv s) (hidle : s.rq.curr ≠ idle) :
    s.rq.created s.rq.curr = true := by
  obtain ⟨v, l, hhoused, -⟩ := h.housed
  obtain ⟨r, hr⟩ := h.busy.array hidle
  exact (hhoused.queued (by rw [hr]; simp)).2

theorem SwitchInv.begin (h : SwitchInv s) (hidle : s.rq.curr ≠ idle)
    (hfork : s.rq.forking s.rq.curr = none) (hold : s.old s.rq.curr = none) (new : UserId) :
    SwitchInv (s.begin new) := by
  obtain ⟨v, l, hhoused, hsub, hv⟩ := h.housed
  have hcreated := h.currCreated hidle
  have hcurr : v.owner s.rq.curr = (s.rq.task s.rq.curr).user := by
    refine (hv s.rq.curr).resolve_right fun e => ?_
    rw [hold] at e
    cases e
  have hparent : ∀ q, s.rq.forking q ≠ some s.rq.curr := by
    intro q hq
    obtain ⟨r, hr⟩ := h.busy.array hidle
    exact (hhoused.queued (p := s.rq.curr) (by rw [hr]; simp)).1 (Or.inr ⟨q, hq⟩)
  have hstays : Stays s.rq (switchUidBegin s.rq new) := Stays.of_update rfl rfl id
  refine ⟨hstays.busy h.busy, ⟨v, l, ⟨hhoused.live, hhoused.shown, hhoused.created,
    hhoused.forking, ?_, hhoused.nodup⟩, hsub, fun p => ?_⟩, fun q c hq => ?_, ?_, fun u => ?_⟩
  · rw [show (s.begin new).rq = switchUidBegin s.rq new from rfl, see_begin hhoused.live]
    exact hhoused.core
  · by_cases hp : p = s.rq.curr
    · refine Or.inr ?_
      rw [hp, hcurr]
      exact Function.update_self ..
    · rcases hv p with he | he
      · refine Or.inl (he.trans ?_)
        show _ = ((switchUidBegin s.rq new).task p).user
        rw [switchUidBegin_task, Function.update_of_ne hp]
      · refine Or.inr ?_
        show Function.update s.old s.rq.curr _ p = _
        rw [Function.update_of_ne hp]
        exact he
  · have hq' : s.rq.forking q = some c := hq
    have hqc : q ≠ s.rq.curr := by
      rintro rfl
      rw [hfork] at hq'
      cases hq'
    have hcc : c ≠ s.rq.curr := by
      rintro rfl
      exact hparent q hq'
    obtain ⟨h₁, h₂⟩ := h.forking q c hq'
    show Function.update s.old s.rq.curr _ q = none ∧ Function.update s.old s.rq.curr _ c = none
    rw [Function.update_of_ne hqc, Function.update_of_ne hcc]
    exact ⟨h₁, h₂⟩
  · rw [held_begin s hcreated]
    exact (h.finite.update _ _).update _ _
  · have hheld : s.held (.inl s.rq.curr) = some (s.rq.task s.rq.curr).user := if_pos hcreated
    have hrem := count_remove h.finite hheld (fun w => w = u)
    have hput := count_put (h.finite.update (.inl s.rq.curr) none) (a := .inl s.rq.curr)
      (b := new) (Function.update_self ..) (fun w => w = u)
    rw [Function.update_idem] at hput
    have hput' := count_put (h.finite.update (.inl s.rq.curr) (some new)) (a := .inr s.rq.curr)
      (b := (s.rq.task s.rq.curr).user) (by
        rw [Function.update_of_ne (by simp)]
        exact hold) (fun w => w = u)
    have hcount := h.count u
    rw [hrem] at hcount
    rw [held_begin s hcreated, show (s.begin new).rq = switchUidBegin s.rq new from rfl,
      switchUidBegin_count, hput', hput]
    push_cast at hcount ⊢
    omega

/-- `free_uid` takes a reference, and unlinks a user that has none left. -/
theorem freeUid_cases (m : State) (u : UserId) :
    ∃ users : UserId → User,
      (∀ w, (users w).count = (m.user w).count - if u = w then 1 else 0) ∧
      (freeUid m u = { m with user := users } ∨
        ((m.user u).count = 1 ∧
          freeUid m u = { m with user := users, uwrrUserlist := m.uwrrUserlist.erase u })) := by
  set n := m.modUser u fun v => { v with count := v.count - 1 } with hn
  have hdec : ∀ w, (n.user w).count = (m.user w).count - if u = w then 1 else 0 := by
    intro w
    show (Function.update m.user u _ w).count = _
    by_cases hw : w = u
    · rw [hw, Function.update_self, if_pos rfl]
    · rw [Function.update_of_ne hw, if_neg (Ne.symm hw), sub_zero]
  rw [freeUid, ← hn]
  split
  · rename_i hzero
    have hone := hdec u
    rw [if_pos rfl, hzero.1] at hone
    refine ⟨(n.modUser u fun _ => freshUser).user, fun w => ?_, Or.inr ⟨by omega, rfl⟩⟩
    show (Function.update n.user u freshUser w).count = _
    by_cases hw : w = u
    · rw [hw, Function.update_self, if_pos rfl]
      show 0 = _
      omega
    · rw [Function.update_of_ne hw, hdec]
  · exact ⟨n.user, hdec, Or.inl rfl⟩

/-- **The second step keeps the invariant**, and reaches no `BUG`. -/
theorem SwitchInv.finish (h : SwitchInv s) {u : UserId} (hold : s.old s.rq.curr = some u) :
    ∃ m, switchUidFinish s.rq u = some m ∧
      SwitchInv ⟨m, Function.update s.old s.rq.curr none⟩ := by
  obtain ⟨v, l, hhoused, hsub, hv⟩ := h.housed
  obtain ⟨m, v', hm, ⟨⟨l', h', hsub'⟩, hbusy, howners⟩, hset⟩ :=
    hhoused.switchUser hsub h.busy (h.notForking hv s.rq.curr) u
  set n : Switching := ⟨m, Function.update s.old s.rq.curr none⟩ with hn
  have hheld : n.held = Function.update s.held (.inr s.rq.curr) none := by
    rw [← held_finish s, ← held_of_owners (s := ⟨s.rq, Function.update s.old s.rq.curr none⟩)
      howners]
  have hv' : OwnedBy v' n := by
    intro p
    show v'.owner p = (m.task p).user ∨ Function.update s.old s.rq.curr none p = _
    rw [howners.user p]
    by_cases hp : p = s.rq.curr
    · rw [hp]
      exact Or.inl hset.self
    · rw [Function.update_of_ne hp, hset.other p hp]
      exact hv p
  have hfin : Finitary n.held := by
    rw [hheld]
    exact h.finite.update _ _
  have hcount : ∀ w, (Placement.count n.held (fun x => x = w) : Int) ≤
      (m.user w).count - if u = w then 1 else 0 := by
    intro w
    have hrem := count_remove h.finite (a := .inr s.rq.curr) hold (fun x => x = w)
    have hle := h.count w
    rw [hheld, howners.count]
    push_cast [hrem] at hle
    omega
  have hforking : ∀ q c, m.forking q = some c → n.old q = none ∧ n.old c = none := by
    intro q c hq
    rw [howners.forking] at hq
    obtain ⟨h₁, h₂⟩ := h.forking q c hq
    show Function.update s.old s.rq.curr none q = none ∧
      Function.update s.old s.rq.curr none c = none
    refine ⟨?_, ?_⟩
    · by_cases hq' : q = s.rq.curr
      · rw [hq', Function.update_self]
      · rw [Function.update_of_ne hq']
        exact h₁
    · by_cases hc : c = s.rq.curr
      · rw [hc, Function.update_self]
      · rw [Function.update_of_ne hc]
        exact h₂
  refine ⟨freeUid m u, by rw [switchUidFinish, hm]; rfl, ?_⟩
  obtain ⟨users, husers, hfree | ⟨hone, hfree⟩⟩ := freeUid_cases m u
  · rw [hfree]
    refine ⟨hbusy, ⟨v', l', ⟨h'.live, h'.shown, h'.created, h'.forking, h'.core, h'.nodup⟩, hsub',
      hv'⟩, hforking, hfin, fun w => ?_⟩
    show _ ≤ (users w).count
    rw [husers]
    exact hcount w
  · -- nobody is in the array of a user without references
    have hnot : u ∉ l' := by
      intro hu
      have hpos := held_of_mem (s := n) h' hv' hfin hu
      have hle := hcount u
      rw [if_pos rfl] at hle
      omega
    obtain ⟨hh, hs⟩ := h'.unlink hsub' hnot
    rw [hfree]
    refine ⟨hbusy, ⟨v', l', ⟨hh.live, hh.shown, hh.created, hh.forking, hh.core, hh.nodup⟩, hs,
      hv'⟩, hforking, hfin, fun w => ?_⟩
    show _ ≤ (users w).count
    rw [husers]
    exact hcount w

theorem SwitchInv.step (h : SwitchInv s) {op : SwitchOp} {s' : Switching}
    (hkeep : KeepsUsers s op) (hst : SwitchStep s op s') : SwitchInv s' := by
  cases hst with
  | begin new hidle hfork hold => exact h.begin hidle hfork hold new
  | finish hold hfin =>
      obtain ⟨m, hm, hinv⟩ := h.finish hold
      rw [hfin] at hm
      cases hm
      exact hinv
  | bug hold hfin =>
      obtain ⟨m, hm, -⟩ := h.finish hold
      rw [hfin] at hm
      cases hm
  | other hint hst =>
      cases hst with
      | run hen hrun =>
          obtain ⟨m, hm, hinv⟩ := h.runOp hint hkeep hen
          rw [hrun] at hm
          cases hm
          exact hinv
      | bug hen hbug =>
          obtain ⟨m, hm, -⟩ := h.runOp hint hkeep hen
          rw [hbug] at hm
          cases hm

end Steps

/-! ## Runs -/

theorem Inv.switchInv {s : Switching} (h : Inv s.rq) (hold : ∀ p, s.old p = none) :
    SwitchInv s := by
  have hheld : ∀ {x : TaskId ⊕ TaskId} {u : UserId}, s.held x = some u →
      ∃ p, x = .inl p ∧ s.rq.created p = true ∧ (s.rq.task p).user = u := by
    intro x u hx
    cases x with
    | inl p =>
        have hp : (if s.rq.created p then some (s.rq.task p).user else none) = some u := hx
        split at hp
        · rename_i hcreated
          exact ⟨p, rfl, hcreated, Option.some.inj hp⟩
        · cases hp
    | inr p =>
        have hp : s.old p = some u := hx
        rw [hold] at hp
        cases hp
  refine ⟨h.busy, ⟨s.rq.whole, s.rq.uwrrUserlist, ⟨fun _ => rfl, fun _ => rfl, rfl, rfl, h.core,
    h.core.linked.nodup⟩, fun _ => id, fun _ => Or.inl rfl⟩, fun q c _ => ⟨hold q, hold c⟩, ?_,
    fun u => ?_⟩
  · refine (h.core.refs.finite.image Sum.inl).subset fun x hx => ?_
    obtain ⟨u, hu⟩ := Option.ne_none_iff_exists'.mp hx
    obtain ⟨p, rfl, hp, -⟩ := hheld hu
    exact ⟨p, hp, rfl⟩
  · have hsub : items s.held (fun w => w = u) ⊆
        Sum.inl '' {p | s.rq.created p = true ∧ (s.rq.task p).user = u} := by
      rintro x ⟨w, hw, rfl⟩
      obtain ⟨p, rfl, hp, hu⟩ := hheld hw
      exact ⟨p, ⟨hp, hu⟩, rfl⟩
    have hfin : {p | s.rq.created p = true ∧ (s.rq.task p).user = u}.Finite :=
      h.core.refs.finite.subset fun p hp => hp.1
    have hle := Set.ncard_le_ncard hsub (hfin.image Sum.inl)
    rw [Set.ncard_image_of_injective _ Sum.inl_injective] at hle
    have hcount := h.core.refs.count u
    rw [Placement.count]
    omega

theorem switchInv_reach {s : Switching} (h : switching.Reach KeepsUsers s) : SwitchInv s := by
  refine h.invariant (I := SwitchInv) ?_ fun _ _ _ hinv hkeep hst => hinv.step hkeep hst
  rintro s ⟨hreach, hold⟩
  exact (inv_reach (hreach.mono fun _ _ => Admitted.prioSafe)).switchInv hold

/-- Every user with tasks is in the list, and the counter is the sum of theirs. -/
structure UsersLinked (s : State) : Prop where
  linked : ∀ u, 0 < (s.arrays (.user u)).nrActive → u ∈ s.uwrrUserlist
  running : s.uwrrRunning = ∑ᶠ u, (s.arrays (.user u)).nrActive

/-- **Changing the owner under preemption.** In every run in which no task is taken
off the array of its old user as the last one there while its new user has tasks,
unless it stays UWRR, every user with tasks is linked. No `BUG` was reached, and the
next `schedule` reaches none. -/
theorem switch_uid_preemptible (s : Switching) (h : switching.Reach KeepsUsers s) :
    UsersLinked s.rq ∧ s.rq.bug = false ∧ (0 < s.rq.uwrrRunning → s.rq.uwrrUserlist ≠ []) ∧
      ∀ now preemptActive signalPending, (s.old s.rq.curr ≠ none → preemptActive = true) →
        schedule s.rq now preemptActive signalPending ≠ none := by
  have hinv := switchInv_reach h
  obtain ⟨v, l, hhoused, hsub, hv⟩ := hinv.housed
  have hrunning := hhoused.core.runqueueOk.uwrrRunning
  rw [hhoused.arrays] at hrunning
  refine ⟨⟨fun u hu => ?_, hrunning⟩, hhoused.core.bug, fun hpos hnil => ?_, ?_⟩
  · exact hsub ((hhoused.linked_iff u).mpr (by omega))
  · obtain ⟨u, hpick, -⟩ := hhoused.core.pickUser (ne_of_gt hpos)
    rw [hnil] at hsub
    rw [show (v.see l s.rq).uwrrUserlist = l from rfl, List.subset_nil.mp hsub] at hpick
    cases hpick
  · intro now preemptActive signalPending hactive hnone
    have howner : preemptActive = false → v.owner s.rq.curr = (s.rq.task s.rq.curr).user := by
      intro hpre
      refine (hv s.rq.curr).resolve_right fun hold => ?_
      have htrue := hactive (by rw [hold]; simp)
      rw [hpre] at htrue
      cases htrue
    obtain ⟨m, hm, -⟩ := hhoused.schedule hsub hinv.busy howner now signalPending
    rw [hnone] at hm
    cases hm

theorem switching_init {ok : Switching → SwitchOp → Prop} {s : State}
    (h : system.Reach Admitted s) : switching.Reach ok ⟨s, fun _ => none⟩ :=
  .init ⟨h, fun _ => rfl⟩

theorem switching_begin {ok : Switching → SwitchOp → Prop} {s : Switching}
    (h : switching.Reach ok s) (new : UserId) (hok : ok s (.begin new)) (hidle : s.rq.curr ≠ idle)
    (hfork : s.rq.forking s.rq.curr = none) (hold : s.old s.rq.curr = none) :
    switching.Reach ok (s.begin new) :=
  h.step (.begin new) hok (.begin new hidle hfork hold)

def Switching.after (s : Switching) (op : Op) : Switching := ⟨s.rq.after op, s.old⟩

theorem switching_after {ok : Switching → SwitchOp → Prop} {s : Switching}
    (h : switching.Reach ok s) (op : Op) (hok : ok s (.other op))
    (hint : Interleaved (s.old s.rq.curr).isSome op) (hen : Enabled s.rq op)
    (hrun : (runOp s.rq op).isSome = true) : switching.Reach ok (s.after op) :=
  h.step (.other op) hok (.other hint (Step.after hen hrun))

/-- `schedule` when only UWRR tasks are active, and the current one was preempted. -/
theorem schedule_preempted {s : State} {u : UserId} {next : TaskId}
    {queue : List TaskId} {i : Bool} (hactive : s.active = i) (hrun : s.nrRunning ≠ 0)
    (hempty : (s.arrays (.rq i)).nrActive = 0) (huwrr : 0 < s.uwrrRunning)
    (hpick : pickUser s s.uwrrUserlist = some (u, s.uwrrUserlist))
    (hqueue : (s.arrays (.user u)).queue UWRR_TASK_PRIO = next :: queue)
    (hpol : (s.task next).policy = .uwrr) (now : Nat) (signalPending : Bool) :
    schedule s now true signalPending = some (switchTasks
      (s.modTask next fun t => { t with activated := 0 }) next now
      (runTime (s.task s.curr) now)) := by
  have hempty' : (s.arrays s.activeArray).nrActive = 0 := by
    rw [State.activeArray, hactive]
    exact hempty
  have hput : putPrev s true signalPending = some s := by simp [putPrev]
  have hswap : swapArrays s = s := by
    rw [swapArrays, if_neg]
    rintro ⟨-, hzero⟩
    omega
  have hpickQueue : pickQueue s = some (s, next :: queue) := by
    rw [pickQueue]
    dsimp only
    rw [if_neg (not_not.mpr hempty'), if_pos ⟨by decide, huwrr⟩, hpick, ← hqueue]
    rfl
  have hcredit : creditNext s next now = some s := by
    rw [creditNext]
    dsimp only
    rw [if_neg (by simp [hpol])]
  rw [schedule]
  dsimp only
  rw [hput]
  simp only [Option.bind_eq_bind, Option.bind_some]
  rw [if_neg hrun, hswap, hpickQueue]
  simp only [Option.bind_some, hcredit]

/-- `next` runs instead of the current task. -/
def Switching.preempted (s : Switching) (next : TaskId) : Switching where
  rq := switchTasks (s.rq.modTask next fun t => { t with activated := 0 }) next 0
    (runTime (s.rq.task s.rq.curr) 0)
  old := s.old

theorem switching_preempted {ok : Switching → SwitchOp → Prop} {s : Switching}
    (h : switching.Reach ok s) (hok : ok s (.other (.schedule 0 true false))) {u : UserId}
    {next : TaskId} {queue : List TaskId} {i : Bool} (hactive : s.rq.active = i)
    (hrun : s.rq.nrRunning ≠ 0) (hempty : (s.rq.arrays (.rq i)).nrActive = 0)
    (huwrr : 0 < s.rq.uwrrRunning)
    (hpick : pickUser s.rq s.rq.uwrrUserlist = some (u, s.rq.uwrrUserlist))
    (hqueue : (s.rq.arrays (.user u)).queue UWRR_TASK_PRIO = next :: queue)
    (hpol : (s.rq.task next).policy = .uwrr) : switching.Reach ok (s.preempted next) := by
  have hsched := schedule_preempted hactive hrun hempty huwrr hpick hqueue hpol 0 false
  exact h.step (.other (.schedule 0 true false)) hok (.other (fun _ => rfl) (.run trivial hsched))

/-! Task 1 becomes a task of user 5, and is between the two steps of a switch back to
root when task 2 of root runs and makes it a normal task. -/

def beforeSwitch : Switching := ⟨twoUwrr.after (.switchUid 5), fun _ => none⟩

def midSwitch : Switching := beforeSwitch.begin rootUser

def preemptedSwitch : Switching := midSwitch.preempted 2

def strandedSwitch : Switching :=
  preemptedSwitch.after (.setscheduler 1 (some .normal) 0 true false 0)

theorem midSwitch_reach : switching.Reach KeepsUsers midSwitch := by
  have hreach : system.Reach Admitted (twoUwrr.after (.switchUid 5)) :=
    reach_after twoUwrr_reach (.switchUid 5) ⟨by decide +kernel, by decide +kernel⟩ trivial
  have hbefore : switching.Reach KeepsUsers beforeSwitch := switching_init hreach
  exact switching_begin hbefore rootUser trivial (by decide +kernel) (by decide +kernel) rfl

theorem preemptedSwitch_reach : switching.Reach KeepsUsers preemptedSwitch := by
  have hlist : midSwitch.rq.uwrrUserlist = [rootUser, 5] := by decide +kernel
  have hpick : pickUser midSwitch.rq midSwitch.rq.uwrrUserlist =
      some (rootUser, midSwitch.rq.uwrrUserlist) := by
    rw [hlist]
    decide +kernel
  have hqueue : (midSwitch.rq.arrays (.user rootUser)).queue UWRR_TASK_PRIO = [2] := by
    decide +kernel
  have hactive : midSwitch.rq.active = false := by decide +kernel
  exact switching_preempted midSwitch_reach trivial hactive (by decide +kernel)
    (by decide +kernel) (by decide +kernel) hpick hqueue (by decide +kernel)

/-- In the middle of the switch, preempted. -/
theorem preemptedSwitch_linked :
    preemptedSwitch.rq.curr = 2 ∧ preemptedSwitch.old 1 = some 5 ∧
      UsersLinked preemptedSwitch.rq :=
  ⟨by decide +kernel, by decide +kernel,
    (switch_uid_preemptible preemptedSwitch preemptedSwitch_reach).1⟩

/-- Root has task 2 and is not in the list any more. -/
theorem new_user_stranded :
    switching.Reach System.anyStep strandedSwitch ∧ ¬ UsersLinked strandedSwitch.rq := by
  have hreach : switching.Reach System.anyStep preemptedSwitch :=
    preemptedSwitch_reach.mono fun _ _ _ => trivial
  have hnone : preemptedSwitch.old preemptedSwitch.rq.curr = none := by decide +kernel
  have hint : Interleaved (preemptedSwitch.old preemptedSwitch.rq.curr).isSome
      (.setscheduler 1 (some .normal) 0 true false 0) := by
    rw [hnone]
    rfl
  refine ⟨switching_after hreach (.setscheduler 1 (some .normal) 0 true false 0) trivial hint
    ⟨by decide +kernel, by decide⟩ (by decide +kernel), fun hok => ?_⟩
  exact absurd (hok.linked rootUser (by decide +kernel)) (by decide +kernel)

end LinuxHacks.Uwrr
