import LinuxHacks.Uwrr.Policy
import LinuxHacks.Uwrr.Invariant

/-!
# Calls of an unprivileged task on itself

`sys_nice` lets a task without `CAP_SYS_NICE` only raise its `static_prio`. A
change of policy to `SCHED_UWRR` needs no privilege and writes
`UWRR_TASK_PRIO` into `static_prio`, and a change back does not undo it: a task of
nice 19 gets to nice 0.

The module determines for which sequences of calls `static_prio` stays at or
above its first value.
-/

namespace LinuxHacks.Uwrr

open LinuxHacks.Lib

/-- A call of the running task, without privileges, on itself. -/
inductive OwnCall where
  | nice (increment : Int)
  | setscheduler (policy : Option Policy) (prio : Int)

def ownCall (s : State) : OwnCall → Option State
  | .nice increment => some (sysNice s increment false 0).2
  | .setscheduler policy prio =>
      (schedSetscheduler s s.curr policy prio false true 0).map Prod.snd

def ownCalls (s : State) : List OwnCall → Option State
  | [] => some s
  | c :: cs => (ownCall s c).bind fun s => ownCalls s cs

/-- `static_prio` of the running task. -/
def State.currStatic (s : State) : Int := (s.task s.curr).staticPrio

/-- The call passes the checks of `sched_setscheduler`, and leads to `SCHED_UWRR`. -/
def EntersUwrr (s : State) : OwnCall → Prop
  | .nice _ => False
  | .setscheduler policy prio =>
      policy.getD (s.task s.curr).policy = .uwrr ∧ 1 ≤ prio ∧ prio ≤ MAX_RT_PRIO - 1

/-! ## One call -/

theorem modTask_staticPrio {s : State} (p : TaskId) {f : Task → Task} (q : TaskId)
    (hf : (f (s.task p)).staticPrio = (s.task p).staticPrio) :
    ((s.modTask p f).task q).staticPrio = (s.task q).staticPrio := by
  by_cases hq : q = p
  · rw [hq, State.modTask]
    simp only [Function.update_self]
    exact hf
  · simp only [State.modTask, Function.update_of_ne hq]

/-- A nice value in range becomes the static priority, or is that already. -/
theorem setUserNice_static (s : State) (p : TaskId) {nice : Int} (hnice : -20 ≤ nice ∧ nice ≤ 19) :
    (setUserNice s p nice).curr = s.curr ∧
      ((setUserNice s p nice).task p).staticPrio = niceToPrio nice := by
  rw [setUserNice]
  split
  · rename_i hsame
    simp only [Bool.or_eq_true, decide_eq_true_eq] at hsame
    refine ⟨rfl, ?_⟩
    have heq : taskNice (s.task p) = nice := by omega
    rw [← heq, taskNice, prioToNice, niceToPrio]
    omega
  · split
    · refine ⟨rfl, ?_⟩
      simp [State.modTask]
    · split
      · refine ⟨rfl, ?_⟩
        simp [State.modTask, niceTask]
      · rename_i r _
        dsimp only
        have hstatic : ((enqueueTask ((dequeueTask s p r).modTask p fun t => niceTask t nice) p r).task
            p).staticPrio = niceToPrio nice := by
          simp [enqueueTask, dequeueTask, State.modTask, State.modArray, niceTask]
        split
        · exact ⟨rfl, (modTask_staticPrio _ p (by rfl)).trans hstatic⟩
        · exact ⟨rfl, hstatic⟩

/-- Only `SCHED_UWRR` has a static priority of its own. -/
theorem setschedulerTask_static {t : Task} {policy : Policy} {prio : Int} (h : policy ≠ .uwrr) :
    (setschedulerTask t policy prio).staticPrio = t.staticPrio := by
  cases policy with
  | uwrr => exact absurd rfl h
  | normal => rfl
  | fifo => rfl
  | rr => rfl

theorem PolicySet.static_self {s s' : State} {p : TaskId} {policy : Policy} {prio : Int}
    (h : PolicySet s p policy prio s') :
    (s'.task p).staticPrio = (setschedulerTask (s.task p) policy prio).staticPrio := by
  obtain ⟨r, -, htask⟩ := h.task
  rw [htask, flagged, Function.update_self]

section OwnCalls

variable {s : State}

theorem nice_static (hs : MAX_RT_PRIO ≤ s.currStatic ∧ s.currStatic < MAX_PRIO) (increment : Int) :
    ∃ s', ownCall s (.nice increment) = some s' ∧ s'.curr = s.curr ∧
      s.currStatic ≤ s'.currStatic ∧ s'.currStatic < MAX_PRIO := by
  simp only [ MAX_RT_PRIO, MAX_PRIO] at hs
  refine ⟨_, rfl, ?_⟩
  rw [sysNice]
  by_cases hneg : increment < 0
  · rw [if_pos (by simp [hneg])]
    exact ⟨rfl, le_refl _, hs.2⟩
  · rw [if_neg (by simp [hneg])]
    dsimp only
    rw [if_neg (by simp)]
    set nice := min (max (prioToNice (s.task s.curr).staticPrio + min (max increment (-40)) 40) (-20))
      19 with hnice
    have hrange : -20 ≤ nice ∧ nice ≤ 19 := by
      rw [hnice]
      omega
    obtain ⟨hcurr, hstatic⟩ := setUserNice_static s s.curr hrange
    have hval : (setUserNice s s.curr nice).currStatic = niceToPrio nice := by
      rw [State.currStatic, hcurr]
      exact hstatic
    refine ⟨hcurr, ?_⟩
    rw [hval]
    have hto : niceToPrio nice = 100 + nice + 20 := rfl
    have hold : prioToNice (s.task s.curr).staticPrio = s.currStatic - 100 - 20 := rfl
    simp only [ MAX_PRIO]
    rw [hold] at hnice
    omega

theorem setscheduler_static (policy : Option Policy) (prio : Int) :
    ∃ s', ownCall s (.setscheduler policy prio) = some s' ∧ s'.curr = s.curr ∧
      (EntersUwrr s (.setscheduler policy prio) → s'.currStatic = UWRR_TASK_PRIO) ∧
      (¬ EntersUwrr s (.setscheduler policy prio) → s'.currStatic = s.currStatic) := by
  by_cases hacc : Accepts (policy.getD (s.task s.curr).policy) prio false true 0
  · obtain ⟨s', hs', hset⟩ := schedSetscheduler_accepts (s := s) (p := s.curr) hacc
    have hstatic := hset.static_self
    refine ⟨s', by rw [ownCall, hs']; rfl, hset.curr, fun henter => ?_, fun hno => ?_⟩
    · rw [State.currStatic, hset.curr, hstatic, henter.1]
      rfl
    · rw [State.currStatic, hset.curr, hstatic, State.currStatic]
      have hne : policy.getD (s.task s.curr).policy ≠ .uwrr := by
        intro hpol
        apply hno
        have hprio : prio ≠ 0 := by
          rintro rfl
          have hnormal := hacc.valid.mpr rfl
          rw [hpol] at hnormal
          cases hnormal
        have hrange := hacc.range
        exact ⟨hpol, by omega, hrange.2⟩
      exact setschedulerTask_static hne
  · obtain ⟨e, -, hs'⟩ := schedSetscheduler_refuses (s := s) (p := s.curr) hacc
    refine ⟨s, by rw [ownCall, hs']; rfl, rfl, fun henter => absurd ?_ hacc, fun _ => rfl⟩
    obtain ⟨hpol, hlow, hhigh⟩ := henter
    rw [hpol]
    refine ⟨⟨by omega, hhigh⟩, ⟨fun e => (by cases e), fun e => by omega⟩, ?_, Or.inl rfl, rfl⟩
    rintro (e | e)
    · cases e
    · cases e

/-- One call: `static_prio` is 120 after a change to `SCHED_UWRR`, and not smaller
than before after any other. -/
theorem ownCall_static (hs : MAX_RT_PRIO ≤ s.currStatic ∧ s.currStatic < MAX_PRIO) (c : OwnCall) :
    ∃ s', ownCall s c = some s' ∧ s'.curr = s.curr ∧
      ( MAX_RT_PRIO ≤ s'.currStatic ∧ s'.currStatic < MAX_PRIO) ∧
      (EntersUwrr s c → s'.currStatic = UWRR_TASK_PRIO) ∧
      (¬ EntersUwrr s c → s.currStatic ≤ s'.currStatic) := by
  cases c with
  | nice increment =>
      obtain ⟨s', hs', hcurr, hle, hlt⟩ := nice_static hs increment
      exact ⟨s', hs', hcurr, ⟨le_trans hs.1 hle, hlt⟩, fun e => e.elim, fun _ => hle⟩
  | setscheduler policy prio =>
      obtain ⟨s', hs', hcurr, henter, hno⟩ := setscheduler_static (s := s) policy prio
      by_cases h : EntersUwrr s (.setscheduler policy prio)
      · refine ⟨s', hs', hcurr, ?_, henter, fun e => absurd h e⟩
        rw [henter h]
        decide
      · refine ⟨s', hs', hcurr, ?_, henter, fun _ => le_of_eq (hno h).symm⟩
        rw [hno h]
        exact hs

end OwnCalls

/-! ## Sequences of calls -/

/-- `static_prio` never gets below its first value. -/
def NeverGains (s : State) (cs : List OwnCall) : Prop :=
  ∀ cs₁ cs₂ s₁, cs = cs₁ ++ cs₂ → ownCalls s cs₁ = some s₁ → s.currStatic ≤ s₁.currStatic

/-- No call of the sequence leads to `SCHED_UWRR`. -/
def NeverEntersUwrr (s : State) (cs : List OwnCall) : Prop :=
  ∀ cs₁ c cs₂ s₁, cs = cs₁ ++ c :: cs₂ → ownCalls s cs₁ = some s₁ → ¬ EntersUwrr s₁ c

theorem ownCalls_append {s s₁ : State} {cs₁ : List OwnCall} (h : ownCalls s cs₁ = some s₁)
    (cs₂ : List OwnCall) : ownCalls s (cs₁ ++ cs₂) = ownCalls s₁ cs₂ := by
  induction cs₁ generalizing s with
  | nil =>
      cases h
      rfl
  | cons c cs₁ ih =>
      obtain ⟨m, hm, hrest⟩ := Option.bind_eq_some_iff.mp h
      show (ownCall s c).bind (fun s => ownCalls s (cs₁ ++ cs₂)) = _
      rw [hm]
      exact ih hrest

/-- Every sequence runs to its end. -/
theorem ownCalls_isSome {s : State} (hs : MAX_RT_PRIO ≤ s.currStatic ∧ s.currStatic < MAX_PRIO)
    (cs : List OwnCall) : ∃ s', ownCalls s cs = some s' ∧
      MAX_RT_PRIO ≤ s'.currStatic ∧ s'.currStatic < MAX_PRIO := by
  induction cs generalizing s with
  | nil => exact ⟨s, rfl, hs⟩
  | cons c cs ih =>
      obtain ⟨m, hm, -, hrange, -, -⟩ := ownCall_static hs c
      obtain ⟨s', hs', hrange'⟩ := ih hrange
      exact ⟨s', by rw [ownCalls, hm]; exact hs', hrange'⟩

/-- Run lemma: a bound that the calls cannot go below. -/
theorem ownCalls_static {s s₁ : State}
    (hs : MAX_RT_PRIO ≤ s.currStatic ∧ s.currStatic < MAX_PRIO) {cs : List OwnCall}
    (hrun : ownCalls s cs = some s₁) {bound : Int} (hbound : bound ≤ s.currStatic)
    (h : bound ≤ UWRR_TASK_PRIO ∨ NeverEntersUwrr s cs) : bound ≤ s₁.currStatic := by
  induction cs generalizing s with
  | nil =>
      cases hrun
      exact hbound
  | cons c cs ih =>
      obtain ⟨m, hm, -, hrange, henter, hno⟩ := ownCall_static hs c
      have hrun' : ownCalls m cs = some s₁ := by
        rw [ownCalls, hm] at hrun
        exact hrun
      have hnext : bound ≤ m.currStatic := by
        by_cases he : EntersUwrr s c
        · rcases h with hle | hnever
          · rw [henter he]
            exact hle
          · exact absurd he (hnever [] c cs s rfl rfl)
        · exact le_trans hbound (hno he)
      refine ih hrange hrun' hnext (h.imp_right fun hnever cs₁ c' cs₂ s₂ heq hs₂ => ?_)
      refine hnever (c :: cs₁) c' cs₂ s₂ (by rw [heq]; rfl) ?_
      rw [ownCalls, hm]
      exact hs₂

/-- To `SCHED_UWRR` and back: the priority is 120, whatever it was. -/
theorem thereAndBack_static (s : State) {prio : Int} (hlow : 1 ≤ prio)
    (hhigh : prio ≤ MAX_RT_PRIO - 1) :
    ∃ s', ownCalls s [.setscheduler (some .uwrr) prio, .setscheduler (some .normal) 0] = some s' ∧
      s'.currStatic = UWRR_TASK_PRIO := by
  obtain ⟨s₁, hs₁, -, henter, -⟩ := setscheduler_static (s := s) (some .uwrr) prio
  obtain ⟨s₂, hs₂, -, -, hsame⟩ := setscheduler_static (s := s₁) (some .normal) 0
  refine ⟨s₂, ?_, ?_⟩
  · rw [ownCalls, hs₁]
    show (ownCall s₁ _).bind _ = _
    rw [hs₂]
    rfl
  · rw [hsame fun e => (by cases e.1), henter ⟨rfl, hlow, hhigh⟩]

/-- **When an unprivileged task gains priority.** For a task without
`CAP_SYS_NICE`, every sequence of its calls of `sys_nice` and `sched_setscheduler`
on itself runs to its end, and

* `static_prio` stays at or above its first value exactly when that value is at
  most 120 or no call of the sequence leads to `SCHED_UWRR`;
* a change from `SCHED_NORMAL` to `SCHED_UWRR` and back restores `static_prio`
  exactly when it was 120. -/
theorem unprivileged_static_prio (s : State)
    (hs : MAX_RT_PRIO ≤ s.currStatic ∧ s.currStatic < MAX_PRIO) :
    (∀ cs, (∃ s', ownCalls s cs = some s') ∧
      (NeverGains s cs ↔ s.currStatic ≤ UWRR_TASK_PRIO ∨ NeverEntersUwrr s cs)) ∧
    ((s.task s.curr).policy = .normal → ∀ prio, 1 ≤ prio → prio ≤ MAX_RT_PRIO - 1 →
      ∃ s', ownCalls s [.setscheduler (some .uwrr) prio, .setscheduler (some .normal) 0] = some s' ∧
        (s'.currStatic = s.currStatic ↔ s.currStatic = UWRR_TASK_PRIO)) := by
  refine ⟨fun cs => ⟨?_, ?_, ?_⟩, fun _ prio hlow hhigh => ?_⟩
  · obtain ⟨s', hs', -⟩ := ownCalls_isSome hs cs
    exact ⟨s', hs'⟩
  · -- a call that leads to `SCHED_UWRR` takes the task to 120
    intro hgain
    by_contra hno
    rw [not_or, not_le] at hno
    obtain ⟨hgt, hnever⟩ := hno
    simp only [NeverEntersUwrr, not_forall, not_not] at hnever
    obtain ⟨cs₁, c, cs₂, s₁, hcs, hs₁, henter⟩ := hnever
    obtain ⟨s₁', hs₁', hrange⟩ := ownCalls_isSome hs cs₁
    obtain rfl : s₁ = s₁' := Option.some.inj (hs₁.symm.trans hs₁')
    obtain ⟨s₂, hs₂, -, -, hval, -⟩ := ownCall_static hrange c
    have hrun : ownCalls s (cs₁ ++ [c]) = some s₂ := by
      rw [ownCalls_append hs₁, ownCalls, hs₂]
      rfl
    have hle := hgain (cs₁ ++ [c]) cs₂ s₂ (by rw [hcs, List.append_assoc]; rfl) hrun
    rw [hval henter] at hle
    exact absurd hle (not_le.mpr hgt)
  · intro h cs₁ cs₂ s₁ hcs hrun
    refine ownCalls_static hs hrun (le_refl _) (h.imp_right fun hnever cs₁' c cs₂' s₂ heq hs₂ => ?_)
    refine hnever cs₁' c (cs₂' ++ cs₂) s₂ ?_ hs₂
    rw [hcs, heq, List.append_assoc]
    rfl
  · obtain ⟨s', hs', hval⟩ := thereAndBack_static s hlow hhigh
    refine ⟨s', hs', ?_⟩
    rw [hval]
    exact eq_comm

/-- The child of `wokenRun` runs. -/
def childRuns : State := wokenRun.after (.schedule 0 false false)

/-- It makes itself as nice as it can. -/
def nicedRun : State := childRuns.after (.sysNice 19 false 0)

theorem nicedRun_reach : system.Reach System.anyStep nicedRun := by
  have h₁ : system.Reach System.anyStep childRuns :=
    (wokenRun_reach.mono fun _ _ _ => trivial).step (.schedule 0 false false) trivial
      (Step.after trivial (by decide))
  exact h₁.step (.sysNice 19 false 0) trivial
    (Step.after (show childRuns.curr ≠ idle by decide) (by decide))

/-- From nice 19 to nice 0 without a privilege. -/
theorem unprivileged_gain :
    system.Reach System.anyStep nicedRun ∧ nicedRun.currStatic = 139 ∧
    (nicedRun.task nicedRun.curr).policy = .normal ∧
    (∃ s', ownCalls nicedRun [.setscheduler (some .uwrr) 1, .setscheduler (some .normal) 0] = some s' ∧
      s'.currStatic = 120) ∧
    ¬ NeverGains nicedRun [.setscheduler (some .uwrr) 1, .setscheduler (some .normal) 0] := by
  have hstart : nicedRun.currStatic = 139 := by decide
  have hpol : (nicedRun.task nicedRun.curr).policy = .normal := by decide
  have hreach := nicedRun_reach
  generalize nicedRun = s at hstart hpol hreach
  obtain ⟨s', hs', hval⟩ := thereAndBack_static s (le_refl 1) (by decide)
  refine ⟨hreach, hstart, hpol, ⟨s', hs', hval⟩, fun hgain => ?_⟩
  have hle := hgain _ [] s' (List.append_nil _).symm hs'
  rw [hstart, hval] at hle
  exact absurd hle (by decide)

/-- A task of nice 0 gains nothing. -/
theorem childRuns_keeps :
    NeverGains childRuns [.setscheduler (some .uwrr) 1, .setscheduler (some .normal) 0] :=
  ((unprivileged_static_prio childRuns (by decide)).1 _).2.mpr (Or.inl (by decide))

end LinuxHacks.Uwrr
