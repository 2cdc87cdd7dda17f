import LinuxHacks.Barrier.Cancel

/-!
# A sleeper has a reason to sleep

`Object` takes a spin-lock section as one step. Here a section is a sequence of
accesses: `b->spin_lock` has a holder (`Holder`, the point it has reached), and the
unlocked steps of the other calls (the tests of the sleep loop, `prepare_to_wait`,
`schedule()`, `finish_wait`) fall between the counter update and `wake_up_all`
as the processors please. Only the read of a value and the comparison or copy made
of it are one step, and so is the unlock with the access before it.

`Refines` relates such a state to one of `Object`, where the section of the holder
has run at once when it set `barrier_iteration` or `destroyed` (for a section that
sets neither, when it read them). A sleeper that the holder is about to wake may
already be awake there; it has no step before the wake-up anyhow.
-/

namespace LinuxHacks.Barrier

open LinuxHacks.Lib

/-! ## Sections, access by access -/

/-- Who holds `b->spin_lock`, and what it does next. -/
inductive Holder where
  /-- The arrival section, before the test of `destroyed`. -/
  | arriving (c : CallId)
  /-- The last of a group, before `barrier_iteration++`. -/
  | completing (c : CallId)
  /-- Before `waiting_count = 0`. -/
  | resetting (c : CallId)
  /-- Before `wake_up_all`. -/
  | waking (c : CallId)
  /-- The last section of a sleeper, before the comparison with `my_iteration`. -/
  | exiting (c : CallId)
  /-- Before `_leave_barrier` and the return of `value`. -/
  | departing (c : CallId) (value : Int)
  /-- The section of a destroyer, before `destroyed = 1`. -/
  | destroying (d : CallId)
  /-- Before the read of `waiting_count`. -/
  | counting (d : CallId)
  /-- Before `wake_up_all`. -/
  | alerting (d : CallId) (wc : Int)
  /-- Before `_leave_barrier` and the return of `wc`. -/
  | dismissing (d : CallId) (wc : Int)
deriving DecidableEq, Repr

/-- The arrival section, up to `barrier_iteration++` or the unlock before the sleep. -/
def countArrival (s : State) (c : CallId) : State × Option Holder :=
  if s.b.destroyed then (s, some (.departing c (-EINVAL)))
  else
    let b := { s.b with waitingCount := s.b.waitingCount + 1 }
    let w := { s.wait c with myIteration := s.b.barrierIteration }
    if b.waitingCount = b.initialCount then
      ({ s with b := b, wait := Function.update s.wait c w }, some (.completing c))
    else
      ({ s with
        b := b
        wait := Function.update s.wait c { w with pc := .unlocked }
        arrivals := s.arrivals ++ [(c, s.rounds)] }, none)

/-- The next access of the holder. -/
def advance (s : State) : Holder → State × Option Holder
  | .arriving c => countArrival s c
  | .completing c =>
      ({ s with
        b := { s.b with barrierIteration := s.b.barrierIteration + 1 }
        rounds := s.rounds + 1
        arrivals := s.arrivals ++ [(c, s.rounds)] }, some (.resetting c))
  | .resetting c => ({ s with b := { s.b with waitingCount := 0 } }, some (.waking c))
  | .waking c => ({ s with wait := wakeUpAll s.wait }, some (.departing c 0))
  | .exiting c =>
      (s, some (.departing c
        (if s.b.barrierIteration = (s.wait c).myIteration then -ECANCELED else 0)))
  | .departing c value =>
      let (b, freed) := leaveBarrier s.b
      ({ s with b := b, frees := s.frees + freed.toNat }.setPc c (.returned value), none)
  | .destroying d => ({ s with b := { s.b with destroyed := true } }, some (.counting d))
  | .counting d =>
      if s.b.waitingCount ≠ 0 then (s, some (.alerting d s.b.waitingCount))
      else (s, some (.dismissing d 0))
  | .alerting d wc => ({ s with wait := wakeUpAll s.wait }, some (.dismissing d wc))
  | .dismissing d wc =>
      let (b, freed) := leaveBarrier s.b
      ({ s with
        b := b
        frees := s.frees + freed.toNat
        destroyer := Function.update s.destroyer d (.returned wc) }, none)

/-- The memory and the calls, and the holder of the lock. -/
structure Locked where
  mem : State
  lock : Option Holder

inductive LockedLabel where
  /-- An access without the lock. -/
  | unlocked (a : Label)
  | lockArrival (c : CallId)
  | lockLeave (c : CallId)
  | lockDestroy (d : CallId)
  /-- The holder goes on. -/
  | advance
deriving DecidableEq, Repr

/-- The steps of `Object` that take no spin lock. -/
def Label.isUnlocked : Label → Bool
  | .arrive _ | .leave _ | .destroy _ => false
  | _ => true

inductive LockedStep : Locked → LockedLabel → Locked → Prop
  | unlocked {f : Locked} {a : Label} {s' : State} : a.isUnlocked = true → Step f.mem a s' →
      LockedStep f (.unlocked a) ⟨s', f.lock⟩
  | lockArrival {f : Locked} {c : CallId} : f.lock = none → (f.mem.wait c).pc = .found →
      LockedStep f (.lockArrival c) ⟨f.mem, some (.arriving c)⟩
  | lockLeave {f : Locked} {c : CallId} : f.lock = none → (f.mem.wait c).pc = .leaving →
      LockedStep f (.lockLeave c) ⟨f.mem, some (.exiting c)⟩
  | lockDestroy {f : Locked} {d : CallId} : f.lock = none → f.mem.destroyer d = .unlinked →
      LockedStep f (.lockDestroy d) ⟨f.mem, some (.destroying d)⟩
  | advance {f : Locked} {x : Holder} : f.lock = some x →
      LockedStep f .advance ⟨(advance f.mem x).1, (advance f.mem x).2⟩

/-- All calls on one barrier of size `N`, section by section. -/
def lockedSystem (N : Nat) : System Locked LockedLabel where
  init := fun f => f = ⟨State.create N, none⟩
  step := LockedStep

/-- Fewer than `2 ^ 32` rounds completed during any call that has arrived and not
returned. -/
def FewRoundsLocked (f : Locked) (_ : LockedLabel) : Prop :=
  ∀ c r, (c, r) ∈ f.mem.arrivals → (f.mem.wait c).pc.isReturned = false →
    f.mem.rounds < r + 2 ^ 32

/-! ## The state in which the section has already run -/

/-- A call whose section has taken effect, and what it will return. -/
def Holder.decided : Holder → Option (CallId × Int)
  | .resetting c | .waking c => some (c, 0)
  | .departing c value => some (c, value)
  | _ => none

/-- Where a call stands once the section that runs is over, if it has taken effect. -/
def Locked.pcOf (f : Locked) (c : CallId) : WaitPc :=
  match f.lock.bind Holder.decided with
  | some (c', value) => if c' = c then .returned value else (f.mem.wait c).pc
  | none => (f.mem.wait c).pc

def Locked.destroyerOf (f : Locked) (d : CallId) : DestroyPc :=
  match f.lock with
  | some (.counting d') => if d' = d then .returned f.mem.b.waitingCount else f.mem.destroyer d
  | some (.alerting d' wc) | some (.dismissing d' wc) =>
      if d' = d then .returned wc else f.mem.destroyer d
  | _ => f.mem.destroyer d

def Locked.waitingCount (f : Locked) : Int :=
  match f.lock with
  | some (.completing _) => f.mem.b.waitingCount - 1
  | some (.resetting _) => 0
  | _ => f.mem.b.waitingCount

/-- The holder is on its way to `wake_up_all`. -/
def Locked.wakes (f : Locked) : Bool :=
  match f.lock with
  | some (.resetting _) | some (.waking _) | some (.alerting _ _) => true
  | some (.counting _) => decide (f.mem.b.waitingCount ≠ 0)
  | _ => false

/-- What the holder knows: where it stands, and what it has read. -/
def HolderOk (s : State) : Option Holder → Prop
  | none => True
  | some (.arriving c) => (s.wait c).pc = .found
  | some (.completing c) =>
      (s.wait c).pc = .found ∧ s.b.destroyed = false ∧ s.b.waitingCount = s.b.initialCount
  | some (.resetting c) | some (.waking c) => (s.wait c).pc = .found
  | some (.exiting c) => (s.wait c).pc = .leaving
  | some (.departing c _) => (s.wait c).pc = .found ∨ (s.wait c).pc = .leaving
  | some (.destroying d) | some (.counting d) | some (.alerting d _) | some (.dismissing d _) =>
      s.destroyer d = .unlinked

/-- One call: the same point, and blocked only where it is blocked in the other
state or about to be woken. -/
structure CallRefines (wakes : Bool) (w' w : WaitCall) : Prop where
  pc : w.pc = w'.pc
  myIteration : w'.pc.stage = .inside ∨ w'.pc.stage = .exiting → w.myIteration = w'.myIteration
  queued : w.queued = w'.queued
  interruptible : w'.interruptible = true →
    w.interruptible = true ∨ (wakes = true ∧ w'.queued = true)

/-- `f`, with the section of its holder run at once, is `s`. -/
structure Refines (f : Locked) (s : State) : Prop where
  holder : HolderOk f.mem f.lock
  unlinks : s.unlinks = f.mem.unlinks
  initialCount : s.b.initialCount = f.mem.b.initialCount
  barrierIteration : s.b.barrierIteration = f.mem.b.barrierIteration
  destroyed : s.b.destroyed = f.mem.b.destroyed
  waitingCount : s.b.waitingCount = f.waitingCount
  rounds : s.rounds = f.mem.rounds
  arrivals : s.arrivals = f.mem.arrivals
  calls : ∀ c, CallRefines f.wakes { f.mem.wait c with pc := f.pcOf c } (s.wait c)
  destroyer : ∀ d, s.destroyer d = f.destroyerOf d

theorem Refines.create (N : Nat) : Refines ⟨State.create N, none⟩ (State.create N) where
  holder := trivial
  unlinks := rfl
  initialCount := rfl
  barrierIteration := rfl
  destroyed := rfl
  waitingCount := rfl
  rounds := rfl
  arrivals := rfl
  calls := fun _ => ⟨rfl, fun _ => rfl, rfl, fun h => .inl h⟩
  destroyer := fun _ => rfl

/-! ## Accesses without the lock -/

section Unlocked

variable {f : Locked} {s : State}

/-- A call that stands at neither lock has no section. -/
def WaitPc.AtLock (pc : WaitPc) : Prop := pc = .found ∨ pc = .leaving

theorem HolderOk.decided {m : State} {o : Option Holder} (h : HolderOk m o) {c : CallId} {v : Int}
    (hdec : o.bind Holder.decided = some (c, v)) : (m.wait c).pc.AtLock := by
  rcases o with - | x
  · cases hdec
  · cases x with
    | resetting c' =>
        obtain ⟨rfl, -⟩ := Prod.mk.inj (Option.some.inj hdec)
        exact .inl h
    | waking c' =>
        obtain ⟨rfl, -⟩ := Prod.mk.inj (Option.some.inj hdec)
        exact .inl h
    | departing c' v' =>
        obtain ⟨rfl, -⟩ := Prod.mk.inj (Option.some.inj hdec)
        exact h
    | _ => cases hdec

/-- A call that stands at neither lock is not the holder, whatever it does next. -/
theorem Locked.pcOf_self {m m' : State} {o : Option Holder} (h : HolderOk m o) {c : CallId}
    (hc : ¬ (m.wait c).pc.AtLock) : (Locked.mk m' o).pcOf c = (m'.wait c).pc := by
  unfold Locked.pcOf
  split
  · rename_i c' v hdec
    have hne : c' ≠ c := by
      rintro rfl
      exact hc (h.decided hdec)
    exact if_neg hne
  · rfl

theorem Locked.pcOf_congr {m' : State} {c : CallId} (h : (m'.wait c).pc = (f.mem.wait c).pc) :
    (Locked.mk m' f.lock).pcOf c = f.pcOf c := by
  unfold Locked.pcOf
  rw [h]

/-- What the holder knows is changed by nobody else. -/
theorem HolderOk.frame {m m' : State} {o : Option Holder} (h : HolderOk m o)
    (hpc : ∀ c, (m.wait c).pc.AtLock → (m'.wait c).pc = (m.wait c).pc)
    (hdes : ∀ d, m.destroyer d = .unlinked → m'.destroyer d = .unlinked)
    (hflag : m'.b.destroyed = m.b.destroyed) (hcount : m'.b.waitingCount = m.b.waitingCount)
    (hsize : m'.b.initialCount = m.b.initialCount) : HolderOk m' o := by
  rcases o with - | x
  · trivial
  · cases x with
    | arriving c => exact (hpc c (.inl h)).trans h
    | completing c =>
        obtain ⟨hc, hlive, hfull⟩ := h
        refine ⟨(hpc c (.inl hc)).trans hc, hflag.trans hlive, ?_⟩
        rw [hcount, hsize, hfull]
    | resetting c => exact (hpc c (.inl h)).trans h
    | waking c => exact (hpc c (.inl h)).trans h
    | exiting c => exact (hpc c (.inr h)).trans h
    | departing c v =>
        have hc : (m.wait c).pc.AtLock := h
        show (m'.wait c).pc.AtLock
        rw [hpc c hc]
        exact hc
    | destroying d => exact hdes d h
    | counting d => exact hdes d h
    | alerting d wc => exact hdes d h
    | dismissing d wc => exact hdes d h

/-- The point of every call is its own, in both states. -/
theorem Refines.call (h : Refines f s) {c : CallId} (hc : ¬ (f.mem.wait c).pc.AtLock) :
    CallRefines f.wakes (f.mem.wait c) (s.wait c) := by
  have hcall := h.calls c
  have hpc : f.pcOf c = (f.mem.wait c).pc := Locked.pcOf_self h.holder hc
  rw [hpc] at hcall
  exact hcall

theorem Refines.pc_eq (h : Refines f s) {c : CallId} (hc : ¬ (f.mem.wait c).pc.AtLock) :
    (s.wait c).pc = (f.mem.wait c).pc := (h.call hc).pc

/-- One call moves, in both states. -/
theorem Refines.updateCall (h : Refines f s) {c : CallId} (hc : ¬ (f.mem.wait c).pc.AtLock)
    {w' w : WaitCall} (hw : CallRefines f.wakes w' w) :
    Refines ⟨{ f.mem with wait := Function.update f.mem.wait c w' }, f.lock⟩
      { s with wait := Function.update s.wait c w } :=
  { h with
    holder := by
      refine h.holder.frame (fun c' hc' => ?_) (fun _ hd => hd) rfl rfl rfl
      have hne : c' ≠ c := by
        rintro rfl
        exact hc hc'
      simp only [Function.update_of_ne hne]
    calls := fun c' => by
      by_cases hcc : c' = c
      · subst hcc
        rw [Locked.pcOf_self h.holder hc]
        simp only [Function.update_self]
        exact hw
      · have hsame : (Function.update f.mem.wait c w' c') = f.mem.wait c' :=
          Function.update_of_ne hcc _ _
        rw [Locked.pcOf_congr (congrArg WaitCall.pc hsame)]
        simp only [Function.update_of_ne hcc]
        exact h.calls c' }

/-- The reference count is read by nobody here. -/
theorem Refines.setRefcount (h : Refines f s) (r r' : Int) (n n' : Nat) :
    Refines ⟨{ f.mem with b := { f.mem.b with refcount := r' }, frees := n' }, f.lock⟩
      { s with b := { s.b with refcount := r }, frees := n } :=
  { h with
    holder := h.holder.frame (fun _ _ => rfl) (fun _ hd => hd) rfl rfl rfl }

/-- A destroyer that has not come to the lock is not the holder, whatever it does next. -/
theorem Locked.destroyerOf_self {m m' : State} {o : Option Holder} (h : HolderOk m o)
    {d : CallId} (hd : m.destroyer d ≠ .unlinked) :
    (Locked.mk m' o).destroyerOf d = m'.destroyer d := by
  have hother : ∀ d0, m.destroyer d0 = .unlinked → d0 ≠ d := by
    rintro d0 h0 rfl
    exact hd h0
  unfold Locked.destroyerOf
  split
  · rename_i d0 hlock
    obtain rfl : o = _ := hlock
    exact if_neg (hother d0 h)
  · rename_i d0 wc hlock
    obtain rfl : o = _ := hlock
    exact if_neg (hother d0 h)
  · rename_i d0 wc hlock
    obtain rfl : o = _ := hlock
    exact if_neg (hother d0 h)
  · rfl

theorem Refines.destroyer_eq (h : Refines f s) {d : CallId} (hd : f.mem.destroyer d ≠ .unlinked) :
    s.destroyer d = f.mem.destroyer d :=
  (h.destroyer d).trans (Locked.destroyerOf_self h.holder hd)

/-- A destroyer moves that has not come to the lock. -/
theorem Refines.updateDestroyer (h : Refines f s) {d : CallId} (hd : f.mem.destroyer d ≠ .unlinked)
    (p : DestroyPc) {u u' : Nat} (hu : u = u') :
    Refines ⟨{ f.mem with unlinks := u', destroyer := Function.update f.mem.destroyer d p }, f.lock⟩
      { s with unlinks := u, destroyer := Function.update s.destroyer d p } :=
  { h with
    holder := by
      refine h.holder.frame (fun _ _ => rfl) (fun d' hd' => ?_) rfl rfl rfl
      have hne : d' ≠ d := by
        rintro rfl
        exact hd hd'
      simp only [Function.update_of_ne hne]
      exact hd'
    unlinks := hu
    destroyer := fun d' => by
      by_cases hdd : d' = d
      · subst hdd
        rw [Locked.destroyerOf_self h.holder hd]
        simp only [Function.update_self]
      · have hold := h.destroyer d'
        simp only [Function.update_of_ne hdd]
        unfold Locked.destroyerOf at hold ⊢
        simp only [Function.update_of_ne hdd]
        exact hold }

/-- A signal reaches any call. -/
theorem Refines.signal (h : Refines f s) (c : CallId) :
    Refines ⟨signal f.mem c, f.lock⟩ (signal s c) :=
  { h with
    holder := by
      refine h.holder.frame (fun c' _ => ?_) (fun _ hd => hd) rfl rfl rfl
      by_cases hcc : c' = c
      · subst hcc
        simp [Barrier.signal]
      · simp [Barrier.signal, Function.update_of_ne hcc]
    calls := fun c' => by
      have hcall := h.calls c'
      by_cases hcc : c' = c
      · subst hcc
        rw [Locked.pcOf_congr (by simp [Barrier.signal])]
        simp only [Barrier.signal, Function.update_self]
        exact ⟨hcall.pc, hcall.myIteration, hcall.queued, fun hi => by cases hi⟩
      · rw [Locked.pcOf_congr (by simp [Barrier.signal, Function.update_of_ne hcc])]
        simp only [Barrier.signal, Function.update_of_ne hcc]
        exact hcall }

/-- The signal that wakes a call early in the other state. -/
theorem Refines.signal_right (h : Refines f s) {c : CallId}
    (hi : (f.mem.wait c).interruptible = false) : Refines f (Barrier.signal s c) :=
  { h with
    calls := fun c' => by
      have hcall := h.calls c'
      by_cases hcc : c' = c
      · subst hcc
        simp only [Barrier.signal, Function.update_self]
        refine ⟨hcall.pc, hcall.myIteration, hcall.queued, fun ht => ?_⟩
        rw [show (f.mem.wait c').interruptible = true from ht] at hi
        cases hi
      · simp only [Barrier.signal, Function.update_of_ne hcc]
        exact hcall }

theorem Refines.fewRounds (h : Refines f s) {b : LockedLabel} (hok : FewRoundsLocked f b)
    (a : Label) : FewRounds s a := by
  intro c r hr hnot
  rw [h.rounds]
  refine hok c r (h.arrivals ▸ hr) ?_
  rw [(h.calls c).pc] at hnot
  have hnot : (f.pcOf c).isReturned = false := hnot
  unfold Locked.pcOf at hnot
  split at hnot
  · split at hnot
    · cases hnot
    · exact hnot
  · exact hnot

/-- **Unlocked step.** The other state makes the same step, after a signal where
the call is woken there first. -/
theorem Refines.unlocked {N : Nat} (h : Refines f s) {b : LockedLabel}
    (hok : FewRoundsLocked f b) {a : Label} (ha : a.isUnlocked = true) {m' : State}
    (hst : Step f.mem a m') :
    ∃ s', Relation.ReflTransGen ((system N).Admitted FewRounds) s s' ∧
      Refines ⟨m', f.lock⟩ s' := by
  have hone : ∀ {a' s'}, Step s a' s' →
      Relation.ReflTransGen ((system N).Admitted FewRounds) s s' :=
    fun {a' _} hs => .single ⟨a', h.fewRounds hok _, hs⟩
  have hfree : ∀ {c p}, (f.mem.wait c).pc = p → p ≠ .found → p ≠ .leaving →
      ¬ (f.mem.wait c).pc.AtLock := by
    rintro c p hp hnf hnl (hl | hl)
    · exact hnf (hp.symm.trans hl)
    · exact hnl (hp.symm.trans hl)
  cases hst with
  | @lookupWait c hpc =>
      have hc := hfree hpc (by simp) (by simp)
      refine ⟨_, hone (.lookupWait ((h.pc_eq hc).trans hpc)), ?_⟩
      have hcall := h.call hc
      unfold lookupWait
      by_cases hu : f.mem.unlinks = 0
      · rw [if_pos hu, if_pos (h.unlinks.trans hu)]
        refine (h.setRefcount (s.b.refcount + 1) (f.mem.b.refcount + 1) s.frees
          f.mem.frees).updateCall hc ?_
        exact ⟨rfl, (fun hs => by rcases hs with hs | hs <;> cases hs), hcall.queued,
          hcall.interruptible⟩
      · rw [if_neg hu, if_neg (h.unlinks ▸ hu)]
        refine h.updateCall hc ?_
        exact ⟨rfl, (fun hs => by rcases hs with hs | hs <;> cases hs), hcall.queued,
          hcall.interruptible⟩
  | arrive _ => cases ha
  | @prepareToWait c hpc =>
      have hc := hfree hpc (by simp) (by simp)
      refine ⟨_, hone (.prepareToWait ((h.pc_eq hc).trans hpc)), ?_⟩
      refine h.updateCall hc ⟨rfl, fun _ => ?_, rfl, fun _ => .inl rfl⟩
      exact (h.call hc).myIteration (.inl (by rw [hpc]; rfl))
  | @testIteration c hpc =>
      have hc := hfree hpc (by simp) (by simp)
      refine ⟨_, hone (.testIteration ((h.pc_eq hc).trans hpc)), ?_⟩
      have hcall := h.call hc
      have hmy := hcall.myIteration (.inl (by rw [hpc]; rfl))
      unfold testIteration
      rw [h.barrierIteration, hmy]
      exact h.updateCall hc ⟨rfl, fun _ => hmy, hcall.queued, hcall.interruptible⟩
  | @testDestroyed c hpc =>
      have hc := hfree hpc (by simp) (by simp)
      refine ⟨_, hone (.testDestroyed ((h.pc_eq hc).trans hpc)), ?_⟩
      have hcall := h.call hc
      have hmy := hcall.myIteration (.inl (by rw [hpc]; rfl))
      unfold testDestroyed
      rw [h.destroyed]
      exact h.updateCall hc ⟨rfl, fun _ => hmy, hcall.queued, hcall.interruptible⟩
  | @schedule c hpc hi =>
      have hc := hfree hpc (by simp) (by simp)
      have hsig := h.signal_right hi
      have hcall := hsig.call hc
      have hmy := hcall.myIteration (.inl (by rw [hpc]; rfl))
      refine ⟨(Barrier.signal s c).setPc c .testIteration, .tail (hone .signal)
        ⟨.schedule c, hsig.fewRounds hok _, .schedule (hcall.pc.trans hpc) ?_⟩, ?_⟩
      · simp [Barrier.signal]
      · exact hsig.updateCall hc ⟨rfl, fun _ => hmy, hcall.queued, hcall.interruptible⟩
  | @signal c => exact ⟨_, hone .signal, h.signal c⟩
  | @finishWait c hpc =>
      have hc := hfree hpc (by simp) (by simp)
      refine ⟨_, hone (.finishWait ((h.pc_eq hc).trans hpc)), ?_⟩
      refine h.updateCall hc ⟨rfl, fun _ => ?_, rfl, fun hi => by cases hi⟩
      exact (h.call hc).myIteration (.inr (by rw [hpc]; rfl))
  | leave _ => cases ha
  | @lookupDestroy d hd =>
      have hnot : f.mem.destroyer d ≠ .unlinked := by
        rw [hd]
        simp
      refine ⟨_, hone (.lookupDestroy ((h.destroyer_eq hnot).trans hd)), ?_⟩
      unfold lookupDestroy
      by_cases hu : f.mem.unlinks = 0
      · rw [if_pos hu, if_pos (h.unlinks.trans hu)]
        exact (h.setRefcount (s.b.refcount + 1) (f.mem.b.refcount + 1) s.frees
          f.mem.frees).updateDestroyer hnot .found h.unlinks
      · rw [if_neg hu, if_neg (h.unlinks ▸ hu)]
        exact h.updateDestroyer hnot (.returned (-EINVAL)) h.unlinks
  | @unlink d hd =>
      have hnot : f.mem.destroyer d ≠ .unlinked := by
        rw [hd]
        simp
      refine ⟨_, hone (.unlink ((h.destroyer_eq hnot).trans hd)), ?_⟩
      exact h.updateDestroyer hnot .unlinked (congrArg (· + 1) h.unlinks)
  | destroy _ => cases ha

end Unlocked

/-! ## Sections -/

section Sections

variable {m s : State}

/-- A call that takes the lock, or leaves it to the holder of a section that has not
taken effect. -/
theorem Refines.take {o x : Option Holder} (h : Refines ⟨m, o⟩ s) (hok : HolderOk m x)
    (hcount : (Locked.mk m x).waitingCount = (Locked.mk m o).waitingCount)
    (hpc : ∀ c, (Locked.mk m x).pcOf c = (Locked.mk m o).pcOf c)
    (hwakes : (Locked.mk m x).wakes = (Locked.mk m o).wakes)
    (hdes : ∀ d, (Locked.mk m x).destroyerOf d = (Locked.mk m o).destroyerOf d) :
    Refines ⟨m, x⟩ s :=
  { h with
    holder := hok
    waitingCount := h.waitingCount.trans hcount.symm
    calls := fun c => by
      rw [hpc c, hwakes]
      exact h.calls c
    destroyer := fun d => (h.destroyer d).trans (hdes d).symm }

/-- The wake-up that the other state has had already. -/
theorem CallRefines.wakeUpAll {b : Bool} {wait' : CallId → WaitCall} {c : CallId} {pc : WaitPc}
    {w : WaitCall} (h : CallRefines b { wait' c with pc := pc } w) :
    CallRefines false { wakeUpAll wait' c with pc := pc } w := by
  unfold Barrier.wakeUpAll
  by_cases hq : (wait' c).queued = true
  · rw [if_pos hq]
    exact ⟨h.pc, h.myIteration, h.queued, fun hi => by cases hi⟩
  · rw [if_neg hq]
    refine ⟨h.pc, h.myIteration, h.queued, fun hi => ?_⟩
    rcases h.interruptible hi with hs | ⟨-, hqueued⟩
    · exact .inl hs
    · exact absurd hqueued hq

/-- The wake-up that the other state has first. -/
theorem CallRefines.wakeUpAll_right {w' : WaitCall} {wait : CallId → WaitCall} {c : CallId}
    (h : CallRefines false w' (wait c)) : CallRefines true w' (Barrier.wakeUpAll wait c) := by
  refine ⟨(wakeUpAll_pc wait c).trans h.pc, fun hs => ?_, (wakeUpAll_queued wait c).trans h.queued,
    fun hi => ?_⟩
  · rw [← h.myIteration hs, Barrier.wakeUpAll]
    split
    · rfl
    · rfl
  · by_cases hq : w'.queued = true
    · exact .inr ⟨rfl, hq⟩
    · left
      have hwq : ¬ (wait c).queued = true := by
        rw [h.queued]
        exact hq
      rw [Barrier.wakeUpAll, if_neg hwq]
      rcases h.interruptible hi with hs | ⟨hf, -⟩
      · exact hs
      · cases hf

/-- A section that sets nothing takes effect. -/
theorem Refines.depart (h : Refines ⟨m, none⟩ s) {c : CallId} (hc : (m.wait c).pc.AtLock)
    (v : Int) (r : Int) (n : Nat) :
    Refines ⟨m, some (.departing c v)⟩
      ({ s with b := { s.b with refcount := r }, frees := n }.setPc c (.returned v)) :=
  { h with
    holder := hc
    calls := fun c' => by
      have hcall := h.calls c'
      by_cases hcc : c' = c
      · subst hcc
        have hpc : (Locked.mk m (some (.departing c' v))).pcOf c' = .returned v := if_pos rfl
        rw [hpc]
        simp only [State.setPc, Function.update_self]
        exact ⟨rfl, (fun hs => by rcases hs with hs | hs <;> cases hs), hcall.queued,
          hcall.interruptible⟩
      · have hpc : (Locked.mk m (some (.departing c v))).pcOf c' = (m.wait c').pc :=
          if_neg (Ne.symm hcc)
        rw [hpc]
        simp only [State.setPc, Function.update_of_ne hcc]
        exact hcall }

/-- The end of a section of `sys_barrierwait`: `_leave_barrier`. -/
theorem Refines.departed {c : CallId} {v : Int} (h : Refines ⟨m, some (.departing c v)⟩ s)
    (r : Int) (n : Nat) :
    Refines ⟨{ m with b := { m.b with refcount := r }, frees := n }.setPc c (.returned v), none⟩
      s :=
  { h with
    holder := trivial
    calls := fun c' => by
      have hcall := h.calls c'
      by_cases hcc : c' = c
      · subst hcc
        have hpc : (Locked.mk m (some (.departing c' v))).pcOf c' = .returned v := if_pos rfl
        rw [hpc] at hcall
        unfold Locked.pcOf
        simp only [State.setPc, Function.update_self]
        exact hcall
      · have hpc : (Locked.mk m (some (.departing c v))).pcOf c' = (m.wait c').pc :=
          if_neg (Ne.symm hcc)
        rw [hpc] at hcall
        unfold Locked.pcOf
        simp only [State.setPc, Function.update_of_ne hcc]
        exact hcall }

/-- The arrival section of a call that goes to sleep, or of the last of the group
before it starts the next round. -/
theorem Refines.arriving {N : Nat} {c : CallId} (h : Refines ⟨m, some (.arriving c)⟩ s)
    (hfew : FewRounds s (.arrive c)) :
    ∃ s', Relation.ReflTransGen ((system N).Admitted FewRounds) s s' ∧
      Refines ⟨(countArrival m c).1, (countArrival m c).2⟩ s' := by
  have hfound : (m.wait c).pc = .found := h.holder
  have hpc : (s.wait c).pc = .found := (h.calls c).pc.trans hfound
  have hone : Relation.ReflTransGen ((system N).Admitted FewRounds) s (arrive s c) :=
    .single ⟨.arrive c, hfew, .arrive hpc⟩
  have hcount : s.b.waitingCount = m.b.waitingCount := h.waitingCount
  unfold countArrival
  by_cases hd : m.b.destroyed = true
  · -- refused
    rw [if_pos hd]
    refine ⟨_, hone, ?_⟩
    have hds : s.b.destroyed = true := h.destroyed.trans hd
    rw [arrive, arrivalSection, if_pos hds]
    have hnone : Refines ⟨m, none⟩ s :=
      h.take trivial rfl (fun _ => rfl) rfl (fun _ => rfl)
    exact hnone.depart (.inl hfound) _ _ _
  · rw [if_neg hd]
    have hlive : m.b.destroyed = false := Bool.eq_false_of_not_eq_true hd
    have hds : ¬ s.b.destroyed = true := by rwa [h.destroyed]
    by_cases hfull : m.b.waitingCount + 1 = m.b.initialCount
    · -- the last of the group: no effect so far
      simp only [hfull, if_true]
      refine ⟨s, .refl, ?_⟩
      exact
        { h with
          holder := by
            refine ⟨?_, hlive, rfl⟩
            simpa using hfound
          waitingCount := by
            show s.b.waitingCount = m.b.initialCount - 1
            rw [hcount, ← hfull]
            omega
          calls := fun c' => by
            have hcall := h.calls c'
            by_cases hcc : c' = c
            · subst hcc
              unfold Locked.pcOf
              simp only [Option.bind_some, Holder.decided, Function.update_self]
              refine ⟨hcall.pc, fun hs => ?_, hcall.queued, hcall.interruptible⟩
              rw [show (m.wait c').pc = .found from hfound] at hs
              rcases hs with hs | hs <;> cases hs
            · unfold Locked.pcOf
              simp only [Option.bind_some, Holder.decided, Function.update_of_ne hcc]
              exact hcall }
    · -- the call will sleep
      simp only [hfull, if_false]
      refine ⟨_, hone, ?_⟩
      have hfulls : ¬ s.b.waitingCount + 1 = s.b.initialCount := by
        rw [hcount, h.initialCount]
        exact hfull
      rw [arrive, arrivalSection, if_neg hds]
      simp only [hfulls, if_false]
      exact
        { h with
          holder := trivial
          waitingCount := congrArg (· + 1) hcount
          arrivals := by
            show s.arrivals ++ [(c, s.rounds)] = m.arrivals ++ [(c, m.rounds)]
            rw [h.arrivals, h.rounds]
          calls := fun c' => by
            have hcall := h.calls c'
            by_cases hcc : c' = c
            · subst hcc
              unfold Locked.pcOf
              simp only [Option.bind_none, Function.update_self]
              exact ⟨rfl, fun _ => h.barrierIteration, hcall.queued, hcall.interruptible⟩
            · unfold Locked.pcOf
              simp only [Option.bind_none, Function.update_of_ne hcc]
              exact hcall }

/-- The last of a group starts the next round: its section takes effect. -/
theorem Refines.completing {N : Nat} {c : CallId} (h : Refines ⟨m, some (.completing c)⟩ s)
    (hfew : FewRounds s (.arrive c)) :
    ∃ s', Relation.ReflTransGen ((system N).Admitted FewRounds) s s' ∧
      Refines ⟨(advance m (.completing c)).1, (advance m (.completing c)).2⟩ s' := by
  obtain ⟨hfound, hlive, hcount⟩ := h.holder
  have hpc : (s.wait c).pc = .found := (h.calls c).pc.trans hfound
  refine ⟨_, .single ⟨.arrive c, hfew, .arrive hpc⟩, ?_⟩
  have hds : ¬ s.b.destroyed = true := by
    rw [h.destroyed]
    intro hd
    rw [show m.b.destroyed = false from hlive] at hd
    cases hd
  have hfull : s.b.waitingCount + 1 = s.b.initialCount := by
    have hwc : s.b.waitingCount = m.b.waitingCount - 1 := h.waitingCount
    have hsize : m.b.waitingCount = m.b.initialCount := hcount
    rw [hwc, h.initialCount, hsize]
    exact Int.sub_add_cancel _ _
  rw [arrive, arrivalSection, if_neg hds]
  simp only [hfull, if_true, leaveBarrier, advance]
  exact
    { h with
      holder := hfound
      barrierIteration := congrArg (· + 1) h.barrierIteration
      waitingCount := rfl
      rounds := congrArg (· + 1) h.rounds
      arrivals := by
        show s.arrivals ++ [(c, s.rounds)] = m.arrivals ++ [(c, m.rounds)]
        rw [h.arrivals, h.rounds]
      calls := fun c' => by
        have hcall := (h.calls c').wakeUpAll_right
        by_cases hcc : c' = c
        · subst hcc
          unfold Locked.pcOf
          simp only [Option.bind_some, Holder.decided, Function.update_self, if_true]
          exact ⟨rfl, (fun hs => by rcases hs with hs | hs <;> cases hs), hcall.queued,
            hcall.interruptible⟩
        · unfold Locked.pcOf
          simp only [Option.bind_some, Holder.decided, Function.update_of_ne hcc,
            if_neg (Ne.symm hcc)]
          exact hcall }

/-- A wake-up that the other state has had already. -/
theorem Refines.wakeUp {x y : Holder} (h : Refines ⟨m, some x⟩ s)
    (hok : HolderOk { m with wait := wakeUpAll m.wait } (some y))
    (hcount : (Locked.mk m (some y)).waitingCount = (Locked.mk m (some x)).waitingCount)
    (hpc : y.decided = x.decided) (hwakes : (Locked.mk m (some y)).wakes = false)
    (hdes : ∀ d, (Locked.mk m (some y)).destroyerOf d = (Locked.mk m (some x)).destroyerOf d) :
    Refines ⟨{ m with wait := wakeUpAll m.wait }, some y⟩ s :=
  { h with
    holder := hok
    waitingCount := h.waitingCount.trans hcount.symm
    calls := fun c => by
      have hcall := (h.calls c).wakeUpAll
      have hsame : (Locked.mk { m with wait := wakeUpAll m.wait } (some y)).pcOf c =
          (Locked.mk m (some x)).pcOf c := by
        unfold Locked.pcOf
        simp only [Option.bind_some, hpc, wakeUpAll_pc]
      have hno : (Locked.mk { m with wait := wakeUpAll m.wait } (some y)).wakes = false := hwakes
      rw [hsame, hno]
      exact hcall
    destroyer := fun d => (h.destroyer d).trans (hdes d).symm }

/-- `destroyed` is set: the section of the destroyer takes effect. -/
theorem Refines.destroying {N : Nat} {d : CallId} (h : Refines ⟨m, some (.destroying d)⟩ s)
    (hfew : FewRounds s (.destroy d)) :
    ∃ s', Relation.ReflTransGen ((system N).Admitted FewRounds) s s' ∧
      Refines ⟨{ m with b := { m.b with destroyed := true } }, some (.counting d)⟩ s' := by
  have hun : m.destroyer d = .unlinked := h.holder
  have hds : s.destroyer d = .unlinked := (h.destroyer d).trans hun
  have hcount : s.b.waitingCount = m.b.waitingCount := h.waitingCount
  refine ⟨_, .single ⟨.destroy d, hfew, .destroy hds⟩, ?_⟩
  unfold destroy destroySection leaveBarrier
  exact
    { h with
      holder := hun
      destroyed := rfl
      waitingCount := hcount
      calls := fun c => by
        have hcall := h.calls c
        show CallRefines (decide (m.b.waitingCount ≠ 0)) { m.wait c with pc := (m.wait c).pc }
          ((if s.b.waitingCount ≠ 0 then wakeUpAll s.wait else s.wait) c)
        rw [hcount]
        by_cases hwc : m.b.waitingCount ≠ 0
        · rw [if_pos hwc, decide_eq_true hwc]
          exact hcall.wakeUpAll_right
        · rw [if_neg hwc, decide_eq_false hwc]
          exact hcall
      destroyer := fun d' => by
        show Function.update s.destroyer d (.returned s.b.waitingCount) d' =
          if d = d' then .returned m.b.waitingCount else m.destroyer d'
        by_cases hdd : d' = d
        · subst hdd
          rw [Function.update_self, if_pos rfl, hcount]
        · rw [Function.update_of_ne hdd, if_neg (Ne.symm hdd)]
          exact h.destroyer d' }

/-- The end of the section of a destroyer: `_leave_barrier`. -/
theorem Refines.dismissed {d : CallId} {wc : Int} (h : Refines ⟨m, some (.dismissing d wc)⟩ s)
    (r : Int) (n : Nat) :
    Refines ⟨{ m with
      b := { m.b with refcount := r }, frees := n
      destroyer := Function.update m.destroyer d (.returned wc) }, none⟩ s :=
  { h with
    holder := trivial
    destroyer := fun d' => by
      refine (h.destroyer d').trans ?_
      show (if d = d' then .returned wc else m.destroyer d') =
        Function.update m.destroyer d (.returned wc) d'
      by_cases hdd : d' = d
      · subst hdd
        rw [Function.update_self, if_pos rfl]
      · rw [Function.update_of_ne hdd, if_neg (Ne.symm hdd)] }

/-- **Section step.** The other state runs the whole section when it takes effect,
and stands still at the other accesses. -/
theorem Refines.advance {N : Nat} {x : Holder} (h : Refines ⟨m, some x⟩ s)
    (hfew : ∀ a, FewRounds s a) :
    ∃ s', Relation.ReflTransGen ((system N).Admitted FewRounds) s s' ∧
      Refines ⟨(advance m x).1, (advance m x).2⟩ s' := by
  cases x with
  | arriving c => exact h.arriving (hfew _)
  | completing c => exact h.completing (hfew _)
  | resetting c =>
      refine ⟨s, .refl, ?_⟩
      exact { h with holder := h.holder }
  | waking c =>
      have hfound : (m.wait c).pc = .found := h.holder
      refine ⟨s, .refl, h.wakeUp (.inl ?_) rfl rfl rfl fun _ => rfl⟩
      exact (wakeUpAll_pc m.wait c).trans hfound
  | exiting c =>
      have hleaving : (m.wait c).pc = .leaving := h.holder
      have hcall := h.calls c
      have hpc : (s.wait c).pc = .leaving := hcall.pc.trans hleaving
      have hmy : (s.wait c).myIteration = (m.wait c).myIteration :=
        hcall.myIteration (.inr (by
          show (m.wait c).pc.stage = .exiting
          rw [hleaving]
          rfl))
      refine ⟨_, .single ⟨.leave c, hfew _, .leave hpc⟩, ?_⟩
      have hfree : Refines ⟨m, none⟩ s := h.take trivial rfl (fun _ => rfl) rfl fun _ => rfl
      have hvalue : (leaveSection s.b (s.wait c).myIteration).1 =
          if m.b.barrierIteration = (m.wait c).myIteration then -ECANCELED else 0 := by
        unfold leaveSection
        rw [hmy, h.barrierIteration]
      show Refines ⟨m, some (.departing c
        (if m.b.barrierIteration = (m.wait c).myIteration then -ECANCELED else 0))⟩ _
      rw [← hvalue]
      exact hfree.depart (.inr hleaving) _ _ _
  | departing c v => exact ⟨s, .refl, h.departed _ _⟩
  | destroying d => exact h.destroying (hfew _)
  | counting d =>
      refine ⟨s, .refl, ?_⟩
      have hun : m.destroyer d = .unlinked := h.holder
      unfold Barrier.advance
      by_cases hwc : m.b.waitingCount ≠ 0
      · simp only [if_pos hwc]
        exact h.take hun rfl (fun _ => rfl) (decide_eq_true hwc).symm fun _ => rfl
      · simp only [if_neg hwc]
        have hzero : m.b.waitingCount = 0 := not_not.mp hwc
        refine h.take hun rfl (fun _ => rfl) (decide_eq_false hwc).symm fun d' => ?_
        show (if d = d' then DestroyPc.returned 0 else m.destroyer d') =
          if d = d' then .returned m.b.waitingCount else m.destroyer d'
        rw [hzero]
  | alerting d wc => exact ⟨s, .refl, h.wakeUp h.holder rfl rfl rfl fun _ => rfl⟩
  | dismissing d wc => exact ⟨s, .refl, h.dismissed _ _⟩

end Sections

/-! ## Sleepers -/

/-- Step lemma. -/
theorem Refines.step {N : Nat} {f f' : Locked} {s : State} (h : Refines f s) {b : LockedLabel}
    (hok : FewRoundsLocked f b) (hst : LockedStep f b f') :
    ∃ s', Relation.ReflTransGen ((system N).Admitted FewRounds) s s' ∧ Refines f' s' := by
  obtain ⟨m, o⟩ := f
  cases hst with
  | unlocked ha hst => exact h.unlocked hok ha hst
  | @lockArrival c hlock hpc =>
      obtain rfl : o = none := hlock
      exact ⟨s, .refl, h.take hpc rfl (fun _ => rfl) rfl fun _ => rfl⟩
  | @lockLeave c hlock hpc =>
      obtain rfl : o = none := hlock
      exact ⟨s, .refl, h.take hpc rfl (fun _ => rfl) rfl fun _ => rfl⟩
  | @lockDestroy d hlock hd =>
      obtain rfl : o = none := hlock
      exact ⟨s, .refl, h.take hd rfl (fun _ => rfl) rfl fun _ => rfl⟩
  | @advance x hlock =>
      obtain rfl : o = some x := hlock
      exact h.advance (h.fewRounds hok)

/-- Run lemma: every state reached section by section has its counterpart. -/
theorem Refines.reach {N : Nat} {f : Locked} (h : (lockedSystem N).Reach FewRoundsLocked f) :
    ∃ s, (system N).Reach FewRounds s ∧ Refines f s := by
  refine h.simulated ?_ ?_
  · rintro f rfl
    exact ⟨State.create N, rfl, Refines.create N⟩
  · intro f b f' s hrel hok hst
    exact hrel.step hok hst

/-- In `schedule()`, and not runnable. -/
def Blocked (s : State) (c : CallId) : Prop :=
  (s.wait c).pc = .scheduling ∧ (s.wait c).interruptible = true

/-- With whole sections, a blocked call is of the current round of a live barrier. -/
theorem CancelInv.blocked {N : Nat} {s : State} (h : CancelInv s) (hinv : Inv N s) {c : CallId}
    (hb : Blocked s c) :
    s.b.barrierIteration = (s.wait c).myIteration ∧ s.b.destroyed = false := by
  obtain ⟨hpc, hi⟩ := hb
  have hc := h.calls c
  rw [WakeOk, hpc] at hc
  obtain ⟨hround, hlive⟩ := hc.2 hi
  refine ⟨?_, hlive⟩
  rw [hinv.iteration, hinv.myIteration_eq hround]

/-- With the lock free nobody is about to be woken. -/
theorem Refines.blocked {f : Locked} {s : State} (h : Refines f s) (hfree : f.lock = none)
    {c : CallId} (hb : Blocked f.mem c) :
    Blocked s c ∧ (s.wait c).myIteration = (f.mem.wait c).myIteration := by
  obtain ⟨hpc, hi⟩ := hb
  have hat : ¬ (f.mem.wait c).pc.AtLock := by
    rintro (hl | hl)
    · rw [hpc] at hl
      cases hl
    · rw [hpc] at hl
      cases hl
  have hcall := h.call hat
  have hwakes : f.wakes = false := by
    rw [Locked.wakes, hfree]
  refine ⟨⟨hcall.pc.trans hpc, ?_⟩, hcall.myIteration (.inl (by rw [hpc]; rfl))⟩
  rcases hcall.interruptible hi with hs | ⟨hw, -⟩
  · exact hs
  · rw [hwakes] at hw
    cases hw

/-- **A sleeping waiter has a reason to sleep.** In every state reached with the
sections of `b->spin_lock` cut into their accesses, in which nobody holds the lock,
a call blocked in `schedule()` waits in the current iteration of a barrier that is
not destroyed. -/
theorem blocked_waiter_has_reason {N : Nat} (hN : 1 ≤ N) {f : Locked}
    (h : (lockedSystem N).Reach FewRoundsLocked f) (hfree : f.lock = none) {c : CallId}
    (hb : Blocked f.mem c) :
    f.mem.b.barrierIteration = (f.mem.wait c).myIteration ∧ f.mem.b.destroyed = false := by
  obtain ⟨s, hs, hrel⟩ := Refines.reach h
  obtain ⟨hinv, hcancel⟩ := CancelInv.reach hN hs
  obtain ⟨hbs, hmy⟩ := hrel.blocked hfree hb
  obtain ⟨hiter, hlive⟩ := hcancel.blocked hinv hbs
  rw [hrel.barrierIteration, hmy] at hiter
  rw [hrel.destroyed] at hlive
  exact ⟨hiter, hlive⟩

theorem fewRoundsLocked_of_lt {f : Locked} (h : f.mem.rounds < 2 ^ 32) (b : LockedLabel) :
    FewRoundsLocked f b :=
  fun _ r _ _ => lt_of_lt_of_le h (Nat.le_add_left _ r)

/-- A barrier of size 2, whose first call has gone to sleep. -/
def oneAsleep : Locked :=
  let m := (countArrival (lookupWait (State.create 2) 0) 0).1
  ⟨testDestroyed (testIteration (prepareToWait m 0) 0) 0, none⟩

theorem oneAsleep_reach : (lockedSystem 2).Reach FewRoundsLocked oneAsleep :=
  .step (.unlocked (.testDestroyed 0))
    (.step (.unlocked (.testIteration 0))
      (.step (.unlocked (.prepareToWait 0))
        (.step .advance
          (.step (.lockArrival 0)
            (.step (.unlocked (.lookupWait 0)) (.init rfl) (fewRoundsLocked_of_lt (by decide) _)
              (.unlocked rfl (.lookupWait rfl)))
            (fewRoundsLocked_of_lt (by decide) _) (.lockArrival rfl rfl))
          (fewRoundsLocked_of_lt (by decide) _) (.advance rfl))
        (fewRoundsLocked_of_lt (by decide) _) (.unlocked rfl (.prepareToWait rfl)))
      (fewRoundsLocked_of_lt (by decide) _) (.unlocked rfl (.testIteration rfl)))
    (fewRoundsLocked_of_lt (by decide) _) (.unlocked rfl (.testDestroyed rfl))

theorem oneAsleep_reason :
    oneAsleep.mem.b.barrierIteration = (oneAsleep.mem.wait 0).myIteration ∧
    oneAsleep.mem.b.destroyed = false :=
  blocked_waiter_has_reason (by decide) oneAsleep_reach rfl ⟨rfl, rfl⟩

end LinuxHacks.Barrier
