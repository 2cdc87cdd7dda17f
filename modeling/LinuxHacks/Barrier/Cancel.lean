import LinuxHacks.Barrier.Rounds

/-!
# What a destroyer reports

`WakeOk` says, point by point, what a sleeper still waits for: once it has passed
the test of `barrier_iteration` it can only block while its round is the current
one, and once it has passed the test of `destroyed` only while the barrier lives.
With it, the value of a call that returns is a function of its round and of the
number of completed rounds, and a destroyed barrier has no blocked call.

The comparison of `my_iteration` with `barrier_iteration` is exact only as long as
the counter does not wrap during a call (`FewRounds`).
-/

namespace LinuxHacks.Barrier

open LinuxHacks.Lib

/-! ## Runs without a wrapped counter -/

/-- Fewer than `2 ^ 32` rounds completed during any call that has arrived and not
returned. -/
def FewRounds (s : State) (_ : Label) : Prop :=
  ∀ c r, (c, r) ∈ s.arrivals → (s.wait c).pc.isReturned = false → s.rounds < r + 2 ^ 32

/-- The value that a call of round `k` gets when `n` rounds are over. -/
def resultOf (k n : Nat) : Int := if k < n then 0 else -ECANCELED

theorem ofNat_eq_iff {r n : Nat} (hle : r ≤ n) (hlt : n < r + 2 ^ 32) :
    BitVec.ofNat 32 n = BitVec.ofNat 32 r ↔ r = n := by
  constructor
  · intro heq
    have htoNat := congrArg BitVec.toNat heq
    simp only [BitVec.toNat_ofNat] at htoNat
    omega
  · rintro rfl
    rfl

section Comparison

variable {N : Nat} {s : State}

/-- The comparison that the sleep loop and the end of the call make. -/
theorem Inv.same_iteration_iff (h : Inv N s) {a : Label} (hok : FewRounds s a) {c : CallId}
    {r : Nat} (hr : (c, r) ∈ s.arrivals) (hnot : (s.wait c).pc.isReturned = false) :
    s.b.barrierIteration = (s.wait c).myIteration ↔ r = s.rounds := by
  rw [h.iteration, h.myIteration_eq hr]
  exact ofNat_eq_iff (h.round_le hr) (hok c r hr hnot)

theorem Inv.round_unique (h : Inv N s) {c : CallId} {k r : Nat} (hk : (c, k) ∈ s.arrivals)
    (hr : (c, r) ∈ s.arrivals) : k = r :=
  congrArg Prod.snd (List.inj_on_of_nodup_map h.nodup hk hr rfl)

end Comparison

/-! ## The invariant -/

/-- What keeps a sleeper asleep, and what a returned call returned. -/
def WakeOk (destroyed : Bool) (rounds : Nat) (arrivals : List (CallId × Nat))
    (c : CallId) (w : WaitCall) : Prop :=
  match w.pc with
  | .testIteration => w.queued = true
  | .testDestroyed => w.queued = true ∧ (w.interruptible = true → (c, rounds) ∈ arrivals)
  | .scheduling =>
      w.queued = true ∧
        (w.interruptible = true → (c, rounds) ∈ arrivals ∧ destroyed = false)
  | .returned v => ∀ k, (c, k) ∈ arrivals → v = resultOf k rounds
  | _ => True

structure CancelInv (s : State) : Prop where
  calls : ∀ c, WakeOk s.b.destroyed s.rounds s.arrivals c (s.wait c)
  destroyer : ∀ d v, s.destroyer d = .returned v →
    v = -EINVAL ∨ s.b.destroyed = true ∧ v = s.b.waitingCount

theorem CancelInv.create (N : Nat) : CancelInv (State.create N) where
  calls := fun _ => trivial
  destroyer := fun d v hd => by cases hd

/-- Nothing is recorded about the call, so it returned as it should. -/
theorem wakeOk_unrecorded {d : Bool} {n : Nat} {l : List (CallId × Nat)} {c : CallId}
    {w : WaitCall} {v : Int} (hpc : w.pc = .returned v) (hno : ∀ r, (c, r) ∉ l) :
    WakeOk d n l c w := by
  rw [WakeOk, hpc]
  exact fun k hk => absurd hk (hno k)

/-- A call that `wake_up_all` reached has nothing to wait for. -/
theorem WakeOk.wakeUpAll {d d' : Bool} {n n' : Nat} {l l' : List (CallId × Nat)} {c : CallId}
    {wait : CallId → WaitCall} (h : WakeOk d n l c (wait c))
    (hret : ∀ v, (wait c).pc = .returned v →
      ∀ k, (c, k) ∈ l' → (c, k) ∈ l ∧ resultOf k n = resultOf k n') :
    WakeOk d' n' l' c (wakeUpAll wait c) := by
  unfold WakeOk at h ⊢
  rw [wakeUpAll_pc, wakeUpAll_queued]
  cases hpc : (wait c).pc with
  | testIteration =>
      rw [hpc] at h
      exact h
  | testDestroyed =>
      rw [hpc] at h
      refine ⟨h.1, fun e => ?_⟩
      rw [wakeUpAll_interruptible h.1] at e
      cases e
  | scheduling =>
      rw [hpc] at h
      refine ⟨h.1, fun e => ?_⟩
      rw [wakeUpAll_interruptible h.1] at e
      cases e
  | returned v =>
      rw [hpc] at h
      intro k hk
      obtain ⟨hl, heq⟩ := hret v hpc k hk
      rw [h k hl, heq]
  | _ => trivial

section Preservation

variable {N : Nat} {s s' : State}

/-- A step that leaves the counters and the history alone keeps the invariant if
the calls that it moves are right where they get. -/
theorem CancelInv.frame (h : CancelInv s)
    (hwait : s'.b.waitingCount = s.b.waitingCount) (hdes : s'.b.destroyed = s.b.destroyed)
    (hrounds : s'.rounds = s.rounds) (harr : s'.arrivals = s.arrivals)
    (hcalls : ∀ c, s'.wait c = s.wait c ∨ WakeOk s.b.destroyed s.rounds s.arrivals c (s'.wait c))
    (hdestroyer : ∀ d, s'.destroyer d = s.destroyer d ∨ ∀ v, s'.destroyer d = .returned v →
      v = -EINVAL) : CancelInv s' where
  calls := fun c => by
    rw [hdes, hrounds, harr]
    rcases hcalls c with hc | hc
    · rw [hc]
      exact h.calls c
    · exact hc
  destroyer := fun d v hd => by
    rw [hdes, hwait]
    rcases hdestroyer d with heq | hnew
    · rw [heq] at hd
      exact h.destroyer d v hd
    · exact .inl (hnew v hd)

/-- One call moves to another point. -/
theorem CancelInv.updateCall (h : CancelInv s) {c : CallId} {w : WaitCall}
    (hc : WakeOk s.b.destroyed s.rounds s.arrivals c w) :
    CancelInv { s with wait := Function.update s.wait c w } := by
  refine h.frame rfl rfl rfl rfl (fun c' => ?_) fun _ => .inl rfl
  by_cases hcc : c' = c
  · subst hcc
    right
    simpa using hc
  · left
    simp [hcc]

theorem CancelInv.setRefcount (h : CancelInv s) (refcount : Int) (frees : Nat) :
    CancelInv { s with b := { s.b with refcount := refcount }, frees := frees } :=
  h.frame rfl rfl rfl rfl (fun _ => .inl rfl) fun _ => .inl rfl

theorem CancelInv.lookupWait (h : CancelInv s) (hinv : Inv N s) {c : CallId}
    (hpc : (s.wait c).pc = .start) : CancelInv (lookupWait s c) := by
  unfold Barrier.lookupWait
  split
  · exact (h.setRefcount (s.b.refcount + 1) s.frees).updateCall trivial
  · exact h.updateCall (wakeOk_unrecorded rfl (hinv.outside (by rw [hpc]; rfl)))

/-- On a live barrier every call that has returned is of a round that is over. -/
theorem Inv.returned_over (hinv : Inv N s) (hd : s.b.destroyed = false) {c : CallId} {v : Int}
    (hpc : (s.wait c).pc = .returned v) {k : Nat} (hk : (c, k) ∈ s.arrivals) : k < s.rounds := by
  have hne : k ≠ s.rounds := by
    rintro rfl
    exact hinv.current_unreleased hd hk v hpc
  exact lt_of_le_of_ne (hinv.round_le hk) hne

/-- The arrival section. -/
theorem CancelInv.arrive (h : CancelInv s) (hinv : Inv N s) {c : CallId}
    (hpc : (s.wait c).pc = .found) : CancelInv (arrive s c) := by
  have hno : ∀ r, (c, r) ∉ s.arrivals := hinv.outside (by rw [hpc]; rfl)
  unfold Barrier.arrive arrivalSection leaveBarrier
  by_cases hd : s.b.destroyed = true
  · rw [if_pos hd]
    exact (h.setRefcount (s.b.refcount - 1)
      (s.frees + (decide (s.b.refcount - 1 = 0) && s.b.destroyed).toNat)).updateCall
        (wakeOk_unrecorded rfl hno)
  · have hlive : s.b.destroyed = false := Bool.eq_false_of_not_eq_true hd
    have hdestroyer : ∀ d v, s.destroyer d = .returned v → v = -EINVAL := by
      intro d v hv
      rcases h.destroyer d v hv with he | ⟨hdes, -⟩
      · exact he
      · exact absurd hdes hd
    rw [if_neg hd]
    by_cases hfull : s.b.waitingCount + 1 = s.b.initialCount
    · -- the round is over: everybody is woken
      simp only [hfull, if_true]
      refine ⟨fun c' => ?_, fun d v hv => .inl (hdestroyer d v hv)⟩
      by_cases hcc : c' = c
      · subst hcc
        simp only [Function.update_self]
        intro k hk
        rcases List.mem_append.mp hk with hk | hk
        · exact absurd hk (hno k)
        · have hkr : k = s.rounds := by simpa using hk
          rw [resultOf, hkr, if_pos (Nat.lt_succ_self _)]
      · simp only [Function.update_of_ne hcc]
        refine (h.calls c').wakeUpAll fun v hv k hk => ?_
        have hold := (mem_append_other hcc).mp hk
        have hlt := hinv.returned_over hlive hv hold
        refine ⟨hold, ?_⟩
        rw [resultOf, resultOf, if_pos hlt, if_pos (Nat.lt_succ_of_lt hlt)]
    · -- the call goes to sleep in the current round
      simp only [hfull, if_false]
      refine ⟨fun c' => ?_, fun d v hv => .inl (hdestroyer d v hv)⟩
      by_cases hcc : c' = c
      · subst hcc
        simp only [Function.update_self]
        exact trivial
      · simp only [Function.update_of_ne hcc]
        have hold := h.calls c'
        unfold WakeOk at hold ⊢
        simp only [mem_append_other hcc]
        exact hold

theorem CancelInv.testIteration (h : CancelInv s) (hinv : Inv N s) {a : Label}
    (hok : FewRounds s a) {c : CallId} (hpc : (s.wait c).pc = .testIteration) :
    CancelInv (testIteration s c) := by
  obtain ⟨r, hr, -⟩ := hinv.inside (by rw [hpc]; rfl)
  have hq := h.calls c
  rw [WakeOk, hpc] at hq
  unfold Barrier.testIteration
  split
  · rename_i heq
    have hcur := (hinv.same_iteration_iff hok hr (by rw [hpc]; rfl)).mp heq
    exact h.updateCall ⟨hq, fun _ => hcur ▸ hr⟩
  · exact h.updateCall trivial

theorem CancelInv.testDestroyed (h : CancelInv s) {c : CallId}
    (hpc : (s.wait c).pc = .testDestroyed) : CancelInv (testDestroyed s c) := by
  have hq := h.calls c
  rw [WakeOk, hpc] at hq
  unfold Barrier.testDestroyed
  split
  · exact h.updateCall trivial
  · rename_i hd
    exact h.updateCall ⟨hq.1, fun hi => ⟨hq.2 hi, Bool.eq_false_of_not_eq_true hd⟩⟩

/-- The call reads the counter for the last time. -/
theorem CancelInv.leave (h : CancelInv s) (hinv : Inv N s) {a : Label} (hok : FewRounds s a)
    {c : CallId} (hpc : (s.wait c).pc = .leaving) : CancelInv (leave s c) := by
  obtain ⟨r, hr, -⟩ := hinv.exiting (by rw [hpc]; rfl)
  have hsame := hinv.same_iteration_iff hok hr (by rw [hpc]; rfl)
  unfold Barrier.leave leaveSection leaveBarrier
  refine (h.setRefcount (s.b.refcount - 1)
    (s.frees + (decide (s.b.refcount - 1 = 0) && s.b.destroyed).toNat)).updateCall ?_
  intro k hk
  have hkr : k = r := hinv.round_unique hk hr
  rw [resultOf, hkr]
  by_cases heq : s.b.barrierIteration = (s.wait c).myIteration
  · rw [if_pos heq, if_neg (by rw [hsame.mp heq]; exact lt_irrefl _)]
  · have hne : r ≠ s.rounds := fun e => heq (hsame.mpr e)
    rw [if_neg heq, if_pos (lt_of_le_of_ne (hinv.round_le hr) hne)]

/-- Somebody waits in the current round. -/
theorem Inv.waitingCount_pos (hinv : Inv N s) {c : CallId} (hc : (c, s.rounds) ∈ s.arrivals) :
    0 < s.b.waitingCount := by
  have hpos : 0 < arrivalsOf s s.rounds := List.countP_pos_iff.mpr ⟨(c, s.rounds), hc, by simp⟩
  have hcount := hinv.count s.rounds
  rw [if_neg (lt_irrefl _), if_pos rfl] at hcount
  omega

/-- The destroyer wakes everybody, or finds nobody of the current round. -/
theorem CancelInv.destroy (h : CancelInv s) (hinv : Inv N s) (d : CallId) :
    CancelInv (destroy s d) := by
  unfold Barrier.destroy destroySection leaveBarrier
  refine ⟨fun c => ?_, fun d' v hv => ?_⟩
  · by_cases hwc : s.b.waitingCount = 0
    · simp only [hwc, ne_eq, not_true_eq_false, if_false]
      have hc := h.calls c
      unfold WakeOk at hc ⊢
      cases hpc : (s.wait c).pc with
      | scheduling =>
          rw [hpc] at hc
          refine ⟨hc.1, fun hi => ?_⟩
          have hpos := hinv.waitingCount_pos (hc.2 hi).1
          omega
      | _ =>
          rw [hpc] at hc
          exact hc
    · simp only [ne_eq, hwc, not_false_eq_true, if_true]
      exact (h.calls c).wakeUpAll fun _ _ k hk => ⟨hk, rfl⟩
  · by_cases hdd : d' = d
    · rw [hdd] at hv
      simp only [Function.update_self] at hv
      exact .inr ⟨rfl, (DestroyPc.returned.inj hv).symm⟩
    · simp only [Function.update_of_ne hdd] at hv
      exact (h.destroyer d' v hv).imp id fun hold => ⟨rfl, hold.2⟩

/-- A destroyer that does not run its last section returns nothing but an error. -/
theorem destroyer_update {destroyer : CallId → DestroyPc} {d : CallId} {p : DestroyPc}
    (hp : ∀ v, p = .returned v → v = -EINVAL) (d' : CallId) :
    Function.update destroyer d p d' = destroyer d' ∨
      ∀ v, Function.update destroyer d p d' = .returned v → v = -EINVAL := by
  by_cases hdd : d' = d
  · right
    rw [hdd, Function.update_self]
    exact hp
  · left
    exact Function.update_of_ne hdd _ _

/-- Step lemma. -/
theorem CancelInv.step (h : CancelInv s) (hinv : Inv N s) {a : Label} (hok : FewRounds s a)
    (hst : Step s a s') : CancelInv s' := by
  cases hst with
  | lookupWait hpc => exact h.lookupWait hinv hpc
  | arrive hpc => exact h.arrive hinv hpc
  | prepareToWait _ =>
      apply h.updateCall
      exact rfl
  | testIteration hpc => exact h.testIteration hinv hok hpc
  | testDestroyed hpc => exact h.testDestroyed hpc
  | @schedule c hpc _ =>
      have hq := h.calls c
      rw [WakeOk, hpc] at hq
      apply h.updateCall
      exact hq.1
  | @signal c =>
      have hq := h.calls c
      apply h.updateCall
      unfold WakeOk at hq ⊢
      cases hpc : (s.wait c).pc with
      | testDestroyed =>
          rw [hpc] at hq
          exact ⟨hq.1, fun e => by cases e⟩
      | scheduling =>
          rw [hpc] at hq
          exact ⟨hq.1, fun e => by cases e⟩
      | _ =>
          rw [hpc] at hq
          exact hq
  | finishWait _ =>
      apply h.updateCall
      exact trivial
  | leave hpc => exact h.leave hinv hok hpc
  | lookupDestroy _ =>
      unfold Barrier.lookupDestroy
      split
      · exact h.frame rfl rfl rfl rfl (fun _ => .inl rfl)
          (destroyer_update fun v hv => by cases hv)
      · exact h.frame rfl rfl rfl rfl (fun _ => .inl rfl)
          (destroyer_update fun v hv => (DestroyPc.returned.inj hv).symm)
  | unlink _ =>
      exact h.frame rfl rfl rfl rfl (fun _ => .inl rfl)
        (destroyer_update fun v hv => by cases hv)
  | @destroy d _ => exact h.destroy hinv d

end Preservation

/-- Run lemma. -/
theorem CancelInv.reach {N : Nat} (hN : 1 ≤ N) {s : State} (h : (system N).Reach FewRounds s) :
    Inv N s ∧ CancelInv s := by
  refine h.invariant (I := fun s => Inv N s ∧ CancelInv s) ?_ ?_
  · rintro s rfl
    exact ⟨Inv.create hN, CancelInv.create N⟩
  · rintro s a s' ⟨hinv, hcancel⟩ hok hst
    exact ⟨hinv.step hst, hcancel.step hinv hok hst⟩

/-! ## Counting the cancelled calls -/

/-- Counting entries is counting calls, as a call has one entry. -/
theorem countP_eq_ncard {l : List (CallId × Nat)} (h : (l.map Prod.fst).Nodup)
    (p : CallId × Nat → Bool) :
    l.countP p = {c | ∃ k, (c, k) ∈ l ∧ p (c, k) = true}.ncard := by
  have hsub : ((l.filter p).map Prod.fst).Nodup :=
    h.sublist (List.Sublist.map Prod.fst List.filter_sublist)
  have hset : {c | ∃ k, (c, k) ∈ l ∧ p (c, k) = true} =
      (((l.filter p).map Prod.fst).toFinset : Set CallId) := by
    ext c
    simp [List.mem_filter]
  rw [hset, Set.ncard_coe_finset, List.toFinset_card_of_nodup hsub, List.length_map,
    List.countP_eq_length_filter]

section Count

variable {N : Nat} {s : State}

/-- The calls of the current round that have not returned. -/
def Pending (s : State) : Set CallId :=
  {c | (c, s.rounds) ∈ s.arrivals ∧ (s.wait c).pc.isReturned = false}

/-- The calls that returned `-ECANCELED`. -/
def Cancelled (s : State) : Set CallId := {c | (s.wait c).pc = .returned (-ECANCELED)}

theorem CancelInv.returned (h : CancelInv s) {c : CallId} {k : Nat} {v : Int}
    (hk : (c, k) ∈ s.arrivals) (hpc : (s.wait c).pc = .returned v) : v = resultOf k s.rounds := by
  have hc := h.calls c
  rw [WakeOk, hpc] at hc
  exact hc k hk

/-- The cancelled calls are those of the current round. -/
theorem CancelInv.cancelled_iff (h : CancelInv s) (hinv : Inv N s) (c : CallId) :
    c ∈ Cancelled s ↔ (c, s.rounds) ∈ s.arrivals ∧ (s.wait c).pc.isReturned = true := by
  constructor
  · intro hpc
    have hpc : (s.wait c).pc = .returned (-ECANCELED) := hpc
    refine ⟨?_, by rw [hpc]; rfl⟩
    rcases hinv.returned hpc with ⟨hv, -⟩ | ⟨k, hk, -, -, -⟩
    · cases hv
    · have hres := h.returned hk hpc
      have hnlt : ¬ k < s.rounds := by
        intro hlt
        rw [resultOf, if_pos hlt] at hres
        cases hres
      have hle := hinv.round_le hk
      rwa [show k = s.rounds by omega] at hk
  · rintro ⟨hc, hret⟩
    cases hpc : (s.wait c).pc with
    | returned v =>
        have hres := h.returned hc hpc
        rw [resultOf, if_neg (lt_irrefl _)] at hres
        show (s.wait c).pc = .returned (-ECANCELED)
        rw [hpc, hres]
    | _ =>
        rw [hpc] at hret
        cases hret

theorem arrived_finite (s : State) : {c | ∃ k, (c, k) ∈ s.arrivals}.Finite := by
  refine Set.Finite.subset (s.arrivals.map Prod.fst).toFinset.finite_toSet ?_
  rintro c ⟨k, hk⟩
  simpa using ⟨k, hk⟩

/-- `waiting_count` is the number of calls cancelled and still to be cancelled. -/
theorem CancelInv.waitingCount_eq (h : CancelInv s) (hinv : Inv N s) :
    s.b.waitingCount = ((Cancelled s).ncard + (Pending s).ncard : Nat) := by
  have hcount := hinv.count s.rounds
  rw [if_neg (lt_irrefl _), if_pos rfl, arrivalsOf, countP_eq_ncard hinv.nodup] at hcount
  have hsplit : {c | ∃ k, (c, k) ∈ s.arrivals ∧ decide ((c, k).2 = s.rounds) = true} =
      Cancelled s ∪ Pending s := by
    ext c
    constructor
    · rintro ⟨k, hk, hround⟩
      obtain rfl : k = s.rounds := of_decide_eq_true hround
      by_cases hret : (s.wait c).pc.isReturned = true
      · exact .inl ((h.cancelled_iff hinv c).mpr ⟨hk, hret⟩)
      · exact .inr ⟨hk, Bool.eq_false_of_not_eq_true hret⟩
    · rintro (hc | hc)
      · exact ⟨s.rounds, ((h.cancelled_iff hinv c).mp hc).1, decide_eq_true rfl⟩
      · exact ⟨s.rounds, hc.1, decide_eq_true rfl⟩
  have hdisj : Disjoint (Cancelled s) (Pending s) := by
    rw [Set.disjoint_left]
    intro c hc hp
    have hret := ((h.cancelled_iff hinv c).mp hc).2
    rw [hp.2] at hret
    cases hret
  rw [← hcount, hsplit]
  congr 1
  refine Set.ncard_union_eq hdisj ?_ ?_
  · exact (arrived_finite s).subset fun c hc => ⟨s.rounds, ((h.cancelled_iff hinv c).mp hc).1⟩
  · exact (arrived_finite s).subset fun c hc => ⟨s.rounds, hc.1⟩

end Count

/-! ## Nobody is left behind -/

/-- The call whose own step this is. A signal is nobody's. -/
def Label.caller : Label → Option CallId
  | .lookupWait c | .arrive c | .prepareToWait c | .testIteration c | .testDestroyed c
  | .schedule c | .finishWait c | .leave c => some c
  | .signal _ | .lookupDestroy _ | .unlink _ | .destroy _ => none

/-- How many steps a call of a destroyed barrier is away from its return. -/
def WaitPc.remaining : WaitPc → Nat
  | .start => 8
  | .found => 7
  | .unlocked => 6
  | .scheduling => 5
  | .testIteration => 4
  | .testDestroyed => 3
  | .finishing => 2
  | .leaving => 1
  | .returned _ => 0

section Progress

variable {N : Nat} {s s' : State}

/-- A call that finds the barrier destroyed is refused, and is not counted. -/
theorem arrive_destroyed (hd : s.b.destroyed = true) (c : CallId) :
    ((arrive s c).wait c).pc = .returned (-EINVAL) ∧
    (arrive s c).b.waitingCount = s.b.waitingCount ∧ (arrive s c).arrivals = s.arrivals := by
  rw [arrive, arrivalSection, if_pos hd]
  exact ⟨setPc_pc _ _ _, rfl, rfl⟩

/-- On a destroyed barrier no call is blocked: it has a step, and is nearer to its
return after it. -/
theorem CancelInv.proceeds (h : CancelInv s) (hd : s.b.destroyed = true) {c : CallId}
    (hnot : (s.wait c).pc.isReturned = false) :
    ∃ a s', Step s a s' ∧ a.caller = some c := by
  cases hpc : (s.wait c).pc with
  | start => exact ⟨.lookupWait c, _, .lookupWait hpc, rfl⟩
  | found => exact ⟨.arrive c, _, .arrive hpc, rfl⟩
  | unlocked => exact ⟨.prepareToWait c, _, .prepareToWait hpc, rfl⟩
  | testIteration => exact ⟨.testIteration c, _, .testIteration hpc, rfl⟩
  | testDestroyed => exact ⟨.testDestroyed c, _, .testDestroyed hpc, rfl⟩
  | scheduling =>
      have hc := h.calls c
      rw [WakeOk, hpc] at hc
      refine ⟨.schedule c, _, .schedule hpc ?_, rfl⟩
      by_contra hi
      have hlive := (hc.2 (Bool.eq_true_of_not_eq_false hi)).2
      rw [hd] at hlive
      cases hlive
  | finishing => exact ⟨.finishWait c, _, .finishWait hpc, rfl⟩
  | leaving => exact ⟨.leave c, _, .leave hpc, rfl⟩
  | returned v =>
      rw [hpc] at hnot
      cases hnot

/-- A call of a destroyed barrier makes at most eight more steps. -/
theorem step_remaining (hd : s.b.destroyed = true) {a : Label} (hst : Step s a s') {c : CallId}
    (hc : a.caller = some c) : (s'.wait c).pc.remaining < (s.wait c).pc.remaining := by
  cases hst with
  | @lookupWait c' hpc =>
      obtain rfl : c' = c := Option.some.inj hc
      rw [hpc, lookupWait]
      split
      · rw [setPc_pc]
        decide
      · rw [setPc_pc]
        exact Nat.zero_lt_succ _
  | @arrive c' hpc =>
      obtain rfl : c' = c := Option.some.inj hc
      rw [hpc, (arrive_destroyed hd c').1]
      exact Nat.zero_lt_succ _
  | @prepareToWait c' hpc =>
      obtain rfl : c' = c := Option.some.inj hc
      rw [hpc]
      simp only [prepareToWait, Function.update_self]
      decide
  | @testIteration c' hpc =>
      obtain rfl : c' = c := Option.some.inj hc
      rw [hpc, testIteration, setPc_pc]
      split
      · decide
      · decide
  | @testDestroyed c' hpc =>
      obtain rfl : c' = c := Option.some.inj hc
      rw [hpc, testDestroyed, setPc_pc, if_pos hd]
      decide
  | @schedule c' hpc _ =>
      obtain rfl : c' = c := Option.some.inj hc
      rw [hpc, setPc_pc]
      decide
  | @finishWait c' hpc =>
      obtain rfl : c' = c := Option.some.inj hc
      rw [hpc]
      simp only [finishWait, Function.update_self]
      decide
  | @leave c' hpc =>
      obtain rfl : c' = c := Option.some.inj hc
      rw [hpc, leave, setPc_pc]
      exact Nat.zero_lt_succ _
  | signal => cases hc
  | lookupDestroy _ => cases hc
  | unlink _ => cases hc
  | destroy _ => cases hc

/-- The steps of others do not move a call. -/
theorem step_other {a : Label} (hst : Step s a s') {c : CallId} (hc : a.caller ≠ some c) :
    (s'.wait c).pc = (s.wait c).pc := by
  have hne : ∀ c', some c' ≠ some c → c ≠ c' := fun c' h e => h (congrArg some e.symm)
  cases hst with
  | lookupWait _ =>
      rw [lookupWait]
      split
      · exact setPc_pc_other _ _ (hne _ hc)
      · exact setPc_pc_other _ _ (hne _ hc)
  | arrive _ =>
      rw [arrive]
      split
      · exact setPc_pc_other _ _ (hne _ hc)
      · simp only [Function.update_of_ne (hne _ hc)]
        exact wakeUpAll_pc _ _
      · simp only [Function.update_of_ne (hne _ hc)]
  | prepareToWait _ => simp only [prepareToWait, Function.update_of_ne (hne _ hc)]
  | testIteration _ => exact setPc_pc_other _ _ (hne _ hc)
  | testDestroyed _ => exact setPc_pc_other _ _ (hne _ hc)
  | schedule _ _ => exact setPc_pc_other _ _ (hne _ hc)
  | @signal c' =>
      by_cases hcc : c = c'
      · subst hcc
        simp only [signal, Function.update_self]
      · simp only [signal, Function.update_of_ne hcc]
  | finishWait _ => simp only [finishWait, Function.update_of_ne (hne _ hc)]
  | leave _ => exact setPc_pc_other _ _ (hne _ hc)
  | lookupDestroy _ =>
      rw [lookupDestroy]
      split
      · rfl
      · rfl
  | unlink _ => rfl
  | destroy _ =>
      show ((if _ then _ else _ : CallId → WaitCall) c).pc = _
      split
      · exact wakeUpAll_pc _ _
      · rfl

/-- `destroyed` is never reset. -/
theorem step_destroyed (hd : s.b.destroyed = true) {a : Label} (hst : Step s a s') :
    s'.b.destroyed = true := by
  cases hst with
  | lookupWait _ =>
      rw [lookupWait]
      split
      · exact hd
      · exact hd
  | arrive _ =>
      rw [arrive, arrivalSection, if_pos hd]
      exact hd
  | lookupDestroy _ =>
      rw [lookupDestroy]
      split
      · exact hd
      · exact hd
  | destroy _ => rfl
  | _ => exact hd

end Progress

/-- **Destroy reports exactly the cancelled waiters.** In every run in which fewer
than `2 ^ 32` rounds complete during a call:

* what a destroyer that ran its last section returned is the number of calls that
  returned `-ECANCELED`, plus those of the last round still on their way out; once
  every call that arrived has returned, it is the number of cancelled calls;
* a call that arrived in a completed round returns 0, one of the last round
  `-ECANCELED`; a call that did not arrive returns `-EINVAL`;
* a call that takes the lock after `destroyed` is set returns `-EINVAL` and leaves
  `waiting_count` alone;
* nobody is left behind: on a destroyed barrier every call that has not returned
  has a step, which brings it nearer to its return, and nobody else moves it. -/
theorem destroy_reports_cancelled {N : Nat} (hN : 1 ≤ N) {s : State}
    (h : (system N).Reach FewRounds s) :
    (∀ d v, s.destroyer d = .returned v → v ≠ -EINVAL →
      s.b.destroyed = true ∧ (Cancelled s).Finite ∧
      v = ((Cancelled s).ncard + (Pending s).ncard : Nat) ∧
      ((∀ c k, (c, k) ∈ s.arrivals → (s.wait c).pc.isReturned = true) →
        v = (Cancelled s).ncard)) ∧
    (∀ c v, (s.wait c).pc = .returned v →
      (∀ k, (c, k) ∈ s.arrivals → v = if k < s.rounds then 0 else -ECANCELED) ∧
      ((∀ k, (c, k) ∉ s.arrivals) → v = -EINVAL)) ∧
    (s.b.destroyed = true → ∀ c, (s.wait c).pc = .found →
      ((arrive s c).wait c).pc = .returned (-EINVAL) ∧
      (arrive s c).b.waitingCount = s.b.waitingCount ∧ (arrive s c).arrivals = s.arrivals) ∧
    (s.b.destroyed = true → ∀ c, (s.wait c).pc.isReturned = false →
      (∃ a s', Step s a s' ∧ a.caller = some c) ∧
      ∀ a s', Step s a s' → s'.b.destroyed = true ∧
        (a.caller = some c → (s'.wait c).pc.remaining < (s.wait c).pc.remaining) ∧
        (a.caller ≠ some c → (s'.wait c).pc = (s.wait c).pc)) := by
  obtain ⟨hinv, hcancel⟩ := CancelInv.reach hN h
  refine ⟨fun d v hd hv => ?_, fun c v hpc => ⟨fun k hk => hcancel.returned hk hpc, fun hno => ?_⟩,
    fun hd c _ => arrive_destroyed hd c, fun hd c hnot => ⟨hcancel.proceeds hd hnot, ?_⟩⟩
  · rcases hcancel.destroyer d v hd with he | ⟨hdes, hwc⟩
    · exact absurd he hv
    · have hcount := hcancel.waitingCount_eq hinv
      have hfinite : (Cancelled s).Finite :=
        (arrived_finite s).subset fun c hc => ⟨s.rounds, ((hcancel.cancelled_iff hinv c).mp hc).1⟩
      refine ⟨hdes, hfinite, hwc.trans hcount, fun hall => ?_⟩
      have hnone : Pending s = ∅ := by
        ext c
        refine ⟨fun hc => ?_, fun hc => hc.elim⟩
        have hret := hall c s.rounds hc.1
        rw [hc.2] at hret
        cases hret
      rw [hwc, hcount, hnone, Set.ncard_empty, Nat.add_zero]
  · rcases hinv.returned hpc with ⟨hv, -⟩ | ⟨k, hk, -⟩
    · exact hv
    · exact absurd hk (hno k)
  · intro a s' hst
    exact ⟨step_destroyed hd hst, step_remaining hd hst, step_other hst⟩

theorem fewRounds_of_lt {s : State} (h : s.rounds < 2 ^ 32) (a : Label) : FewRounds s a :=
  fun _ r _ _ => lt_of_lt_of_le h (Nat.le_add_left _ r)

/-- A barrier of size 2: call 1 released call 0, which sleeps still; call 2 has
arrived in the next round, and call 3 has found the barrier. -/
def beforeDestroy : State :=
  let s := prepareToWait (arrive (lookupWait (State.create 2) 0) 0) 0
  let s := arrive (lookupWait s 1) 1
  lookupWait (arrive (lookupWait s 2) 2) 3

theorem beforeDestroy_reach : (system 2).Reach FewRounds beforeDestroy :=
  .step (.lookupWait 3)
    (.step (.arrive 2)
      (.step (.lookupWait 2)
        (.step (.arrive 1)
          (.step (.lookupWait 1)
            (.step (.prepareToWait 0)
              (.step (.arrive 0)
                (.step (.lookupWait 0) (.init rfl) (fewRounds_of_lt (by decide) _)
                  (.lookupWait rfl))
                (fewRounds_of_lt (by decide) _) (.arrive rfl))
              (fewRounds_of_lt (by decide) _) (.prepareToWait rfl))
            (fewRounds_of_lt (by decide) _) (.lookupWait rfl))
          (fewRounds_of_lt (by decide) _) (.arrive rfl))
        (fewRounds_of_lt (by decide) _) (.lookupWait rfl))
      (fewRounds_of_lt (by decide) _) (.arrive rfl))
    (fewRounds_of_lt (by decide) _) (.lookupWait rfl)

/-- The barrier is destroyed, call 3 takes the lock, and 0 and 2 run to their ends. -/
def afterDestroy : State :=
  let s := arrive (destroy (unlink (lookupDestroy beforeDestroy 0) 0) 0) 3
  let s := leave (finishWait (testIteration s 0) 0) 0
  leave (finishWait (testDestroyed (testIteration (prepareToWait s 2) 2) 2) 2) 2

theorem afterDestroy_reach : (system 2).Reach FewRounds afterDestroy :=
  .step (.leave 2)
    (.step (.finishWait 2)
      (.step (.testDestroyed 2)
        (.step (.testIteration 2)
          (.step (.prepareToWait 2)
            (.step (.leave 0)
              (.step (.finishWait 0)
                (.step (.testIteration 0)
                  (.step (.arrive 3)
                    (.step (.destroy 0)
                      (.step (.unlink 0)
                        (.step (.lookupDestroy 0) beforeDestroy_reach
                          (fewRounds_of_lt (by decide) _) (.lookupDestroy rfl))
                        (fewRounds_of_lt (by decide) _) (.unlink rfl))
                      (fewRounds_of_lt (by decide) _) (.destroy rfl))
                    (fewRounds_of_lt (by decide) _) (.arrive rfl))
                  (fewRounds_of_lt (by decide) _) (.testIteration rfl))
                (fewRounds_of_lt (by decide) _) (.finishWait rfl))
              (fewRounds_of_lt (by decide) _) (.leave rfl))
            (fewRounds_of_lt (by decide) _) (.prepareToWait rfl))
          (fewRounds_of_lt (by decide) _) (.testIteration rfl))
        (fewRounds_of_lt (by decide) _) (.testDestroyed rfl))
      (fewRounds_of_lt (by decide) _) (.finishWait rfl))
    (fewRounds_of_lt (by decide) _) (.leave rfl)

/-- Call 0 returned 0, call 2 `-ECANCELED`, call 3 `-EINVAL`; the destroyer returned
1, the number of cancelled calls. -/
theorem afterDestroy_reports :
    (afterDestroy.wait 0).pc = .returned 0 ∧ (afterDestroy.wait 2).pc = .returned (-ECANCELED) ∧
    (afterDestroy.wait 3).pc = .returned (-EINVAL) ∧ afterDestroy.destroyer 0 = .returned 1 ∧
    (1 : Int) = (Cancelled afterDestroy).ncard := by
  refine ⟨rfl, rfl, rfl, rfl, ?_⟩
  refine ((destroy_reports_cancelled (by decide) afterDestroy_reach).1 0 1 rfl (by decide)).2.2.2 ?_
  intro c k hk
  have hmem : (c, k) ∈ [(0, 0), (1, 0), (2, 1)] := hk
  simp only [List.mem_cons, Prod.mk.injEq, List.not_mem_nil, or_false] at hmem
  rcases hmem with ⟨rfl, -⟩ | ⟨rfl, -⟩ | ⟨rfl, -⟩
  · rfl
  · rfl
  · rfl

end LinuxHacks.Barrier
