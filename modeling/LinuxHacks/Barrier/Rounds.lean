import Mathlib.Tactic
import LinuxHacks.Barrier.Object

/-!
# Barrier group safety

`Inv` ties the counters of the barrier to the history: `barrier_iteration` is
the number of completed rounds, every completed round has exactly `N` recorded
arrivals, the current one has `waiting_count` of them. `CallOk` says, for each
program point, what the call's own record looks like; its last clauses are the
safety argument: a call gets out of the sleep loop, and returns 0, only when
its round is over (or, for the first, the barrier destroyed).

The argument uses `barrier_iteration ≠ my_iteration → round over`, which wrapping
of the counter cannot break; no bound on the number of rounds is assumed.
-/

namespace LinuxHacks.Barrier

open LinuxHacks.Lib

/-- The program points by what they say about the history. -/
inductive Stage where
  /-- Before the arrival section. -/
  | outside
  /-- Arrived, in the sleep loop. -/
  | inside
  /-- Out of the loop, not yet returned. -/
  | exiting
  | returned (value : Int)

def WaitPc.stage : WaitPc → Stage
  | .start | .found => .outside
  | .unlocked | .testIteration | .testDestroyed | .scheduling => .inside
  | .finishing | .leaving => .exiting
  | .returned v => .returned v

/-- The record of a call at each stage. -/
def CallOk (destroyed : Bool) (rounds : Nat) (arrivals : List (CallId × Nat))
    (c : CallId) (w : WaitCall) : Prop :=
  match w.pc.stage with
  | .outside => ∀ r, (c, r) ∉ arrivals
  | .inside => ∃ r, (c, r) ∈ arrivals ∧ w.myIteration = BitVec.ofNat 32 r
  | .exiting =>
      ∃ r, (c, r) ∈ arrivals ∧ w.myIteration = BitVec.ofNat 32 r ∧
        (destroyed = true ∨ r < rounds)
  | .returned v =>
      (v = -EINVAL ∧ ∀ r, (c, r) ∉ arrivals) ∨
      ∃ r, (c, r) ∈ arrivals ∧ w.myIteration = BitVec.ofNat 32 r ∧
        (destroyed = true ∨ r < rounds) ∧ (v = 0 → r < rounds)

/-- The record of a call survives steps of others: rounds go up, `destroyed`
is never reset, and the history grows by other calls. -/
theorem CallOk.mono {d d' : Bool} {n n' : Nat} {l l' : List (CallId × Nat)} {c : CallId}
    {w w' : WaitCall} (hd : d = true → d' = true) (hn : n ≤ n')
    (hl : ∀ r, (c, r) ∈ l' ↔ (c, r) ∈ l)
    (hpc : w'.pc.stage = w.pc.stage) (hmy : w'.myIteration = w.myIteration)
    (h : CallOk d n l c w) : CallOk d' n' l' c w' := by
  have hexit : ∀ r, d = true ∨ r < n → d' = true ∨ r < n' :=
    fun r h => h.imp hd (fun h => by omega)
  unfold CallOk at h ⊢
  rw [hpc, hmy]
  cases hst : w.pc.stage with
  | outside =>
      rw [hst] at h
      exact fun r hr => h r ((hl r).mp hr)
  | inside =>
      rw [hst] at h
      obtain ⟨r, hr, hm⟩ := h
      exact ⟨r, (hl r).mpr hr, hm⟩
  | exiting =>
      rw [hst] at h
      obtain ⟨r, hr, hm, he⟩ := h
      exact ⟨r, (hl r).mpr hr, hm, hexit r he⟩
  | returned v =>
      rw [hst] at h
      rcases h with ⟨hv, h⟩ | ⟨r, hr, hm, he, hz⟩
      · exact Or.inl ⟨hv, fun r hr => h r ((hl r).mp hr)⟩
      · exact Or.inr ⟨r, (hl r).mpr hr, hm, hexit r he, fun h0 => lt_of_lt_of_le (hz h0) hn⟩

/-- The number of recorded arrivals of round `k`. -/
def arrivalsOf (s : State) (k : Nat) : Nat := s.arrivals.countP fun a => decide (a.2 = k)

structure Inv (N : Nat) (s : State) : Prop where
  size : s.b.initialCount = N
  waiting : 0 ≤ s.b.waitingCount ∧ s.b.waitingCount < N
  iteration : s.b.barrierIteration = BitVec.ofNat 32 s.rounds
  count : ∀ k, (arrivalsOf s k : Int) =
    if k < s.rounds then (N : Int) else if k = s.rounds then s.b.waitingCount else 0
  nodup : (s.arrivals.map Prod.fst).Nodup
  calls : ∀ c, CallOk s.b.destroyed s.rounds s.arrivals c (s.wait c)

theorem Inv.create {N : Nat} (hN : 1 ≤ N) : Inv N (State.create N) where
  size := rfl
  waiting := ⟨le_refl 0, by simp [State.create, BarrierT.create]; omega⟩
  iteration := rfl
  count := fun k => by
    by_cases hk : k = 0 <;> simp [arrivalsOf, State.create, BarrierT.create, hk]
  nodup := List.nodup_nil
  calls := fun c r hr => by cases hr

section Preservation

variable {N : Nat} {s s' : State}

/-- A step that leaves the counters and the history alone keeps the invariant
if the calls it touches keep their record. -/
theorem Inv.frame (h : Inv N s)
    (hsize : s'.b.initialCount = s.b.initialCount)
    (hwait : s'.b.waitingCount = s.b.waitingCount)
    (hiter : s'.b.barrierIteration = s.b.barrierIteration)
    (hdes : s.b.destroyed = true → s'.b.destroyed = true)
    (hrounds : s'.rounds = s.rounds) (harr : s'.arrivals = s.arrivals)
    (hcalls : ∀ c, ((s'.wait c).pc.stage = (s.wait c).pc.stage ∧
        (s'.wait c).myIteration = (s.wait c).myIteration) ∨
      CallOk s.b.destroyed s.rounds s.arrivals c (s'.wait c)) : Inv N s' where
  size := by rw [hsize, h.size]
  waiting := by rw [hwait]; exact h.waiting
  iteration := by rw [hiter, hrounds, h.iteration]
  count := fun k => by
    rw [hrounds, hwait, arrivalsOf, harr]
    exact h.count k
  nodup := by rw [harr]; exact h.nodup
  calls := fun c => by
    have hl : ∀ r, (c, r) ∈ s'.arrivals ↔ (c, r) ∈ s.arrivals := fun r => by rw [harr]
    rcases hcalls c with ⟨hpc, hmy⟩ | hc
    · exact (h.calls c).mono hdes (le_of_eq hrounds.symm) hl hpc hmy
    · exact hc.mono hdes (le_of_eq hrounds.symm) hl rfl rfl

/-- Reference counting and freeing are outside the invariant. -/
theorem Inv.setRefcount (h : Inv N s) (refcount : Int) (frees : Nat) :
    Inv N { s with b := { s.b with refcount := refcount }, frees := frees } :=
  h.frame rfl rfl rfl id rfl rfl fun _ => Or.inl ⟨rfl, rfl⟩

/-- Moving one call to another program point. -/
theorem Inv.setPc (h : Inv N s) {c : CallId} {pc : WaitPc}
    (hc : CallOk s.b.destroyed s.rounds s.arrivals c { s.wait c with pc := pc }) :
    Inv N (s.setPc c pc) := by
  refine h.frame rfl rfl rfl id rfl rfl fun c' => ?_
  by_cases hcc : c' = c
  · subst hcc
    right
    simpa [State.setPc] using hc
  · left
    simp [State.setPc, hcc]

theorem Inv.outside (h : Inv N s) {c : CallId} (hpc : (s.wait c).pc.stage = .outside) :
    ∀ r, (c, r) ∉ s.arrivals := by
  have hc := h.calls c
  unfold CallOk at hc
  rwa [hpc] at hc

theorem Inv.inside (h : Inv N s) {c : CallId} (hpc : (s.wait c).pc.stage = .inside) :
    ∃ r, (c, r) ∈ s.arrivals ∧ (s.wait c).myIteration = BitVec.ofNat 32 r := by
  have hc := h.calls c
  unfold CallOk at hc
  rwa [hpc] at hc

theorem Inv.exiting (h : Inv N s) {c : CallId} (hpc : (s.wait c).pc.stage = .exiting) :
    ∃ r, (c, r) ∈ s.arrivals ∧ (s.wait c).myIteration = BitVec.ofNat 32 r ∧
      (s.b.destroyed = true ∨ r < s.rounds) := by
  have hc := h.calls c
  unfold CallOk at hc
  rwa [hpc] at hc

theorem Inv.returned (h : Inv N s) {c : CallId} {v : Int} (hpc : (s.wait c).pc = .returned v) :
    (v = -EINVAL ∧ ∀ r, (c, r) ∉ s.arrivals) ∨
    ∃ r, (c, r) ∈ s.arrivals ∧ (s.wait c).myIteration = BitVec.ofNat 32 r ∧
      (s.b.destroyed = true ∨ r < s.rounds) ∧ (v = 0 → r < s.rounds) := by
  have hc := h.calls c
  unfold CallOk at hc
  rwa [show (s.wait c).pc.stage = .returned v by rw [hpc]; rfl] at hc

/-- A recorded round is never ahead of the barrier. -/
theorem Inv.round_le (h : Inv N s) {c : CallId} {r : Nat} (hr : (c, r) ∈ s.arrivals) :
    r ≤ s.rounds := by
  by_contra hlt
  have hpos : 0 < arrivalsOf s r := List.countP_pos_iff.mpr ⟨(c, r), hr, by simp⟩
  have hcount := h.count r
  rw [if_neg (by omega), if_neg (by omega)] at hcount
  omega

/-- The only inference drawn from the iteration counter: a different value
means that the call's round is over. -/
theorem Inv.round_over (h : Inv N s) {c : CallId} {r : Nat} (hr : (c, r) ∈ s.arrivals)
    (hmy : (s.wait c).myIteration = BitVec.ofNat 32 r)
    (hne : s.b.barrierIteration ≠ (s.wait c).myIteration) : r < s.rounds := by
  rcases Nat.lt_or_eq_of_le (h.round_le hr) with hlt | heq
  · exact hlt
  · rw [hmy, h.iteration, heq] at hne
    exact absurd rfl hne

theorem Inv.lookupWait (h : Inv N s) {c : CallId} (hpc : (s.wait c).pc = .start) :
    Inv N (lookupWait s c) := by
  have hc : ∀ r, (c, r) ∉ s.arrivals := h.outside (by rw [hpc]; rfl)
  unfold Barrier.lookupWait
  split
  · exact (h.setRefcount (s.b.refcount + 1) s.frees).setPc hc
  · exact h.setPc (Or.inl ⟨rfl, hc⟩)

theorem arrivalsOf_append (s : State) (a : CallId × Nat) (k : Nat) :
    (s.arrivals ++ [a]).countP (fun a => decide (a.2 = k)) =
      arrivalsOf s k + if a.2 = k then 1 else 0 := by
  rw [List.countP_append, arrivalsOf]
  simp [List.countP_singleton]

theorem mem_append_other {l : List (CallId × Nat)} {c c' : CallId} {n r : Nat} (hcc : c' ≠ c) :
    (c', r) ∈ l ++ [(c, n)] ↔ (c', r) ∈ l := by
  simp [hcc]

theorem nodup_append_call {l : List (CallId × Nat)} {c : CallId} {n : Nat}
    (h : (l.map Prod.fst).Nodup) (hc : ∀ r, (c, r) ∉ l) :
    ((l ++ [(c, n)]).map Prod.fst).Nodup := by
  rw [List.map_append, List.nodup_append]
  refine ⟨h, List.nodup_singleton c, ?_⟩
  intro a ha b hb hab
  simp only [List.map_cons, List.map_nil, List.mem_singleton] at hb
  obtain ⟨⟨a', r⟩, hmem, rfl⟩ := List.mem_map.mp ha
  have hac : a' = c := by rw [← hb, ← hab]
  exact hc r (hac ▸ hmem)

theorem wakeUpAll_stage (wait : CallId → WaitCall) (c : CallId) :
    (wakeUpAll wait c).pc.stage = (wait c).pc.stage ∧
    (wakeUpAll wait c).myIteration = (wait c).myIteration := by
  unfold wakeUpAll
  split <;> exact ⟨rfl, rfl⟩

/-- The arrival section: the barrier may be destroyed, the group may be
complete, or the call goes to sleep. -/
theorem Inv.arrive (h : Inv N s) {c : CallId} (hpc : (s.wait c).pc = .found) :
    Inv N (arrive s c) := by
  have hc : ∀ r, (c, r) ∉ s.arrivals := h.outside (by rw [hpc]; rfl)
  have hmem : (c, s.rounds) ∈ s.arrivals ++ [(c, s.rounds)] := by simp
  have hw := h.waiting
  unfold Barrier.arrive arrivalSection leaveBarrier
  by_cases hd : s.b.destroyed = true
  · rw [if_pos hd]
    exact (h.setRefcount (s.b.refcount - 1)
      (s.frees + (decide (s.b.refcount - 1 = 0) && s.b.destroyed).toNat)).setPc
        (Or.inl ⟨rfl, hc⟩)
  · rw [if_neg hd]
    by_cases hfull : s.b.waitingCount + 1 = s.b.initialCount
    · simp only [hfull, if_true]
      refine ⟨h.size, ⟨le_refl 0, by simp only; omega⟩, ?_, fun k => ?_,
        nodup_append_call h.nodup hc, fun c' => ?_⟩
      · simp only [h.iteration]
        exact (BitVec.ofNat_add s.rounds 1).symm
      · have hk := h.count k
        have hs := h.size
        simp only [arrivalsOf]
        rw [arrivalsOf_append]
        push_cast
        rw [hk]
        split_ifs <;> omega
      · by_cases hcc : c' = c
        · subst hcc
          simp only [Function.update_self]
          exact Or.inr ⟨s.rounds, hmem, h.iteration, Or.inr (by omega), fun _ => by omega⟩
        · have hwake := wakeUpAll_stage s.wait c'
          refine (h.calls c').mono id (by simp) (fun r => mem_append_other hcc) ?_ ?_
          · simpa [hcc] using hwake.1
          · simpa [hcc] using hwake.2
    · simp only [hfull, if_false]
      refine ⟨h.size, ⟨by simp only; omega, by have := h.size; simp only; omega⟩,
        h.iteration, fun k => ?_, nodup_append_call h.nodup hc, fun c' => ?_⟩
      · have hk := h.count k
        simp only [arrivalsOf]
        rw [arrivalsOf_append]
        push_cast
        rw [hk]
        split_ifs <;> omega
      · by_cases hcc : c' = c
        · subst hcc
          simp only [Function.update_self]
          exact ⟨s.rounds, hmem, h.iteration⟩
        · refine (h.calls c').mono id (le_refl _) (fun r => mem_append_other hcc) ?_ ?_
          · simp [hcc]
          · simp [hcc]

theorem Inv.testIteration (h : Inv N s) {c : CallId} (hpc : (s.wait c).pc = .testIteration) :
    Inv N (testIteration s c) := by
  obtain ⟨r, hr, hmy⟩ := h.inside (by rw [hpc]; rfl)
  unfold Barrier.testIteration
  apply h.setPc
  split
  · exact ⟨r, hr, hmy⟩
  · rename_i hne
    exact ⟨r, hr, hmy, Or.inr (h.round_over hr hmy hne)⟩

theorem Inv.testDestroyed (h : Inv N s) {c : CallId} (hpc : (s.wait c).pc = .testDestroyed) :
    Inv N (testDestroyed s c) := by
  obtain ⟨r, hr, hmy⟩ := h.inside (by rw [hpc]; rfl)
  unfold Barrier.testDestroyed
  apply h.setPc
  split
  · rename_i hd
    exact ⟨r, hr, hmy, Or.inl hd⟩
  · exact ⟨r, hr, hmy⟩

theorem Inv.leave (h : Inv N s) {c : CallId} (hpc : (s.wait c).pc = .leaving) :
    Inv N (leave s c) := by
  obtain ⟨r, hr, hmy, hexit⟩ := h.exiting (by rw [hpc]; rfl)
  unfold Barrier.leave leaveSection leaveBarrier
  refine (h.setRefcount (s.b.refcount - 1)
    (s.frees + (decide (s.b.refcount - 1 = 0) && s.b.destroyed).toNat)).setPc ?_
  refine Or.inr ⟨r, hr, hmy, hexit, fun hzero => ?_⟩
  by_contra hlt
  have heq : s.b.barrierIteration = (s.wait c).myIteration := by
    by_contra hne
    exact hlt (h.round_over hr hmy hne)
  rw [if_pos heq] at hzero
  cases hzero

theorem Inv.destroy (h : Inv N s) (d : CallId) : Inv N (destroy s d) := by
  unfold Barrier.destroy destroySection leaveBarrier
  refine h.frame rfl rfl rfl (fun _ => rfl) rfl rfl fun c => Or.inl ?_
  simp only
  split
  · exact wakeUpAll_stage s.wait c
  · exact ⟨rfl, rfl⟩

/-- Steps that only touch the wait-queue state of one call, or move it between
program points with the same record. -/
theorem Inv.updateCall (h : Inv N s) {c : CallId} {w : WaitCall}
    (hc : CallOk s.b.destroyed s.rounds s.arrivals c w) :
    Inv N { s with wait := Function.update s.wait c w } := by
  refine h.frame rfl rfl rfl id rfl rfl fun c' => ?_
  by_cases hcc : c' = c
  · subst hcc
    right
    simpa using hc
  · left
    simp [hcc]

/-- Step lemma. -/
theorem Inv.step (h : Inv N s) {a : Label} (hst : Step s a s') : Inv N s' := by
  cases hst with
  | lookupWait hpc => exact h.lookupWait hpc
  | arrive hpc => exact h.arrive hpc
  | prepareToWait hpc => exact h.updateCall (h.inside (by rw [hpc]; rfl))
  | testIteration hpc => exact h.testIteration hpc
  | testDestroyed hpc => exact h.testDestroyed hpc
  | schedule hpc _ => exact h.setPc (h.inside (by rw [hpc]; rfl))
  | @signal c =>
      exact h.updateCall ((h.calls c).mono id (le_refl _) (fun _ => Iff.rfl) rfl rfl)
  | finishWait hpc => exact h.updateCall (h.exiting (by rw [hpc]; rfl))
  | leave hpc => exact h.leave hpc
  | lookupDestroy _ =>
      unfold Barrier.lookupDestroy
      split
      · exact h.frame rfl rfl rfl id rfl rfl fun c' => Or.inl ⟨rfl, rfl⟩
      · exact h.frame rfl rfl rfl id rfl rfl fun c' => Or.inl ⟨rfl, rfl⟩
  | unlink _ => exact h.frame rfl rfl rfl id rfl rfl fun c' => Or.inl ⟨rfl, rfl⟩
  | @destroy d _ => exact h.destroy d

end Preservation

/-- Run lemma: the invariant holds in every reachable state. -/
theorem Inv.reach {N : Nat} (hN : 1 ≤ N) {s : State}
    (h : (system N).Reach System.anyStep s) : Inv N s := by
  refine h.invariant ?_ ?_
  · rintro s rfl
    exact Inv.create hN
  · intro s a s' hinv _ hst
    exact hinv.step hst

/-! ## Group safety -/

section GroupSafety

variable {N : Nat} {s : State}

theorem Inv.returned_zero (h : Inv N s) {c : CallId} (hpc : (s.wait c).pc = .returned 0) :
    ∃ k, (c, k) ∈ s.arrivals ∧ (s.wait c).myIteration = BitVec.ofNat 32 k ∧ k < s.rounds := by
  rcases h.returned hpc with ⟨hv, -⟩ | ⟨r, hr, hmy, -, hz⟩
  · cases hv
  · exact ⟨r, hr, hmy, hz rfl⟩

/-- The `my_iteration` of every recorded call is its round. -/
theorem Inv.myIteration_eq (h : Inv N s) {c : CallId} {k : Nat} (hk : (c, k) ∈ s.arrivals) :
    (s.wait c).myIteration = BitVec.ofNat 32 k := by
  have unique : ∀ r, (c, r) ∈ s.arrivals → r = k := by
    intro r hr
    have hinj := List.inj_on_of_nodup_map h.nodup hr hk rfl
    exact congrArg Prod.snd hinj
  have hc := h.calls c
  unfold CallOk at hc
  split at hc
  · exact absurd hk (hc k)
  · obtain ⟨r, hr, hmy⟩ := hc
    rw [hmy, unique r hr]
  · obtain ⟨r, hr, hmy, -⟩ := hc
    rw [hmy, unique r hr]
  · rcases hc with ⟨-, hno⟩ | ⟨r, hr, hmy, -⟩
    · exact absurd hk (hno k)
    · rw [hmy, unique r hr]

/-- On a live barrier no call of the current round has returned. -/
theorem Inv.current_unreleased (h : Inv N s) (hd : s.b.destroyed = false) {c : CallId}
    (hc : (c, s.rounds) ∈ s.arrivals) (v : Int) : (s.wait c).pc ≠ .returned v := by
  intro hpc
  rcases h.returned hpc with ⟨-, hno⟩ | ⟨r, hr, -, hexit, -⟩
  · exact hno _ hc
  · have hrk : r = s.rounds := congrArg Prod.snd (List.inj_on_of_nodup_map h.nodup hr hc rfl)
    rcases hexit with hdes | hlt
    · rw [hd] at hdes
      cases hdes
    · omega

end GroupSafety

/-- The call has returned, with whatever value. -/
def WaitPc.isReturned : WaitPc → Bool
  | .returned _ => true
  | _ => false

/-- **Barrier group safety.** In every state reachable by any interleaving of
waits, destroys and spurious wake-ups on a barrier of size `N`:

* a call that has returned 0 arrived in some round `k`, its `my_iteration`, and
  exactly `N` calls have arrived in round `k` (as long as the counter has not
  wrapped, exactly `N` calls read that `my_iteration`);
* every call is recorded at most once, under the round its `my_iteration`
  names, and a round has `N` arrivals once it is over, `waiting_count` while it
  is current, none before;
* while the barrier is not destroyed, `0 ≤ waiting_count < N`, and it is the
  number of calls of the current round, none of which has returned. -/
theorem barrier_group_safety {N : Nat} (hN : 1 ≤ N) {s : State}
    (h : (system N).Reach System.anyStep s) :
    (∀ c, (s.wait c).pc = .returned 0 →
      ∃ k, (c, k) ∈ s.arrivals ∧ (s.wait c).myIteration = BitVec.ofNat 32 k ∧
        arrivalsOf s k = N ∧
        (s.rounds < 2 ^ 32 → s.arrivals.countP (fun a =>
          decide ((s.wait a.1).myIteration = (s.wait c).myIteration)) = N)) ∧
    ((s.arrivals.map Prod.fst).Nodup ∧
      (∀ c k, (c, k) ∈ s.arrivals → (s.wait c).myIteration = BitVec.ofNat 32 k) ∧
      ∀ k, (arrivalsOf s k : Int) =
        if k < s.rounds then (N : Int) else if k = s.rounds then s.b.waitingCount else 0) ∧
    (s.b.destroyed = false →
      0 ≤ s.b.waitingCount ∧ s.b.waitingCount < N ∧
      s.b.waitingCount = s.arrivals.countP (fun a =>
        decide (a.2 = s.rounds) && !(s.wait a.1).pc.isReturned)) := by
  have hinv := Inv.reach hN h
  refine ⟨fun c hpc => ?_, ⟨hinv.nodup, fun c k => hinv.myIteration_eq, hinv.count⟩, fun hd => ?_⟩
  · obtain ⟨k, hk, hmy, hlt⟩ := hinv.returned_zero hpc
    have hcount : arrivalsOf s k = N := by
      have := hinv.count k
      rw [if_pos hlt] at this
      exact_mod_cast this
    refine ⟨k, hk, hmy, hcount, fun hwrap => ?_⟩
    rw [← hcount, arrivalsOf]
    refine List.countP_congr fun a ha => ?_
    have hround := hinv.round_le (show (a.1, a.2) ∈ s.arrivals from ha)
    rw [hinv.myIteration_eq (show (a.1, a.2) ∈ s.arrivals from ha), hmy]
    simp only [decide_eq_true_eq]
    constructor
    · intro heq
      have htoNat := congrArg BitVec.toNat heq
      simp only [BitVec.toNat_ofNat] at htoNat
      rwa [Nat.mod_eq_of_lt (by omega), Nat.mod_eq_of_lt (by omega)] at htoNat
    · intro heq
      rw [heq]
  · refine ⟨hinv.waiting.1, hinv.waiting.2, ?_⟩
    have hcur := hinv.count s.rounds
    rw [if_neg (by omega), if_pos rfl] at hcur
    rw [← hcur, arrivalsOf]
    congr 1
    refine List.countP_congr fun a ha => ?_
    simp only [decide_eq_true_eq, Bool.and_eq_true, Bool.not_eq_true']
    constructor
    · intro hr
      refine ⟨hr, ?_⟩
      have hno := hinv.current_unreleased hd (c := a.1) (by rw [← hr]; exact ha)
      cases hpc : (s.wait a.1).pc with
      | returned v => exact absurd hpc (hno v)
      | _ => rfl
    · exact fun hr => hr.1

/-- Two calls on a barrier of size 2; the second completes the group. -/
def pairReleased : State :=
  arrive (lookupWait (arrive (lookupWait (State.create 2) 0) 0) 1) 1

theorem pairReleased_reach : (system 2).Reach System.anyStep pairReleased :=
  .step (.arrive 1)
    (.step (.lookupWait 1)
      (.step (.arrive 0)
        (.step (.lookupWait 0) (.init rfl) trivial (.lookupWait rfl))
        trivial (.arrive rfl))
      trivial (.lookupWait rfl))
    trivial (.arrive rfl)

/-- The second call returned 0, and its round has its two arrivals. -/
theorem pairReleased_group :
    (pairReleased.wait 1).pc = .returned 0 ∧
    ∃ k, (1, k) ∈ pairReleased.arrivals ∧ arrivalsOf pairReleased k = 2 := by
  refine ⟨rfl, ?_⟩
  obtain ⟨k, hk, -, hcount, -⟩ :=
    (barrier_group_safety (by decide) pairReleased_reach).1 1 rfl
  exact ⟨k, hk, hcount⟩

end LinuxHacks.Barrier
