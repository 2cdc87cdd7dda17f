import LinuxHacks.Barrier.Ids

/-!
# Destroying every barrier

`sys_barrierdestroy(-1)` runs `destroyall`: as long as the list has a head, call
`sys_barrierdestroy` with the head's identifier and start over. The nested call
looks the identifier up again, and it or a waiter on its way out frees the node
the loop came from; the loop never goes back to that node.

* `destroyallStep`: the code, one locked section a step, with the branches for a
  negative identifier and for a nested `destroyall`;
* `DestroyallStep`: interleaved with waiters that leave;
* `destroyall_refines`: the calls it makes are destroys of `registrySystem`;
* `LoopInv`: the barriers already destroyed and those still listed make up the
  list at the start;
* `destroyall_empties`: what the call returns and leaves behind.
-/

namespace LinuxHacks.Barrier

open LinuxHacks.Lib

/-- Where `destroyall` stands: `acc` is its `destroyall_return`, `callers` are
those of the calls it is nested in. -/
inductive DestroyallPc where
  | redo (acc : BitVec 32) (callers : List (BitVec 32))
  /-- About to call `sys_barrierdestroy(barrierID)`. -/
  | calling (barrierID : Int) (acc : BitVec 32) (callers : List (BitVec 32))
  | found (objPtr : Addr) (acc : BitVec 32) (callers : List (BitVec 32))
  | unlinked (objPtr : Addr) (acc : BitVec 32) (callers : List (BitVec 32))
  | returned (value : BitVec 32)
deriving DecidableEq, Repr

/-- The next section of `destroyall`; there is none after its return, and none
where the second `list_del` of a node faults. -/
def destroyallStep (r : Registry) : DestroyallPc → Option (Registry × DestroyallPc)
  | .redo acc callers =>
      match r.kernel.barrierList with
      | iter :: _ => some (r, .calling (r.barrier iter).bID.toInt acc callers)
      | [] =>
          match callers with
          | [] => some (r, .returned acc)
          | acc' :: callers => some (r, .redo (acc' + acc) callers)
  | .calling id acc callers =>
      if id = -1 then some (r, .redo 0 (acc :: callers))
      else if id < 0 then some (r, .redo (acc + BitVec.ofInt 32 (-EINVAL)) callers)
      else
        match getBarrierNode r.kernel id with
        | (none, _) => some (r, .redo (acc + BitVec.ofInt 32 (-EINVAL)) callers)
        | (some a, k) => some ({ r with kernel := k }, .found a acc callers)
  | .found a acc callers =>
      if a ∈ r.kernel.barrierList then some (r.listDel a, .unlinked a acc callers) else none
  | .unlinked a acc callers =>
      let (wc, b, freed) := destroySection (r.barrier a)
      some (r.store a b freed, .redo (acc + BitVec.ofInt 32 wc) callers)
  | .returned _ => none

section Redo

variable {r : Registry} {iter : Addr} {rest : List Addr} {acc acc' : BitVec 32}
  {callers : List (BitVec 32)}

theorem destroyallStep_cons (hl : r.list = iter :: rest) :
    destroyallStep r (.redo acc callers) =
      some (r, .calling (r.barrier iter).bID.toInt acc callers) := by
  simp only [destroyallStep, hl]

theorem destroyallStep_nil (hl : r.list = []) :
    destroyallStep r (.redo acc []) = some (r, .returned acc) := by
  simp only [destroyallStep, hl]

theorem destroyallStep_nested (hl : r.list = []) :
    destroyallStep r (.redo acc (acc' :: callers)) = some (r, .redo (acc' + acc) callers) := by
  simp only [destroyallStep, hl]

end Redo

/-- A waiter leaves the loop around `schedule()`, or the barrier. -/
def RegistryLabel.leaves : RegistryLabel → Bool
  | .wake _ _ | .leave _ _ => true
  | _ => false

inductive DestroyallLabel where
  | own
  | waiter (l : RegistryLabel)
deriving DecidableEq, Repr

inductive DestroyallStep :
    Registry × DestroyallPc → DestroyallLabel → Registry × DestroyallPc → Prop
  | own {r : Registry} {pc : DestroyallPc} {t : Registry × DestroyallPc} :
      destroyallStep r pc = some t → DestroyallStep (r, pc) .own t
  | waiter {r r' : Registry} {pc : DestroyallPc} {l : RegistryLabel} :
      l.leaves = true → RegistryStep r l r' → DestroyallStep (r, pc) (.waiter l) (r', pc)

/-- `sys_barrierdestroy(-1)` called in the state `r`. -/
def destroyallSystem (r : Registry) : System (Registry × DestroyallPc) DestroyallLabel where
  init t := t = (r, .redo 0 [])
  step := DestroyallStep

/-! ## As calls of `sys_barrierdestroy` -/

/-- The nested `sys_barrierdestroy` in flight. -/
def DestroyallPc.call : DestroyallPc → Option Call
  | .found objPtr _ _ => some (.destroyFound objPtr)
  | .unlinked objPtr _ _ => some (.destroyUnlinked objPtr)
  | _ => none

/-- The registry with the nested call among the others. -/
def asRegistry (t : Registry × DestroyallPc) : Registry :=
  { t.1 with calls := t.2.call.elim t.1.calls (· ::ₘ t.1.calls) }

theorem destroyall_own {r : Registry} {pc : DestroyallPc} {t : Registry × DestroyallPc}
    (h : destroyallStep r pc = some t) :
    asRegistry t = asRegistry (r, pc) ∨ ∃ l, RegistryStep (asRegistry (r, pc)) l (asRegistry t) := by
  cases pc with
  | redo acc callers =>
      left
      cases hl : r.list with
      | cons iter rest =>
          rw [destroyallStep_cons hl] at h
          cases h
          rfl
      | nil =>
          cases callers with
          | nil =>
              rw [destroyallStep_nil hl] at h
              cases h
              rfl
          | cons acc' callers =>
              rw [destroyallStep_nested hl] at h
              cases h
              rfl
  | calling id acc callers =>
      rw [destroyallStep] at h
      split at h
      · cases h
        exact .inl rfl
      · split at h
        · cases h
          exact .inl rfl
        · rename_i hneg
          split at h
          · cases h
            exact .inl rfl
          · rename_i a k hget
            cases h
            exact .inr ⟨_, .lookupDestroy (r := r) (by omega) hget⟩
  | found a acc callers =>
      rw [destroyallStep] at h
      split at h
      · rename_i ha
        cases h
        refine .inr ⟨.unlink a, ?_⟩
        have hst := RegistryStep.unlink (r := asRegistry (r, .found a acc callers)) (a := a)
          (Multiset.mem_cons_self _ _) ha
        have heq : ((asRegistry (r, .found a acc callers)).listDel a).move (.destroyFound a)
            (some (.destroyUnlinked a)) = asRegistry (r.listDel a, .unlinked a acc callers) := by
          simp [asRegistry, DestroyallPc.call, Registry.move, Registry.listDel]
        rw [← heq]
        exact hst
      · cases h
  | unlinked a acc callers =>
      rw [destroyallStep] at h
      cases h
      refine .inr ⟨.destroy a, ?_⟩
      have hst := RegistryStep.destroy (r := asRegistry (r, .unlinked a acc callers)) (a := a)
        (Multiset.mem_cons_self _ _)
      have heq : destroyAt (asRegistry (r, .unlinked a acc callers)) a =
          asRegistry (r.store a (destroySection (r.barrier a)).2.1
            (destroySection (r.barrier a)).2.2,
            .redo (acc + BitVec.ofInt 32 (destroySection (r.barrier a)).1) callers) := by
        show Registry.mk _ _ _ ((Call.destroyUnlinked a ::ₘ r.calls).erase _) _ = _
        rw [Multiset.erase_cons_head]
        rfl
      rw [heq] at hst
      exact hst
  | returned v => cases h

section Waiter

variable {r r' : Registry} {pc : DestroyallPc} {c : Call}

theorem mem_asRegistry (hc : c ∈ r.calls) : c ∈ (asRegistry (r, pc)).calls := by
  show c ∈ pc.call.elim r.calls (· ::ₘ r.calls)
  cases pc.call with
  | none => exact hc
  | some c' => exact Multiset.mem_cons_of_mem hc

/-- A call other than the nested one moves. -/
theorem asRegistry_move {next : Option Call} (hpc : pc.call ≠ some c) :
    (asRegistry (r, pc)).move c next = asRegistry (r.move c next, pc) := by
  have hcalls : ((asRegistry (r, pc)).move c next).calls = (asRegistry (r.move c next, pc)).calls := by
    rw [Registry.move, asRegistry, asRegistry, Registry.move]
    dsimp only
    cases hcall : pc.call with
    | none => rfl
    | some c' =>
        have hne : c' ≠ c := fun e => hpc (by rw [hcall, e])
        simp only [Option.elim_some, Multiset.erase_cons_tail _ hne]
        cases next with
        | none => rfl
        | some c'' => exact Multiset.cons_swap c'' c' _
  show Registry.mk _ _ _ ((asRegistry (r, pc)).move c next).calls _ = _
  rw [hcalls]
  rfl

theorem destroyall_waiter {l : RegistryLabel} (hl : l.leaves = true) (hst : RegistryStep r l r') :
    RegistryStep (asRegistry (r, pc)) l (asRegistry (r', pc)) := by
  have hnested : ∀ a my, pc.call ≠ some (.sleeping a my) ∧ pc.call ≠ some (.woken a my) := by
    intro a my
    cases pc <;> simp [DestroyallPc.call]
  cases hst with
  | @wake a my hc hloop =>
      rw [← asRegistry_move (hnested a my).1]
      exact .wake (mem_asRegistry hc) hloop
  | @leave a my hc =>
      have heq : leaveFrom (asRegistry (r, pc)) a my = asRegistry (leaveFrom r a my, pc) :=
        asRegistry_move (r := r.store a (leaveSection (r.barrier a) my).2.1
          (leaveSection (r.barrier a) my).2.2) (hnested a my).2
      rw [← heq]
      exact .leave (mem_asRegistry hc)
  | _ => cases hl

end Waiter

/-- **Destroy-all is a sequence of destroys.** With the nested calls counted among
the calls in flight, every state `sys_barrierdestroy(-1)` goes through is a state
of the registry. -/
theorem destroyall_refines {r : Registry} (h : registrySystem.Reach System.anyStep r)
    {l : List ((Registry × DestroyallPc) × DestroyallLabel × (Registry × DestroyallPc))}
    {t : Registry × DestroyallPc} (p : (destroyallSystem r).Path (r, .redo 0 []) l t) :
    registrySystem.Reach System.anyStep (asRegistry t) := by
  refine p.invariant (I := fun t => registrySystem.Reach System.anyStep (asRegistry t))
    (fun t a t' ht hst => ?_) h
  cases hst with
  | @own r pc t' hown =>
      rcases destroyall_own hown with heq | ⟨l, hst⟩
      · rw [heq]
        exact ht
      · exact .step l ht trivial hst
  | waiter hl hst => exact .step _ ht trivial (destroyall_waiter hl hst)

/-! ## The loop -/

/-- The sum of `waiting_count` over the barriers of `l`. -/
def waiters (r : Registry) (l : List Addr) : Int :=
  (l.map fun a => (r.barrier a).waitingCount).sum

theorem waiters_append (r : Registry) (l : List Addr) (a : Addr) :
    waiters r (l ++ [a]) = waiters r l + (r.barrier a).waitingCount := by
  simp [waiters]

/-- Where the loop stands with `left` still to destroy and `acc` added up. -/
def PcOk (r : Registry) (left : List Addr) (acc : BitVec 32) : DestroyallPc → Prop
  | .redo acc' callers => acc' = acc ∧ callers = [] ∧ r.list = left
  | .calling id acc' callers => acc' = acc ∧ callers = [] ∧ r.list = left ∧
      ∃ a rest, left = a :: rest ∧ id = (r.barrier a).bID.toInt
  | .found a acc' callers => acc' = acc ∧ callers = [] ∧ r.list = left ∧
      ∃ rest, left = a :: rest
  | .unlinked a acc' callers => acc' = acc ∧ callers = [] ∧ left = a :: r.list
  | .returned v => v = acc ∧ left = [] ∧ r.list = []

/-- Since the call started in `r₀`, the barriers of `done` have been destroyed. -/
structure LoopInv (r₀ : Registry) (t : Registry × DestroyallPc) : Prop where
  waiting : ∀ a, (t.1.barrier a).waitingCount = (r₀.barrier a).waitingCount
  bID : ∀ a, (t.1.barrier a).bID = (r₀.barrier a).bID
  split : ∃ done left, r₀.list = done ++ left ∧ (∀ a ∈ done, (t.1.barrier a).destroyed = true) ∧
    PcOk t.1 left (BitVec.ofInt 32 (waiters r₀ done)) t.2

/-- What a waiter has to do still. -/
def Call.remaining : Call → Nat
  | .sleeping _ _ => 2
  | .woken _ _ => 1
  | _ => 0

def Registry.remaining (r : Registry) : Nat := (r.calls.map Call.remaining).sum

/-- The steps left, at most. -/
def rank (t : Registry × DestroyallPc) : Nat :=
  t.1.remaining +
    match t.2 with
    | .redo _ _ => 4 * t.1.list.length + 1
    | .calling _ _ _ => 4 * t.1.list.length
    | .found _ _ _ => 4 * t.1.list.length - 1
    | .unlinked _ _ _ => 4 * t.1.list.length + 2
    | .returned _ => 0

theorem remaining_move {r : Registry} {c : Call} {next : Option Call} (hc : c ∈ r.calls) :
    (r.move c next).remaining + c.remaining = r.remaining + next.elim 0 Call.remaining := by
  have hold : r.remaining = c.remaining + ((r.calls.erase c).map Call.remaining).sum := by
    rw [Registry.remaining, ← Multiset.sum_cons, ← Multiset.map_cons, Multiset.cons_erase hc]
  cases next with
  | none =>
      show ((r.calls.erase c).map Call.remaining).sum + _ = _
      rw [hold]
      simp only [Option.elim]
      omega
  | some c' =>
      show ((c' ::ₘ r.calls.erase c).map Call.remaining).sum + _ = _
      rw [Multiset.map_cons, Multiset.sum_cons, hold]
      simp only [Option.elim]
      omega

/-- A waiter on its way out changes nothing the loop looks at. -/
theorem waiter_frame {r r' : Registry} {l : RegistryLabel} (hl : l.leaves = true)
    (hst : RegistryStep r l r') :
    r'.list = r.list ∧ r'.remaining < r.remaining ∧
      ∀ a, (r'.barrier a).waitingCount = (r.barrier a).waitingCount ∧
        (r'.barrier a).bID = (r.barrier a).bID ∧
        (r'.barrier a).destroyed = (r.barrier a).destroyed := by
  cases hst with
  | @wake a my hc _ =>
      refine ⟨rfl, ?_, fun _ => ⟨rfl, rfl, rfl⟩⟩
      have hrem : (r.move (.sleeping a my) (some (.woken a my))).remaining + 2 = r.remaining + 1 :=
        remaining_move hc
      omega
  | @leave a my hc =>
      refine ⟨rfl, ?_, fun b => ?_⟩
      · have hrem : (leaveFrom r a my).remaining + 1 = r.remaining + 0 :=
          remaining_move (r := r.store a (leaveSection (r.barrier a) my).2.1
            (leaveSection (r.barrier a) my).2.2) hc
        show (leaveFrom r a my).remaining < r.remaining
        omega
      · have hbar : (leaveFrom r a my).barrier b =
            (r.store a (leaveSection (r.barrier a) my).2.1 (leaveSection (r.barrier a) my).2.2).barrier
              b := rfl
        rw [hbar]
        by_cases hba : b = a
        · rw [hba, Registry.store_self]
          exact ⟨rfl, rfl, rfl⟩
        · rw [Registry.store_of_ne hba]
          exact ⟨rfl, rfl, rfl⟩
  | _ => cases hl

namespace LoopInv

variable {r₀ r : Registry} {pc : DestroyallPc}

theorem waiter (h : LoopInv r₀ (r, pc)) {r' : Registry} {l : RegistryLabel}
    (hl : l.leaves = true) (hst : RegistryStep r l r') :
    LoopInv r₀ (r', pc) ∧ rank (r', pc) < rank (r, pc) := by
  obtain ⟨hlist, hrem, hbar⟩ := waiter_frame hl hst
  refine ⟨⟨fun a => ?_, fun a => ?_, ?_⟩, ?_⟩
  · exact (hbar a).1.trans (h.waiting a)
  · exact (hbar a).2.1.trans (h.bID a)
  · obtain ⟨done, left, hsplit, hdone, hpc⟩ := h.split
    refine ⟨done, left, hsplit, fun a ha => ?_, ?_⟩
    · rw [(hbar a).2.2]
      exact hdone a ha
    · cases pc with
      | redo acc callers =>
          rw [PcOk, hlist]
          exact hpc
      | calling id acc callers =>
          obtain ⟨hacc, hcallers, hleft, a, rest, hcons, hid⟩ := hpc
          exact ⟨hacc, hcallers, hlist.trans hleft, a, rest, hcons, by rw [(hbar a).2.1, hid]⟩
      | found a acc callers =>
          rw [PcOk, hlist]
          exact hpc
      | unlinked a acc callers =>
          rw [PcOk, hlist]
          exact hpc
      | returned v =>
          rw [PcOk, hlist]
          exact hpc
  · rw [rank, rank, hlist]
    exact Nat.add_lt_add_right hrem _

/-- The loop goes on to the state `t`. -/
def Advances (r₀ r : Registry) (pc : DestroyallPc) (t : Registry × DestroyallPc) : Prop :=
  destroyallStep r pc = some t ∧ LoopInv r₀ t ∧ rank t < rank (r, pc)

theorem redo {acc : BitVec 32} {callers : List (BitVec 32)}
    (h : LoopInv r₀ (r, .redo acc callers)) : ∃ t, Advances r₀ r (.redo acc callers) t := by
  obtain ⟨done, left, hsplit, hdone, rfl, rfl, hleft⟩ := h.split
  have hlist : r.list = left := hleft
  cases left with
  | nil =>
      refine ⟨_, destroyallStep_nil hlist, ⟨h.waiting, h.bID, done, [], hsplit, hdone, ?_⟩, ?_⟩
      · exact ⟨rfl, rfl, hlist⟩
      · simp only [rank]
        omega
  | cons a rest =>
      refine ⟨_, destroyallStep_cons hlist,
        ⟨h.waiting, h.bID, done, a :: rest, hsplit, hdone, ?_⟩, ?_⟩
      · exact ⟨rfl, rfl, hlist, a, rest, rfl, rfl⟩
      · simp only [rank]
        omega

/-- The head is the first node the second lookup tests. -/
theorem calling {id : Int} {acc : BitVec 32} {callers : List (BitVec 32)}
    (h : LoopInv r₀ (r, .calling id acc callers))
    (hids : ∀ a ∈ r₀.list, 0 < (r₀.barrier a).bID.toInt) :
    ∃ t, Advances r₀ r (.calling id acc callers) t := by
  obtain ⟨done, left, hsplit, hdone, rfl, rfl, hleft, a, rest, rfl, hid⟩ := h.split
  have hlist : r.kernel.barrierList = a :: rest := hleft
  have hbID : (r.barrier a).bID = (r₀.barrier a).bID := h.bID a
  have hid' : id = (r.barrier a).bID.toInt := hid
  have hpos : 0 < id := by
    rw [hid', hbID]
    exact hids a (by rw [hsplit]; simp)
  have hsearch : searchLoop r.kernel id r.kernel.barrierList none = some a := by
    rw [hlist, searchLoop, if_pos (by rw [hid', BitVec.ofInt_toInt])]
  have hstep : destroyallStep r (.calling id (BitVec.ofInt 32 (waiters r₀ done)) []) =
      some ({ r with kernel := r.kernel.incRefcount a },
        .found a (BitVec.ofInt 32 (waiters r₀ done)) []) := by
    simp only [destroyallStep]
    rw [if_neg (by omega), if_neg (by omega), getBarrierNode, hsearch]
  have hbar : ∀ b, ((r.kernel.incRefcount a).barrier b).waitingCount =
        (r.barrier b).waitingCount ∧
      ((r.kernel.incRefcount a).barrier b).bID = (r.barrier b).bID ∧
      ((r.kernel.incRefcount a).barrier b).destroyed = (r.barrier b).destroyed := by
    intro b
    by_cases hba : b = a
    · rw [hba, Kernel.incRefcount_self]
      exact ⟨rfl, rfl, rfl⟩
    · rw [Kernel.incRefcount_of_ne _ hba]
      exact ⟨rfl, rfl, rfl⟩
  refine ⟨_, hstep, ⟨fun b => ?_, fun b => ?_, done, a :: rest, hsplit, fun b hb => ?_, ?_⟩, ?_⟩
  · exact (hbar b).1.trans (h.waiting b)
  · exact (hbar b).2.1.trans (h.bID b)
  · exact (hbar b).2.2.trans (hdone b hb)
  · exact ⟨rfl, rfl, hlist, rest, rfl⟩
  · show r.remaining + (4 * r.list.length - 1) < r.remaining + 4 * r.list.length
    rw [show r.list = a :: rest from hlist, List.length_cons]
    omega

theorem found {a : Addr} {acc : BitVec 32} {callers : List (BitVec 32)}
    (h : LoopInv r₀ (r, .found a acc callers)) : ∃ t, Advances r₀ r (.found a acc callers) t := by
  obtain ⟨done, left, hsplit, hdone, rfl, rfl, hleft, rest, rfl⟩ := h.split
  have hlist : r.list = a :: rest := hleft
  have hmem : a ∈ r.kernel.barrierList := by
    rw [show r.kernel.barrierList = a :: rest from hleft]
    exact List.mem_cons_self
  have herase : r.list.erase a = rest := by
    rw [hlist, List.erase_cons_head]
  refine ⟨_, if_pos hmem, ⟨h.waiting, h.bID, done, a :: rest, hsplit, hdone, ?_⟩, ?_⟩
  · exact ⟨rfl, rfl, congrArg (a :: ·) herase.symm⟩
  · show r.remaining + (4 * (r.list.erase a).length + 2) < r.remaining + (4 * r.list.length - 1)
    rw [herase, hlist, List.length_cons]
    omega

theorem unlinked {a : Addr} {acc : BitVec 32} {callers : List (BitVec 32)}
    (h : LoopInv r₀ (r, .unlinked a acc callers)) :
    ∃ t, Advances r₀ r (.unlinked a acc callers) t := by
  obtain ⟨done, left, hsplit, hdone, rfl, rfl, rfl⟩ := h.split
  obtain ⟨r', hr'⟩ : ∃ r', r.store a (destroySection (r.barrier a)).2.1
    (destroySection (r.barrier a)).2.2 = r' := ⟨_, rfl⟩
  have hstep : destroyallStep r (.unlinked a (BitVec.ofInt 32 (waiters r₀ done)) []) =
      some (r', .redo (BitVec.ofInt 32 (waiters r₀ done) +
        BitVec.ofInt 32 (r.barrier a).waitingCount) []) := by
    rw [← hr']
    rfl
  have hlist : r'.list = r.list := by
    rw [← hr']
    rfl
  have hself : r'.barrier a = (destroySection (r.barrier a)).2.1 := by
    rw [← hr']
    exact Registry.store_self
  have hother : ∀ b, b ≠ a → r'.barrier b = r.barrier b := by
    intro b hb
    rw [← hr']
    exact Registry.store_of_ne hb
  refine ⟨_, hstep, ⟨fun b => ?_, fun b => ?_, done ++ [a], r.list, ?_, fun b hb => ?_, ?_⟩, ?_⟩
  · show (r'.barrier b).waitingCount = _
    by_cases hba : b = a
    · rw [hba, hself]
      exact h.waiting a
    · rw [hother b hba]
      exact h.waiting b
  · show (r'.barrier b).bID = _
    by_cases hba : b = a
    · rw [hba, hself]
      exact h.bID a
    · rw [hother b hba]
      exact h.bID b
  · rw [hsplit, List.append_assoc]
    rfl
  · show (r'.barrier b).destroyed = true
    by_cases hba : b = a
    · rw [hba, hself]
      rfl
    · rw [hother b hba]
      rcases List.mem_append.mp hb with hb | hb
      · exact hdone b hb
      · exact absurd (List.mem_singleton.mp hb) hba
  · refine ⟨?_, rfl, hlist⟩
    rw [waiters_append, BitVec.ofInt_add, ← h.waiting a]
  · have hrem : r'.remaining = r.remaining := by
      rw [← hr']
      rfl
    simp only [rank]
    rw [hlist, hrem]
    omega

/-- The next section of `destroyall` always exists. -/
theorem own (h : LoopInv r₀ (r, pc)) (hids : ∀ a ∈ r₀.list, 0 < (r₀.barrier a).bID.toInt) :
    (∃ v, pc = .returned v) ∨ ∃ t, Advances r₀ r pc t := by
  cases pc with
  | redo acc callers => exact .inr h.redo
  | calling id acc callers => exact .inr (h.calling hids)
  | found a acc callers => exact .inr h.found
  | unlinked a acc callers => exact .inr h.unlinked
  | returned v => exact .inl ⟨v, rfl⟩

theorem step {t t' : Registry × DestroyallPc} {l : DestroyallLabel} (h : LoopInv r₀ t)
    (hids : ∀ a ∈ r₀.list, 0 < (r₀.barrier a).bID.toInt) (hst : DestroyallStep t l t') :
    LoopInv r₀ t' ∧ rank t' < rank t := by
  cases hst with
  | @own r pc t' hown =>
      rcases h.own hids with ⟨v, rfl⟩ | ⟨t, hstep, hinv, hrank⟩
      · cases hown
      · rw [hown] at hstep
        cases hstep
        exact ⟨hinv, hrank⟩
  | waiter hl hst => exact h.waiter hl hst

end LoopInv

theorem loopInv_start (r : Registry) : LoopInv r (r, .redo 0 []) :=
  ⟨fun _ => rfl, fun _ => rfl, [], r.list, rfl, fun _ h => (by cases h), rfl, rfl, rfl⟩

/-! ## The result -/

/-- What `sys_barrierdestroy(-1)` does, called in the state `r`, in every
interleaving with waiters that leave. -/
structure DestroysAll (r : Registry) : Prop where
  terminates : ∀ l t, (destroyallSystem r).Path (r, .redo 0 []) l t →
    l.length ≤ 4 * r.list.length + 1 + 2 * Multiset.card r.calls
  /-- It is never stuck: until it returns it has a next section. -/
  progress : ∀ l r' pc, (destroyallSystem r).Path (r, .redo 0 []) l (r', pc) →
    (∃ v, pc = .returned v) ∨ ∃ t, destroyallStep r' pc = some t
  /-- The nodes it may read are in memory: the listed ones, and the one the nested
  call is working on. -/
  memory : ∀ l r' pc, (destroyallSystem r).Path (r, .redo 0 []) l (r', pc) →
    (∀ a ∈ r'.list, r'.allocated a = true) ∧ ∀ c, pc.call = some c → r'.allocated c.node = true
  empties : ∀ l r' v, (destroyallSystem r).Path (r, .redo 0 []) l (r', .returned v) →
    r'.list = []
  destroys : ∀ l r' v, (destroyallSystem r).Path (r, .redo 0 []) l (r', .returned v) →
    ∀ a ∈ r.list, (r'.barrier a).destroyed = true
  counts : ∀ l r' v, (destroyallSystem r).Path (r, .redo 0 []) l (r', .returned v) →
    v.toInt = waiters r r.list

theorem remaining_le (r : Registry) : r.remaining ≤ 2 * Multiset.card r.calls := by
  rw [Registry.remaining, Nat.mul_comm]
  refine (Multiset.sum_le_card_nsmul (r.calls.map Call.remaining) 2 ?_).trans
    (Nat.le_of_eq (by rw [Multiset.card_map, smul_eq_mul]))
  intro n hn
  obtain ⟨c, -, rfl⟩ := Multiset.mem_map.mp hn
  cases c <;> simp [Call.remaining]

theorem waiters_nonneg {r : Registry} (h : RegistryInv r) : 0 ≤ waiters r r.list := by
  refine List.sum_nonneg fun n hn => ?_
  obtain ⟨a, ha, rfl⟩ := List.mem_map.mp hn
  exact (h.waiting a (h.linked a ha).1).1

/-- **Destroy-all.** From every state reached with fewer than `2 ^ 31` creates,
and with waiters leaving in between, it terminates with the list empty, every
barrier that was listed destroyed, and the number of their waiters as its value. -/
theorem destroyall_empties {r : Registry} (h : registrySystem.Reach System.anyStep r)
    (hfew : r.creations < 2 ^ 31) (hsum : waiters r r.list < 2 ^ 31) : DestroysAll r := by
  have hinv := registryInv_reach h
  have hids : ∀ a ∈ r.list, 0 < (r.barrier a).bID.toInt :=
    fun a ha => (idInv_reach h).2.toInt hfew (hinv.linked a ha).1
  have hloop : ∀ l t, (destroyallSystem r).Path (r, .redo 0 []) l t → LoopInv r t :=
    fun l t p => p.invariant (fun _ _ _ hI hst => (hI.step hids hst).1) (loopInv_start r)
  have hreturned : ∀ l r' v, (destroyallSystem r).Path (r, .redo 0 []) l (r', .returned v) →
      r'.list = [] ∧ (∀ a ∈ r.list, (r'.barrier a).destroyed = true) ∧
        v = BitVec.ofInt 32 (waiters r r.list) := by
    intro l r' v p
    obtain ⟨done, left, hsplit, hdone, rfl, rfl, hnil⟩ := (hloop l _ p).split
    rw [List.append_nil] at hsplit
    rw [hsplit]
    exact ⟨hnil, hdone, rfl⟩
  refine ⟨fun l t p => ?_, fun l r' pc p => ?_, fun l r' pc p => ?_, fun l r' v p => ?_,
    fun l r' v p => ?_, fun l r' v p => ?_⟩
  · have hle := p.length_le (fun _ _ _ hI hst => hI.step hids hst) (loopInv_start r)
    have hrem := remaining_le r
    have hrank : rank (r, .redo 0 []) = r.remaining + (4 * r.list.length + 1) := rfl
    omega
  · rcases (hloop l _ p).own hids with hret | ⟨t, hstep, -⟩
    · exact .inl hret
    · exact .inr ⟨t, hstep⟩
  · have hinv' := registryInv_reach (destroyall_refines h p)
    refine ⟨fun a ha => (hinv'.linked a ha).1, fun c hc => hinv'.held c ?_⟩
    show c ∈ pc.call.elim r'.calls (· ::ₘ r'.calls)
    rw [hc]
    exact Multiset.mem_cons_self c _
  · exact (hreturned l r' v p).1
  · exact (hreturned l r' v p).2.1
  · have hnonneg := waiters_nonneg hinv
    rw [(hreturned l r' v p).2.2,
      BitVec.toInt_ofInt_eq_self (by decide) (by norm_num; omega) (by norm_num; omega)]

/-- A caller of `sys_barrierwait` has found the node `a`, arrived and gone to sleep. -/
def sleepsAt (r : Registry) (a : Addr) : Registry :=
  arriveAt (r.enter (r.kernel.incRefcount a) (.waitFound a)) a

theorem reach_sleepsAt {r : Registry} {a : Addr} (id : Int)
    (h : registrySystem.Reach System.anyStep r) (hid : 0 ≤ id)
    (hget : getBarrierNode r.kernel id = (some a, r.kernel.incRefcount a)) :
    registrySystem.Reach System.anyStep (sleepsAt r a) :=
  .step (.arrive a) (.step (.lookupWait id) h trivial (.lookupWait hid hget)) trivial
    (.arrive (Multiset.mem_cons_self _ _))

/-- Two callers asleep at a barrier of size 3, one at a barrier of size 2. -/
def threeAsleep : Registry :=
  let r := (barriercreate bootRegistry 3 (some 0)).2
  sleepsAt (barriercreate (sleepsAt (sleepsAt r 0) 0) 2 (some 1)).2 1

theorem threeAsleep_reach : registrySystem.Reach System.anyStep threeAsleep := by
  have h₁ : registrySystem.Reach System.anyStep (barriercreate bootRegistry 3 (some 0)).2 :=
    .step (.create 3 (some 0)) (.init boot_bootRegistry) trivial (.create fun _ _ => rfl)
  have h₂ := reach_sleepsAt 1 h₁ (by decide) rfl
  have h₃ := reach_sleepsAt 1 h₂ (by decide) rfl
  have h₄ : registrySystem.Reach System.anyStep (barriercreate
      (sleepsAt (sleepsAt (barriercreate bootRegistry 3 (some 0)).2 0) 0) 2 (some 1)).2 := by
    refine .step (.create 2 (some 1)) h₃ trivial (.create fun a ha => ?_)
    obtain rfl := Option.some.inj ha
    rfl
  exact reach_sleepsAt 2 h₄ (by decide) rfl

/-- Destroying everything with three callers asleep at two barriers returns 3. -/
theorem destroysAll_threeAsleep :
    threeAsleep.list = [1, 0] ∧ waiters threeAsleep [1, 0] = 3 ∧ DestroysAll threeAsleep :=
  ⟨rfl, by decide, destroyall_empties threeAsleep_reach (by decide) (by decide)⟩

end LinuxHacks.Barrier
