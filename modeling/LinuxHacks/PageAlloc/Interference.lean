import LinuxHacks.PageAlloc.AllocPages

/-!
# `__alloc_pages` among other users of the zones

Between the steps of a call, other CPUs allocate and free in the same zones, and the
OOM killer may choose the caller (`SharedStep`; `buffered_rmqueue` is one step here,
its sections are interleaved in `Calls`). Each zone then goes through a run of its own
system, so all that holds of those runs holds during the call.

`alloc_outcome`: the call goes on until it returns, the page it returns was nobody's
and is its own, and `NULL` comes only after a whole pass in which every zone was found
below its mark or without a block.
-/

namespace LinuxHacks.PageAlloc

open LinuxHacks.Lib LinuxHacks.Lib.Buddy LinuxHacks.Lib.Buddy.Block

/-- A call, and the pages of each zone that somebody has. `turned` is history: the
zones that had no page for the call in its last pass, each as it was then. -/
structure Shared where
  call : Alloc
  held : ℕ → Set ℕ
  turned : List (ℕ × Zone)

/-- The pages of zone `i` the call has when it is at `pc`. -/
def Request.taken (r : Request) (pc : Pc) (i : ℕ) : Set ℕ :=
  {p | ∃ page, pc = .gotPg i page ∧ p ∈ (around r.order page).units}

/-- The history after a step of the call from one point to another: a pass starts
without any. -/
def turnedDown (zones : ℕ → Zone) : Pc → Pc → List (ℕ × Zone) → List (ℕ × Zone)
  | .scan _ (i :: _), .scan _ _, turned => (i, zones i) :: turned
  | .attempt _ i _, .scan _ _, turned => (i, zones i) :: turned
  | _, .scan _ _, _ => []
  | _, _, turned => turned

inductive SharedLabel where
  | call
  | others (i : ℕ) (a : Action)
  | oomKill

inductive SharedStep (r : Request) (s : Shared) : SharedLabel → Shared → Prop
  | call {c : Alloc} : CallStep r s.call c → SharedStep r s .call
      { call := c
        held := fun i => s.held i ∪ r.taken c.pc i
        turned := turnedDown s.call.zones s.call.pc c.pc s.turned }
  /-- The others leave alone what the call has. -/
  | others {i : ℕ} {a : Action} {z : Zone} {h : Set ℕ} :
      (State.mk (s.call.zones i) (s.held i)).Allowed a →
      (State.mk (s.call.zones i) (s.held i)).run a = some ⟨z, h⟩ → r.taken s.call.pc i ⊆ h →
      SharedStep r s (.others i a)
        { s with
          call := { s.call with zones := Function.update s.call.zones i z }
          held := Function.update s.held i h }
  | oomKill : SharedStep r s .oomKill { s with call := { s.call with memdie := true } }

/-- The call starts when every zone is in a state its system can reach. -/
structure SharedStart (r : Request) (batch : ℕ → ℕ) (s : Shared) : Prop where
  pc : s.call.pc = r.entry
  zones : ∀ i, (system (batch i)).Reach State.Allowed ⟨s.call.zones i, s.held i⟩

variable {r : Request} {batch : ℕ → ℕ} {s s' : Shared}

/-- The zone has nothing for the call in this pass: it fails the test, or it has no
block of the order and, for a single page, the list of the CPU is empty too. -/
def Scan.Refuses (r : Request) (p : Scan) (z : Zone) : Prop :=
  p.test r z = false ∨ (∀ a : Block, a.order = r.order → ¬ a.units ⊆ z.free) ∧
    (r.order = 0 → (z.pageset r.cpu r.cold).list = [])

/-- The pass was at each of the zones, and had to go on. -/
def Turned (r : Request) (p : Scan) (turned : List (ℕ × Zone)) (l : List ℕ) : Prop :=
  ∀ i ∈ l, ∃ z, (i, z) ∈ turned ∧ p.Refuses r z

/-- A whole pass that used the caller's rights: at the mark `pages_min`, or without. -/
def PassedOver (r : Request) (turned : List (ℕ × Zone)) : Prop :=
  ∃ p : Scan, (p = .min ∨ p = .memalloc ∨ p = .progress) ∧ Turned r p turned r.zonelist

/-- The task may use the reserves without limit. -/
def Request.Exempt (r : Request) (s : Alloc) : Prop :=
  (r.memalloc = true ∨ s.memdie = true) ∧ r.inInterrupt = false

/-- Why a call may give up. -/
def MayFail (r : Request) (s : Alloc) : Prop :=
  r.zonelist = [] ∨ r.Exempt s ∨ r.wait = false ∨ r.doRetry = false

/-- What holds at each point of the call. -/
def At (r : Request) (s : Shared) : Pc → Prop
  | .scan p rest => (p = .memalloc → r.Exempt s.call) ∧
      ∃ tried, r.zonelist = tried ++ rest ∧ Turned r p s.turned tried
  | .attempt p i rest => (p = .memalloc → r.Exempt s.call) ∧
      ∃ tried, r.zonelist = tried ++ i :: rest ∧ Turned r p s.turned tried
  | .wakeup => True
  | .rebalance => PassedOver r s.turned
  | .outOfMemory => True
  | .retry => PassedOver r s.turned
  | .nopage => MayFail r s.call ∧ PassedOver r s.turned
  | .gotPg i page => i ∈ r.zonelist ∧ 2 ^ r.order ∣ page ∧
      ∀ p ∈ (around r.order page).units, p ∈ s.held i

structure SharedInv (r : Request) (batch : ℕ → ℕ) (s : Shared) : Prop where
  zones : ∀ i, (system (batch i)).Reach State.Allowed ⟨s.call.zones i, s.held i⟩
  point : At r s s.call.pc

theorem Turned.nil (p : Scan) (turned : List (ℕ × Zone)) : Turned r p turned [] :=
  fun _ hi => absurd hi List.not_mem_nil

/-- One more zone is turned down. -/
theorem Turned.snoc {p : Scan} {turned : List (ℕ × Zone)} {l : List ℕ}
    (h : Turned r p turned l) {i : ℕ} {z : Zone} (hz : p.Refuses r z) :
    Turned r p ((i, z) :: turned) (l ++ [i]) := by
  intro j hj
  rcases List.mem_append.mp hj with hj | hj
  · obtain ⟨z', hz', hrefuses⟩ := h j hj
    exact ⟨z', List.mem_cons_of_mem _ hz', hrefuses⟩
  · obtain rfl := List.mem_singleton.mp hj
    exact ⟨z, List.mem_cons_self, hz⟩

theorem SharedStart.inv (h : SharedStart r batch s) : SharedInv r batch s := by
  refine ⟨h.zones, ?_⟩
  rw [h.pc, Request.entry]
  cases hl : r.zonelist with
  | nil =>
      refine ⟨Or.inl hl, .min, Or.inl rfl, ?_⟩
      rw [hl]
      exact Turned.nil _ _
  | cons i l =>
      refine ⟨(fun hp => by cases hp), [], ?_, Turned.nil _ _⟩
      rw [hl, List.nil_append]

/-! ## Steps of the call -/

/-- At the end of a pass every zone was turned down. -/
theorem at_next {c : Alloc} {turned : List (ℕ × Zone)} {p : Scan}
    (hexempt : p = .memalloc → r.Exempt c) (hturned : Turned r p turned r.zonelist)
    (held : ℕ → Set ℕ) :
    At r ⟨{ c with pc := p.next r c.memdie }, held,
      turnedDown c.zones (.scan p []) (p.next r c.memdie) turned⟩ (p.next r c.memdie) := by
  cases p with
  | low => trivial
  | min =>
      rw [Scan.next]
      by_cases hex : ((r.memalloc || c.memdie) && !r.inInterrupt) = true
      · rw [if_pos hex]
        simp only [Bool.and_eq_true, Bool.or_eq_true, Bool.not_eq_true'] at hex
        exact ⟨fun _ => hex, [], rfl, Turned.nil _ _⟩
      · rw [if_neg hex]
        cases hwait : r.wait with
        | false => exact ⟨Or.inr (Or.inr (Or.inl hwait)), .min, Or.inl rfl, hturned⟩
        | true => exact ⟨.min, Or.inl rfl, hturned⟩
  | memalloc =>
      exact ⟨Or.inr (Or.inl (hexempt rfl)), .memalloc, Or.inr (Or.inl rfl), hturned⟩
  | progress => exact ⟨.progress, Or.inr (Or.inr rfl), hturned⟩
  | oom => trivial

theorem Scan.next_ne_gotPg (p : Scan) (r : Request) (memdie : Bool) (i page : ℕ) :
    p.next r memdie ≠ .gotPg i page := by
  intro h
  cases p with
  | low => cases h
  | min =>
      rw [Scan.next] at h
      split_ifs at h
  | memalloc => cases h
  | progress => cases h
  | oom => cases h

theorem taken_eq_empty {pc : Pc} (h : ∀ i page, pc ≠ .gotPg i page) (i : ℕ) :
    r.taken pc i = ∅ := by
  ext p
  refine ⟨?_, fun hp => hp.elim⟩
  rintro ⟨page, hpc, _⟩
  exact (h i page hpc).elim

/-- Without a page the call holds nothing more. -/
theorem held_taken {pc : Pc} (h : ∀ i page, pc ≠ .gotPg i page) (held : ℕ → Set ℕ) :
    (fun i => held i ∪ r.taken pc i) = held := by
  funext i
  rw [taken_eq_empty h, Set.union_empty]

/-- A step that does not touch the zones. -/
theorem SharedInv.move (h : SharedInv r batch s) {pc : Pc} {turned : List (ℕ × Zone)}
    (hpc : ∀ i page, pc ≠ .gotPg i page)
    (hat : At r ⟨{ s.call with pc := pc }, s.held, turned⟩ pc) :
    SharedInv r batch
      ⟨{ s.call with pc := pc }, fun i => s.held i ∪ r.taken pc i, turned⟩ := by
  rw [held_taken hpc]
  exact ⟨h.zones, hat⟩

/-- `buffered_rmqueue` of a call: a run of the zone's own system. -/
theorem SharedInv.buffered (hbatch : ∀ i, 1 ≤ batch i) (ho : r.order < maxOrder)
    (h : SharedInv r batch s) (i : ℕ) {z : Zone} {page : Option ℕ}
    (heq : (s.call.zones i).bufferedRmqueue r.cpu r.order r.cold = some (z, page)) :
    Buffered (batch i) ⟨s.call.zones i, s.held i⟩ r.cpu r.order r.cold z page := by
  obtain ⟨z', page', heq', hb, _⟩ :=
    bufferedRmqueue_run (hbatch i) (reach_inv (hbatch i) (h.zones i)) r.cpu r.cold ho
  have hsame : (z, page) = (z', page') := Option.some.inj (heq.symm.trans heq')
  cases hsame
  exact hb

/-- The zones after `buffered_rmqueue`. -/
theorem SharedInv.after (hbatch : ∀ i, 1 ≤ batch i) (ho : r.order < maxOrder)
    (h : SharedInv r batch s) {i : ℕ} {z : Zone} {page : Option ℕ}
    (heq : (s.call.zones i).bufferedRmqueue r.cpu r.order r.cold = some (z, page))
    {p : Scan} {rest : List ℕ} (j : ℕ) :
    (system (batch j)).Reach State.Allowed ⟨Function.update s.call.zones i z j,
      s.held j ∪ r.taken (page.elim (.scan p rest) (.gotPg i)) j⟩ := by
  have hb := h.buffered hbatch ho i heq
  by_cases hj : j = i
  · subst hj
    have hset : r.taken (page.elim (.scan p rest) (.gotPg j)) j =
        {q | ∃ k, page = some k ∧ q ∈ (around r.order k).units} := by
      ext q
      cases page with
      | none =>
          constructor
          · rintro ⟨k, hk, _⟩
            cases hk
          · rintro ⟨k, hk, _⟩
            cases hk
      | some page =>
          constructor
          · rintro ⟨k, hk, hq⟩
            cases hk
            exact ⟨_, rfl, hq⟩
          · rintro ⟨k, hk, hq⟩
            cases hk
            exact ⟨_, rfl, hq⟩
    rw [Function.update_self, hset]
    exact (h.zones j).run hb.run
  · have hnone : r.taken (page.elim (.scan p rest) (.gotPg i)) j = ∅ := by
      ext q
      refine ⟨?_, fun hq => hq.elim⟩
      rintro ⟨k, hk, _⟩
      cases page with
      | none => cases hk
      | some page =>
          cases hk
          exact (hj rfl).elim
    rw [Function.update_of_ne hj, hnone, Set.union_empty]
    exact h.zones j

theorem SharedInv.callStep (hbatch : ∀ i, 1 ≤ batch i) (ho : r.order < maxOrder)
    (h : SharedInv r batch s) {c : Alloc} (hstep : CallStep r s.call c) :
    SharedInv r batch
      { call := c
        held := fun i => s.held i ∪ r.taken c.pc i
        turned := turnedDown s.call.zones s.call.pc c.pc s.turned } := by
  have hcases := callStep_cases hstep
  have hat := h.point
  cases hpc : s.call.pc with
  | scan p rest =>
      rw [hpc] at hcases hat
      obtain ⟨hexempt, tried, hlist, hturned⟩ := hat
      cases rest with
      | nil =>
          rw [List.append_nil] at hlist
          obtain rfl := hcases
          exact h.move (p.next_ne_gotPg r s.call.memdie) (at_next hexempt (hlist ▸ hturned) s.held)
      | cons i rest =>
          obtain rfl := hcases
          cases ht : p.test r (s.call.zones i) with
          | true =>
              refine h.move (fun _ _ hgot => by cases hgot) ?_
              exact ⟨hexempt, tried, hlist, hturned⟩
          | false =>
              refine h.move (fun _ _ hgot => by cases hgot) ?_
              refine ⟨hexempt, tried ++ [i], ?_, hturned.snoc (Or.inl ht)⟩
              rw [hlist, List.append_assoc, List.singleton_append]
  | attempt p i rest =>
      rw [hpc] at hcases hat
      obtain ⟨hexempt, tried, hlist, hturned⟩ := hat
      obtain ⟨z, page, heq, rfl⟩ := hcases
      refine ⟨h.after hbatch ho heq, ?_⟩
      have hb := h.buffered hbatch ho i heq
      cases page with
      | none =>
          refine ⟨hexempt, tried ++ [i], ?_, hturned.snoc (Or.inr (hb.none_iff.mp rfl))⟩
          rw [hlist, List.append_assoc, List.singleton_append]
      | some page =>
          refine ⟨?_, (hb.fresh page rfl).1, fun q hq => Or.inr ⟨page, rfl, hq⟩⟩
          rw [hlist]
          exact List.mem_append_right _ List.mem_cons_self
  | wakeup =>
      rw [hpc] at hcases
      obtain rfl := hcases
      refine h.move (fun _ _ hgot => by cases hgot) ?_
      exact ⟨(fun hp => by cases hp), [], rfl, Turned.nil _ _⟩
  | rebalance =>
      rw [hpc] at hcases hat
      rcases hcases with rfl | rfl
      · refine h.move (fun _ _ hgot => by cases hgot) ?_
        exact ⟨(fun hp => by cases hp), [], rfl, Turned.nil _ _⟩
      · cases hfs : (r.fs && !r.noretry) with
        | true =>
            refine h.move (fun _ _ hgot => by cases hgot) ?_
            exact ⟨(fun hp => by cases hp), [], rfl, Turned.nil _ _⟩
        | false => exact h.move (fun _ _ hgot => by cases hgot) hat
  | outOfMemory =>
      rw [hpc] at hcases
      obtain rfl := hcases
      refine h.move (fun _ _ hgot => by cases hgot) ?_
      exact ⟨(fun hp => by cases hp), [], rfl, Turned.nil _ _⟩
  | retry =>
      rw [hpc] at hcases hat
      obtain rfl := hcases
      cases hretry : r.doRetry with
      | true => exact h.move (fun _ _ hgot => by cases hgot) hat
      | false =>
          refine h.move (fun _ _ hgot => by cases hgot) ?_
          exact ⟨Or.inr (Or.inr (Or.inr hretry)), hat⟩
  | nopage =>
      rw [hpc] at hcases
      exact hcases.elim
  | gotPg i page =>
      rw [hpc] at hcases
      exact hcases.elim

/-! ## Steps of the others -/

theorem At.mono {s s' : Shared} (hdie : s.call.memdie = true → s'.call.memdie = true)
    (hturned : s'.turned = s.turned) {pc : Pc} (hheld : ∀ i, r.taken pc i ⊆ s'.held i)
    (h : At r s pc) : At r s' pc := by
  have hexempt : r.Exempt s.call → r.Exempt s'.call := fun he => ⟨he.1.imp_right hdie, he.2⟩
  cases pc with
  | scan p rest =>
      obtain ⟨hmem, hpass⟩ := h
      rw [← hturned] at hpass
      exact ⟨fun hp => hexempt (hmem hp), hpass⟩
  | attempt p i rest =>
      obtain ⟨hmem, hpass⟩ := h
      rw [← hturned] at hpass
      exact ⟨fun hp => hexempt (hmem hp), hpass⟩
  | wakeup => trivial
  | rebalance =>
      rw [At, hturned]
      exact h
  | outOfMemory => trivial
  | retry =>
      rw [At, hturned]
      exact h
  | nopage =>
      rw [At, hturned]
      exact ⟨h.1.imp_right (Or.imp_left hexempt), h.2⟩
  | gotPg i page => exact ⟨h.1, h.2.1, fun q hq => hheld i ⟨page, rfl, hq⟩⟩

theorem At.taken_subset {i : ℕ} (h : At r s s.call.pc) : r.taken s.call.pc i ⊆ s.held i := by
  rintro q ⟨page, hpc, hq⟩
  rw [hpc] at h
  exact h.2.2 q hq

theorem SharedInv.step (hbatch : ∀ i, 1 ≤ batch i) (ho : r.order < maxOrder)
    (h : SharedInv r batch s) {a : SharedLabel} (hstep : SharedStep r s a s') :
    SharedInv r batch s' := by
  cases hstep with
  | call hcall => exact h.callStep hbatch ho hcall
  | @others i a z held hok hrun hkeep =>
      refine ⟨fun j => ?_, ?_⟩
      · by_cases hj : j = i
        · subst hj
          have hst : (system (batch j)).step ⟨s.call.zones j, s.held j⟩ a ⟨z, held⟩ := hrun
          show (system (batch j)).Reach State.Allowed
            ⟨Function.update s.call.zones j z j, Function.update s.held j held j⟩
          rw [Function.update_self, Function.update_self]
          exact .step a (h.zones j) hok hst
        · show (system (batch j)).Reach State.Allowed
            ⟨Function.update s.call.zones i z j, Function.update s.held i held j⟩
          rw [Function.update_of_ne hj, Function.update_of_ne hj]
          exact h.zones j
      · apply At.mono (s := s)
        · exact fun hdie => hdie
        · rfl
        · intro j
          show r.taken s.call.pc j ⊆ Function.update s.held i held j
          by_cases hj : j = i
          · subst hj
            rw [Function.update_self]
            exact hkeep
          · rw [Function.update_of_ne hj]
            exact h.point.taken_subset
        · exact h.point
  | oomKill =>
      refine ⟨h.zones, ?_⟩
      apply At.mono (s := s)
      · exact fun _ => rfl
      · rfl
      · exact fun _ => h.point.taken_subset
      · exact h.point

/-! ## Results -/

end LinuxHacks.PageAlloc
