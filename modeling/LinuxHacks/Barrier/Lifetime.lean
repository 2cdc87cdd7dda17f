import LinuxHacks.Lib.Placement
import LinuxHacks.Barrier.Object

/-!
# The lifetime of a barrier

Who holds a reference, when the node is unlinked, and when barrier and node are
freed. `LifeStep` is what a step can do to these; `LifeInv` is derived from it.

`sys_barrierdestroy` looks the node up and unlinks it in two sections of
`search_lock`. When two destroyers are between the two, both unlink it: the
lifetime is right exactly as long as nobody looks up the node to destroy it while
another one is about to unlink it (`OneDestroyer`).
-/

namespace LinuxHacks.Barrier

open LinuxHacks.Lib
open LinuxHacks.Lib.Placement

/-! ## References -/

/-- Between `_get_barrier_node` and `_leave_barrier`. -/
def WaitPc.holding : WaitPc → Bool
  | .start | .returned _ => false
  | _ => true

def DestroyPc.holding : DestroyPc → Bool
  | .found | .unlinked => true
  | .start | .returned _ => false

/-- The call (a wait, or a destroy) has a reference. -/
def Holding (s : State) : CallId ⊕ CallId → Prop
  | .inl c => (s.wait c).pc.holding = true
  | .inr d => (s.destroyer d).holding = true

/-- The references as a placement. -/
def refs (s : State) : CallId ⊕ CallId → Option Unit
  | .inl c => if (s.wait c).pc.holding then some () else none
  | .inr d => if (s.destroyer d).holding then some () else none

theorem refs_eq_some {s : State} {x : CallId ⊕ CallId} : refs s x = some () ↔ Holding s x := by
  cases x with
  | inl c => simp [refs, Holding]
  | inr d => simp [refs, Holding]

theorem refs_eq_none {s : State} {x : CallId ⊕ CallId} : refs s x = none ↔ ¬ Holding s x := by
  cases x with
  | inl c => simp [refs, Holding]
  | inr d => simp [refs, Holding]

/-- One call moves. -/
theorem refs_update {s s' : State} {x : CallId ⊕ CallId}
    (h : ∀ y, y ≠ x → (Holding s' y ↔ Holding s y)) :
    refs s' = Function.update (refs s) x (refs s' x) := by
  funext y
  by_cases hy : y = x
  · rw [hy, Function.update_self]
  · rw [Function.update_of_ne hy]
    by_cases hold : Holding s y
    · rw [refs_eq_some.mpr hold, refs_eq_some.mpr ((h y hy).mpr hold)]
    · rw [refs_eq_none.mpr hold, refs_eq_none.mpr fun e => hold ((h y hy).mp e)]

/-! ## What a step does to the lifetime -/

/-- Nothing but references changed, up to the destroyers. -/
structure LifeFrame (s s' : State) : Prop where
  unlinks : s'.unlinks = s.unlinks
  destroyed : s'.b.destroyed = s.b.destroyed
  destroyer : s'.destroyer = s.destroyer

/-- The others keep what they have. -/
def Others (s s' : State) (x : CallId ⊕ CallId) : Prop :=
  ∀ y, y ≠ x → (Holding s' y ↔ Holding s y)

inductive LifeStep (s : State) (a : Label) (s' : State) : Prop
  | stays : LifeFrame s s' → s'.b.refcount = s.b.refcount → s'.frees = s.frees →
      (∀ x, Holding s' x ↔ Holding s x) → LifeStep s a s'
  | takes (c : CallId) : LifeFrame s s' → s.unlinks = 0 →
      s'.b.refcount = s.b.refcount + 1 → s'.frees = s.frees →
      ¬ Holding s (.inl c) → Holding s' (.inl c) → Others s s' (.inl c) → LifeStep s a s'
  | drops (c : CallId) : LifeFrame s s' → s'.b.refcount = s.b.refcount - 1 →
      s'.frees = s.frees + (decide (s'.b.refcount = 0) && s'.b.destroyed).toNat →
      Holding s (.inl c) → ¬ Holding s' (.inl c) → Others s s' (.inl c) → LifeStep s a s'
  | refuses (d : CallId) : s.unlinks ≠ 0 → s.destroyer d = .start →
      s' = { s with destroyer := Function.update s.destroyer d (.returned (-EINVAL)) } →
      LifeStep s a s'
  | finds (d : CallId) : a = .lookupDestroy d → s.unlinks = 0 → s.destroyer d = .start →
      s' = { s with
        b := { s.b with refcount := s.b.refcount + 1 }
        destroyer := Function.update s.destroyer d .found } → LifeStep s a s'
  | unlinks (d : CallId) : s.destroyer d = .found →
      s' = { s with
        unlinks := s.unlinks + 1
        destroyer := Function.update s.destroyer d .unlinked } → LifeStep s a s'
  | destroys (d : CallId) (v : Int) : s.destroyer d = .unlinked → v = s.b.waitingCount →
      s'.unlinks = s.unlinks → s'.b.destroyed = true →
      s'.destroyer = Function.update s.destroyer d (.returned v) →
      s'.b.refcount = s.b.refcount - 1 →
      s'.frees = s.frees + (decide (s'.b.refcount = 0)).toNat →
      (∀ c, (s'.wait c).pc = (s.wait c).pc) → LifeStep s a s'

/-- Only the program point of `c` changes. -/
theorem others_of_wait {s s' : State} {c : CallId} (hd : s'.destroyer = s.destroyer)
    (hw : ∀ c', c' ≠ c → (s'.wait c').pc = (s.wait c').pc) : Others s s' (.inl c) := by
  intro y hy
  cases y with
  | inl c' =>
      have hne : c' ≠ c := fun e => hy (congrArg Sum.inl e)
      rw [Holding, Holding, hw c' hne]
  | inr d => rw [Holding, Holding, hd]

/-- The call moves between points that both hold a reference. -/
theorem lifeStep_of_pc {s s' : State} {a : Label} {c : CallId} (hb : s'.b = s.b)
    (hu : s'.unlinks = s.unlinks) (hd : s'.destroyer = s.destroyer) (hf : s'.frees = s.frees)
    (hw : ∀ c', c' ≠ c → (s'.wait c').pc = (s.wait c').pc)
    (hpc : (s'.wait c).pc.holding = (s.wait c).pc.holding) : LifeStep s a s' := by
  refine .stays ⟨hu, by rw [hb], hd⟩ (by rw [hb]) hf fun x => ?_
  by_cases hx : x = .inl c
  · rw [hx, Holding, Holding, hpc]
  · exact others_of_wait hd hw x hx

theorem lifeStep_lookupWait {s : State} {c : CallId} (hpc : (s.wait c).pc = .start) :
    LifeStep s (.lookupWait c) (lookupWait s c) := by
  have hnot : ¬ Holding s (.inl c) := by
    rw [Holding, hpc]
    decide
  rw [lookupWait]
  split
  · rename_i hu
    refine .takes c ⟨rfl, rfl, rfl⟩ hu rfl rfl hnot ?_ (others_of_wait rfl ?_)
    · rw [Holding, setPc_pc]
      rfl
    · exact fun c' hc => setPc_pc_other _ _ hc
  · refine lifeStep_of_pc (c := c) rfl rfl rfl rfl (fun c' hc => setPc_pc_other _ _ hc) ?_
    rw [setPc_pc, hpc]
    rfl

theorem lifeStep_arrive {s : State} {c : CallId} (hpc : (s.wait c).pc = .found) :
    LifeStep s (.arrive c) (arrive s c) := by
  have hhold : Holding s (.inl c) := by
    rw [Holding, hpc]
    rfl
  rw [arrive, arrivalSection]
  split
  case h_1 b freed heq =>
    -- the barrier is destroyed
    by_cases hd : s.b.destroyed = true
    · rw [if_pos hd] at heq
      cases heq
      refine .drops c ⟨rfl, rfl, rfl⟩ rfl rfl hhold ?_ (others_of_wait rfl ?_)
      · rw [Holding, setPc_pc]
        decide
      · exact fun c' hc => setPc_pc_other _ _ hc
    · rw [if_neg hd] at heq
      dsimp only at heq
      split at heq
      · cases heq
      · cases heq
  case h_2 my b freed heq =>
    -- the group is complete
    by_cases hd : s.b.destroyed = true
    · rw [if_pos hd] at heq
      cases heq
    · rw [if_neg hd] at heq
      dsimp only at heq
      split at heq
      · cases heq
        refine .drops c ⟨rfl, rfl, rfl⟩ rfl rfl hhold ?_ (others_of_wait rfl ?_)
        · simp [Holding, WaitPc.holding]
        · intro c' hc
          simp [Function.update_of_ne hc, wakeUpAll_pc]
      · cases heq
  case h_3 my b freed heq =>
    by_cases hd : s.b.destroyed = true
    · rw [if_pos hd] at heq
      cases heq
    · rw [if_neg hd] at heq
      dsimp only at heq
      split at heq
      · cases heq
      · cases heq
        refine .stays ⟨rfl, rfl, rfl⟩ rfl rfl fun x => ?_
        cases x with
        | inl c' =>
            by_cases hc : c' = c
            · rw [hc]
              refine ⟨fun _ => hhold, fun _ => ?_⟩
              simp [Holding, WaitPc.holding]
            · simp [Holding, Function.update_of_ne hc]
        | inr d => exact Iff.rfl

theorem lifeStep_step {s s' : State} {a : Label} (hst : Step s a s') : LifeStep s a s' := by
  cases hst with
  | lookupWait hpc => exact lifeStep_lookupWait hpc
  | arrive hpc => exact lifeStep_arrive hpc
  | @prepareToWait c hpc =>
      refine lifeStep_of_pc (c := c) rfl rfl rfl rfl (fun c' hc => ?_) ?_
      · simp [prepareToWait, Function.update_of_ne hc]
      · simp [prepareToWait, hpc, WaitPc.holding]
  | @testIteration c hpc =>
      refine lifeStep_of_pc (c := c) rfl rfl rfl rfl (fun c' hc => setPc_pc_other _ _ hc) ?_
      rw [testIteration, setPc_pc, hpc]
      split
      · rfl
      · rfl
  | @testDestroyed c hpc =>
      refine lifeStep_of_pc (c := c) rfl rfl rfl rfl (fun c' hc => setPc_pc_other _ _ hc) ?_
      rw [testDestroyed, setPc_pc, hpc]
      split
      · rfl
      · rfl
  | @schedule c hpc _ =>
      refine lifeStep_of_pc (c := c) rfl rfl rfl rfl (fun c' hc => setPc_pc_other _ _ hc) ?_
      rw [setPc_pc, hpc]
      rfl
  | @signal c =>
      refine lifeStep_of_pc (c := c) rfl rfl rfl rfl (fun c' hc => ?_) ?_
      · simp [signal, Function.update_of_ne hc]
      · simp [signal]
  | @finishWait c hpc =>
      refine lifeStep_of_pc (c := c) rfl rfl rfl rfl (fun c' hc => ?_) ?_
      · simp [finishWait, Function.update_of_ne hc]
      · simp [finishWait, hpc, WaitPc.holding]
  | @leave c hpc =>
      refine .drops c ⟨rfl, rfl, rfl⟩ rfl rfl ?_ ?_ (others_of_wait rfl ?_)
      · rw [Holding, hpc]
        rfl
      · rw [Holding, leave, setPc_pc]
        exact Bool.false_ne_true
      · exact fun c' hc => setPc_pc_other _ _ hc
  | @lookupDestroy d hpc =>
      rw [lookupDestroy]
      split
      · rename_i hu
        exact .finds d rfl hu hpc rfl
      · rename_i hu
        exact .refuses d hu hpc rfl
  | @unlink d hpc => exact .unlinks d hpc rfl
  | @destroy d hpc =>
      refine .destroys d s.b.waitingCount hpc rfl rfl rfl rfl rfl ?_ fun c => ?_
      · simp [destroy, destroySection, leaveBarrier]
      · by_cases hwc : s.b.waitingCount = 0
        · simp [destroy, destroySection, hwc]
        · simp [destroy, destroySection, hwc, wakeUpAll_pc]

/-! ## The invariant -/

/-- The destroyer that unlinked the node, and set `destroyed` or is about to. -/
def Owner (p : DestroyPc) : Prop := p = .unlinked ∨ ∃ v, 0 ≤ v ∧ p = .returned v

/-- Nobody looks the node up to destroy it while another call is between its
lookup and its `list_del`. -/
def OneDestroyer (s : State) : Label → Prop
  | .lookupDestroy _ => s.unlinks = 0 → ∀ d, s.destroyer d ≠ .found
  | _ => True

structure LifeInv (s : State) : Prop where
  finitary : Finitary (refs s)
  refcount : s.b.refcount = count (refs s) (fun _ => True)
  /-- While the node is linked nobody got further than the lookup. -/
  linked : s.unlinks = 0 → s.b.destroyed = false ∧ (∀ d, ¬ Owner (s.destroyer d)) ∧
    ∀ d d', s.destroyer d = .found → s.destroyer d' = .found → d = d'
  unlinked : s.unlinks ≠ 0 → s.unlinks = 1 ∧ ∀ d, s.destroyer d ≠ .found
  owner : ∀ d d', Owner (s.destroyer d) → Owner (s.destroyer d') → d = d'
  freed : s.frees = (s.b.destroyed && decide (s.b.refcount = 0)).toNat

theorem LifeInv.create (N : Nat) : LifeInv (State.create N) := by
  have hnone : ∀ x, refs (State.create N) x = none := by
    intro x
    cases x with
    | inl c => rfl
    | inr d => rfl
  refine ⟨?_, ?_, ?_, fun h => absurd rfl h, ?_, rfl⟩
  · exact Set.Finite.subset Set.finite_empty fun x hx => hx (hnone x)
  · have hitems : items (refs (State.create N)) (fun _ => True) = ∅ := by
      ext x
      refine ⟨?_, fun e => e.elim⟩
      rintro ⟨b, hb, _⟩
      rw [hnone x] at hb
      cases hb
    rw [count, hitems, Set.ncard_empty]
    rfl
  · refine fun _ => ⟨rfl, fun d => ?_, fun d d' hd => (by cases hd)⟩
    rintro (h | ⟨v, _, h⟩)
    · cases h
    · cases h
  · rintro d d' (h | ⟨v, _, h⟩)
    · cases h
    · cases h

section Preservation

variable {s s' : State}

theorem LifeInv.refcount_pos (h : LifeInv s) {x : CallId ⊕ CallId} (hx : Holding s x) :
    0 < s.b.refcount := by
  have hpos : 0 < count (refs s) (fun _ => True) :=
    (count_pos_iff h.finitary).mpr ⟨x, (), refs_eq_some.mpr hx, trivial⟩
  have hcount := h.refcount
  omega

/-- A reference is taken. -/
theorem LifeInv.takeRef (h : LifeInv s) {x : CallId ⊕ CallId} (hx : ¬ Holding s x)
    (hx' : Holding s' x) (hothers : Others s s' x) :
    Finitary (refs s') ∧ s.b.refcount + 1 = count (refs s') (fun _ => True) := by
  have hrefs := refs_update hothers
  rw [refs_eq_some.mpr hx'] at hrefs
  rw [hrefs]
  refine ⟨h.finitary.update x _, ?_⟩
  rw [count_put h.finitary (refs_eq_none.mpr hx), if_pos trivial, h.refcount]
  push_cast
  rfl

/-- A reference is given back. -/
theorem LifeInv.dropRef (h : LifeInv s) {x : CallId ⊕ CallId} (hx : Holding s x)
    (hx' : ¬ Holding s' x) (hothers : Others s s' x) :
    Finitary (refs s') ∧ s.b.refcount - 1 = count (refs s') (fun _ => True) := by
  have hrefs := refs_update hothers
  rw [refs_eq_none.mpr hx'] at hrefs
  rw [hrefs]
  refine ⟨h.finitary.update x _, ?_⟩
  rw [h.refcount, count_remove h.finitary (refs_eq_some.mpr hx) (fun _ => True), if_pos trivial]
  push_cast
  omega

theorem others_of_destroyer {d : CallId} {p : DestroyPc}
    (hd : s'.destroyer = Function.update s.destroyer d p)
    (hw : ∀ c, (s'.wait c).pc = (s.wait c).pc) : Others s s' (.inr d) := by
  intro y hy
  cases y with
  | inl c => rw [Holding, Holding, hw]
  | inr d' =>
      have hne : d' ≠ d := fun e => hy (congrArg Sum.inr e)
      rw [Holding, Holding, hd, Function.update_of_ne hne]

/-- An owner is not made by moving a call elsewhere. -/
theorem owner_update (destroyer : CallId → DestroyPc) {d : CallId} {p : DestroyPc}
    (hp : ¬ Owner p) (d' : CallId) (h : Owner (Function.update destroyer d p d')) :
    Owner (destroyer d') := by
  by_cases hd : d' = d
  · rw [hd, Function.update_self] at h
    exact absurd h hp
  · rwa [Function.update_of_ne hd] at h

theorem found_update {destroyer : CallId → DestroyPc} {d d' : CallId} {p : DestroyPc}
    (hp : p ≠ .found) (h : destroyer d' ≠ .found) :
    Function.update destroyer d p d' ≠ .found := by
  by_cases hd : d' = d
  · rw [hd, Function.update_self]
    exact hp
  · rwa [Function.update_of_ne hd]

/-- The step lemma. -/
theorem LifeInv.step (h : LifeInv s) {a : Label} (hok : OneDestroyer s a)
    (hst : Step s a s') : LifeInv s' := by
  cases lifeStep_step hst with
  | stays hf hcount hfrees hhold =>
      have hrefs : refs s' = refs s := by
        funext x
        by_cases hx : Holding s x
        · rw [refs_eq_some.mpr hx, refs_eq_some.mpr ((hhold x).mpr hx)]
        · rw [refs_eq_none.mpr hx, refs_eq_none.mpr fun e => hx ((hhold x).mp e)]
      refine ⟨by rw [hrefs]; exact h.finitary, by rw [hrefs, hcount]; exact h.refcount, ?_, ?_, ?_, ?_⟩
      · rw [hf.unlinks, hf.destroyed, hf.destroyer]
        exact h.linked
      · rw [hf.unlinks, hf.destroyer]
        exact h.unlinked
      · rw [hf.destroyer]
        exact h.owner
      · rw [hfrees, hf.destroyed, hcount]
        exact h.freed
  | takes c hf hu hcount hfrees hno hyes hothers =>
      obtain ⟨hfin, hrefs⟩ := h.takeRef hno hyes hothers
      refine ⟨hfin, by rw [hcount]; exact hrefs, ?_, ?_, ?_, ?_⟩
      · rw [hf.unlinks, hf.destroyed, hf.destroyer]
        exact h.linked
      · rw [hf.unlinks, hf.destroyer]
        exact h.unlinked
      · rw [hf.destroyer]
        exact h.owner
      · -- a linked barrier is not destroyed
        have hfreed := h.freed
        rw [(h.linked hu).1] at hfreed
        rw [hfrees, hf.destroyed, (h.linked hu).1, hfreed]
        rfl
  | drops c hf hcount hfrees hyes hno hothers =>
      obtain ⟨hfin, hrefs⟩ := h.dropRef hyes hno hothers
      refine ⟨hfin, by rw [hcount]; exact hrefs, ?_, ?_, ?_, ?_⟩
      · rw [hf.unlinks, hf.destroyed, hf.destroyer]
        exact h.linked
      · rw [hf.unlinks, hf.destroyer]
        exact h.unlinked
      · rw [hf.destroyer]
        exact h.owner
      · have hpos := h.refcount_pos hyes
        have hne : s.b.refcount ≠ 0 := by omega
        have hfreed := h.freed
        rw [decide_eq_false hne, Bool.and_false] at hfreed
        rw [hfrees, hfreed, Bool.and_comm]
        exact Nat.zero_add _
  | refuses d hu hstart heq =>
      subst heq
      have hnot : ¬ Owner (.returned (-EINVAL)) := by
        rintro (e | ⟨v, hv, e⟩)
        · cases e
        · cases e
          revert hv
          decide
      have hkeep := owner_update s.destroyer (d := d) hnot
      have hothers : Others s
          { s with destroyer := Function.update s.destroyer d (.returned (-EINVAL)) } (.inr d) :=
        others_of_destroyer rfl fun _ => rfl
      have hrefs : refs { s with destroyer := Function.update s.destroyer d (.returned (-EINVAL)) } =
          refs s := by
        have hnone : refs s (.inr d) = none := by simp [refs, hstart, DestroyPc.holding]
        rw [refs_update hothers]
        simp only [refs, Function.update_self, DestroyPc.holding]
        exact hnone ▸ Function.update_eq_self ..
      refine ⟨by rw [hrefs]; exact h.finitary, by rw [hrefs]; exact h.refcount,
        fun e => absurd e hu, fun e => ⟨(h.unlinked e).1, fun d' => ?_⟩, ?_, h.freed⟩
      · exact found_update (by simp) ((h.unlinked e).2 d')
      · exact fun d₁ d₂ h₁ h₂ => h.owner d₁ d₂ (hkeep d₁ h₁) (hkeep d₂ h₂)
  | finds d hlabel hu hstart heq =>
      subst heq hlabel
      obtain ⟨hlive, howner, _⟩ := h.linked hu
      have hothers : Others s
          { s with
            b := { s.b with refcount := s.b.refcount + 1 }
            destroyer := Function.update s.destroyer d .found } (.inr d) :=
        others_of_destroyer rfl fun _ => rfl
      obtain ⟨hfin, hrefs⟩ := h.takeRef (by rw [Holding, hstart]; decide)
        (by simp [Holding, DestroyPc.holding]) hothers
      have hkeep := owner_update s.destroyer (d := d) (p := .found) (by
        rintro (e | ⟨v, _, e⟩)
        · cases e
        · cases e)
      -- the condition: nobody else has found it
      have hnone : ∀ d', s.destroyer d' ≠ .found := hok hu
      refine ⟨hfin, hrefs, fun _ => ⟨hlive, fun d' e => howner d' (hkeep d' e), ?_⟩,
        fun e => absurd hu e, fun d₁ d₂ h₁ h₂ => h.owner d₁ d₂ (hkeep d₁ h₁) (hkeep d₂ h₂), ?_⟩
      · intro d₁ d₂ h₁ h₂
        have hd : ∀ d', Function.update s.destroyer d .found d' = .found → d' = d := by
          intro d' e
          by_contra hne
          rw [Function.update_of_ne hne] at e
          exact hnone d' e
        rw [hd d₁ h₁, hd d₂ h₂]
      · have hfreed := h.freed
        rw [hlive] at hfreed
        show s.frees = (s.b.destroyed && _).toNat
        rw [hlive, hfreed]
        rfl
  | unlinks d hfound heq =>
      subst heq
      have hu : s.unlinks = 0 := by
        by_contra hne
        exact (h.unlinked hne).2 d hfound
      obtain ⟨_, howner, hunique⟩ := h.linked hu
      have hothers : Others s
          { s with
            unlinks := s.unlinks + 1
            destroyer := Function.update s.destroyer d .unlinked } (.inr d) :=
        others_of_destroyer rfl fun _ => rfl
      have hrefs : refs { s with
            unlinks := s.unlinks + 1
            destroyer := Function.update s.destroyer d .unlinked } = refs s := by
        have hsome : refs s (.inr d) = some () := by simp [refs, hfound, DestroyPc.holding]
        rw [refs_update hothers]
        simp only [refs, Function.update_self, DestroyPc.holding]
        exact hsome ▸ Function.update_eq_self ..
      -- `d` is the only one left that unlinks it
      have hsole : ∀ d', Owner (Function.update s.destroyer d .unlinked d') → d' = d := by
        intro d' e
        by_contra hne
        rw [Function.update_of_ne hne] at e
        exact howner d' e
      refine ⟨by rw [hrefs]; exact h.finitary, by rw [hrefs]; exact h.refcount,
        fun e => absurd e (Nat.succ_ne_zero _), fun _ => ⟨by rw [hu], fun d' => ?_⟩,
        fun d₁ d₂ h₁ h₂ => (hsole d₁ h₁).trans (hsole d₂ h₂).symm, h.freed⟩
      show Function.update s.destroyer d .unlinked d' ≠ .found
      by_cases hd : d' = d
      · rw [hd, Function.update_self]
        exact DestroyPc.noConfusion
      · rw [Function.update_of_ne hd]
        exact fun e => hd (hunique d' d e hfound)
  | destroys d v hun hv hu hdes hd hcount hfrees hw =>
      have hown : Owner (s.destroyer d) := .inl hun
      have hlinked : s.unlinks ≠ 0 := fun e => (h.linked e).2.1 d hown
      have hholds : Holding s (.inr d) := by
        rw [Holding, hun]
        rfl
      have hno : ¬ Holding s' (.inr d) := by
        rw [Holding, hd, Function.update_self]
        exact Bool.false_ne_true
      obtain ⟨hfin, hrefs⟩ := h.dropRef hholds hno (others_of_destroyer hd hw)
      have hsole : ∀ d', Owner (s'.destroyer d') → d' = d := by
        intro d' e
        by_contra hne
        rw [hd, Function.update_of_ne hne] at e
        exact hne (h.owner d' d e hown)
      refine ⟨hfin, by rw [hcount]; exact hrefs, fun e => absurd (hu ▸ e) hlinked,
        fun _ => ⟨hu ▸ (h.unlinked hlinked).1, fun d' => ?_⟩,
        fun d₁ d₂ h₁ h₂ => (hsole d₁ h₁).trans (hsole d₂ h₂).symm, ?_⟩
      · rw [hd]
        exact found_update DestroyPc.noConfusion ((h.unlinked hlinked).2 d')
      · have hpos := h.refcount_pos hholds
        have hne : s.b.refcount ≠ 0 := by omega
        have hfreed := h.freed
        rw [decide_eq_false hne, Bool.and_false] at hfreed
        rw [hfrees, hfreed, hdes, Bool.true_and]
        exact Nat.zero_add _

/-- A call with a reference keeps the barrier from being freed. -/
theorem LifeInv.frees_of_holding (h : LifeInv s) {x : CallId ⊕ CallId} (hx : Holding s x) :
    s.frees = 0 := by
  have hpos := h.refcount_pos hx
  have hne : s.b.refcount ≠ 0 := by omega
  rw [h.freed, decide_eq_false hne, Bool.and_false]
  rfl

end Preservation

/-- Run lemma. -/
theorem LifeInv.reach {N : Nat} {s : State} (h : (system N).Reach OneDestroyer s) :
    LifeInv s := by
  refine h.invariant ?_ ?_
  · rintro s rfl
    exact LifeInv.create N
  · intro s a s' hinv hok hst
    exact hinv.step hok hst

/-! ## The lifetime -/

/-- The step reads or writes the barrier or its node. A lookup does so when the
node is linked; a signal only touches the task. -/
def Touches (s : State) : Label → Prop
  | .lookupWait _ | .lookupDestroy _ => s.unlinks = 0
  | .signal _ => False
  | _ => True

structure LifetimeOk (s : State) : Prop where
  /-- `refcount` is the number of calls between lookup and `_leave_barrier`. -/
  finite : {x | Holding s x}.Finite
  refcount : s.b.refcount = ({x | Holding s x}.ncard : Int)
  /-- One `list_del`, made before any call that made it goes on. -/
  unlinks : s.unlinks ≤ 1
  unlinked : ∀ d, Owner (s.destroyer d) → s.unlinks = 1
  destroys : ∀ d d' v v', s.destroyer d = .returned v → 0 ≤ v →
    s.destroyer d' = .returned v' → 0 ≤ v' → d = d'
  frees : s.frees ≤ 1
  freed : s.frees ≠ 0 → s.b.refcount = 0 ∧ s.b.destroyed = true
  untouched : s.frees ≠ 0 → ∀ a s', Step s a s' → ¬ Touches s a

theorem items_refs (s : State) : items (refs s) (fun _ => True) = {x | Holding s x} := by
  ext x
  constructor
  · rintro ⟨⟨⟩, hx, _⟩
    exact refs_eq_some.mp hx
  · intro hx
    exact ⟨(), refs_eq_some.mpr hx, trivial⟩

theorem LifeInv.destroyed_of_frees {s : State} (h : LifeInv s) (hf : s.frees ≠ 0) :
    s.b.refcount = 0 ∧ s.b.destroyed = true := by
  have hfreed := h.freed
  by_cases hd : s.b.destroyed = true
  · refine ⟨?_, hd⟩
    by_contra hne
    rw [decide_eq_false hne, Bool.and_false] at hfreed
    exact hf hfreed
  · rw [Bool.eq_false_of_not_eq_true hd, Bool.false_and] at hfreed
    exact absurd hfreed hf

/-- Every step but a signal is made with a reference, or takes one. -/
theorem touches_cases {s s' : State} {a : Label} (hst : Step s a s') (ht : Touches s a) :
    s.unlinks = 0 ∨ ∃ x, Holding s x := by
  have hwait : ∀ c, (s.wait c).pc.holding = true → ∃ x, Holding s x :=
    fun c hc => ⟨.inl c, hc⟩
  have hdestroy : ∀ d, (s.destroyer d).holding = true → ∃ x, Holding s x :=
    fun d hd => ⟨.inr d, hd⟩
  cases hst with
  | lookupWait _ => exact .inl ht
  | lookupDestroy _ => exact .inl ht
  | signal => exact ht.elim
  | @arrive c hpc => exact .inr (hwait c (by rw [hpc]; rfl))
  | @prepareToWait c hpc => exact .inr (hwait c (by rw [hpc]; rfl))
  | @testIteration c hpc => exact .inr (hwait c (by rw [hpc]; rfl))
  | @testDestroyed c hpc => exact .inr (hwait c (by rw [hpc]; rfl))
  | @schedule c hpc _ => exact .inr (hwait c (by rw [hpc]; rfl))
  | @finishWait c hpc => exact .inr (hwait c (by rw [hpc]; rfl))
  | @leave c hpc => exact .inr (hwait c (by rw [hpc]; rfl))
  | @unlink d hpc => exact .inr (hdestroy d (by rw [hpc]; rfl))
  | @destroy d hpc => exact .inr (hdestroy d (by rw [hpc]; rfl))

theorem LifeInv.lifetimeOk {s : State} (h : LifeInv s) : LifetimeOk s where
  finite := by
    rw [← items_refs]
    exact h.finitary.items _
  refcount := by
    rw [← items_refs]
    exact h.refcount
  unlinks := by
    by_cases hu : s.unlinks = 0
    · rw [hu]
      exact Nat.zero_le 1
    · exact le_of_eq (h.unlinked hu).1
  unlinked := by
    intro d hd
    by_cases hu : s.unlinks = 0
    · exact absurd hd ((h.linked hu).2.1 d)
    · exact (h.unlinked hu).1
  destroys := by
    intro d d' v v' hd hv hd' hv'
    exact h.owner d d' (.inr ⟨v, hv, hd⟩) (.inr ⟨v', hv', hd'⟩)
  frees := by
    rw [h.freed]
    exact Bool.toNat_le _
  freed := h.destroyed_of_frees
  untouched := by
    intro hf a s' hst ht
    rcases touches_cases hst ht with hu | ⟨x, hx⟩
    · have hlive := (h.linked hu).1
      rw [(h.destroyed_of_frees hf).2] at hlive
      cases hlive
    · exact hf (h.frees_of_holding hx)

/-- Once two calls hold the linked node, nothing keeps them from both unlinking
it. -/
theorem second_unlink {s s' : State} {a : Label} (hst : Step s a s') (hok : ¬ OneDestroyer s a) :
    ∃ d d', Step s' (.unlink d) (unlink s' d) ∧
      Step (unlink s' d) (.unlink d') (unlink (unlink s' d) d') ∧
      (unlink (unlink s' d) d').unlinks = 2 := by
  cases hst with
  | @lookupDestroy d hstart =>
      have hbad : ¬ (s.unlinks = 0 → ∀ d', s.destroyer d' ≠ .found) := hok
      push Not at hbad
      obtain ⟨hu, d', hfound⟩ := hbad
      have hne : d' ≠ d := by
        rintro rfl
        rw [hstart] at hfound
        cases hfound
      have heq : lookupDestroy s d = { s with
          b := { s.b with refcount := s.b.refcount + 1 }
          destroyer := Function.update s.destroyer d .found } := by
        rw [lookupDestroy, if_pos hu]
      rw [heq]
      refine ⟨d, d', .unlink (Function.update_self ..), .unlink ?_, ?_⟩
      · show Function.update (Function.update s.destroyer d .found) d .unlinked d' = .found
        rw [Function.update_of_ne hne, Function.update_of_ne hne, hfound]
      · show s.unlinks + 1 + 1 = 2
        rw [hu]
  | _ => exact absurd trivial hok

/-- **Barrier lifetime.** In every run in which no `sys_barrierdestroy` looks the
barrier up while another one is between its lookup and its `list_del`, the
lifetime is right in every state: one `list_del`, one successful destroyer, one
free, with `refcount` the number of calls inside and nobody touching what was
freed.

The condition cannot be left out at any point: a step that breaks it leaves two
calls that can both unlink the node next. -/
theorem barrier_lifetime (N : Nat) :
    (∀ s, (system N).Reach OneDestroyer s → LifetimeOk s) ∧
    (∀ s a s', (system N).Reach System.anyStep s → Step s a s' → ¬ OneDestroyer s a →
      ∃ d d', Step s' (.unlink d) (unlink s' d) ∧
        Step (unlink s' d) (.unlink d') (unlink (unlink s' d) d') ∧
        ¬ LifetimeOk (unlink (unlink s' d) d')) := by
  refine ⟨fun s h => (LifeInv.reach h).lifetimeOk, fun s a s' _ hst hok => ?_⟩
  obtain ⟨d, d', hd, hd', htwo⟩ := second_unlink hst hok
  refine ⟨d, d', hd, hd', fun hlife => ?_⟩
  have hle := hlife.unlinks
  rw [htwo] at hle
  exact absurd hle (by decide)

/-- Two destroyers found the barrier of size 2; no wait was called. -/
def twoFound : State := lookupDestroy (lookupDestroy (State.create 2) 0) 1

theorem twoFound_reach : (system 2).Reach System.anyStep twoFound :=
  .step (.lookupDestroy 1)
    (.step (.lookupDestroy 0) (.init rfl) trivial (.lookupDestroy rfl))
    trivial (.lookupDestroy rfl)

/-- Both unlink the node, and both return 0. -/
theorem barrier_unlinked_twice :
    (system 2).Reach System.anyStep (destroy (destroy (unlink (unlink twoFound 0) 1) 0) 1) ∧
    (destroy (destroy (unlink (unlink twoFound 0) 1) 0) 1).unlinks = 2 ∧
    (destroy (destroy (unlink (unlink twoFound 0) 1) 0) 1).destroyer 0 = .returned 0 ∧
    (destroy (destroy (unlink (unlink twoFound 0) 1) 0) 1).destroyer 1 = .returned 0 ∧
    ¬ LifetimeOk (destroy (destroy (unlink (unlink twoFound 0) 1) 0) 1) := by
  refine ⟨?_, rfl, rfl, rfl, fun h => absurd h.unlinks (by decide)⟩
  exact .step (.destroy 1)
    (.step (.destroy 0)
      (.step (.unlink 1)
        (.step (.unlink 0) twoFound_reach trivial (.unlink rfl))
        trivial (.unlink rfl))
      trivial (.destroy rfl))
    trivial (.destroy rfl)

/-- One call waits, and the barrier is destroyed under it. -/
def waiterCancelled : State :=
  destroy (unlink (lookupDestroy (arrive (lookupWait (State.create 2) 0) 0) 0) 0) 0

theorem waiterCancelled_reach : (system 2).Reach OneDestroyer waiterCancelled :=
  .step (.destroy 0)
    (.step (.unlink 0)
      (.step (.lookupDestroy 0)
        (.step (.arrive 0)
          (.step (.lookupWait 0) (.init rfl) trivial (.lookupWait rfl))
          trivial (.arrive rfl))
        (fun _ _ => DestroyPc.noConfusion) (.lookupDestroy rfl))
      trivial (.unlink rfl))
    trivial (.destroy rfl)

/-- The destroyer returned 1, and the call that waits still has the reference;
two destroyers at once can go wrong. -/
theorem waiterCancelled_lifetime :
    (waiterCancelled.destroyer 0 = .returned 1 ∧ waiterCancelled.b.refcount = 1 ∧
      LifetimeOk waiterCancelled) ∧
    ∃ d d', ¬ LifetimeOk (unlink (unlink twoFound d) d') := by
  refine ⟨⟨rfl, rfl, (barrier_lifetime 2).1 _ waiterCancelled_reach⟩, ?_⟩
  obtain ⟨d, d', -, -, hbad⟩ := (barrier_lifetime 2).2 (lookupDestroy (State.create 2) 0)
    (.lookupDestroy 1) twoFound
    (.step (.lookupDestroy 0) (.init rfl) trivial (.lookupDestroy rfl)) (.lookupDestroy rfl)
    fun h => h rfl 0 rfl
  exact ⟨d, d', hbad⟩

end LinuxHacks.Barrier
