import Mathlib.Data.Multiset.Count
import LinuxHacks.Lib.Transition
import LinuxHacks.Barrier.Lookup

/-!
# All barriers together

The list of barriers, the identifier counter and the memory of the nodes, under
any interleaving of `sys_barriercreate`, `sys_barrierwait` and
`sys_barrierdestroy` calls. A step is one section under `search_lock` or under
`b->spin_lock`, or the whole of a create: its `list_add` takes no lock, so two
of them at once, or one during a `list_del`, are a data race.

* `Call`, `Registry`: a call in flight and the state of the file;
* `Step`: one step; a second `list_del` of a node has none, it faults on the
  poisoned links;
* `RegistryInv`: linked nodes are allocated and not destroyed, and a barrier's
  reference count is the number of calls in flight on it.
-/

namespace LinuxHacks.Barrier

open LinuxHacks.Lib

/-- A call in flight, after its lookup. -/
inductive Call where
  | waitFound (node : Addr)
  /-- In the loop around `schedule()`. -/
  | sleeping (node : Addr) (myIteration : BitVec 32)
  /-- Out of the loop, before the last section of `sys_barrierwait`. -/
  | woken (node : Addr) (myIteration : BitVec 32)
  | destroyFound (node : Addr)
  | destroyUnlinked (node : Addr)
deriving DecidableEq, Repr

/-- The `objPtr` of the call. -/
def Call.node : Call → Addr
  | .waitFound node | .sleeping node _ | .woken node _
  | .destroyFound node | .destroyUnlinked node => node

/-- The file's variables, the memory of the nodes and the calls in flight.
`creations` is history: how many creates have succeeded. -/
structure Registry where
  kernel : Kernel
  nextId : BitVec 32
  allocated : Addr → Bool
  calls : Multiset Call
  creations : Nat

namespace Registry

abbrev list (r : Registry) : List Addr := r.kernel.barrierList

abbrev barrier (r : Registry) : Addr → BarrierT := r.kernel.barrier

/-- The end of a section under `spin_lock`: what it wrote to the barrier, and
the two `kfree`. -/
def store (r : Registry) (a : Addr) (b : BarrierT) (freed : Bool) : Registry :=
  { r with
    kernel := { r.kernel with barrier := Function.update r.kernel.barrier a b }
    allocated := if freed then Function.update r.allocated a false else r.allocated }

/-- `list_del`. -/
def listDel (r : Registry) (a : Addr) : Registry :=
  { r with kernel := { r.kernel with barrierList := r.kernel.barrierList.erase a } }

/-- A call moves on, or returns. -/
def move (r : Registry) (c : Call) (next : Option Call) : Registry :=
  { r with calls := next.elim (r.calls.erase c) (· ::ₘ r.calls.erase c) }

/-- A call has found its node. -/
def enter (r : Registry) (k : Kernel) (c : Call) : Registry :=
  { r with kernel := k, calls := c ::ₘ r.calls }

end Registry

/-! ## Steps -/

/-- `_get_next_id`. -/
def getNextId (r : Registry) : BitVec 32 × Registry :=
  (r.nextId + 1, { r with nextId := r.nextId + 1 })

/-- `sys_barriercreate`; `memory` is what the two `kmalloc` gave. -/
def barriercreate (r : Registry) (num : Int) (memory : Option Addr) : Int × Registry :=
  if num < 1 then (-EINVAL, r)
  else
    match memory with
    | none => (-ENOMEM, r)
    | some bnPtr =>
        let (id, r) := getNextId r
        (id.toInt,
          { r with
            kernel :=
              { barrierList := bnPtr :: r.kernel.barrierList
                barrier := Function.update r.kernel.barrier bnPtr (BarrierT.create num id) }
            allocated := Function.update r.allocated bnPtr true
            creations := r.creations + 1 })

theorem barriercreate_of_lt {r : Registry} {num : Int} {memory : Option Addr} (h : num < 1) :
    barriercreate r num memory = (-EINVAL, r) := if_pos h

theorem barriercreate_none {r : Registry} {num : Int} (h : 1 ≤ num) :
    barriercreate r num none = (-ENOMEM, r) := if_neg (by omega)

theorem barriercreate_some {r : Registry} {num : Int} {a : Addr} (h : 1 ≤ num) :
    barriercreate r num (some a) =
      ((r.nextId + 1).toInt,
        { r with
          kernel :=
            { barrierList := a :: r.kernel.barrierList
              barrier :=
                Function.update r.kernel.barrier a (BarrierT.create num (r.nextId + 1)) }
          nextId := r.nextId + 1
          allocated := Function.update r.allocated a true
          creations := r.creations + 1 }) := if_neg (by omega)

section Create

variable {r : Registry} {num : Int} {a b : Addr}

/-- The node a create has filled in. -/
theorem barriercreate_self (h : 1 ≤ num) :
    (barriercreate r num (some a)).2.barrier a = BarrierT.create num (r.nextId + 1) := by
  rw [barriercreate_some h]
  exact Function.update_self _ _ _

theorem barriercreate_of_ne (h : 1 ≤ num) (hb : b ≠ a) :
    (barriercreate r num (some a)).2.barrier b = r.barrier b := by
  rw [barriercreate_some h]
  exact Function.update_of_ne hb _ _

theorem allocated_barriercreate (h : 1 ≤ num) :
    (barriercreate r num (some a)).2.allocated b = true ↔ b = a ∨ r.allocated b = true := by
  rw [barriercreate_some h]
  by_cases hb : b = a
  · subst hb
    simp
  · simp [hb]

end Create

/-- The arrival section of a wait. -/
def arriveAt (r : Registry) (a : Addr) : Registry :=
  match arrivalSection (r.barrier a) with
  | (.sleeps my, b, freed) => (r.store a b freed).move (.waitFound a) (some (.sleeping a my))
  | (_, b, freed) => (r.store a b freed).move (.waitFound a) none

/-- The last section of a wait. -/
def leaveFrom (r : Registry) (a : Addr) (my : BitVec 32) : Registry :=
  let (_, b, freed) := leaveSection (r.barrier a) my
  (r.store a b freed).move (.woken a my) none

/-- The spin-lock section of a destroy. -/
def destroyAt (r : Registry) (a : Addr) : Registry :=
  let (_, b, freed) := destroySection (r.barrier a)
  (r.store a b freed).move (.destroyUnlinked a) none

inductive RegistryLabel where
  | create (num : Int) (memory : Option Addr)
  | lookupWait (barrierID : Int)
  | arrive (a : Addr)
  | wake (a : Addr) (myIteration : BitVec 32)
  | leave (a : Addr) (myIteration : BitVec 32)
  | lookupDestroy (barrierID : Int)
  | unlink (a : Addr)
  | destroy (a : Addr)
deriving DecidableEq, Repr

inductive RegistryStep (r : Registry) : RegistryLabel → Registry → Prop
  | create {num : Int} {memory : Option Addr} :
      (∀ a, memory = some a → r.allocated a = false) →
      RegistryStep r (.create num memory) (barriercreate r num memory).2
  | lookupWait {id : Int} {a : Addr} {k : Kernel} :
      0 ≤ id → getBarrierNode r.kernel id = (some a, k) →
      RegistryStep r (.lookupWait id) (r.enter k (.waitFound a))
  | arrive {a : Addr} :
      .waitFound a ∈ r.calls → RegistryStep r (.arrive a) (arriveAt r a)
  | wake {a : Addr} {my : BitVec 32} :
      .sleeping a my ∈ r.calls →
      ¬ ((r.barrier a).barrierIteration = my ∧ (r.barrier a).destroyed = false) →
      RegistryStep r (.wake a my) (r.move (.sleeping a my) (some (.woken a my)))
  | leave {a : Addr} {my : BitVec 32} :
      .woken a my ∈ r.calls → RegistryStep r (.leave a my) (leaveFrom r a my)
  | lookupDestroy {id : Int} {a : Addr} {k : Kernel} :
      0 ≤ id → getBarrierNode r.kernel id = (some a, k) →
      RegistryStep r (.lookupDestroy id) (r.enter k (.destroyFound a))
  | unlink {a : Addr} :
      .destroyFound a ∈ r.calls → a ∈ r.list →
      RegistryStep r (.unlink a)
        ((r.listDel a).move (.destroyFound a) (some (.destroyUnlinked a)))
  | destroy {a : Addr} :
      .destroyUnlinked a ∈ r.calls → RegistryStep r (.destroy a) (destroyAt r a)

/-- No barrier has been created yet. -/
structure Boot (r : Registry) : Prop where
  list : r.list = []
  nextId : r.nextId = 0
  allocated : ∀ a, r.allocated a = false
  calls : r.calls = 0
  creations : r.creations = 0

def registrySystem : System Registry RegistryLabel where
  init := Boot
  step := RegistryStep

/-! ## The invariant -/

/-- The calls in flight on a node. -/
def Registry.holders (r : Registry) (a : Addr) : Nat :=
  r.calls.countP (·.node = a)

/-- The group is not complete. -/
def BarrierT.Filling (b : BarrierT) : Prop :=
  0 ≤ b.waitingCount ∧ b.waitingCount < b.initialCount

structure RegistryInv (r : Registry) : Prop where
  nodup : r.list.Nodup
  linked : ∀ a ∈ r.list, r.allocated a = true ∧ (r.barrier a).destroyed = false
  held : ∀ c ∈ r.calls, r.allocated c.node = true
  unlinked : ∀ a, .destroyUnlinked a ∈ r.calls → a ∉ r.list
  refcount : ∀ a, r.allocated a = true → (r.barrier a).refcount = r.holders a
  waiting : ∀ a, r.allocated a = true → (r.barrier a).Filling

theorem Boot.inv {r : Registry} (h : Boot r) : RegistryInv r where
  nodup := by
    rw [h.list]
    exact List.nodup_nil
  linked a ha := by
    rw [h.list] at ha
    cases ha
  held c hc := by
    rw [h.calls] at hc
    exact absurd hc (Multiset.notMem_zero c)
  unlinked a ha := by
    rw [h.calls] at ha
    exact absurd ha (Multiset.notMem_zero _)
  refcount a ha := by
    rw [h.allocated a] at ha
    cases ha
  waiting a ha := by
    rw [h.allocated a] at ha
    cases ha

namespace Registry

variable {r : Registry} {a : Addr} {c : Call}

/-- A node with no call in flight on it. -/
theorem holders_eq_zero : r.holders a = 0 ↔ ∀ c ∈ r.calls, c.node ≠ a :=
  Multiset.countP_eq_zero

theorem store_self {b : BarrierT} {freed : Bool} : (r.store a b freed).barrier a = b :=
  Function.update_self _ _ _

theorem store_of_ne {b : BarrierT} {freed : Bool} {d : Addr} (h : d ≠ a) :
    (r.store a b freed).barrier d = r.barrier d := Function.update_of_ne h _ _

theorem allocated_store {b : BarrierT} {freed : Bool} {d : Addr} :
    (r.store a b freed).allocated d = true ↔
      r.allocated d = true ∧ (freed = true → d ≠ a) := by
  rw [store]
  cases freed with
  | false => simp
  | true =>
      by_cases hd : d = a
      · subst hd
        simp
      · simp [hd]

theorem holders_move {next : Option Call} (hc : c ∈ r.calls) :
    (r.move c next).holders a + (if c.node = a then 1 else 0) =
      r.holders a + (next.elim 0 fun c' => if c'.node = a then 1 else 0) := by
  have hold : r.holders a = (r.calls.erase c).countP (·.node = a) + if c.node = a then 1 else 0 := by
    rw [holders, ← Multiset.countP_cons, Multiset.cons_erase hc]
  cases next with
  | none =>
      show (r.calls.erase c).countP (·.node = a) + _ = _
      rw [hold]
      rfl
  | some c' =>
      show (c' ::ₘ r.calls.erase c).countP (·.node = a) + _ = _
      rw [Multiset.countP_cons, hold]
      simp only [Option.elim]
      omega

theorem mem_move {c' : Call} {next : Option Call} (h : c' ∈ (r.move c next).calls) :
    next = some c' ∨ c' ∈ r.calls := by
  cases next with
  | none => exact Or.inr (Multiset.mem_of_mem_erase h)
  | some c'' =>
      rcases Multiset.mem_cons.mp h with rfl | h
      · exact Or.inl rfl
      · exact Or.inr (Multiset.mem_of_mem_erase h)

end Registry

/-! ## What a step does -/

theorem Kernel.incRefcount_self (k : Kernel) (a : Addr) :
    (k.incRefcount a).barrier a =
      { k.barrier a with refcount := (k.barrier a).refcount + 1 } := Function.update_self _ _ _

theorem Kernel.incRefcount_of_ne (k : Kernel) {a b : Addr} (h : b ≠ a) :
    (k.incRefcount a).barrier b = k.barrier b := Function.update_of_ne h _ _

theorem getBarrierNode_eq_some {k k' : Kernel} {id : Int} {a : Addr}
    (h : getBarrierNode k id = (some a, k')) : a ∈ k.barrierList ∧ k' = k.incRefcount a := by
  by_cases hlive : k.Live id
  · obtain ⟨b, hb, -, hget⟩ := getBarrierNode_live hlive
    rw [hget] at h
    cases h
    exact ⟨hb, rfl⟩
  · rw [getBarrierNode_not_live hlive] at h
    cases hlast : k.barrierList.getLast? with
    | none =>
        rw [hlast] at h
        cases h
    | some b =>
        rw [hlast] at h
        cases h
        exact ⟨List.mem_of_getLast? hlast, rfl⟩

/-- What a section under `spin_lock` does to the barrier of its call: it returns
with its reference dropped, or goes on with it. -/
structure SectionOk (r : Registry) (c : Call) (b : BarrierT) (freed : Bool)
    (next : Option Call) : Prop where
  bID : b.bID = (r.barrier c.node).bID
  refcount : b.refcount = (r.barrier c.node).refcount - next.elim 1 fun _ => 0
  waiting : b.Filling
  destroyed : b.destroyed = true → c.node ∉ r.list
  freed : freed = true → b.refcount = 0 ∧ b.destroyed = true
  next : ∀ c', next = some c' → c'.node = c.node ∧ ∀ a, c' ≠ .destroyUnlinked a

inductive RegistryEffect (r : Registry) (l : RegistryLabel) : Registry → Prop
  | nothing : RegistryEffect r l r
  | creates {num : Int} {a : Addr} : l = .create num (some a) → 1 ≤ num →
      r.allocated a = false → RegistryEffect r l (barriercreate r num (some a)).2
  | enters {c : Call} : c.node ∈ r.list → (∀ a, c ≠ .destroyUnlinked a) →
      RegistryEffect r l (r.enter (r.kernel.incRefcount c.node) c)
  | unlinks {a : Addr} : .destroyFound a ∈ r.calls → a ∈ r.list →
      RegistryEffect r l ((r.listDel a).move (.destroyFound a) (some (.destroyUnlinked a)))
  | runs {c : Call} {b : BarrierT} {freed : Bool} {next : Option Call} :
      c ∈ r.calls → SectionOk r c b freed next →
      RegistryEffect r l ((r.store c.node b freed).move c next)

theorem freed_leaveBarrier {b : BarrierT} (h : (leaveBarrier b).2 = true) :
    (leaveBarrier b).1.refcount = 0 ∧ (leaveBarrier b).1.destroyed = true := by
  rw [leaveBarrier, Bool.and_eq_true, decide_eq_true_iff] at h
  exact h

namespace RegistryInv

variable {r : Registry} {a : Addr} {my : BitVec 32} {l : RegistryLabel}

theorem not_listed (h : RegistryInv r) (hd : (r.barrier a).destroyed = true) : a ∉ r.list := by
  intro ha
  rw [(h.linked a ha).2] at hd
  cases hd

theorem arrive (h : RegistryInv r) (hc : .waitFound a ∈ r.calls) :
    RegistryEffect r l (arriveAt r a) := by
  have hwait : (r.barrier a).Filling := h.waiting a (h.held _ hc)
  rw [arriveAt, arrivalSection]
  by_cases hd : (r.barrier a).destroyed = true
  · rw [if_pos hd]
    exact .runs hc ⟨rfl, rfl, hwait, fun _ => h.not_listed hd, freed_leaveBarrier,
      fun _ e => (by cases e)⟩
  · rw [if_neg hd]
    dsimp only
    by_cases hfull : (r.barrier a).waitingCount + 1 = (r.barrier a).initialCount
    · -- the group is complete: the counter is reset
      rw [if_pos hfull]
      refine .runs hc ⟨rfl, rfl, ⟨Int.le_refl 0, ?_⟩, fun e => absurd e hd, freed_leaveBarrier,
        fun _ e => (by cases e)⟩
      obtain ⟨hlo, hhi⟩ := hwait
      show 0 < (r.barrier a).initialCount
      omega
    · rw [if_neg hfull]
      refine .runs hc ⟨rfl, (Int.sub_zero _).symm, ?_, fun e => absurd e hd,
        fun e => (by cases e), ?_⟩
      · obtain ⟨hlo, hhi⟩ := hwait
        show 0 ≤ (r.barrier a).waitingCount + 1 ∧
          (r.barrier a).waitingCount + 1 < (r.barrier a).initialCount
        omega
      · rintro _ ⟨⟩
        exact ⟨rfl, fun _ e => (by cases e)⟩

theorem wake (h : RegistryInv r) (hc : .sleeping a my ∈ r.calls) :
    RegistryEffect r l (r.move (.sleeping a my) (some (.woken a my))) := by
  have hstore : r.store a (r.barrier a) false = r := by
    rw [Registry.store, Function.update_eq_self]
    rfl
  have hok : SectionOk r (.sleeping a my) (r.barrier a) false (some (.woken a my)) := by
    refine ⟨rfl, (Int.sub_zero _).symm, h.waiting a (h.held _ hc),
      fun hd => h.not_listed hd, fun e => (by cases e), ?_⟩
    rintro _ ⟨⟩
    exact ⟨rfl, fun _ e => (by cases e)⟩
  have heff := RegistryEffect.runs (l := l) hc hok
  rw [show r.store (Call.sleeping a my).node (r.barrier a) false = r from hstore] at heff
  exact heff

theorem leave (h : RegistryInv r) (hc : .woken a my ∈ r.calls) :
    RegistryEffect r l (leaveFrom r a my) :=
  .runs hc ⟨rfl, rfl, h.waiting a (h.held _ hc), fun hd => h.not_listed hd, freed_leaveBarrier,
    fun _ e => (by cases e)⟩

theorem destroy (h : RegistryInv r) (hc : .destroyUnlinked a ∈ r.calls) :
    RegistryEffect r l (destroyAt r a) :=
  .runs hc ⟨rfl, rfl, h.waiting a (h.held _ hc), fun _ => h.unlinked a hc, freed_leaveBarrier,
    fun _ e => (by cases e)⟩

end RegistryInv

theorem registryStep_effect {r r' : Registry} {l : RegistryLabel} (h : RegistryInv r)
    (hst : RegistryStep r l r') : RegistryEffect r l r' := by
  cases hst with
  | @create num memory hfree =>
      by_cases hnum : num < 1
      · rw [barriercreate_of_lt hnum]
        exact .nothing
      · cases memory with
        | none =>
            rw [barriercreate_none (by omega)]
            exact .nothing
        | some a => exact .creates rfl (by omega) (hfree a rfl)
  | lookupWait _ hget =>
      obtain ⟨ha, rfl⟩ := getBarrierNode_eq_some hget
      exact .enters (c := .waitFound _) ha fun _ e => (by cases e)
  | arrive hc => exact h.arrive hc
  | wake hc _ => exact h.wake hc
  | leave hc => exact h.leave hc
  | lookupDestroy _ hget =>
      obtain ⟨ha, rfl⟩ := getBarrierNode_eq_some hget
      exact .enters (c := .destroyFound _) ha fun _ e => (by cases e)
  | unlink hc ha => exact .unlinks hc ha
  | destroy hc => exact h.destroy hc

/-! ## Steps keep the invariant -/

namespace RegistryInv

variable {r : Registry} {a : Addr} {c : Call}

theorem creates (h : RegistryInv r) {num : Int} (hnum : 1 ≤ num) (hfree : r.allocated a = false) :
    RegistryInv (barriercreate r num (some a)).2 := by
  have hnew : ∀ b, r.allocated b = true → b ≠ a := by
    rintro b hb rfl
    rw [hfree] at hb
    cases hb
  have hlist : (barriercreate r num (some a)).2.list = a :: r.list := by
    rw [barriercreate_some hnum]
  have hcalls : (barriercreate r num (some a)).2.calls = r.calls := by
    rw [barriercreate_some hnum]
  have hholders : ∀ b, (barriercreate r num (some a)).2.holders b = r.holders b := by
    intro b
    rw [Registry.holders, hcalls, Registry.holders]
  refine ⟨?_, ?_, ?_, ?_, ?_, ?_⟩
  · rw [hlist]
    exact List.nodup_cons.mpr ⟨fun ha => hnew a (h.linked a ha).1 rfl, h.nodup⟩
  · intro b hb
    rw [hlist] at hb
    rcases List.mem_cons.mp hb with rfl | hb
    · refine ⟨(allocated_barriercreate hnum).mpr (Or.inl rfl), ?_⟩
      rw [barriercreate_self hnum]
      rfl
    · refine ⟨(allocated_barriercreate hnum).mpr (Or.inr (h.linked b hb).1), ?_⟩
      rw [barriercreate_of_ne hnum (hnew b (h.linked b hb).1)]
      exact (h.linked b hb).2
  · intro c hc
    rw [hcalls] at hc
    exact (allocated_barriercreate hnum).mpr (Or.inr (h.held c hc))
  · intro b hb hmem
    rw [hcalls] at hb
    rw [hlist] at hmem
    rcases List.mem_cons.mp hmem with rfl | hmem
    · exact hnew _ (h.held _ hb) rfl
    · exact h.unlinked b hb hmem
  · intro b hb
    rw [hholders]
    by_cases hba : b = a
    · -- nobody was on the new node
      have hzero : r.holders a = 0 :=
        Registry.holders_eq_zero.mpr fun c hc e => hnew _ (h.held c hc) e
      rw [hba, barriercreate_self hnum, hzero]
      rfl
    · rw [barriercreate_of_ne hnum hba]
      exact h.refcount b (((allocated_barriercreate hnum).mp hb).resolve_left hba)
  · intro b hb
    by_cases hba : b = a
    · rw [hba, barriercreate_self hnum]
      exact ⟨Int.le_refl 0, hnum⟩
    · rw [barriercreate_of_ne hnum hba]
      exact h.waiting b (((allocated_barriercreate hnum).mp hb).resolve_left hba)

theorem enters (h : RegistryInv r) (ha : c.node ∈ r.list) (hc : ∀ a, c ≠ .destroyUnlinked a) :
    RegistryInv (r.enter (r.kernel.incRefcount c.node) c) := by
  have hother : ∀ b, b ≠ c.node → (r.kernel.incRefcount c.node).barrier b = r.barrier b :=
    fun b hb => r.kernel.incRefcount_of_ne hb
  have hself := r.kernel.incRefcount_self c.node
  refine ⟨h.nodup, ?_, ?_, ?_, ?_, ?_⟩
  · intro b hb
    refine ⟨(h.linked b hb).1, ?_⟩
    show ((r.kernel.incRefcount c.node).barrier b).destroyed = false
    by_cases hbc : b = c.node
    · rw [hbc, hself]
      exact (h.linked _ ha).2
    · rw [hother b hbc]
      exact (h.linked b hb).2
  · intro c' hc'
    rcases Multiset.mem_cons.mp hc' with rfl | hc'
    · exact (h.linked _ ha).1
    · exact h.held c' hc'
  · intro b hb
    rcases Multiset.mem_cons.mp hb with e | hb
    · exact absurd e.symm (hc b)
    · exact h.unlinked b hb
  · intro b hb
    show ((r.kernel.incRefcount c.node).barrier b).refcount =
      ((c ::ₘ r.calls).countP (·.node = b) : Int)
    rw [Multiset.countP_cons]
    by_cases hbc : b = c.node
    · rw [hbc, hself, if_pos rfl]
      exact congrArg (· + 1) (h.refcount _ (h.linked _ ha).1)
    · rw [hother b hbc, if_neg (Ne.symm hbc)]
      exact h.refcount b hb
  · intro b hb
    show ((r.kernel.incRefcount c.node).barrier b).Filling
    by_cases hbc : b = c.node
    · rw [hbc, hself]
      exact h.waiting _ (h.linked _ ha).1
    · rw [hother b hbc]
      exact h.waiting b hb

theorem unlinks (h : RegistryInv r) (hc : .destroyFound a ∈ r.calls) :
    RegistryInv ((r.listDel a).move (.destroyFound a) (some (.destroyUnlinked a))) := by
  have hsub : ∀ b, b ∈ r.list.erase a → b ∈ r.list := fun b => List.mem_of_mem_erase
  refine ⟨h.nodup.erase a, fun b hb => h.linked b (hsub b hb), ?_, ?_, ?_, h.waiting⟩
  · intro c' hc'
    rcases Registry.mem_move hc' with e | hc'
    · cases e
      exact h.held (.destroyFound a) hc
    · exact h.held c' hc'
  · intro b hb hmem
    rcases Registry.mem_move hb with e | hb
    · cases e
      exact (List.Nodup.mem_erase_iff h.nodup).mp hmem |>.1 rfl
    · exact h.unlinked b hb (hsub b hmem)
  · intro b hb
    have hsame : ((r.listDel a).move (.destroyFound a) (some (.destroyUnlinked a))).holders b =
        r.holders b := Nat.add_right_cancel (Registry.holders_move (r := r.listDel a) hc)
    rw [hsame]
    exact h.refcount b hb

theorem runs (h : RegistryInv r) (hc : c ∈ r.calls) {b : BarrierT} {freed : Bool}
    {next : Option Call} (hok : SectionOk r c b freed next) :
    RegistryInv ((r.store c.node b freed).move c next) := by
  have halloc : ∀ d, ((r.store c.node b freed).move c next).allocated d = true ↔
      r.allocated d = true ∧ (freed = true → d ≠ c.node) := fun _ => Registry.allocated_store (b := b)
  -- the calls on a node, before and after
  have hcount : ∀ d, ((r.store c.node b freed).move c next).holders d +
      (if c.node = d then 1 else 0) =
        r.holders d + next.elim 0 fun c' => if c'.node = d then 1 else 0 :=
    fun d => Registry.holders_move (r := r.store c.node b freed) hc
  have hrefs : b.refcount = ((r.store c.node b freed).move c next).holders c.node := by
    have hthis := hcount c.node
    have hold := h.refcount _ (h.held c hc)
    rw [hok.refcount, hold]
    cases next with
    | none =>
        simp only [if_true, Option.elim] at hthis ⊢
        omega
    | some c' =>
        simp only [if_true, Option.elim, (hok.next c' rfl).1] at hthis ⊢
        omega
  have hnext : ∀ d, d ≠ c.node →
      ((r.store c.node b freed).move c next).holders d = r.holders d := by
    intro d hd
    have hthis := hcount d
    rw [if_neg (Ne.symm hd)] at hthis
    cases next with
    | none => exact hthis
    | some c' =>
        simp only [Option.elim, (hok.next c' rfl).1, if_neg (Ne.symm hd)] at hthis
        exact hthis
  refine ⟨h.nodup, ?_, ?_, ?_, ?_, ?_⟩
  · intro d hd
    -- a node that is freed or marked is not listed
    refine ⟨(halloc d).mpr ⟨(h.linked d hd).1, ?_⟩, ?_⟩
    · rintro hfreed rfl
      exact hok.destroyed (hok.freed hfreed).2 hd
    · show ((r.store c.node b freed).barrier d).destroyed = false
      by_cases hdc : d = c.node
      · subst hdc
        rw [Registry.store_self, ← Bool.not_eq_true]
        exact fun e => hok.destroyed e hd
      · rw [Registry.store_of_ne hdc]
        exact (h.linked d hd).2
  · intro c' hc'
    refine (halloc _).mpr ⟨?_, fun hfreed => ?_⟩
    · rcases Registry.mem_move hc' with e | hold
      · rw [(hok.next c' e).1]
        exact h.held c hc
      · exact h.held c' hold
    · -- the node is freed when its last call leaves
      have hzero : ((r.store c.node b freed).move c next).holders c.node = 0 := by
        have hr := (hok.freed hfreed).1
        rw [hrefs] at hr
        exact_mod_cast hr
      exact Registry.holders_eq_zero.mp hzero c' hc'
  · intro d hd
    rcases Registry.mem_move hd with e | hd
    · exact absurd rfl ((hok.next _ e).2 d)
    · exact h.unlinked d hd
  · intro d hd
    show ((r.store c.node b freed).barrier d).refcount = _
    by_cases hdc : d = c.node
    · rw [hdc, Registry.store_self]
      exact hrefs
    · rw [Registry.store_of_ne hdc, hnext d hdc]
      exact h.refcount d ((halloc d).mp hd).1
  · intro d hd
    show ((r.store c.node b freed).barrier d).Filling
    by_cases hdc : d = c.node
    · rw [hdc, Registry.store_self]
      exact hok.waiting
    · rw [Registry.store_of_ne hdc]
      exact h.waiting d ((halloc d).mp hd).1

theorem effect {r' : Registry} {l : RegistryLabel} (h : RegistryInv r)
    (heff : RegistryEffect r l r') : RegistryInv r' := by
  cases heff with
  | nothing => exact h
  | creates _ hnum hfree => exact h.creates hnum hfree
  | enters ha hc => exact h.enters ha hc
  | unlinks hc _ => exact h.unlinks hc
  | runs hc hok => exact h.runs hc hok

end RegistryInv

theorem RegistryInv.step {r r' : Registry} {l : RegistryLabel} (h : RegistryInv r)
    (hst : RegistryStep r l r') : RegistryInv r' :=
  h.effect (registryStep_effect h hst)

theorem registryInv_reach {ok : Registry → RegistryLabel → Prop} {r : Registry}
    (h : registrySystem.Reach ok r) : RegistryInv r :=
  h.invariant (I := RegistryInv) (fun _ hboot => Boot.inv hboot)
    fun _ _ _ hinv _ hst => hinv.step hst

end LinuxHacks.Barrier
