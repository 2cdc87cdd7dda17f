import Mathlib.Logic.Function.Basic
import LinuxHacks.Errno

/-!
# Kernel barriers (`HW3/arch/i386/kernel/barrier.c`)

A barrier of size `N` holds its callers until `N` of them have arrived, then
releases the group and starts the next round. The file is split as the code is
locked: this module has the sections executed under `b->spin_lock` as functions
on one `barrier_t`, and, above them, the list of all barriers with the lookup
that runs under `search_lock`.

* `arrivalSection`, `leaveSection`, `destroySection`: the three spin-lock
  sections of `sys_barrierwait` and `sys_barrierdestroy`, each ending in
  `_leave_barrier` where the code does;
* `getBarrierNode`, `barrierwaitEnter`, `barrierdestroyId`: the system calls as
  they run alone, from the lookup on.

Counters are `Int`; `barrier_iteration` and `bID` are 32-bit words, because the
code compares them for equality after they may have wrapped.
-/

namespace LinuxHacks.Barrier

/-- `barrier_t`, without its lock and its wait queue. -/
structure BarrierT where
  bID : BitVec 32
  refcount : Int
  waitingCount : Int
  initialCount : Int
  barrierIteration : BitVec 32
  destroyed : Bool
deriving DecidableEq, Repr

/-- The fields `sys_barriercreate(num)` sets. -/
def BarrierT.create (num : Int) (id : BitVec 32) : BarrierT where
  bID := id
  refcount := 0
  waitingCount := 0
  initialCount := num
  barrierIteration := 0
  destroyed := false

/-! ## Sections under `b->spin_lock` -/

/-- `_leave_barrier`: drop the reference; the flag says whether the barrier and
its node are freed. -/
def leaveBarrier (b : BarrierT) : BarrierT × Bool :=
  let b := { b with refcount := b.refcount - 1 }
  (b, decide (b.refcount = 0) && b.destroyed)

/-- What a call does after its arrival section. -/
inductive Arrival where
  /-- The barrier was destroyed: leave with `-EINVAL`. -/
  | refused
  /-- The group is complete: everybody is woken, this call returns 0. -/
  | released (myIteration : BitVec 32)
  /-- Unlock and go to sleep. -/
  | sleeps (myIteration : BitVec 32)
deriving DecidableEq, Repr

/-- The first locked section of `sys_barrierwait`, up to `_leave_barrier` or
the unlock before the sleep. -/
def arrivalSection (b : BarrierT) : Arrival × BarrierT × Bool :=
  if b.destroyed then (.refused, leaveBarrier b)
  else
    let myIteration := b.barrierIteration
    let b := { b with waitingCount := b.waitingCount + 1 }
    if b.waitingCount = b.initialCount then
      let b := { b with barrierIteration := b.barrierIteration + 1, waitingCount := 0 }
      (.released myIteration, leaveBarrier b)
    else (.sleeps myIteration, b, false)

/-- The last locked section of `sys_barrierwait`: the value returned. -/
def leaveSection (b : BarrierT) (myIteration : BitVec 32) : Int × BarrierT × Bool :=
  (if b.barrierIteration = myIteration then -ECANCELED else 0, leaveBarrier b)

/-- The locked section of `sys_barrierdestroy`: the number of waiters found. -/
def destroySection (b : BarrierT) : Int × BarrierT × Bool :=
  (b.waitingCount, leaveBarrier { b with destroyed := true })

/-! ## The list of barriers -/

/-- The address of a `barrier_node_t` (and of the barrier it points to). -/
abbrev Addr := Nat

/-- `barrier_list`, head first, and the barriers it links. -/
structure Kernel where
  barrierList : List Addr
  barrier : Addr → BarrierT

/-- A node for the identifier is linked in `barrier_list`. -/
def Kernel.Live (k : Kernel) (barrierID : Int) : Prop :=
  ∃ a ∈ k.barrierList, (k.barrier a).bID = BitVec.ofInt 32 barrierID

/-- The loop of `_get_barrier_node`: `objPtr` is overwritten by every node
visited, and the loop stops at a match. -/
def searchLoop (k : Kernel) (barrierID : Int) : List Addr → Option Addr → Option Addr
  | [], objPtr => objPtr
  | iter :: rest, _ =>
      if (k.barrier iter).bID = BitVec.ofInt 32 barrierID then some iter
      else searchLoop k barrierID rest (some iter)

/-- `atomic_inc(&objPtr->barrier->refcount)`. -/
def Kernel.incRefcount (k : Kernel) (a : Addr) : Kernel :=
  { k with
    barrier := Function.update k.barrier a
      { k.barrier a with refcount := (k.barrier a).refcount + 1 } }

/-- `_get_barrier_node`. -/
def getBarrierNode (k : Kernel) (barrierID : Int) : Option Addr × Kernel :=
  match searchLoop k barrierID k.barrierList none with
  | some objPtr => (some objPtr, k.incRefcount objPtr)
  | none => (none, k)

/-- Where a `sys_barrierwait` stands when it first blocks or returns. -/
inductive WaitEnter where
  | returned (value : Int)
  | sleeps (node : Addr) (myIteration : BitVec 32)
deriving DecidableEq, Repr

/-- `sys_barrierwait` up to its return or its sleep. -/
def barrierwaitEnter (k : Kernel) (barrierID : Int) : WaitEnter × Kernel :=
  if barrierID < 0 then (.returned (-EINVAL), k)
  else
    match getBarrierNode k barrierID with
    | (none, k) => (.returned (-EINVAL), k)
    | (some a, k) =>
        let (arrival, b, _) := arrivalSection (k.barrier a)
        let k := { k with barrier := Function.update k.barrier a b }
        match arrival with
        | .refused => (.returned (-EINVAL), k)
        | .released _ => (.returned 0, k)
        | .sleeps my => (.sleeps a my, k)

/-- `sys_barrierdestroy` for an identifier other than -1. -/
def barrierdestroyId (k : Kernel) (barrierID : Int) : Int × Kernel :=
  if barrierID < 0 then (-EINVAL, k)
  else
    match getBarrierNode k barrierID with
    | (none, k) => (-EINVAL, k)
    | (some a, k) =>
        let k := { k with barrierList := k.barrierList.erase a }
        let (wc, b, _) := destroySection (k.barrier a)
        (wc, { k with barrier := Function.update k.barrier a b })

end LinuxHacks.Barrier
