import LinuxHacks.Lib.Ledger
import LinuxHacks.Lib.Transition
import LinuxHacks.SyscallFail.Injection

/-!
# Fault injection across `fork` (`HW2/kernel/fork.c`)

Here the fail vector of a task is a pointer. `dup_task_struct` first copies the
whole structure, so that parent and child share the vector, and then gives the
child its own copy; `free_task` frees what its task has, also for a child that
is given up half way. The calls of `syscall_fail.c` are restated over the heap
(`exec_deref`: they are the calls of `Model` on the dereferenced task), and the
tasks own the allocations in the sense of `Lib.Ledger`.
-/

namespace LinuxHacks.SyscallFail

open LinuxHacks.Lib LinuxHacks.Lib.Ledger

/-! ## Tasks over a heap -/

abbrev Addr := Nat

abbrev TaskId := Nat

/-- The three fields of `struct task_struct`, the vector by its address. -/
structure TaskStruct where
  failSkipCount : Int
  failVecLength : Int
  failVector : Option Addr
deriving DecidableEq, Repr

/-- The vectors by their address, and the calls of `kmalloc` and `kfree` so far. -/
structure Memory where
  heap : Addr → FailVector
  log : List (Entry Addr)

/-- The task with its vector in place of the address. -/
def TaskStruct.deref (t : TaskStruct) (m : Memory) : Task :=
  ⟨t.failSkipCount, t.failVecLength, t.failVector.map m.heap⟩

/-- `kmalloc` returns `p`, and the allocation is filled with `v`. -/
def Memory.kmalloc (m : Memory) (p : Addr) (v : FailVector) : Memory :=
  ⟨Function.update m.heap p v, m.log ++ [.alloc p]⟩

def Memory.kfree (m : Memory) (p : Addr) : Memory := { m with log := m.log ++ [.free p] }

def Memory.freeFail (m : Memory) (tsk : TaskStruct) : Memory × TaskStruct :=
  match tsk.failVector with
  | some p => (m.kfree p, ⟨0, 0, none⟩)
  | none => (m, ⟨0, 0, none⟩)

/-- `sys_fail`; `p` is what `kmalloc` returns when it succeeds. -/
def Memory.sysFail (m : Memory) (tsk : TaskStruct) (ith ncall : Int)
    (calls : Option (Nat → SyscallFailure)) (env : Env) (p : Addr) :
    Int × Memory × TaskStruct :=
  match calls with
  | none => (-EINVAL, m, tsk)
  | some calls =>
      if 0 > ith ∨ 1 > ncall then (-EINVAL, m, tsk)
      else if tsk.failVector.isSome then (-EINVAL, m, tsk)
      else if env.kmallocOk = false then (-ENOMEM, m, { tsk with failVector := none })
      else
        let m := m.kmalloc p (copiedVector ncall calls env)
        let tsk := { tsk with failVector := some p }
        if internalError (m.heap p) ncall env ≠ 0 then
          (-internalError (m.heap p) ncall env, m.freeFail tsk)
        else (0, m, { tsk with failSkipCount := ith, failVecLength := ncall })

def Memory.syscallFail (m : Memory) (tsk : TaskStruct) (nr : Int) : Int × Memory × TaskStruct :=
  let found := tsk.failVector.bind fun p =>
    findCall (m.heap p).entry nr tsk.failVecLength.toNat 0
  let err := match found with
    | some e => e.error
    | none => -1
  let tsk := match found with
    | some _ => { tsk with failSkipCount := tsk.failSkipCount - 1 }
    | none => tsk
  if tsk.failSkipCount < 0 then (-err, m.freeFail tsk) else (0, m, tsk)

/-- The call gets memory from `kmalloc` if it asks for it. -/
def Op.kmallocs : Op → Bool
  | .call _ => false
  | .fail _ _ _ env => env.kmallocOk

def Memory.exec (m : Memory) (tsk : TaskStruct) (p : Addr) : Op → Int × Memory × TaskStruct
  | .call nr => m.syscallFail tsk nr
  | .fail ith ncall calls env => m.sysFail tsk ith ncall calls env p

/-! ## `fork` -/

/-- `free_task`: `free_fail`, and the structure is gone. -/
def Memory.freeTask (m : Memory) (tsk : TaskStruct) : Memory := (m.freeFail tsk).1

/-- What a `fork` meets: whether the task structure and the thread info are
allocated, what `kmalloc` returns for the vector, what the fresh memory
contains, and the error that makes `copy_process` give up later, if any. -/
structure ForkEnv where
  taskOk : Bool
  kmalloc : Option Addr
  memory : Nat → SyscallFailure
  later : Option Int

/-- The vector of the child after the loop of `dup_task_struct`: `length`
entries of the parent's, in an allocation of `vectorBytes length` bytes. -/
def dupVector (v : FailVector) (length : Int) (memory : Nat → SyscallFailure) : FailVector where
  capacity := vectorBytes length
  entry := fun i => if i < length.toNat then v.entry i else memory i

/-- `dup_task_struct`: the child, if there is one. `none` when the loop leaves
the allocation. -/
def Memory.dupTaskStruct (m : Memory) (orig : TaskStruct) (env : ForkEnv) :
    Option (Memory × Option TaskStruct) :=
  if env.taskOk = false then some (m, none)
  else
    -- `*tsk = *orig`, the pointer included
    let tsk := orig
    match orig.failVector with
    | none => some (m, some tsk)
    | some q =>
        match env.kmalloc with
        | none => some (m.freeTask { tsk with failVector := none }, none)
        | some p =>
            if tsk.failVecLength.toNat * sizeofSyscallFailure ≤ vectorBytes orig.failVecLength then
              some (m.kmalloc p (dupVector (m.heap q) tsk.failVecLength env.memory),
                some { tsk with failVector := some p })
            else none

/-- `copy_process`: the value it returns as an error, 0 for a child. -/
def Memory.copyProcess (m : Memory) (orig : TaskStruct) (env : ForkEnv) :
    Option (Int × Memory × Option TaskStruct) := do
  let r ← m.dupTaskStruct orig env
  match r.2 with
  | none => some (-ENOMEM, r.1, none)
  | some tsk =>
      match env.later with
      | none => some (0, r.1, some tsk)
      | some error => some (error, r.1.freeTask tsk, none)

/-! ## The tasks of a machine -/

structure TaskTable where
  task : TaskId → Option TaskStruct
  mem : Memory

/-- What one live task does, or what happens to it. -/
inductive TaskOp where
  | op (i : TaskId) (o : Op) (p : Addr)
  | fork (i c : TaskId) (env : ForkEnv)
  | free (i : TaskId)

def TaskTable.step (k : TaskTable) : TaskOp → Option (Int × TaskTable)
  | .op i o p => do
      let tsk ← k.task i
      let r := k.mem.exec tsk p o
      some (r.1, ⟨Function.update k.task i (some r.2.2), r.2.1⟩)
  | .fork i c env =>
      if (k.task c).isSome then none
      else do
        let orig ← k.task i
        let r ← k.mem.copyProcess orig env
        some (r.1, ⟨Function.update k.task c r.2.2, r.2.1⟩)
  | .free i => do
      let tsk ← k.task i
      some (0, ⟨Function.update k.task i none, k.mem.freeTask tsk⟩)

/-- `kmalloc` returns an allocation that nobody has. -/
def KmallocOk (k : TaskTable) : TaskOp → Prop
  | .op _ o p => o.kmallocs = true → ¬ Outstanding k.mem.log p
  | .fork _ _ env => ∀ p, env.kmalloc = some p → ¬ Outstanding k.mem.log p
  | .free _ => True

/-- At boot no task is armed. -/
def taskTable : System TaskTable TaskOp where
  init k := (∀ i t, k.task i = some t → t = ⟨0, 0, none⟩) ∧ k.mem.log = []
  step k op k' := ∃ r, k.step op = some (r, k')

/-! ## The calls over the heap are the calls of the model -/

theorem freeFail_deref (m : Memory) (tsk : TaskStruct) :
    (m.freeFail tsk).2 = ⟨0, 0, none⟩ := by
  unfold Memory.freeFail
  split <;> rfl

theorem freeFail_heap (m : Memory) (tsk : TaskStruct) : (m.freeFail tsk).1.heap = m.heap := by
  unfold Memory.freeFail
  split <;> rfl

theorem syscallFail_deref (m : Memory) (tsk : TaskStruct) (nr : Int) :
    (m.syscallFail tsk nr).1 = (SyscallFail.syscallFail (tsk.deref m) nr).1 ∧
      (m.syscallFail tsk nr).2.2.deref (m.syscallFail tsk nr).2.1 =
        (SyscallFail.syscallFail (tsk.deref m) nr).2 ∧
      (m.syscallFail tsk nr).2.1.heap = m.heap := by
  have hfound : lookupCall (tsk.deref m) nr = tsk.failVector.bind fun p =>
      findCall (m.heap p).entry nr tsk.failVecLength.toNat 0 := by
    unfold lookupCall TaskStruct.deref
    rw [Option.bind_map]
    rfl
  unfold Memory.syscallFail SyscallFail.syscallFail
  rw [hfound]
  cases tsk.failVector.bind fun p => findCall (m.heap p).entry nr tsk.failVecLength.toNat 0 with
  | none =>
      dsimp only
      by_cases hneg : tsk.failSkipCount < 0
      · have hneg' : (tsk.deref m).failSkipCount < 0 := hneg
        rw [if_pos hneg, if_pos hneg']
        exact ⟨rfl, by rw [freeFail_deref]; rfl, freeFail_heap m _⟩
      · have hneg' : ¬ (tsk.deref m).failSkipCount < 0 := hneg
        rw [if_neg hneg, if_neg hneg']
        exact ⟨rfl, rfl, rfl⟩
  | some e =>
      dsimp only
      by_cases hneg : tsk.failSkipCount - 1 < 0
      · have hneg' : (tsk.deref m).failSkipCount - 1 < 0 := hneg
        rw [if_pos hneg, if_pos hneg']
        exact ⟨rfl, by rw [freeFail_deref]; rfl, freeFail_heap m _⟩
      · have hneg' : ¬ (tsk.deref m).failSkipCount - 1 < 0 := hneg
        rw [if_neg hneg, if_neg hneg']
        exact ⟨rfl, rfl, rfl⟩

theorem kmalloc_heap_self (m : Memory) (p : Addr) (v : FailVector) :
    (m.kmalloc p v).heap p = v := Function.update_self ..

theorem sysFail_deref (m : Memory) (tsk : TaskStruct) (ith ncall : Int)
    (calls : Option (Nat → SyscallFailure)) (env : Env) (p : Addr) :
    (m.sysFail tsk ith ncall calls env p).1 =
        (SyscallFail.sysFail (tsk.deref m) ith ncall calls env).1 ∧
      (m.sysFail tsk ith ncall calls env p).2.2.deref (m.sysFail tsk ith ncall calls env p).2.1 =
        (SyscallFail.sysFail (tsk.deref m) ith ncall calls env).2 ∧
      ∀ q, q ≠ p ∨ env.kmallocOk = false →
        (m.sysFail tsk ith ncall calls env p).2.1.heap q = m.heap q := by
  unfold Memory.sysFail SyscallFail.sysFail
  cases calls with
  | none => exact ⟨rfl, rfl, fun _ _ => rfl⟩
  | some calls =>
      dsimp only
      by_cases hargs : 0 > ith ∨ 1 > ncall
      · rw [if_pos hargs, if_pos hargs]
        exact ⟨rfl, rfl, fun _ _ => rfl⟩
      rw [if_neg hargs, if_neg hargs]
      have hsome : (tsk.deref m).failVector.isSome = tsk.failVector.isSome := by
        simp [TaskStruct.deref]
      rw [hsome]
      by_cases harmed : tsk.failVector.isSome = true
      · rw [if_pos harmed, if_pos harmed]
        exact ⟨rfl, rfl, fun _ _ => rfl⟩
      rw [if_neg harmed, if_neg harmed]
      by_cases hkmalloc : env.kmallocOk = false
      · rw [if_pos hkmalloc, if_pos hkmalloc]
        exact ⟨rfl, rfl, fun _ _ => rfl⟩
      rw [if_neg hkmalloc, if_neg hkmalloc, kmalloc_heap_self]
      have hheap : ∀ q, q ≠ p ∨ env.kmallocOk = false →
          (m.kmalloc p (copiedVector ncall calls env)).heap q = m.heap q := by
        rintro q (hq | hno)
        · exact Function.update_of_ne hq _ _
        · exact absurd hno hkmalloc
      by_cases herr : internalError (copiedVector ncall calls env) ncall env ≠ 0
      · rw [if_pos herr, if_pos herr]
        refine ⟨rfl, by rw [freeFail_deref]; rfl, ?_⟩
        intro q hq
        rw [freeFail_heap]
        exact hheap q hq
      · rw [if_neg herr, if_neg herr]
        refine ⟨rfl, ?_, hheap⟩
        show (⟨ith, ncall, some ((m.kmalloc p (copiedVector ncall calls env)).heap p)⟩ : Task) = _
        rw [kmalloc_heap_self]

/-- **The calls over the heap refine the calls of the model**, and write to no
other allocation. -/
theorem exec_deref (m : Memory) (tsk : TaskStruct) (p : Addr) (o : Op) :
    (m.exec tsk p o).1 = (exec (tsk.deref m) o).1 ∧
      (m.exec tsk p o).2.2.deref (m.exec tsk p o).2.1 = (exec (tsk.deref m) o).2 ∧
      ∀ q, q ≠ p ∨ o.kmallocs = false → (m.exec tsk p o).2.1.heap q = m.heap q := by
  cases o with
  | call nr =>
      obtain ⟨hret, htask, hheap⟩ := syscallFail_deref m tsk nr
      exact ⟨hret, htask, fun q _ => congrFun hheap q⟩
  | fail ith ncall calls env => exact sysFail_deref m tsk ith ncall calls env p

/-! ## Ownership -/

section Owners

variable {own : TaskId → Option Addr} {m : Memory} {tsk : TaskStruct} {i : TaskId}

/-- `free_fail` gives up the allocation of the task, if it has one. -/
theorem owned_freeFail (tsk : TaskStruct) (h : Owned own m.log) (hi : own i = tsk.failVector) :
    Owned (Function.update own i none) (m.freeFail tsk).1.log := by
  unfold Memory.freeFail
  cases hp : tsk.failVector with
  | none =>
      have hsame : Function.update own i none = own := by
        rw [← hp, ← hi, Function.update_eq_self]
      rw [hsame]
      exact h
  | some p => exact h.free (hi.trans hp)

/-- A call of the task leaves it with what it owns. -/
theorem owned_exec (h : Owned own m.log) (hi : own i = tsk.failVector) {o : Op} {p : Addr}
    (hp : o.kmallocs = true → ¬ Outstanding m.log p) :
    Owned (Function.update own i (m.exec tsk p o).2.2.failVector) (m.exec tsk p o).2.1.log := by
  have hsame : Function.update own i tsk.failVector = own := by
    rw [← hi, Function.update_eq_self]
  have hfreed : ∀ tsk' : TaskStruct, tsk'.failVector = tsk.failVector →
      Owned (Function.update own i (m.freeFail tsk').2.failVector) (m.freeFail tsk').1.log := by
    intro tsk' htsk'
    rw [freeFail_deref]
    exact owned_freeFail _ h (hi.trans htsk'.symm)
  cases o with
  | call nr =>
      show Owned (Function.update own i (m.syscallFail tsk nr).2.2.failVector)
        (m.syscallFail tsk nr).2.1.log
      unfold Memory.syscallFail
      cases tsk.failVector.bind fun p => findCall (m.heap p).entry nr tsk.failVecLength.toNat 0 with
      | none =>
          dsimp only
          split
          · exact hfreed _ rfl
          · rw [hsame]
            exact h
      | some e =>
          dsimp only
          split
          · exact hfreed _ rfl
          · rw [hsame]
            exact h
  | fail ith ncall calls env =>
      show Owned (Function.update own i (m.sysFail tsk ith ncall calls env p).2.2.failVector)
        (m.sysFail tsk ith ncall calls env p).2.1.log
      unfold Memory.sysFail
      cases calls with
      | none =>
          dsimp only
          rw [hsame]
          exact h
      | some calls =>
          dsimp only
          by_cases hargs : 0 > ith ∨ 1 > ncall
          · rw [if_pos hargs, hsame]
            exact h
          rw [if_neg hargs]
          by_cases harmed : tsk.failVector.isSome = true
          · rw [if_pos harmed, hsame]
            exact h
          rw [if_neg harmed]
          have hnone : tsk.failVector = none := by simpa using harmed
          by_cases hkmalloc : env.kmallocOk = false
          · rw [if_pos hkmalloc, ← hnone, hsame]
            exact h
          rw [if_neg hkmalloc]
          have hnew : ¬ Outstanding m.log p := hp (by simpa [Op.kmallocs] using hkmalloc)
          have halloc : Owned (Function.update own i (some p))
              (m.kmalloc p (copiedVector ncall calls env)).log :=
            h.alloc (hi.trans hnone) hnew
          split
          · rw [freeFail_deref]
            have hback := owned_freeFail { tsk with failVector := some p } halloc
              (Function.update_self ..)
            rw [Function.update_idem] at hback
            exact hback
          · exact halloc

/-- The child of a `fork` owns its allocation, or there is no child. -/
theorem owned_copyProcess (h : Owned own m.log) {c : TaskId} (hc : own c = none) {env : ForkEnv}
    (hp : ∀ p, env.kmalloc = some p → ¬ Outstanding m.log p)
    {r : Int × Memory × Option TaskStruct} (hr : m.copyProcess tsk env = some r) :
    Owned (Function.update own c (r.2.2.bind TaskStruct.failVector)) r.2.1.log := by
  have hsame : Function.update own c none = own := by
    rw [← hc, Function.update_eq_self]
  obtain ⟨d, hd, hr⟩ := Option.bind_eq_some_iff.mp hr
  -- after `dup_task_struct`
  have hdup : Owned (Function.update own c (d.2.bind TaskStruct.failVector)) d.1.log := by
    unfold Memory.dupTaskStruct at hd
    split at hd
    · cases hd
      dsimp only [Option.bind_none]
      rw [hsame]
      exact h
    · dsimp only at hd
      split at hd
      · next hnone =>
          cases hd
          dsimp only [Option.bind_some]
          rw [hnone, hsame]
          exact h
      · split at hd
        · cases hd
          dsimp only [Option.bind_none]
          rw [hsame]
          exact h
        · next p hkmalloc =>
            split at hd
            · cases hd
              exact h.alloc hc (hp p hkmalloc)
            · cases hd
  split at hr
  · next hnone =>
      cases hr
      rw [hnone] at hdup
      exact hdup
  · next child hchild =>
      rw [hchild] at hdup
      split at hr
      · cases hr
        exact hdup
      · cases hr
        have hback := owned_freeFail child hdup (Function.update_self ..)
        rw [Function.update_idem] at hback
        exact hback

end Owners

/-! ## Copies -/

/-- The same injection in two allocations: equal counts, and vectors that agree
on their entries. -/
structure CopyOf (t u : Task) : Prop where
  skip : u.failSkipCount = t.failSkipCount
  length : u.failVecLength = t.failVecLength
  armed : u.failVector.isSome = t.failVector.isSome
  entry : ∀ v v', t.failVector = some v → u.failVector = some v' →
    ∀ i < t.failVecLength.toNat, v'.entry i = v.entry i

theorem CopyOf.refl (t : Task) : CopyOf t t := by
  refine ⟨rfl, rfl, rfl, ?_⟩
  intro v v' hv hv' i _
  rw [hv] at hv'
  cases hv'
  rfl

theorem findCall_congr {v v' : Nat → SyscallFailure} {nr : Int} : ∀ {left i : Nat},
    (∀ j, i ≤ j → j < i + left → v' j = v j) → findCall v' nr left i = findCall v nr left i
  | 0, _, _ => rfl
  | left + 1, i, h => by
      have htail : findCall v' nr left (i + 1) = findCall v nr left (i + 1) :=
        findCall_congr fun j hij hj => h j (by omega) (by omega)
      rw [findCall, findCall, h i (le_refl _) (by omega), htail]

theorem CopyOf.lookupCall {t u : Task} (h : CopyOf t u) (nr : Int) :
    lookupCall u nr = lookupCall t nr := by
  unfold SyscallFail.lookupCall
  have harmed := h.armed
  cases ht : t.failVector with
  | none =>
      rw [ht] at harmed
      rw [Option.isSome_eq_false_iff.mp harmed |> Option.isNone_iff_eq_none.mp]
      rfl
  | some v =>
      rw [ht] at harmed
      obtain ⟨v', hv'⟩ := Option.isSome_iff_exists.mp harmed
      rw [hv', Option.bind_some, Option.bind_some, h.length]
      exact findCall_congr fun j _ hj => h.entry v v' ht hv' j (by omega)

/-- Copies answer alike and stay copies. -/
theorem CopyOf.exec {t u : Task} (h : CopyOf t u) (o : Op) :
    (exec u o).1 = (exec t o).1 ∧ CopyOf (exec t o).2 (exec u o).2 := by
  cases o with
  | call nr =>
      show (syscallFail u nr).1 = (syscallFail t nr).1 ∧
        CopyOf (syscallFail t nr).2 (syscallFail u nr).2
      unfold syscallFail
      rw [h.lookupCall nr]
      cases SyscallFail.lookupCall t nr with
      | none =>
          dsimp only
          rw [h.skip]
          split
          · exact ⟨rfl, CopyOf.refl _⟩
          · exact ⟨rfl, h⟩
      | some e =>
          dsimp only
          rw [h.skip]
          split
          · exact ⟨rfl, CopyOf.refl _⟩
          · exact ⟨rfl, rfl, h.length, h.armed, h.entry⟩
  | fail ith ncall calls env =>
      show (sysFail u ith ncall calls env).1 = (sysFail t ith ncall calls env).1 ∧
        CopyOf (sysFail t ith ncall calls env).2 (sysFail u ith ncall calls env).2
      unfold sysFail
      cases calls with
      | none => exact ⟨rfl, h⟩
      | some calls =>
          dsimp only
          rw [h.armed]
          split
          · exact ⟨rfl, h⟩
          · split
            · exact ⟨rfl, h⟩
            · split
              · refine ⟨rfl, h.skip, h.length, rfl, ?_⟩
                intro v v' hv
                cases hv
              · split
                · exact ⟨rfl, CopyOf.refl _⟩
                · refine ⟨rfl, rfl, rfl, rfl, ?_⟩
                  intro v v' hv hv' j _
                  cases hv
                  cases hv'
                  rfl

theorem CopyOf.trace {t u : Task} (h : CopyOf t u) (ops : List Op) : trace u ops = trace t ops := by
  induction ops generalizing t u with
  | nil => rfl
  | cons o ops ih =>
      obtain ⟨hret, hcopy⟩ := h.exec o
      rw [SyscallFail.trace, SyscallFail.trace, hret, ih hcopy]

/-! ## The invariant -/

def TaskTable.owns (k : TaskTable) (i : TaskId) : Option Addr :=
  (k.task i).bind TaskStruct.failVector

/-- Task `i` with its vector. -/
def TaskTable.view (k : TaskTable) (i : TaskId) : Option Task :=
  (k.task i).map fun t => t.deref k.mem

/-- An accepted vector has at most `NR_syscalls` entries. -/
def LengthOk (t : TaskStruct) : Prop := 0 ≤ t.failVecLength ∧ t.failVecLength ≤ 289

structure TableInv (k : TaskTable) : Prop where
  owned : Owned k.owns k.mem.log
  length : ∀ i t, k.task i = some t → LengthOk t

theorem owns_update (k : TaskTable) (i : TaskId) (t : Option TaskStruct) (m : Memory) :
    (⟨Function.update k.task i t, m⟩ : TaskTable).owns =
      Function.update k.owns i (t.bind TaskStruct.failVector) := by
  funext j
  by_cases hj : j = i
  · rw [hj, Function.update_self]
    show (Function.update k.task i t i).bind TaskStruct.failVector = _
    rw [Function.update_self]
  · rw [Function.update_of_ne hj]
    show (Function.update k.task i t j).bind TaskStruct.failVector = _
    rw [Function.update_of_ne hj]
    rfl

theorem TableInv.update {k : TaskTable} (h : TableInv k) {i : TaskId} {t : Option TaskStruct}
    {m : Memory} (howned : Owned (Function.update k.owns i (t.bind TaskStruct.failVector)) m.log)
    (hlength : ∀ u, t = some u → LengthOk u) : TableInv ⟨Function.update k.task i t, m⟩ := by
  refine ⟨?_, ?_⟩
  · rw [owns_update]
    exact howned
  · intro j u hj
    by_cases hji : j = i
    · subst hji
      have hu : Function.update k.task j t j = some u := hj
      rw [Function.update_self] at hu
      exact hlength u hu
    · have hu : Function.update k.task i t j = some u := hj
      rw [Function.update_of_ne hji] at hu
      exact h.length j u hu

theorem lengthOk_exec {m : Memory} {tsk : TaskStruct} (h : LengthOk tsk) (p : Addr) (o : Op) :
    LengthOk (m.exec tsk p o).2.2 := by
  have hzero : ∀ tsk' : TaskStruct, LengthOk (m.freeFail tsk').2 := by
    intro tsk'
    rw [freeFail_deref]
    exact ⟨le_refl 0, by decide⟩
  cases o with
  | call nr =>
      show LengthOk (m.syscallFail tsk nr).2.2
      unfold Memory.syscallFail
      cases tsk.failVector.bind fun p => findCall (m.heap p).entry nr tsk.failVecLength.toNat 0 with
      | none =>
          dsimp only
          split
          · exact hzero _
          · exact h
      | some e =>
          dsimp only
          split
          · exact hzero _
          · exact h
  | fail ith ncall calls env =>
      show LengthOk (m.sysFail tsk ith ncall calls env p).2.2
      unfold Memory.sysFail
      cases calls with
      | none => exact h
      | some calls =>
          dsimp only
          split
          · exact h
          · next hargs =>
              split
              · exact h
              · split
                · exact h
                · split
                  · rw [freeFail_deref]
                    exact ⟨le_refl 0, by decide⟩
                  · next herr =>
                      -- the entries have pairwise distinct numbers below 289
                      have hle := (internalError_eq_zero.mp (not_not.mp herr)).2.length_le
                      refine ⟨?_, ?_⟩
                      · show 0 ≤ ncall
                        omega
                      · show ncall ≤ 289
                        omega

/-- The copy of an accepted vector fits its allocation. -/
theorem LengthOk.fits {t : TaskStruct} (h : LengthOk t) :
    t.failVecLength.toNat * sizeofSyscallFailure ≤ vectorBytes t.failVecLength := by
  obtain ⟨hpos, hle⟩ := h
  unfold vectorBytes sizeofSyscallFailure
  omega

/-- **`copy_process` runs through**, and a child is a copy of its parent. The
vectors of other tasks are not written. -/
theorem copyProcess_spec {m : Memory} {orig : TaskStruct} (h : LengthOk orig) (env : ForkEnv) :
    ∃ r, m.copyProcess orig env = some r ∧
      (∀ child, r.2.2 = some child → LengthOk child ∧
        CopyOf (orig.deref m) (child.deref r.2.1)) ∧
      (env.taskOk = true → (orig.failVector.isSome = true → env.kmalloc.isSome = true) →
        env.later = none → r.2.2.isSome = true) ∧
      ∀ q, (∀ p, env.kmalloc = some p → q ≠ p) → r.2.1.heap q = m.heap q := by
  -- after `dup_task_struct`
  obtain ⟨d, hd, hcopy, hsome, hheap⟩ : ∃ d, m.dupTaskStruct orig env = some d ∧
      (∀ child, d.2 = some child → LengthOk child ∧ CopyOf (orig.deref m) (child.deref d.1)) ∧
      (env.taskOk = true → (orig.failVector.isSome = true → env.kmalloc.isSome = true) →
        d.2.isSome = true) ∧
      ∀ q, (∀ p, env.kmalloc = some p → q ≠ p) → d.1.heap q = m.heap q := by
    unfold Memory.dupTaskStruct
    by_cases htask : env.taskOk = false
    · rw [if_pos htask]
      refine ⟨_, rfl, (fun child hchild => by cases hchild), fun hok => ?_, fun _ _ => rfl⟩
      exact absurd (htask.symm.trans hok) (by decide)
    rw [if_neg htask]
    dsimp only
    cases hvec : orig.failVector with
    | none =>
        refine ⟨_, rfl, ?_, fun _ _ => rfl, fun _ _ => rfl⟩
        intro child hchild
        cases hchild
        exact ⟨h, CopyOf.refl _⟩
    | some q =>
        cases hkmalloc : env.kmalloc with
        | none =>
            refine ⟨_, rfl, (fun child hchild => by cases hchild), fun _ hneed => ?_, fun _ _ => rfl⟩
            exact absurd (hneed rfl) (by decide)
        | some p =>
            dsimp only
            rw [if_pos h.fits]
            refine ⟨_, rfl, ?_, fun _ _ => rfl, ?_⟩
            · intro child hchild
              cases hchild
              refine ⟨h, rfl, rfl, ?_, ?_⟩
              · simp [TaskStruct.deref, hvec]
              · intro v v' hv hv' i hi
                have hv₁ : (orig.failVector.map m.heap) = some v := hv
                rw [hvec] at hv₁
                cases hv₁
                have hv₂ : some ((m.kmalloc p (dupVector (m.heap q) orig.failVecLength
                  env.memory)).heap p) = some v' := hv'
                rw [kmalloc_heap_self] at hv₂
                cases hv₂
                exact if_pos hi
            · intro q' hq'
              exact Function.update_of_ne (hq' p rfl) _ _
  unfold Memory.copyProcess
  rw [hd]
  simp only [Option.bind_eq_bind, Option.bind_some]
  cases hchild : d.2 with
  | none =>
      refine ⟨_, rfl, (fun child hnone => by cases hnone), fun htask hneed _ => ?_, hheap⟩
      have hyes := hsome htask hneed
      rw [hchild] at hyes
      exact hyes
  | some tsk =>
      dsimp only
      cases hlater : env.later with
      | none =>
          refine ⟨_, rfl, ?_, fun _ _ _ => rfl, hheap⟩
          intro child heq
          cases heq
          exact hcopy tsk hchild
      | some error =>
          refine ⟨_, rfl, (fun child hnone => by cases hnone), (fun _ _ hno => by cases hno), ?_⟩
          intro q hq
          show (d.1.freeFail tsk).1.heap q = m.heap q
          rw [freeFail_heap]
          exact hheap q hq

theorem TableInv.step {k k' : TaskTable} {op : TaskOp} {ret : Int} (h : TableInv k)
    (hok : KmallocOk k op) (hstep : k.step op = some (ret, k')) : TableInv k' := by
  cases op with
  | op i o p =>
      obtain ⟨tsk, htsk, hstep⟩ := Option.bind_eq_some_iff.mp hstep
      cases hstep
      have hown : k.owns i = tsk.failVector := by
        rw [TaskTable.owns, htsk]
        rfl
      refine h.update (owned_exec h.owned hown hok) ?_
      intro u hu
      cases hu
      exact lengthOk_exec (h.length i tsk htsk) p o
  | fork i c env =>
      rw [TaskTable.step] at hstep
      split at hstep
      · cases hstep
      · next hc =>
          obtain ⟨orig, horig, hstep⟩ := Option.bind_eq_some_iff.mp hstep
          obtain ⟨r, hr, hstep⟩ := Option.bind_eq_some_iff.mp hstep
          cases hstep
          have hnone : k.task c = none := by simpa using hc
          have hown : k.owns c = none := by
            rw [TaskTable.owns, hnone]
            rfl
          refine h.update (owned_copyProcess h.owned hown hok hr) ?_
          intro child hchild
          obtain ⟨r', hr', hcopy, _⟩ := copyProcess_spec (h.length i orig horig) env
          rw [hr] at hr'
          cases hr'
          exact (hcopy child hchild).1
  | free i =>
      obtain ⟨tsk, htsk, hstep⟩ := Option.bind_eq_some_iff.mp hstep
      cases hstep
      have hown : k.owns i = tsk.failVector := by
        rw [TaskTable.owns, htsk]
        rfl
      exact h.update (owned_freeFail _ h.owned hown) (fun u hu => by cases hu)

/-! ## One task among the others -/

/-- A task that is not touched, and whose vector is not. -/
theorem view_update_ne {k : TaskTable} {i j : TaskId} (hji : j ≠ i) {t : Option TaskStruct}
    {m : Memory} (hheap : ∀ q, k.owns j = some q → m.heap q = k.mem.heap q) :
    (⟨Function.update k.task i t, m⟩ : TaskTable).view j = k.view j := by
  have hsame : (⟨Function.update k.task i t, m⟩ : TaskTable).view j =
      (k.task j).map fun u => u.deref m := by
    rw [TaskTable.view]
    show (Function.update k.task i t j).map _ = _
    rw [Function.update_of_ne hji]
  rw [hsame, TaskTable.view]
  cases hj : k.task j with
  | none => rfl
  | some u =>
      rw [Option.map_some, Option.map_some, TaskStruct.deref, TaskStruct.deref]
      cases hu : u.failVector with
      | none => rfl
      | some q =>
          have hown : k.owns j = some q := by
            rw [TaskTable.owns, hj]
            exact hu
          rw [Option.map_some, Option.map_some, hheap q hown]

theorem view_update_self (k : TaskTable) (i : TaskId) (t : Option TaskStruct) (m : Memory) :
    (⟨Function.update k.task i t, m⟩ : TaskTable).view i = t.map fun u => u.deref m := by
  rw [TaskTable.view]
  show (Function.update k.task i t i).map _ = _
  rw [Function.update_self]

/-- What somebody has is outstanding, so `kmalloc` does not return it. -/
theorem TableInv.ne_of_owns {k : TaskTable} (h : TableInv k) {j : TaskId} {p q : Addr}
    (hq : k.owns j = some q) (hp : ¬ Outstanding k.mem.log p) : q ≠ p := by
  rintro rfl
  exact hp ((h.owned.outstanding q).mpr ⟨j, hq⟩)

/-- A task changes through its own calls only, and then as in the model. -/
theorem TableInv.view_step {k k' : TaskTable} {op : TaskOp} {ret : Int} (h : TableInv k)
    (hok : KmallocOk k op) (hstep : k.step op = some (ret, k')) {i : TaskId} {v : Task}
    (hv : k.view i = some v) :
    (∀ o p, op = .op i o p → ret = (SyscallFail.exec v o).1 ∧
      k'.view i = some (SyscallFail.exec v o).2) ∧
    ((∀ o p, op ≠ .op i o p) → op ≠ .free i → k'.view i = some v) := by
  cases op with
  | op j o p =>
      obtain ⟨tsk, htsk, hstep⟩ := Option.bind_eq_some_iff.mp hstep
      cases hstep
      obtain ⟨hret, htask, hheap⟩ := exec_deref k.mem tsk p o
      refine ⟨?_, ?_⟩
      · rintro o' p' heq
        cases heq
        have hview : v = tsk.deref k.mem := by
          rw [TaskTable.view, htsk] at hv
          exact (Option.some.inj hv).symm
        rw [hview, view_update_self]
        exact ⟨hret, congrArg some htask⟩
      · intro hne _
        have hij : i ≠ j := by
          rintro rfl
          exact hne o p rfl
        rw [view_update_ne hij, hv]
        intro q hq
        apply hheap
        cases hk : o.kmallocs with
        | false => exact Or.inr rfl
        | true => exact Or.inl (h.ne_of_owns hq (hok hk))
  | fork j c env =>
      refine ⟨(fun o p heq => by cases heq), fun _ _ => ?_⟩
      rw [TaskTable.step] at hstep
      split at hstep
      · cases hstep
      · next hc =>
          obtain ⟨orig, horig, hstep⟩ := Option.bind_eq_some_iff.mp hstep
          obtain ⟨r, hr, hstep⟩ := Option.bind_eq_some_iff.mp hstep
          cases hstep
          obtain ⟨r', hr', _, _, hheap⟩ := copyProcess_spec (h.length j orig horig) env
          rw [hr] at hr'
          cases hr'
          have hic : i ≠ c := by
            rintro rfl
            have hnone : k.task i = none := by simpa using hc
            rw [TaskTable.view, hnone] at hv
            cases hv
          rw [view_update_ne hic, hv]
          intro q hq
          exact hheap q fun p hp => h.ne_of_owns hq (hok p hp)
  | free j =>
      obtain ⟨tsk, htsk, hstep⟩ := Option.bind_eq_some_iff.mp hstep
      cases hstep
      refine ⟨(fun o p heq => by cases heq), fun _ hne => ?_⟩
      have hij : i ≠ j := by
        rintro rfl
        exact hne rfl
      rw [view_update_ne hij, hv]
      intro q _
      exact congrFun (freeFail_heap k.mem tsk) q

/-! ## Runs -/

/-- A run, with the values the steps returned. -/
inductive TaskTable.Run : TaskTable → List (TaskOp × Int) → TaskTable → Prop
  | nil (k : TaskTable) : Run k [] k
  | cons {k k' k'' : TaskTable} {op : TaskOp} {ret : Int} {run : List (TaskOp × Int)} :
      KmallocOk k op → k.step op = some (ret, k') → Run k' run k'' → Run k ((op, ret) :: run) k''

/-- The calls of task `i` in a run, with what they returned. -/
def ownCalls (i : TaskId) : List (TaskOp × Int) → List (Op × Int)
  | [] => []
  | (.op j o _, ret) :: run => if j = i then (o, ret) :: ownCalls i run else ownCalls i run
  | (_, _) :: run => ownCalls i run

/-- **A task sees its own calls only.** Whatever the other tasks do, its calls
return what they return in the model, run on their own. -/
theorem TableInv.ownCalls {k k' : TaskTable} {run : List (TaskOp × Int)} (h : TableInv k)
    (hrun : k.Run run k') {i : TaskId} {v : Task} (hv : k.view i = some v)
    (hlives : ∀ e ∈ run, e.1 ≠ .free i) :
    SyscallFail.ownCalls i run = trace v ((SyscallFail.ownCalls i run).map Prod.fst) ∧
      k'.view i = some (SyscallFail.run v ((SyscallFail.ownCalls i run).map Prod.fst)) := by
  induction hrun generalizing v with
  | nil k => exact ⟨rfl, hv⟩
  | @cons k k₁ k'' op ret run hok hstep _ ih =>
      have h₁ := h.step hok hstep
      obtain ⟨hown, hother⟩ := h.view_step hok hstep hv
      have hlives' : ∀ e ∈ run, e.1 ≠ .free i := fun e he =>
        hlives e (List.mem_cons_of_mem _ he)
      by_cases hmine : ∃ o p, op = .op i o p
      · obtain ⟨o, p, rfl⟩ := hmine
        obtain ⟨rfl, hv₁⟩ := hown o p rfl
        obtain ⟨htrace, hview⟩ := ih h₁ hv₁ hlives'
        have hcons : SyscallFail.ownCalls i ((.op i o p, (SyscallFail.exec v o).1) :: run) =
            (o, (SyscallFail.exec v o).1) :: SyscallFail.ownCalls i run := if_pos rfl
        rw [hcons, List.map_cons, trace, SyscallFail.run_cons]
        exact ⟨congrArg _ htrace, hview⟩
      · have hv₁ := hother (fun o p heq => hmine ⟨o, p, heq⟩)
          (hlives (op, ret) List.mem_cons_self)
        have hskip : SyscallFail.ownCalls i ((op, ret) :: run) = SyscallFail.ownCalls i run := by
          cases op with
          | op j o p =>
              apply if_neg
              rintro rfl
              exact hmine ⟨o, p, rfl⟩
          | fork j c env => rfl
          | free j => rfl
        rw [hskip]
        exact ih h₁ hv₁ hlives'

/-- What holds of the tasks in every reached state. -/
structure ForkInjection (k : TaskTable) : Prop where
  /-- No two live tasks share a vector. -/
  exclusive : ∀ i j t u p, k.task i = some t → k.task j = some u →
    t.failVector = some p → u.failVector = some p → i = j
  /-- The allocations not yet freed are the vectors of the live tasks. -/
  outstanding : ∀ p, Outstanding k.mem.log p ↔ ∃ i t, k.task i = some t ∧ t.failVector = some p
  /-- No allocation is freed twice, and none while it is not allocated. -/
  sound : Sound k.mem.log
  /-- A fork leaves the parent alone; a child is a copy of it, and answers all
  further calls as the parent would. -/
  fork : ∀ i c env v, k.view i = some v → k.task c = none → KmallocOk k (.fork i c env) →
    ∃ ret k', k.step (.fork i c env) = some (ret, k') ∧ k'.view i = some v ∧
      (∀ u, k'.view c = some u → CopyOf v u ∧ ∀ ops, trace u ops = trace v ops) ∧
      (env.taskOk = true → (v.failVector.isSome = true → env.kmalloc.isSome = true) →
        env.later = none → (k'.view c).isSome = true)
  /-- An accepted `sys_fail` makes the task forget what was before. -/
  rearmed : ∀ i ith ncall u env p k', KmallocOk k (.op i (.fail ith ncall (some u) env) p) →
    k.step (.op i (.fail ith ncall (some u) env) p) = some (0, k') →
      k'.view i = some ⟨ith, ncall, some (copiedVector ncall u env)⟩
  /-- In every run from here a task that is not freed sees its own calls only. -/
  alone : ∀ i v run k', k.view i = some v → k.Run run k' → (∀ e ∈ run, e.1 ≠ .free i) →
    ownCalls i run = trace v ((ownCalls i run).map Prod.fst)

theorem TableInv.fork {k : TaskTable} (h : TableInv k) {i c : TaskId} {env : ForkEnv} {v : Task}
    (hv : k.view i = some v) (hc : k.task c = none) (hok : KmallocOk k (.fork i c env)) :
    ∃ ret k', k.step (.fork i c env) = some (ret, k') ∧ k'.view i = some v ∧
      (∀ u, k'.view c = some u → CopyOf v u ∧ ∀ ops, trace u ops = trace v ops) ∧
      (env.taskOk = true → (v.failVector.isSome = true → env.kmalloc.isSome = true) →
        env.later = none → (k'.view c).isSome = true) := by
  obtain ⟨orig, horig, rfl⟩ := Option.map_eq_some_iff.mp hv
  obtain ⟨r, hr, hcopy, hsome, _⟩ := copyProcess_spec (h.length i orig horig) env
  have hstep : k.step (.fork i c env) =
      some (r.1, ⟨Function.update k.task c r.2.2, r.2.1⟩) := by
    rw [TaskTable.step, if_neg (by simp [hc]), horig]
    simp only [Option.bind_eq_bind, Option.bind_some]
    rw [hr]
    rfl
  refine ⟨r.1, _, hstep, ?_, ?_, ?_⟩
  · exact (h.view_step hok hstep hv).2 (fun o p heq => by cases heq) (fun heq => by cases heq)
  · intro u hu
    rw [view_update_self] at hu
    obtain ⟨child, hchild, rfl⟩ := Option.map_eq_some_iff.mp hu
    have hcopy' := (hcopy child hchild).2
    exact ⟨hcopy', hcopy'.trace⟩
  · intro htask hneed hlater
    rw [view_update_self, Option.isSome_map]
    refine hsome htask (fun harmed => hneed ?_) hlater
    rw [TaskStruct.deref, Option.isSome_map]
    exact harmed

theorem TableInv.of_boot {k : TaskTable} (h : taskTable.init k) : TableInv k := by
  obtain ⟨htask, hlog⟩ := h
  refine ⟨?_, ?_⟩
  · have hown : k.owns = fun _ => none := by
      funext i
      rw [TaskTable.owns]
      cases hi : k.task i with
      | none => rfl
      | some t =>
          rw [htask i t hi]
          rfl
    rw [hown, hlog]
    exact .nil
  · intro i t hi
    rw [htask i t hi]
    exact ⟨le_refl 0, by decide⟩

/-- **Fork gives each task its own injection.** -/
theorem fork_injection {k : TaskTable} (h : taskTable.Reach KmallocOk k) : ForkInjection k := by
  have hinv : TableInv k := by
    refine System.Reach.invariant ?_ ?_ h
    · intro k hk
      exact TableInv.of_boot hk
    · rintro k op k' hinv hok ⟨ret, hstep⟩
      exact hinv.step hok hstep
  refine ⟨?_, ?_, hinv.owned.sound, ?_, ?_, ?_⟩
  · intro i j t u p hi hj ht hu
    refine hinv.owned.distinct i j p ?_ ?_
    · rw [TaskTable.owns, hi]
      exact ht
    · rw [TaskTable.owns, hj]
      exact hu
  · intro p
    rw [hinv.owned.outstanding p]
    constructor
    · rintro ⟨i, hi⟩
      obtain ⟨t, ht, hp⟩ := Option.bind_eq_some_iff.mp hi
      exact ⟨i, t, ht, hp⟩
    · rintro ⟨i, t, ht, hp⟩
      exact ⟨i, Option.bind_eq_some_iff.mpr ⟨t, ht, hp⟩⟩
  · intro i c env v hv hc hok
    exact hinv.fork hv hc hok
  · intro i ith ncall u env p k' hok hstep
    obtain ⟨tsk, htsk, _⟩ := Option.bind_eq_some_iff.mp hstep
    have hv : k.view i = some (tsk.deref k.mem) := by
      rw [TaskTable.view, htsk]
      rfl
    obtain ⟨hret, hview⟩ := (hinv.view_step hok hstep hv).1 _ _ rfl
    rw [hview]
    have hpair : sysFail (tsk.deref k.mem) ith ncall (some u) env =
        (0, (sysFail (tsk.deref k.mem) ith ncall (some u) env).2) := Prod.ext hret.symm rfl
    exact congrArg some (sysFail_accepted hpair).2.2.1
  · intro i v run k' hv hrun hlives
    exact (hinv.ownCalls hrun hv hlives).1

/-- One task, which arms itself for `getpid` and `getuid`, and forks. -/
def bootTable : TaskTable where
  task := fun i => if i = 0 then some ⟨0, 0, none⟩ else none
  mem := ⟨fun _ => ⟨0, fun _ => ⟨0, 0⟩⟩, []⟩

def twoCalls (i : Nat) : SyscallFailure := if i = 0 then ⟨20, 88⟩ else ⟨24, 1⟩

def armSelf : TaskOp :=
  .op 0 (.fail 0 2 (some twoCalls) ⟨true, 0, fun _ => ⟨0, 0⟩⟩) 100

def forkSelf : TaskOp := .fork 0 1 ⟨true, some 200, fun _ => ⟨0, 0⟩, none⟩

def armedAndForked : Option TaskTable :=
  (bootTable.step armSelf).bind fun r => (r.2.step forkSelf).map Prod.snd

theorem bootTable_reached : taskTable.Reach KmallocOk bootTable := by
  refine .init ⟨fun i t ht => ?_, rfl⟩
  have ht' : (if i = 0 then some (⟨0, 0, none⟩ : TaskStruct) else none) = some t := ht
  split at ht'
  · exact (Option.some.inj ht').symm
  · cases ht'

theorem armedAndForked_reached :
    ∃ k, armedAndForked = some k ∧ taskTable.Reach KmallocOk k := by
  have hsome : armedAndForked.isSome = true := by
    decide +kernel
  obtain ⟨k, hk⟩ := Option.isSome_iff_exists.mp hsome
  obtain ⟨r, harm, hfork⟩ := Option.bind_eq_some_iff.mp hk
  obtain ⟨r', hstep, rfl⟩ := Option.map_eq_some_iff.mp hfork
  have hlog : (bootTable.step armSelf).map (fun r => r.2.mem.log) = some [.alloc 100] := by
    decide +kernel
  rw [harm] at hlog
  have hlog' : r.2.mem.log = [.alloc 100] := Option.some.inj hlog
  have hfree : KmallocOk r.2 forkSelf := by
    intro p hp
    cases hp
    rw [hlog']
    decide
  have harmed : taskTable.Reach KmallocOk r.2 :=
    .step armSelf bootTable_reached (fun _ => by decide) ⟨r.1, harm⟩
  exact ⟨r'.2, hk, .step forkSelf harmed hfree ⟨r'.1, hstep⟩⟩

theorem armedAndForked_injection : ∃ k, armedAndForked = some k ∧ ForkInjection k ∧
    (k.task 0).bind TaskStruct.failVector = some 100 ∧
    (k.task 1).bind TaskStruct.failVector = some 200 := by
  have hvectors : (armedAndForked.map fun k =>
      ((k.task 0).bind TaskStruct.failVector, (k.task 1).bind TaskStruct.failVector)) =
        some (some 100, some 200) := by
    decide +kernel
  obtain ⟨k, hk, hreach⟩ := armedAndForked_reached
  rw [hk, Option.map_some, Option.some.injEq, Prod.mk.injEq] at hvectors
  exact ⟨k, hk, fork_injection hreach, hvectors⟩

end LinuxHacks.SyscallFail
