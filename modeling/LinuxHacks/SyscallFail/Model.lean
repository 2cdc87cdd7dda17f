import Mathlib.Algebra.Ring.Int.Defs
import Mathlib.Data.List.Basic
import LinuxHacks.Errno

/-!
# System-call fault injection (`HW2/arch/i386/kernel/syscall_fail.c`)

A task arms itself with `sys_fail(ith, ncall, calls)`: the vector `calls` of
pairs (system-call number, error) is copied into kernel memory and hung off the
`task_struct`. From then on every system call of the task first runs
`syscall_fail(nr)`, which counts the calls listed in the vector and, once `ith`
of them have been let through, makes the next one fail.

The C integers are `Int`; the one product that can wrap, the byte size handed
to `kmalloc`, is reduced modulo `2 ^ 32`. A fail vector is the allocation with
what a read at each index returns, so the loops below read it exactly as the C
loops do, past its end included.
-/

namespace LinuxHacks.SyscallFail

/-! ## Data -/

/-- `struct syscall_failure`. -/
structure SyscallFailure where
  syscallNr : Int
  error : Int
deriving DecidableEq, Repr

def NR_syscalls : Int := 289

/-- `sizeof(struct syscall_failure)`: two 32-bit integers. -/
def sizeofSyscallFailure : Nat := 8

/-- A block handed out by `kmalloc`: its size in bytes, and the entry a read
at index `i` yields. -/
structure FailVector where
  capacity : Nat
  entry : Nat → SyscallFailure

/-- The fields of `struct task_struct` that fault injection reads and writes. -/
structure Task where
  failSkipCount : Int
  failVecLength : Int
  failVector : Option FailVector

/-- The values `INIT_TASK` and `free_fail` give the three fields. -/
def Task.disarmed : Task := ⟨0, 0, none⟩

/-- What the kernel answers during one `sys_fail`: whether `kmalloc` succeeds,
how many bytes `copy_from_user` could not copy, and what the fresh memory (and
whatever follows it) happens to contain. -/
structure Env where
  kmallocOk : Bool
  copyRet : Nat
  memory : Nat → SyscallFailure

/-! ## `sys_fail` -/

/-- The byte count `ncall * sizeof(struct syscall_failure)`, as `size_t`. -/
def vectorBytes (ncall : Int) : Nat :=
  (ncall * sizeofSyscallFailure % 2 ^ 32).toNat

/-- The allocation after `copy_from_user`: the copied entries, then memory. -/
def copiedVector (ncall : Int) (calls : Nat → SyscallFailure) (env : Env) : FailVector where
  capacity := vectorBytes ncall
  entry := fun i =>
    if (i + 1) * sizeofSyscallFailure ≤ vectorBytes ncall then calls i else env.memory i

/-- The range test on one entry. -/
def badEntry (e : SyscallFailure) : Bool :=
  e.syscallNr < 0 || NR_syscalls ≤ e.syscallNr || e.error < 0

/-- The inner loop `for (j = 0; !internal_error && j < i; j++)`, with `left`
iterations to go. -/
def duplicateLoop (v : Nat → SyscallFailure) (i : Nat) : (left j : Nat) → Int → Int
  | 0, _, err => err
  | left + 1, j, err =>
      if err ≠ 0 then err
      else duplicateLoop v i left (j + 1)
        (if (v j).syscallNr = (v i).syscallNr then EINVAL else 0)

/-- The outer loop `for (i = 0; !internal_error && i < ncall; i++)`. -/
def validateLoop (v : Nat → SyscallFailure) : (left i : Nat) → Int → Int
  | 0, _, err => err
  | left + 1, i, err =>
      if err ≠ 0 then err
      else validateLoop v left (i + 1)
        (duplicateLoop v i i 0 (if badEntry (v i) then EINVAL else 0))

/-- `internal_error` when the loops are done: a failed copy skips them. -/
def internalError (v : FailVector) (ncall : Int) (env : Env) : Int :=
  validateLoop v.entry ncall.toNat 0 (if env.copyRet ≠ 0 then EFAULT else 0)

def freeFail (_ : Task) : Task := Task.disarmed

/-- `sys_fail`: the returned value and the task afterwards. `calls` is `none`
for a null pointer. -/
def sysFail (tsk : Task) (ith ncall : Int) (calls : Option (Nat → SyscallFailure))
    (env : Env) : Int × Task :=
  match calls with
  | none => (-EINVAL, tsk)
  | some calls =>
      if 0 > ith ∨ 1 > ncall then (-EINVAL, tsk)
      else if tsk.failVector.isSome then (-EINVAL, tsk)
      else if env.kmallocOk = false then (-ENOMEM, { tsk with failVector := none })
      else
        let v := copiedVector ncall calls env
        let tsk := { tsk with failVector := some v }
        if internalError v ncall env ≠ 0 then (-internalError v ncall env, freeFail tsk)
        else (0, { tsk with failSkipCount := ith, failVecLength := ncall })

/-! ## `syscall_fail` -/

/-- The search loop of `syscall_fail`: the first entry for `nr`. -/
def findCall (v : Nat → SyscallFailure) (nr : Int) : (left i : Nat) → Option SyscallFailure
  | 0, _ => none
  | left + 1, i => if (v i).syscallNr = nr then some (v i) else findCall v nr left (i + 1)

/-- The entry the loop stops at. A null vector comes with length 0
(`Task.Wf`), and the loop body is then never entered. -/
def lookupCall (tsk : Task) (nr : Int) : Option SyscallFailure :=
  tsk.failVector.bind fun v => findCall v.entry nr tsk.failVecLength.toNat 0

def syscallFail (tsk : Task) (nr : Int) : Int × Task :=
  let found := lookupCall tsk nr
  let err := match found with
    | some e => e.error
    | none => -1
  let tsk := match found with
    | some _ => { tsk with failSkipCount := tsk.failSkipCount - 1 }
    | none => tsk
  if tsk.failSkipCount < 0 then (-err, freeFail tsk) else (0, tsk)

/-! ## Runs of one task -/

/-- What one task does: a system call passing through `syscall_fail`, or a
`sys_fail`. -/
inductive Op where
  | call (nr : Int)
  | fail (ith ncall : Int) (calls : Option (Nat → SyscallFailure)) (env : Env)

def exec (tsk : Task) : Op → Int × Task
  | .call nr => syscallFail tsk nr
  | .fail ith ncall calls env => sysFail tsk ith ncall calls env

/-- The task after a sequence of operations. -/
def run (tsk : Task) (ops : List Op) : Task :=
  ops.foldl (fun t op => (exec t op).2) tsk

/-- The operations of a run with the values they returned. -/
def trace (tsk : Task) : List Op → List (Op × Int)
  | [] => []
  | op :: ops => (op, (exec tsk op).1) :: trace (exec tsk op).2 ops

@[simp] theorem run_cons (tsk : Task) (op : Op) (ops : List Op) :
    run tsk (op :: ops) = run (exec tsk op).2 ops := rfl

end LinuxHacks.SyscallFail
