import LinuxHacks.SyscallFail.Model

/-!
# The ways into a system call (`HW2/arch/i386/kernel/entry.S`)

`system_call`, `sysenter_entry`, `syscall_trace_entry` and the code around them,
label by label, up to the jump out: `syscall_exit`, `resume_userspace` or the
straight way to `sysexit`. The kernel stack is the list of the words from `%esp`
up; an offset of the source is divided by 4.

A machine carries the calls through `sys_call_table` in `ran`, each with its
number, the six words that are its arguments, and its value. The C functions leave `%ecx`,
`%edx` and their argument slot as they like.
-/

namespace LinuxHacks.SyscallFail

abbrev Word := BitVec 32

def nr_syscalls : Word := 289

def NR_fail : Word := 223

/-! Offsets of the saved registers. -/

def EAX : Nat := 0x18

def ORIG_EAX : Nat := 0x24

structure Machine (W : Type) where
  eax : Word
  ebx : Word
  ecx : Word
  edx : Word
  esi : Word
  edi : Word
  ebp : Word
  ds : Word
  es : Word
  esp : Word
  stack : List Word
  task : Task
  world : W
  ran : List (Word × List Word × Word)

/-- Constants, and the code that is not in `entry.S`. -/
structure Kernel (W : Type) where
  userDs : Word
  userCs : Word
  sysenterReturn : Word
  threadInfo : Word
  /-- The functions of `sys_call_table` other than `sys_fail`. -/
  handler : Word → List Word → W → Word × W
  /-- `sys_fail` reads its arguments and the vector they point to. -/
  failArgs : List Word → W → Int × Int × Option (Nat → SyscallFailure) × Env
  /-- `do_syscall_trace` on the way in; the list is the stack. -/
  syscallTrace : List Word → W → List Word × W
  /-- What `syscall_fail` leaves in `%ecx`, `%edx` and its argument slot. -/
  scratch : Word → Word × Word × Word

namespace Machine

variable {W : Type}

def pushl (m : Machine W) (w : Word) : Machine W :=
  { m with esp := m.esp - 4, stack := w :: m.stack }

/-- `0(%esp)`. -/
def top (m : Machine W) : Word := m.stack.headD 0

/-- `addl $4,%esp`. -/
def skip (m : Machine W) : Machine W := { m with esp := m.esp + 4, stack := m.stack.tail }

def popEax (m : Machine W) : Machine W := { m.skip with eax := m.top }

def popEcx (m : Machine W) : Machine W := { m.skip with ecx := m.top }

def popEdx (m : Machine W) : Machine W := { m.skip with edx := m.top }

/-- `movl w,offset(%esp)`. -/
def store (m : Machine W) (offset : Nat) (w : Word) : Machine W :=
  { m with stack := m.stack.set (offset / 4) w }

/-- `offset(%esp)`. -/
def load (m : Machine W) (offset : Nat) : Word := m.stack.getD (offset / 4) 0

end Machine

/-- Where the code of the entry ends. -/
inductive Exit where
  | syscallExit
  | resumeUserspace
  /-- `cli` after the handler in `sysenter_entry`. -/
  | sysexit
deriving DecidableEq, Repr

section Code

variable {W : Type} (k : Kernel W)

def saveAll (m : Machine W) : Machine W :=
  let m := m.pushl m.es
  let m := m.pushl m.ds
  let m := m.pushl m.eax
  let m := m.pushl m.ebp
  let m := m.pushl m.edi
  let m := m.pushl m.esi
  let m := m.pushl m.edx
  let m := m.pushl m.ecx
  let m := m.pushl m.ebx
  { m with edx := k.userDs, ds := k.userDs, es := k.userDs }

def getThreadInfo (m : Machine W) : Machine W := { m with ebp := k.threadInfo }

/-- The function in the table, on its six arguments: its value, and the state it
leaves. -/
def runHandler (nr : Word) (args : List Word) (task : Task) (world : W) : Word × Task × W :=
  if nr = NR_fail then
    let (ith, ncall, calls, env) := k.failArgs args world
    let (ret, task) := sysFail task ith ncall calls env
    (BitVec.ofInt 32 ret, task, world)
  else
    let (ret, world) := k.handler nr args world
    (ret, task, world)

/-- `call *sys_call_table(,%eax,4)`. -/
def callTable (m : Machine W) : Machine W :=
  let args := m.stack.take 6
  let (ret, task, world) := runHandler k m.eax args m.task m.world
  { m with eax := ret, task := task, world := world, ran := m.ran ++ [(m.eax, args, ret)] }

/-- `call syscall_fail`; the argument is on top of the stack. -/
def callSyscallFail (m : Machine W) : Machine W :=
  let (ret, task) := syscallFail m.task m.top.toInt
  let (ecx, edx, slot) := k.scratch m.top
  { m with
    eax := BitVec.ofInt 32 ret
    ecx := ecx
    edx := edx
    stack := slot :: m.stack.tail
    task := task }

def syscallSkip (m : Machine W) : Machine W :=
  let m := m.store (16 + EAX) m.eax
  let m := m.skip
  let m := m.popEdx
  let m := m.popEcx
  m.popEax

def syscallCall (m : Machine W) : Machine W :=
  let m := m.pushl m.eax
  let m := m.pushl m.ecx
  let m := m.pushl m.edx
  let m := m.pushl m.eax
  let m := callSyscallFail k m
  if m.eax.slt 0 then syscallSkip m
  else
    let m := m.skip
    let m := m.popEdx
    let m := m.popEcx
    let m := m.popEax
    let m := callTable k m
    m.store EAX m.eax

def syscallBadsys (m : Machine W) : Machine W × Exit :=
  (m.store EAX (BitVec.ofInt 32 (-ENOSYS)), .resumeUserspace)

def syscallTraceEntry (m : Machine W) : Machine W × Exit :=
  let m := m.store EAX (BitVec.ofInt 32 (-ENOSYS))
  let (stack, world) := k.syscallTrace m.stack m.world
  let m := { m with stack := stack, world := world, edx := 0 }
  let m := { m with eax := m.load ORIG_EAX }
  if m.eax < nr_syscalls then (syscallCall k m, .syscallExit) else (m, .syscallExit)

/-- `traced` is `_TIF_SYSCALL_TRACE|_TIF_SYSCALL_AUDIT` in the flags of the thread. -/
def systemCall (traced : Bool) (m : Machine W) : Machine W × Exit :=
  let m := m.pushl m.eax
  let m := saveAll k m
  let m := getThreadInfo k m
  if traced then syscallTraceEntry k m
  else if nr_syscalls ≤ m.eax then syscallBadsys m
  else (syscallCall k m, .syscallExit)

def syscallFault (m : Machine W) : Machine W × Exit :=
  let m := m.pushl m.eax
  let m := saveAll k m
  let m := getThreadInfo k m
  (m.store EAX (BitVec.ofInt 32 (-EFAULT)), .resumeUserspace)

/-- `arg6` is the word at `(%ebp)` of the user stack; `none` if `%ebp` is out of
range or the load faults. -/
def sysenterEntry (traced : Bool) (eflags : Word) (arg6 : Option Word) (m : Machine W) :
    Machine W × Exit :=
  let m := m.pushl k.userDs
  let m := m.pushl m.ebp
  let m := m.pushl eflags
  let m := m.pushl k.userCs
  let m := m.pushl k.sysenterReturn
  match arg6 with
  | none => syscallFault k m
  | some w =>
      let m := { m with ebp := w }
      let m := m.pushl m.eax
      let m := saveAll k m
      let m := getThreadInfo k m
      if traced then syscallTraceEntry k m
      else if nr_syscalls ≤ m.eax then syscallBadsys m
      else
        let m := callTable k m
        (m.store EAX m.eax, .sysexit)

end Code

/-! ## Calls of a task -/

inductive Route where
  | int80
  | sysenter (arg6 : Option Word)
deriving DecidableEq, Repr

/-- A system call as the task makes it: its registers, what the processor saves,
and the way in. -/
structure Call where
  eax : Word
  ebx : Word
  ecx : Word
  edx : Word
  esi : Word
  edi : Word
  ebp : Word
  ds : Word
  es : Word
  eip : Word
  cs : Word
  eflags : Word
  oldesp : Word
  oldss : Word
  traced : Bool
  route : Route
deriving DecidableEq, Repr

/-- The machine in kernel mode, with an empty stack that starts at `esp0`. -/
def Call.machine {W : Type} (c : Call) (esp0 : Word) (task : Task) (world : W) : Machine W where
  eax := c.eax
  ebx := c.ebx
  ecx := c.ecx
  edx := c.edx
  esi := c.esi
  edi := c.edi
  ebp := c.ebp
  ds := c.ds
  es := c.es
  esp := esp0
  stack := []
  task := task
  world := world
  ran := []

/-- `int $0x80`: the processor saves five words. -/
def int80 {W : Type} (c : Call) (m : Machine W) : Machine W :=
  let m := m.pushl c.oldss
  let m := m.pushl c.oldesp
  let m := m.pushl c.eflags
  let m := m.pushl c.cs
  m.pushl c.eip

/-- One system call, from the user's registers to the way out. -/
def enter {W : Type} (k : Kernel W) (esp0 : Word) (task : Task) (world : W) (c : Call) :
    Machine W × Exit :=
  match c.route with
  | .int80 => systemCall k c.traced (int80 c (c.machine esp0 task world))
  | .sysenter arg6 => sysenterEntry k c.traced c.eflags arg6 (c.machine esp0 task world)

/-- The calls of a task, one after the other, each with what it leaves. -/
def enterAll {W : Type} (k : Kernel W) (esp0 : Word) (task : Task) (world : W) :
    List Call → List (Call × Machine W × Exit)
  | [] => []
  | c :: cs =>
      let out := enter k esp0 task world c
      (c, out) :: enterAll k esp0 out.1.task out.1.world cs

end LinuxHacks.SyscallFail
