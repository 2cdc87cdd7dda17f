import LinuxHacks.SyscallFail.Entry
import LinuxHacks.SyscallFail.Injection

/-!
# Injection on every way in

`syscall_call` asks `syscall_fail` first; `sysenter_entry` calls the handler
itself when the task is not traced. The module determines the sequences of calls
for which the task sees the injection that it asked for:

* `syscallCall_eq`, `enter_cases`: what one call does to the stack,
* `enter_step`: one call on the counter of the injection (`At`),
* `enterAll_at`: the counter along a sequence.
-/

namespace LinuxHacks.SyscallFail

variable {W : Type}

/-- The stack that `SAVE_ALL` leaves. -/
def frame (k : Kernel W) (c : Call) : List Word :=
  match c.route with
  | .int80 =>
      [c.ebx, c.ecx, c.edx, c.esi, c.edi, c.ebp, c.eax, c.ds, c.es, c.eax,
        c.eip, c.cs, c.eflags, c.oldesp, c.oldss]
  | .sysenter arg6 =>
      [c.ebx, c.ecx, c.edx, c.esi, c.edi, arg6.getD c.ebp, c.eax, c.ds, c.es, c.eax,
        k.sysenterReturn, k.userCs, c.eflags, c.ebp, k.userDs]

/-- No handler ran; the saved `%eax` is `ret`, the rest of the stack is as it was. -/
structure Returned (k : Kernel W) (esp0 : Word) (c : Call) (ret : Int) (m : Machine W) : Prop where
  ran : m.ran = []
  stack : m.stack = (frame k c).set (EAX / 4) (BitVec.ofInt 32 ret)
  esp : m.esp = esp0 - 60

/-- The handler ran with the number and the arguments of the call, and its value is
in the saved `%eax`. -/
structure Handled (k : Kernel W) (esp0 : Word) (c : Call) (m : Machine W) : Prop where
  ran : ∃ ret, m.ran = [(c.eax, (frame k c).take 6, ret)] ∧
    m.stack = (frame k c).set (EAX / 4) ret
  esp : m.esp = esp0 - 60

/-- A call without injection. -/
def Passed (k : Kernel W) (esp0 : Word) (c : Call) (m : Machine W) : Prop :=
  if c.route = .sysenter none then Returned k esp0 c (-EFAULT) m
  else if nr_syscalls ≤ c.eax then Returned k esp0 c (-ENOSYS) m
  else Handled k esp0 c m

/-! ## One call -/

/-- A machine up to the registers that the exit path reloads. -/
structure Same (m m' : Machine W) : Prop where
  eax : m'.eax = m.eax
  esp : m'.esp = m.esp
  stack : m'.stack = m.stack
  task : m'.task = m.task
  world : m'.world = m.world
  ran : m'.ran = m.ran

theorem callTable_spec (k : Kernel W) (m : Machine W) :
    ∃ ret, (callTable k m).eax = ret ∧ (callTable k m).esp = m.esp ∧
      (callTable k m).stack = m.stack ∧
      (callTable k m).ran = m.ran ++ [(m.eax, m.stack.take 6, ret)] ∧
      ((callTable k m).task = m.task ∨ m.eax = NR_fail ∧ ∃ ith ncall calls env,
        ret = BitVec.ofInt 32 (sysFail m.task ith ncall calls env).1 ∧
        (callTable k m).task = (sysFail m.task ith ncall calls env).2) := by
  by_cases hnr : m.eax = NR_fail
  · refine ⟨_, rfl, rfl, rfl, rfl, Or.inr ⟨hnr, ?_⟩⟩
    rw [callTable, runHandler, if_pos hnr]
    exact ⟨_, _, _, _, rfl, rfl⟩
  · refine ⟨_, rfl, rfl, rfl, rfl, Or.inl ?_⟩
    rw [callTable, runHandler, if_neg hnr]

/-- The machine after the four pushes and the call. -/
theorem callSyscallFail_pushed (k : Kernel W) (m : Machine W) {ret : Int} {task : Task}
    (hr : syscallFail m.task m.eax.toInt = (ret, task)) :
    ∃ ecx edx slot,
      callSyscallFail k ((((m.pushl m.eax).pushl m.ecx).pushl m.edx).pushl m.eax) =
        { m with
          eax := BitVec.ofInt 32 ret
          ecx := ecx
          edx := edx
          esp := m.esp - 4 - 4 - 4 - 4
          stack := slot :: m.edx :: m.ecx :: m.eax :: m.stack
          task := task } := by
  have hcall : syscallFail ((((m.pushl m.eax).pushl m.ecx).pushl m.edx).pushl m.eax).task
      ((((m.pushl m.eax).pushl m.ecx).pushl m.edx).pushl m.eax).top.toInt = (ret, task) := hr
  have htop : ((((m.pushl m.eax).pushl m.ecx).pushl m.edx).pushl m.eax).top = m.eax := rfl
  rw [callSyscallFail, hcall, htop]
  obtain ⟨ecx, edx, slot⟩ := k.scratch m.eax
  refine ⟨ecx, edx, slot, ?_⟩
  simp only [Machine.pushl, List.tail_cons]

/-- `(16+EAX)(%esp)` under four more words is `EAX(%esp)`. -/
theorem set_above (a b c d w : Word) (l : List Word) :
    ((a :: b :: c :: d :: l).set ((16 + EAX) / 4) w).tail.tail.tail.tail = l.set (EAX / 4) w := by
  have hoff : (16 + EAX) / 4 = EAX / 4 + 4 := by decide
  rw [hoff]
  rfl

/-- The four pushes are undone on both ways out of the hook. -/
theorem syscallCall_eq (k : Kernel W) (m : Machine W) {ret : Int} {task : Task}
    (hr : syscallFail m.task m.eax.toInt = (ret, task)) :
    (BitVec.slt (BitVec.ofInt 32 ret) 0 = true →
      (syscallCall k m).esp = m.esp ∧
      (syscallCall k m).stack = m.stack.set (EAX / 4) (BitVec.ofInt 32 ret) ∧
      (syscallCall k m).task = task ∧ (syscallCall k m).ran = m.ran) ∧
    (BitVec.slt (BitVec.ofInt 32 ret) 0 = false →
      ∃ m', Same { m with task := task } m' ∧
        syscallCall k m = (callTable k m').store EAX (callTable k m').eax) := by
  have hesp : m.esp - 4 - 4 - 4 - 4 + 4 + 4 + 4 + 4 = m.esp := by
    simp only [BitVec.sub_add_cancel]
  obtain ⟨ecx, edx, slot, hcall⟩ := callSyscallFail_pushed k m hr
  have hrun : syscallCall k m =
      (let m := callSyscallFail k ((((m.pushl m.eax).pushl m.ecx).pushl m.edx).pushl m.eax)
      if m.eax.slt 0 then syscallSkip m
      else (callTable k m.skip.popEdx.popEcx.popEax).store EAX
        (callTable k m.skip.popEdx.popEcx.popEax).eax) := rfl
  rw [hcall] at hrun
  rw [hrun]
  dsimp only
  constructor
  · intro hneg
    rw [if_pos hneg]
    refine ⟨hesp, ?_, ?_, ?_⟩
    · exact set_above slot m.edx m.ecx m.eax _ m.stack
    · rfl
    · rfl
  · intro hpos
    rw [if_neg (by rw [Bool.not_eq_true]; exact hpos)]
    refine ⟨_, ?_, rfl⟩
    exact ⟨rfl, hesp, rfl, rfl, rfl, rfl⟩

/-- The tracer looks at the registers of the task and changes none. -/
def TracerReads (k : Kernel W) : Prop := ∀ stack world, (k.syscallTrace stack world).1 = stack

/-- A call reaches `syscall_fail`. -/
def Hooked (c : Call) : Prop := c.route = .int80 ∨ c.traced = true

instance (c : Call) : Decidable (Hooked c) :=
  inferInstanceAs (Decidable (c.route = .int80 ∨ c.traced = true))

/-- The machine after `SAVE_ALL` (and the tracer): what is left to do is the call. -/
structure Saved (k : Kernel W) (esp0 : Word) (c : Call) (t : Task) (m : Machine W) : Prop where
  eax : m.eax = c.eax
  esp : m.esp = esp0 - 60
  stack : ∀ w, m.stack.set (EAX / 4) w = (frame k c).set (EAX / 4) w
  args : m.stack.take 6 = (frame k c).take 6
  origEax : m.load ORIG_EAX = c.eax
  task : m.task = t
  ran : m.ran = []

theorem pushes_esp (x : Word) :
    x - 4 - 4 - 4 - 4 - 4 - 4 - 4 - 4 - 4 - 4 - 4 - 4 - 4 - 4 - 4 = x - 60 := by
  simp only [BitVec.sub_sub]
  rfl

theorem saved_int80 (k : Kernel W) (esp0 : Word) (c : Call) (t : Task) (w : W)
    (h : c.route = .int80) :
    Saved k esp0 c t (getThreadInfo k (saveAll k ((int80 c (c.machine esp0 t w)).pushl c.eax))) := by
  have hframe : (getThreadInfo k (saveAll k ((int80 c (c.machine esp0 t w)).pushl c.eax))).stack =
      frame k c := by
    rw [frame, h]
    rfl
  refine ⟨rfl, pushes_esp esp0, fun v => by rw [hframe], by rw [hframe], ?_, rfl, rfl⟩
  rw [Machine.load, hframe, frame, h]
  rfl

/-- The five words that `sysenter_entry` pushes in place of the processor. -/
def sysenterPushed (k : Kernel W) (esp0 : Word) (t : Task) (w : W) (c : Call) : Machine W :=
  (((((c.machine esp0 t w).pushl k.userDs).pushl c.ebp).pushl c.eflags).pushl
    k.userCs).pushl k.sysenterReturn

theorem saved_sysenter (k : Kernel W) (esp0 : Word) (c : Call) (t : Task) (w : W)
    {arg6 : Option Word} (h : c.route = .sysenter arg6) {m : Machine W}
    (hm : { sysenterPushed k esp0 t w c with ebp := arg6.getD c.ebp } = m) :
    Saved k esp0 c t (getThreadInfo k (saveAll k (m.pushl c.eax))) := by
  subst hm
  have hframe : (getThreadInfo k (saveAll k (({ sysenterPushed k esp0 t w c with
      ebp := arg6.getD c.ebp } : Machine W).pushl c.eax))).stack = frame k c := by
    rw [frame, h]
    rfl
  refine ⟨rfl, pushes_esp esp0, fun v => by rw [hframe], by rw [hframe], ?_, rfl, rfl⟩
  rw [Machine.load, hframe, frame, h]
  rfl

/-- A store to the saved `%eax`. -/
theorem Saved.store {k : Kernel W} {esp0 : Word} {c : Call} {t : Task} {m : Machine W}
    (h : Saved k esp0 c t m) (w : Word) : Saved k esp0 c t (m.store EAX w) where
  eax := h.eax
  esp := h.esp
  stack := by
    intro v
    rw [← h.stack v, Machine.store, List.set_set]
  args := by
    rw [← h.args, Machine.store]
    exact List.take_set_of_le (le_refl 6)
  origEax := by
    rw [← h.origEax, Machine.load, Machine.load, Machine.store]
    simp [EAX, ORIG_EAX, List.getD_eq_getElem?_getD]
  task := h.task
  ran := h.ran

theorem Saved.returned {k : Kernel W} {esp0 : Word} {c : Call} {t : Task} {m : Machine W}
    (h : Saved k esp0 c t m) (ret : Int) :
    Returned k esp0 c ret (m.store EAX (BitVec.ofInt 32 ret)) :=
  ⟨h.ran, h.stack _, h.esp⟩

theorem Saved.handled {k : Kernel W} {esp0 : Word} {c : Call} {t : Task} {m : Machine W}
    (h : Saved k esp0 c t m) :
    Handled k esp0 c ((callTable k m).store EAX (callTable k m).eax) := by
  obtain ⟨ret, heax, hesp, hstack, hran, -⟩ := callTable_spec k m
  refine ⟨⟨ret, ?_, ?_⟩, hesp.trans h.esp⟩
  · show (callTable k m).ran = _
    rw [hran, h.ran, h.eax, h.args]
    rfl
  · show (callTable k m).stack.set _ (callTable k m).eax = _
    rw [hstack, heax, h.stack]

/-- The call gets as far as `sys_call_table`, injection apart. -/
def Reaches (c : Call) : Prop := c.route ≠ .sysenter none ∧ c.eax < nr_syscalls

instance (c : Call) : Decidable (Reaches c) :=
  inferInstanceAs (Decidable (c.route ≠ .sysenter none ∧ c.eax < nr_syscalls))

theorem Passed.of_handled {k : Kernel W} {esp0 : Word} {c : Call} {m : Machine W}
    (hc : Reaches c) (h : Handled k esp0 c m) : Passed k esp0 c m := by
  rw [Passed, if_neg hc.1, if_neg (BitVec.not_le.mpr hc.2)]
  exact h

/-- The code after `GET_THREAD_INFO`, that both stubs share but for its last part. -/
theorem dispatch_eq {k : Kernel W} (hk : TracerReads k) {esp0 : Word} {c : Call} {t : Task}
    {m : Machine W} (h : Saved k esp0 c t m) {hooked : Bool} {direct : Machine W × Exit}
    (hdirect : hooked = true ∧ direct = (syscallCall k m, .syscallExit) ∨
      hooked = false ∧ direct = ((callTable k m).store EAX (callTable k m).eax, .sysexit)) :
    let out := if c.traced then syscallTraceEntry k m
      else if nr_syscalls ≤ m.eax then syscallBadsys m else direct
    (nr_syscalls ≤ c.eax → Returned k esp0 c (-ENOSYS) out.1 ∧ out.1.task = t) ∧
    (c.eax < nr_syscalls → ∃ m', Saved k esp0 c t m' ∧
      out.1 = if hooked || c.traced then syscallCall k m'
        else (callTable k m').store EAX (callTable k m').eax) := by
  cases htr : c.traced with
  | true =>
    let m₁ : Machine W :=
      { m.store EAX (BitVec.ofInt 32 (-ENOSYS)) with
        stack := (k.syscallTrace (m.store EAX (BitVec.ofInt 32 (-ENOSYS))).stack m.world).1
        world := (k.syscallTrace (m.store EAX (BitVec.ofInt 32 (-ENOSYS))).stack m.world).2
        edx := 0 }
    have hstack : m₁.stack = (m.store EAX (BitVec.ofInt 32 (-ENOSYS))).stack := hk _ _
    have hs := h.store (BitVec.ofInt 32 (-ENOSYS))
    have horig : m₁.load ORIG_EAX = c.eax := by
      rw [Machine.load, hstack]
      exact hs.origEax
    have hrun : syscallTraceEntry k m =
        if m₁.load ORIG_EAX < nr_syscalls
        then (syscallCall k { m₁ with eax := m₁.load ORIG_EAX }, .syscallExit)
        else ({ m₁ with eax := m₁.load ORIG_EAX }, .syscallExit) := rfl
    rw [horig] at hrun
    rw [if_pos rfl, hrun]
    dsimp only
    constructor
    · intro hge
      rw [if_neg (BitVec.not_lt.mpr hge)]
      exact ⟨⟨h.ran, hstack.trans (h.stack _), h.esp⟩, h.task⟩
    · intro hlt
      rw [if_pos hlt, Bool.or_true]
      refine ⟨{ m₁ with eax := c.eax }, ⟨rfl, h.esp, ?_, ?_, horig, h.task, h.ran⟩,
        (if_pos rfl).symm⟩
      · intro w
        rw [show ({ m₁ with eax := c.eax } : Machine W).stack = _ from hstack]
        exact hs.stack w
      · rw [show ({ m₁ with eax := c.eax } : Machine W).stack = _ from hstack]
        exact hs.args
  | false =>
    rw [if_neg Bool.false_ne_true, h.eax]
    dsimp only
    constructor
    · intro hge
      rw [if_pos hge]
      exact ⟨h.returned _, h.task⟩
    · intro hlt
      rw [if_neg (BitVec.not_le.mpr hlt), Bool.or_false]
      refine ⟨m, h, ?_⟩
      rcases hdirect with ⟨hh, hd⟩ | ⟨hh, hd⟩
      · rw [hd, hh, if_pos rfl]
      · rw [hd, hh, if_neg Bool.false_ne_true]

/-- One call, whatever way it comes in. -/
theorem enter_cases {k : Kernel W} (hk : TracerReads k) (esp0 : Word) (t : Task) (w : W)
    (c : Call) :
    (¬ Reaches c → Passed k esp0 c (enter k esp0 t w c).1 ∧ (enter k esp0 t w c).1.task = t) ∧
    (Reaches c → ∃ m, Saved k esp0 c t m ∧
      (enter k esp0 t w c).1 = if Hooked c then syscallCall k m
        else (callTable k m).store EAX (callTable k m).eax) := by
  cases hroute : c.route with
  | int80 =>
    have hs := saved_int80 k esp0 c t w hroute
    obtain ⟨hbad, hcall⟩ := dispatch_eq hk hs (Or.inl ⟨rfl, rfl⟩)
    have hnone : c.route ≠ .sysenter none := by
      rw [hroute]
      exact Route.noConfusion
    have hrun : enter k esp0 t w c =
        systemCall k c.traced (int80 c (c.machine esp0 t w)) := by
      rw [enter, hroute]
    rw [hrun]
    constructor
    · intro hnot
      have hge : nr_syscalls ≤ c.eax := BitVec.not_lt.mp fun hlt => hnot ⟨hnone, hlt⟩
      rw [Passed, if_neg hnone, if_pos hge]
      exact hbad hge
    · intro hreach
      obtain ⟨m, hm, hout⟩ := hcall hreach.2
      refine ⟨m, hm, ?_⟩
      have hhooked : Hooked c := Or.inl hroute
      rw [if_pos hhooked]
      rw [Bool.true_or, if_pos rfl] at hout
      exact hout
  | sysenter arg6 =>
    cases arg6 with
    | none =>
      have hs : Saved k esp0 c t
          (getThreadInfo k (saveAll k ((sysenterPushed k esp0 t w c).pushl c.eax))) :=
        saved_sysenter k esp0 c t w hroute rfl
      have hrun : enter k esp0 t w c =
          ((getThreadInfo k (saveAll k ((sysenterPushed k esp0 t w c).pushl c.eax))).store EAX
            (BitVec.ofInt 32 (-EFAULT)), .resumeUserspace) := by
        rw [enter, hroute]
        rfl
      rw [hrun]
      constructor
      · intro _
        rw [Passed, if_pos hroute]
        exact ⟨hs.returned _, (hs.store _).task⟩
      · intro hreach
        exact absurd hroute hreach.1
    | some w6 =>
      obtain ⟨hbad, hcall⟩ := dispatch_eq hk
        (saved_sysenter k esp0 c t w hroute rfl) (Or.inr ⟨rfl, rfl⟩)
      have hnone : c.route ≠ .sysenter none := by
        rw [hroute]
        intro h
        cases h
      have hrun : enter k esp0 t w c =
          sysenterEntry k c.traced c.eflags (some w6) (c.machine esp0 t w) := by
        rw [enter, hroute]
      rw [hrun]
      constructor
      · intro hnot
        have hge : nr_syscalls ≤ c.eax := BitVec.not_lt.mp fun hlt => hnot ⟨hnone, hlt⟩
        rw [Passed, if_neg hnone, if_pos hge]
        exact hbad hge
      · intro hreach
        obtain ⟨m, hm, hout⟩ := hcall hreach.2
        refine ⟨m, hm, ?_⟩
        rw [Bool.false_or] at hout
        have hiff : Hooked c ↔ c.traced = true := by
          rw [Hooked, hroute]
          constructor
          · rintro (h | h)
            · cases h
            · exact h
          · exact Or.inr
        rw [if_congr hiff rfl rfl]
        exact hout

/-! ## The counter along the calls -/

/-- The number of the call is in the vector. -/
def Listed (u : Nat → SyscallFailure) (ncall : Int) (c : Call) : Prop :=
  c.route ≠ .sysenter none ∧ occurs u ncall.toNat c.eax.toInt

instance (u : Nat → SyscallFailure) (ncall : Int) (c : Call) : Decidable (Listed u ncall c) :=
  inferInstanceAs (Decidable (c.route ≠ .sysenter none ∧ occurs u ncall.toNat c.eax.toInt))

/-- How many calls have their number in the vector. -/
def listed (u : Nat → SyscallFailure) (ncall : Int) (cs : List Call) : Nat :=
  cs.countP fun c => decide (Listed u ncall c)

/-- How many calls `syscall_fail` counts. -/
def counted (u : Nat → SyscallFailure) (ncall : Int) (cs : List Call) : Nat :=
  cs.countP fun c => decide (Listed u ncall c ∧ Hooked c)

theorem listed_cons (u : Nat → SyscallFailure) (ncall : Int) (c : Call) (cs : List Call) :
    listed u ncall (c :: cs) = listed u ncall cs + if Listed u ncall c then 1 else 0 := by
  rw [listed, List.countP_cons, ← listed]
  simp only [decide_eq_true_eq]

theorem counted_cons (u : Nat → SyscallFailure) (ncall : Int) (c : Call) (cs : List Call) :
    counted u ncall (c :: cs) =
      counted u ncall cs + if Listed u ncall c ∧ Hooked c then 1 else 0 := by
  rw [counted, List.countP_cons, ← counted]
  simp only [decide_eq_true_eq]

/-- No `sys_fail` among the calls arms the task again. -/
def NoFailAccepted (outs : List (Call × Machine W × Exit)) : Prop :=
  ∀ c m ex, (c, m, ex) ∈ outs → ∀ args, (NR_fail, args, 0) ∉ m.ran

theorem ValidVector.range {u : Nat → SyscallFailure} {n i : Nat} (h : ValidVector u n)
    (hi : i < n) : 0 ≤ (u i).syscallNr ∧ (u i).syscallNr < 289 ∧ 0 ≤ (u i).error := by
  have hgood := (h i hi).1
  simp only [badEntry, Bool.or_eq_false_iff, decide_eq_false_iff_not] at hgood
  obtain ⟨⟨hlo, hhi⟩, herr⟩ := hgood
  exact ⟨not_lt.mp hlo, not_le.mp hhi, not_lt.mp herr⟩

theorem Listed.reaches {u : Nat → SyscallFailure} {ncall : Int} {c : Call}
    (hvalid : ValidVector u ncall.toNat) (h : Listed u ncall c) : Reaches c := by
  obtain ⟨hroute, i, hi, hnr⟩ := h
  obtain ⟨hlo, hhi, -⟩ := hvalid.range hi
  refine ⟨hroute, ?_⟩
  rw [hnr] at hlo hhi
  rw [BitVec.toInt_eq_toNat_cond] at hlo hhi
  show c.eax.toNat < 289
  split at hlo
  · rename_i hsmall
    rw [if_pos hsmall] at hhi
    omega
  · have := c.eax.isLt
    omega

theorem slt_neg {e : Int} (hpos : 0 < e) (hlt : e < 2 ^ 31) :
    BitVec.slt (BitVec.ofInt 32 (-e)) 0 = true := by
  rw [BitVec.slt_iff_toInt_lt, BitVec.toInt_ofInt_eq_self (by decide) (by omega) (by omega)]
  show -e < 0
  omega

theorem Saved.same {k : Kernel W} {esp0 : Word} {c : Call} {t t' : Task} {m m' : Machine W}
    (h : Saved k esp0 c t m) (hsame : Same { m with task := t' } m') :
    Saved k esp0 c t' m' where
  eax := hsame.eax.trans h.eax
  esp := hsame.esp.trans h.esp
  stack := by
    intro w
    rw [hsame.stack]
    exact h.stack w
  args := by
    rw [hsame.stack]
    exact h.args
  origEax := by
    rw [Machine.load, hsame.stack]
    exact h.origEax
  task := hsame.task
  ran := hsame.ran.trans h.ran

section Counter

variable {k : Kernel W} {esp0 : Word} {u : Nat → SyscallFailure} {ith ncall : Int} {n : Nat}
  {t : Task} {c : Call}

/-- A handler keeps the injection: only `sys_fail` writes it, and that is refused. -/
theorem At.callTable {m : Machine W} (hm : Saved k esp0 c t m) (h : At u ith ncall n t)
    (hno : ∀ args, (NR_fail, args, 0) ∉ (callTable k m).ran) :
    At u ith ncall n (callTable k m).task := by
  obtain ⟨ret, -, -, -, hran, hsame | ⟨hnr, ith', ncall', calls, env, hret, htask⟩⟩ :=
    callTable_spec k m
  · rw [hsame, hm.task]
    exact h
  · have hne : (sysFail t ith' ncall' calls env).1 ≠ 0 := by
      intro h0
      refine hno (m.stack.take 6) ?_
      rw [hran, hret, hm.task, h0, hnr]
      exact List.mem_append_right _ List.mem_cons_self
    rw [htask, hm.task, At.fail h hne]
    exact h

/-- The error that the call would get. -/
def Fires (u : Nat → SyscallFailure) (ncall : Int) (c : Call) (e : Int) : Prop :=
  e ≠ 0 ∧ ∃ i < ncall.toNat, (u i).syscallNr = c.eax.toInt ∧ (u i).error = e

/-- Step lemma: one call, injected or not, and the counter after it. -/
theorem enter_step (hk : TracerReads k) (hvalid : ValidVector u ncall.toNat)
    (hbound : ∀ i, (u i).error < 2 ^ 31) (w : W) (h : At u ith ncall n t)
    (hno : ∀ args, (NR_fail, args, 0) ∉ (enter k esp0 t w c).1.ran) :
    At u ith ncall (n + if Listed u ncall c ∧ Hooked c then 1 else 0)
      (enter k esp0 t w c).1.task ∧
    (∀ e, Listed u ncall c ∧ Hooked c → (n : Int) = ith → Fires u ncall c e →
      Returned k esp0 c (-e) (enter k esp0 t w c).1) ∧
    ((∀ e, Listed u ncall c ∧ Hooked c → (n : Int) = ith → ¬ Fires u ncall c e) →
      Passed k esp0 c (enter k esp0 t w c).1) := by
  obtain ⟨hout, hin⟩ := enter_cases hk esp0 t w c
  by_cases hreach : Reaches c
  · obtain ⟨m, hm, hrun⟩ := hin hreach
    rw [hrun] at hno ⊢
    by_cases hhook : Hooked c
    · have hlisted : Listed u ncall c ∧ Hooked c ↔ occurs u ncall.toNat c.eax.toInt :=
        ⟨fun hl => hl.1.2, fun hocc => ⟨⟨hreach.1, hocc⟩, hhook⟩⟩
      have hcall := At.call hvalid h c.eax.toInt
      obtain ⟨hfire, hzero⟩ := At.result hvalid h c.eax.toInt
      have hr : syscallFail m.task m.eax.toInt =
          ((syscallFail t c.eax.toInt).1, (syscallFail t c.eax.toInt).2) := by
        rw [hm.task, hm.eax]
      obtain ⟨hskip, hgo⟩ := syscallCall_eq k m hr
      rw [if_pos hhook] at hno ⊢
      rw [if_congr hlisted rfl rfl]
      by_cases hneg : ∃ e, (Listed u ncall c ∧ Hooked c) ∧ (n : Int) = ith ∧ Fires u ncall c e
      · obtain ⟨e, hl, hn, he⟩ := hneg
        have hret : ∀ e', Fires u ncall c e' → (syscallFail t c.eax.toInt).1 = -e' ∧
            BitVec.slt (BitVec.ofInt 32 (syscallFail t c.eax.toInt).1) 0 = true := by
          rintro e' ⟨hne, i, hi, hnr, herr⟩
          have hval := hfire hn i hi hnr
          have hge := (hvalid.range hi).2.2
          have hlt := hbound i
          rw [herr] at hval hge hlt
          refine ⟨hval, ?_⟩
          rw [hval]
          exact slt_neg (by omega) hlt
        obtain ⟨hesp, hstack, htask, hran⟩ := hskip (hret e he).2
        refine ⟨?_, ?_, ?_⟩
        · rw [htask]
          exact hcall
        · intro e' _ _ he'
          refine ⟨hran.trans hm.ran, ?_, hesp.trans hm.esp⟩
          rw [hstack, hm.stack, (hret e' he').1]
        · intro hnone
          exact absurd he (hnone e hl hn)
      · have hret : (syscallFail t c.eax.toInt).1 = 0 := by
          by_cases hl : Listed u ncall c ∧ Hooked c
          · by_cases hn : (n : Int) = ith
            · obtain ⟨i, hi, hnr⟩ := hl.1.2
              have herr : (u i).error = 0 := by
                by_contra hne
                exact hneg ⟨_, hl, hn, hne, i, hi, hnr, rfl⟩
              rw [hfire hn i hi hnr, herr]
              rfl
            · exact hzero fun hboth => hn hboth.1
          · exact hzero fun hboth => hl (hlisted.mpr hboth.2)
        have hpos : BitVec.slt (BitVec.ofInt 32 (syscallFail t c.eax.toInt).1) 0 = false := by
          rw [hret]
          decide
        obtain ⟨m', hsame, hrun'⟩ := hgo hpos
        have hm' := hm.same hsame
        rw [hrun'] at hno ⊢
        refine ⟨?_, ?_, ?_⟩
        · exact At.callTable hm' hcall hno
        · intro e hl hn he
          exact absurd ⟨e, hl, hn, he⟩ hneg
        · intro _
          exact Passed.of_handled hreach hm'.handled
    · have hnot : ¬ (Listed u ncall c ∧ Hooked c) := fun hl => hhook hl.2
      rw [if_neg hhook] at hno ⊢
      rw [if_neg hnot]
      refine ⟨?_, ?_, ?_⟩
      · exact At.callTable hm h hno
      · intro e hl
        exact absurd hl hnot
      · intro _
        exact Passed.of_handled hreach hm.handled
  · have hnot : ¬ (Listed u ncall c ∧ Hooked c) := fun hl => hreach (hl.1.reaches hvalid)
    obtain ⟨hpassed, htask⟩ := hout hreach
    rw [if_neg hnot, htask]
    refine ⟨h, ?_, fun _ => hpassed⟩
    intro e hl
    exact absurd hl hnot

/-- Run lemma: the call after `pre` finds the counter at `n` plus what `pre` counted. -/
theorem enterAll_at (hk : TracerReads k) (hvalid : ValidVector u ncall.toNat)
    (hbound : ∀ i, (u i).error < 2 ^ 31) {m : Machine W} {ex : Exit}
    {pre post : List (Call × Machine W × Exit)} :
    ∀ {cs : List Call} {n : Nat} {t : Task} {w : W}, At u ith ncall n t →
      NoFailAccepted (enterAll k esp0 t w cs) →
      enterAll k esp0 t w cs = pre ++ (c, m, ex) :: post →
      ∃ t' w', At u ith ncall (n + counted u ncall (pre.map Prod.fst)) t' ∧
        enter k esp0 t' w' c = (m, ex) := by
  induction pre with
  | nil =>
    intro cs n t w hat _ hsplit
    cases cs with
    | nil => cases hsplit
    | cons d cs =>
      obtain ⟨hhead, -⟩ := List.cons.inj hsplit
      obtain ⟨hd, hout⟩ := Prod.mk.inj hhead
      subst hd
      exact ⟨t, w, hat, hout⟩
  | cons out pre ih =>
    intro cs n t w hat hno hsplit
    cases cs with
    | nil => cases hsplit
    | cons d cs =>
      obtain ⟨hhead, htail⟩ := List.cons.inj hsplit
      have hnoHead : ∀ args, (NR_fail, args, 0) ∉ (enter k esp0 t w d).1.ran :=
        hno d (enter k esp0 t w d).1 (enter k esp0 t w d).2 List.mem_cons_self
      obtain ⟨hnext, -, -⟩ := enter_step hk hvalid hbound w hat hnoHead
      have hnoTail : NoFailAccepted (enterAll k esp0 (enter k esp0 t w d).1.task
          (enter k esp0 t w d).1.world cs) :=
        fun c' m' ex' hmem => hno c' m' ex' (List.mem_cons_of_mem _ hmem)
      obtain ⟨t', w', hat', hout⟩ := ih hnext hnoTail htail
      refine ⟨t', w', ?_, hout⟩
      rw [← hhead, List.map_cons, counted_cons, Nat.add_comm (counted u ncall _), ← Nat.add_assoc]
      exact hat'

end Counter

theorem enterAll_fst (k : Kernel W) (esp0 : Word) : ∀ (cs : List Call) (t : Task) (w : W),
    (enterAll k esp0 t w cs).map Prod.fst = cs
  | [], _, _ => rfl
  | c :: cs, t, w => by
      rw [enterAll, List.map_cons, enterAll_fst k esp0 cs]

section Counts

variable {u : Nat → SyscallFailure} {ith ncall : Int}

variable (u ncall) in
theorem counted_le (cs : List Call) : counted u ncall cs ≤ listed u ncall cs := by
  apply List.countP_mono_left
  intro c _ h
  rw [decide_eq_true_eq] at h ⊢
  exact h.1

variable (u ncall) in
theorem counted_eq_iff (cs : List Call) :
    counted u ncall cs = listed u ncall cs ↔ ∀ c ∈ cs, Listed u ncall c → Hooked c := by
  induction cs with
  | nil =>
    constructor
    · intro _ c hc
      cases hc
    · intro _
      rfl
  | cons c cs ih =>
    have hle := counted_le u ncall cs
    rw [List.forall_mem_cons, ← ih, counted_cons, listed_cons]
    by_cases hl : Listed u ncall c
    · by_cases hh : Hooked c
      · rw [if_pos ⟨hl, hh⟩, if_pos hl]
        constructor
        · intro h
          exact ⟨fun _ => hh, by omega⟩
        · rintro ⟨-, h⟩
          omega
      · rw [if_neg (fun h => hh h.2), if_pos hl]
        constructor
        · intro h
          omega
        · rintro ⟨h, -⟩
          exact absurd (h hl) hh
    · rw [if_neg (fun h => hl h.1), if_neg hl]
      constructor
      · intro h
        exact ⟨fun h' => absurd h' hl, by omega⟩
      · rintro ⟨-, h⟩
        omega

/-- The listed call number `j` of a sequence. -/
theorem exists_listed : ∀ {cs : List Call} {j : Nat}, j < listed u ncall cs →
    ∃ pre c post, cs = pre ++ c :: post ∧ Listed u ncall c ∧ listed u ncall pre = j
  | [], _, h => absurd h (Nat.not_lt_zero _)
  | c :: cs, j, h => by
      rw [listed_cons] at h
      by_cases hl : Listed u ncall c
      · rcases j with _ | j
        · exact ⟨[], c, cs, rfl, hl, rfl⟩
        · rw [if_pos hl] at h
          obtain ⟨pre, d, post, hcs, hd, hj⟩ := exists_listed (Nat.lt_of_succ_lt_succ h)
          refine ⟨c :: pre, d, post, by rw [hcs]; rfl, hd, ?_⟩
          rw [listed_cons, if_pos hl, hj]
      · rw [if_neg hl] at h
        obtain ⟨pre, d, post, hcs, hd, hj⟩ := exists_listed h
        refine ⟨c :: pre, d, post, by rw [hcs]; rfl, hd, ?_⟩
        rw [listed_cons, if_neg hl, hj, Nat.add_zero]

end Counts

/-! ## The injection as the user sees it -/

/-- The call after `ith` listed ones is suppressed and returns minus its error; all
others go through. -/
def InjectionSeen (k : Kernel W) (esp0 : Word) (u : Nat → SyscallFailure) (ith ncall : Int)
    (outs : List (Call × Machine W × Exit)) : Prop :=
  ∀ pre c m ex post, outs = pre ++ (c, m, ex) :: post →
    (Listed u ncall c → (listed u ncall (pre.map Prod.fst) : Int) = ith →
      ∀ i < ncall.toNat, (u i).syscallNr = c.eax.toInt →
        Returned k esp0 c (-(u i).error) m) ∧
    (¬ (Listed u ncall c ∧ (listed u ncall (pre.map Prod.fst) : Int) = ith) →
      Passed k esp0 c m)

/-- The listed calls up to the one to suppress come through `system_call` or are
traced, and its error is not 0. -/
def HookSeen (u : Nat → SyscallFailure) (ith ncall : Int) (cs : List Call) : Prop :=
  ∀ pre c post, cs = pre ++ c :: post →
    Listed u ncall c → (listed u ncall pre : Int) = ith →
      (∀ d ∈ pre ++ [c], Listed u ncall d → Hooked d) ∧
      ∀ i < ncall.toNat, (u i).syscallNr = c.eax.toInt → (u i).error ≠ 0

/-- Where the hooks see the injection, they count as the user does. -/
theorem HookSeen.listed_eq {u : Nat → SyscallFailure} {ith ncall : Int} {cs pre post : List Call}
    (h : HookSeen u ith ncall cs) (hcs : cs = pre ++ post)
    (hn : (counted u ncall pre : Int) = ith) : (listed u ncall pre : Int) = ith := by
  have hle := counted_le u ncall pre
  by_contra hne
  have hlt : counted u ncall pre < listed u ncall pre := by omega
  obtain ⟨pre₁, d, pre₂, hpre, hd, hj⟩ := exists_listed hlt
  have hsplit : cs = pre₁ ++ d :: (pre₂ ++ post) := by
    rw [hcs, hpre, List.append_assoc]
    rfl
  obtain ⟨hall, -⟩ := h pre₁ d _ hsplit hd (by rw [hj]; exact hn)
  have heq := (counted_eq_iff u ncall (pre₁ ++ [d])).mpr hall
  have hmono : counted u ncall (pre₁ ++ [d]) ≤ counted u ncall pre := by
    rw [hpre, counted, counted]
    apply List.Sublist.countP_le
    exact List.Sublist.append_left (List.singleton_sublist.mpr List.mem_cons_self) pre₁
  rw [heq, listed, List.countP_append, List.countP_singleton, if_pos (decide_eq_true hd),
    ← listed] at hmono
  omega

theorem ValidVector.error_eq {u : Nat → SyscallFailure} {n i j : Nat} (h : ValidVector u n)
    (hi : i < n) (hj : j < n) (hnr : (u i).syscallNr = (u j).syscallNr) : i = j := by
  rcases Nat.lt_trichotomy i j with hlt | heq | hgt
  · exact absurd hnr ((h j hj).2 i hlt)
  · exact heq
  · exact absurd hnr.symm ((h i hi).2 j hgt)

/-- A returned error is not a handled call. -/
theorem Passed.not_returned {k : Kernel W} {esp0 : Word} {c : Call} {m : Machine W} {ret : Int}
    (hc : Reaches c) (h : Passed k esp0 c m) : ¬ Returned k esp0 c ret m := by
  intro hret
  rw [Passed, if_neg hc.1, if_neg (BitVec.not_le.mpr hc.2)] at h
  obtain ⟨ret', hran, -⟩ := h.ran
  rw [hret.ran] at hran
  cases hran

/-- **The user sees an accepted injection exactly when the hooks do.** `sys_fail`
accepts `(ith, ncall, u)`, and the task makes the calls `cs`, with registers, numbers
and ways in as it likes. The call after `ith` listed ones is suppressed with minus
its error and all others are passed on if and only if the listed calls up to that one
come through `system_call` or are traced and its error is not 0. -/
theorem injection_seen {k : Kernel W} (hk : TracerReads k) {t t' : Task} {ith ncall : Int}
    {u : Nat → SyscallFailure} {env : Env} (hacc : sysFail t ith ncall (some u) env = (0, t'))
    (hbound : ∀ i, (u i).error < 2 ^ 31) (esp0 : Word) (w : W) (cs : List Call)
    (hno : NoFailAccepted (enterAll k esp0 t' w cs)) :
    InjectionSeen k esp0 u ith ncall (enterAll k esp0 t' w cs) ↔ HookSeen u ith ncall cs := by
  obtain ⟨hith, -, ht', hvalid, hentry⟩ := sysFail_accepted hacc
  have hstart : At u ith ncall 0 t' := by
    rw [At, if_pos (by simpa using hith), ht']
    exact ⟨_, by simp, hentry⟩
  have hcall : ∀ pre c m ex post, enterAll k esp0 t' w cs = pre ++ (c, m, ex) :: post →
      (∀ e, Listed u ncall c ∧ Hooked c → (counted u ncall (pre.map Prod.fst) : Int) = ith →
        Fires u ncall c e → Returned k esp0 c (-e) m) ∧
      ((∀ e, Listed u ncall c ∧ Hooked c → (counted u ncall (pre.map Prod.fst) : Int) = ith →
        ¬ Fires u ncall c e) → Passed k esp0 c m) := by
    intro pre c m ex post hsplit
    obtain ⟨t'', w'', hat, hout⟩ := enterAll_at hk hvalid hbound hstart hno hsplit
    have hnoCall : ∀ args, (NR_fail, args, 0) ∉ (enter k esp0 t'' w'' c).1.ran := by
      rw [hout]
      exact hno c m ex (by rw [hsplit]; exact List.mem_append_right _ List.mem_cons_self)
    obtain ⟨-, hstep⟩ := enter_step hk hvalid hbound w'' hat hnoCall
    rw [hout, Nat.zero_add] at hstep
    exact hstep
  constructor
  · intro hseen pre c post hcs hl hn
    have hfst := enterAll_fst k esp0 cs t' w
    rw [hcs] at hfst
    obtain ⟨outs, rest, houts, hpre, hrest⟩ := List.map_eq_append_iff.mp hfst
    obtain ⟨⟨c', m, ex⟩, post', hrest', hc, -⟩ := List.map_eq_cons_iff.mp hrest
    have hc' : c' = c := hc
    subst hc' hpre hrest'
    rw [← hcs] at houts
    obtain ⟨-, hpass⟩ := hcall outs c' m ex post' houts
    obtain ⟨hfire, -⟩ := hseen outs c' m ex post' houts
    obtain ⟨i, hi, hnr⟩ := hl.2
    have hfires : ∃ e, (Listed u ncall c' ∧ Hooked c') ∧
        (counted u ncall (outs.map Prod.fst) : Int) = ith ∧ Fires u ncall c' e := by
      by_contra hnone
      refine (hpass ?_).not_returned (hl.reaches hvalid) (hfire hl hn i hi hnr)
      intro e hlh hcount he
      exact hnone ⟨e, hlh, hcount, he⟩
    obtain ⟨e, ⟨-, hhook⟩, hcount, hne, j, hj, hjnr, hje⟩ := hfires
    constructor
    · have hall := (counted_eq_iff u _ (outs.map Prod.fst)).mp
        (Int.ofNat.inj (hcount.trans hn.symm))
      intro d hd hld
      rcases List.mem_append.mp hd with hd | hd
      · exact hall d hd hld
      · rw [List.mem_singleton.mp hd]
        exact hhook
    · intro i' hi' hnr'
      rw [hvalid.error_eq hi' hj (hnr'.trans hjnr.symm), hje]
      exact hne
  · intro hhooks pre c m ex post hsplit
    obtain ⟨hret, hpass⟩ := hcall pre c m ex post hsplit
    have hcs : cs = pre.map Prod.fst ++ c :: post.map Prod.fst := by
      have hfst := enterAll_fst k esp0 cs t' w
      rw [hsplit, List.map_append, List.map_cons] at hfst
      exact hfst.symm
    constructor
    · intro hl hn i hi hnr
      obtain ⟨hall, herr⟩ := hhooks _ c _ hcs hl hn
      have hcount := (counted_eq_iff u ncall (pre.map Prod.fst)).mpr
        fun d hd => hall d (List.mem_append_left _ hd)
      have hhook : Hooked c := hall c (List.mem_append_right _ List.mem_cons_self) hl
      apply hret _ ⟨hl, hhook⟩ (by rw [hcount]; exact hn)
      exact ⟨herr i hi hnr, i, hi, hnr, rfl⟩
    · intro hnot
      apply hpass
      intro e hlh hcount _
      exact hnot ⟨hlh.1, hhooks.listed_eq hcs hcount⟩

theorem HookSeen.of_forall {u : Nat → SyscallFailure} {ith ncall : Int} {cs : List Call}
    (hhook : ∀ c ∈ cs, Listed u ncall c → Hooked c)
    (herr : ∀ i < ncall.toNat, (u i).error ≠ 0) : HookSeen u ith ncall cs := by
  intro pre c post hcs _ _
  constructor
  · intro d hd
    apply hhook
    rw [hcs]
    rcases List.mem_append.mp hd with hd | hd
    · exact List.mem_append_left _ hd
    · rw [List.mem_singleton.mp hd]
      exact List.mem_append_right _ List.mem_cons_self
  · intro i hi _
    exact herr i hi

/-! A kernel whose handlers return 7, and calls of a task that fails `getpid` with 88. -/

def plainKernel : Kernel Unit where
  userDs := 0x7b
  userCs := 0x73
  sysenterReturn := 0xffffe410
  threadInfo := 0xc0000000
  handler := fun _ _ w => (7, w)
  failArgs := fun _ _ => (0, 0, none, ⟨true, 0, fun _ => ⟨0, 0⟩⟩)
  syscallTrace := fun stack w => (stack, w)
  scratch := fun _ => (0, 0, 0)

def plainCall (nr : Word) (traced : Bool) (route : Route) : Call where
  eax := nr
  ebx := 1
  ecx := 2
  edx := 3
  esi := 4
  edi := 5
  ebp := 6
  ds := 0x7b
  es := 0x7b
  eip := 0x8048000
  cs := 0x73
  eflags := 0x246
  oldesp := 0xbffff000
  oldss := 0x7b
  traced := traced
  route := route

def failGetpid : Nat → SyscallFailure := fun _ => ⟨20, 88⟩

def plainEnv : Env := ⟨true, 0, fun _ => ⟨0, 0⟩⟩

/-- The task after `fail(ith, 1, {getpid, 88})`. -/
def armedGetpid (ith : Int) : Task :=
  (sysFail Task.disarmed ith 1 (some failGetpid) plainEnv).2

/-- `fail(1, 1, {getpid, 88})`, then `getpid` through `int $0x80`, an unlisted call
through `sysenter`, and a traced `getpid` through `sysenter`: the second one fails. -/
theorem second_getpid_seen :
    InjectionSeen plainKernel 0xc1000000 failGetpid 1 1
      (enterAll plainKernel 0xc1000000 (armedGetpid 1) ()
        [plainCall 20 false .int80, plainCall 4 false (.sysenter (some 0)),
          plainCall 20 true (.sysenter (some 0))]) := by
  have hacc : sysFail Task.disarmed 1 1 (some failGetpid) plainEnv = (0, armedGetpid 1) := rfl
  refine (injection_seen (fun _ _ => rfl) hacc ?_ _ () _ ?_).mpr ?_
  · intro i
    show (88 : Int) < 2 ^ 31
    decide
  · intro c m ex hmem args hran
    have hall : ∀ out ∈ enterAll plainKernel 0xc1000000 (armedGetpid 1) ()
        [plainCall 20 false .int80, plainCall 4 false (.sysenter (some 0)),
          plainCall 20 true (.sysenter (some 0))],
        ∀ r ∈ out.2.1.ran, r.1 ≠ NR_fail := by
      decide +kernel
    exact hall _ hmem _ hran rfl
  · apply HookSeen.of_forall
    · decide +kernel
    · intro i _
      show (88 : Int) ≠ 0
      decide

/-- An untraced `sysenter` does not ask `syscall_fail`: `getpid` runs, and the task
stays armed. -/
theorem sysenter_unseen :
    sysFail Task.disarmed 0 1 (some failGetpid) plainEnv = (0, armedGetpid 0) ∧
    TracerReads plainKernel ∧
    ¬ InjectionSeen plainKernel 0xc1000000 failGetpid 0 1
      (enterAll plainKernel 0xc1000000 (armedGetpid 0) ()
        [plainCall 20 false (.sysenter (some 0))]) := by
  refine ⟨rfl, fun _ _ => rfl, ?_⟩
  intro hseen
  obtain ⟨hret, -⟩ := hseen [] _ _ _ [] rfl
  have hlisted : Listed failGetpid 1 (plainCall 20 false (.sysenter (some 0))) := by
    decide
  have hran := (hret hlisted rfl 0 (by decide) rfl).ran
  revert hran
  decide +kernel

end LinuxHacks.SyscallFail
