import LinuxHacks.SyscallFail.Tasks

/-!
# What `sys_fail` accepts, and the size of its vectors

The loops over a fail vector trust the count `ncall`, the allocation has
`ncall * sizeof(struct syscall_failure)` bytes in 32-bit arithmetic.

* `sysFail_exact`: below `2^29` entries the call accepts exactly the valid
  vectors, and a refused call leaves the task as it was.
* `fail_vectors_fit`: from there on the product wraps, and the validation loops
  leave the allocation unless they meet an invalid entry first. No such vector
  is ever accepted, so the loops of `syscall_fail` and `dup_task_struct` stay
  inside in every reachable state.
-/

namespace LinuxHacks.SyscallFail

open LinuxHacks.Lib LinuxHacks.Lib.Ledger

/-! ## The loops with their bound -/

/-- `fail_vector[i]`, where the entry lies in the allocation. -/
def FailVector.read (v : FailVector) (i : Nat) : Option SyscallFailure :=
  if (i + 1) * sizeofSyscallFailure ≤ v.capacity then some (v.entry i) else none

/-- The inner loop of `sys_fail`. -/
def FailVector.duplicateLoop (v : FailVector) (i : Nat) : (left j : Nat) → Int → Option Int
  | 0, _, err => some err
  | left + 1, j, err =>
      if err ≠ 0 then some err
      else do
        let ej ← v.read j
        let ei ← v.read i
        v.duplicateLoop i left (j + 1) (if ej.syscallNr = ei.syscallNr then EINVAL else 0)

/-- The outer loop of `sys_fail`. -/
def FailVector.validateLoop (v : FailVector) : (left i : Nat) → Int → Option Int
  | 0, _, err => some err
  | left + 1, i, err =>
      if err ≠ 0 then some err
      else do
        let ei ← v.read i
        let err ← v.duplicateLoop i i 0 (if badEntry ei then EINVAL else 0)
        v.validateLoop left (i + 1) err

/-- `sys_fail` with its reads checked; `granted` is the size of what `kmalloc`
returned. -/
def sysFailChecked (tsk : Task) (ith ncall : Int) (calls : Option (Nat → SyscallFailure))
    (env : Env) (granted : Nat) : Option (Int × Task) :=
  match calls with
  | none => some (-EINVAL, tsk)
  | some calls =>
      if 0 > ith ∨ 1 > ncall then some (-EINVAL, tsk)
      else if tsk.failVector.isSome then some (-EINVAL, tsk)
      else if env.kmallocOk = false then some (-ENOMEM, { tsk with failVector := none })
      else do
        let v := { copiedVector ncall calls env with capacity := granted }
        let tsk := { tsk with failVector := some v }
        let err ← v.validateLoop ncall.toNat 0 (if env.copyRet ≠ 0 then EFAULT else 0)
        if err ≠ 0 then some (-err, freeFail tsk)
        else some (0, { tsk with failSkipCount := ith, failVecLength := ncall })

/-- The search loop of `syscall_fail`. -/
def FailVector.findCall (v : FailVector) (nr : Int) :
    (left i : Nat) → Option (Option SyscallFailure)
  | 0, _ => some none
  | left + 1, i => do
      let e ← v.read i
      if e.syscallNr = nr then some (some e) else v.findCall nr left (i + 1)

/-- The search of a task; a null vector must not be read. -/
def Task.findCall (t : Task) (nr : Int) : Option (Option SyscallFailure) :=
  match t.failVector with
  | some v => v.findCall nr t.failVecLength.toNat 0
  | none => if t.failVecLength.toNat = 0 then some none else none

/-- The copy loop of `dup_task_struct`, from the vector `v` to an allocation of
`granted` bytes. -/
def FailVector.copyLoop (v : FailVector) (granted : Nat) :
    (left i : Nat) → Option (List SyscallFailure)
  | 0, _ => some []
  | left + 1, i => do
      let e ← v.read i
      if (i + 1) * sizeofSyscallFailure ≤ granted then
        (v.copyLoop granted left (i + 1)).map (e :: ·)
      else none

section Loops

variable {v : FailVector} {n : Nat}

theorem FailVector.read_of_lt (hn : n * sizeofSyscallFailure ≤ v.capacity) {i : Nat} (hi : i < n) :
    v.read i = some (v.entry i) :=
  if_pos ((Nat.mul_le_mul_right _ hi).trans hn)

theorem duplicateLoop_inside (hn : n * sizeofSyscallFailure ≤ v.capacity) {i : Nat} (hi : i < n) :
    ∀ (left j : Nat) (err : Int), j + left ≤ n →
      v.duplicateLoop i left j err = some (duplicateLoop v.entry i left j err)
  | 0, _, _, _ => rfl
  | left + 1, j, err, hj => by
      rw [FailVector.duplicateLoop, duplicateLoop]
      by_cases herr : err ≠ 0
      · rw [if_pos herr, if_pos herr]
      · rw [if_neg herr, if_neg herr, FailVector.read_of_lt hn (show j < n by omega),
          FailVector.read_of_lt hn hi]
        exact duplicateLoop_inside hn hi left (j + 1) _ (by omega)

theorem FailVector.validateLoop_of_ne {err : Int} (h : err ≠ 0) :
    ∀ left i, v.validateLoop left i err = some err
  | 0, _ => rfl
  | left + 1, i => by rw [FailVector.validateLoop, if_pos h]

/-- The outer loop with `n` entries in the allocation: it leaves it exactly when
it would go on and has met no invalid entry in it. -/
theorem validateLoop_isSome_iff (hn : n * sizeofSyscallFailure ≤ v.capacity)
    (hlast : v.capacity < (n + 1) * sizeofSyscallFailure) : ∀ (left i : Nat), i ≤ n →
    ((v.validateLoop left i 0).isSome = true ↔ i + left ≤ n ∨
      ¬ ∀ k, i ≤ k → k < n →
        badEntry (v.entry k) = false ∧ ∀ j < k, (v.entry j).syscallNr ≠ (v.entry k).syscallNr)
  | 0, i, hi => by simp [FailVector.validateLoop, hi]
  | left + 1, i, hi => by
      rw [FailVector.validateLoop, if_neg (by simp)]
      rcases Nat.eq_or_lt_of_le hi with rfl | hlt
      · -- the first entry outside
        have hread : v.read i = none := if_neg (by omega)
        rw [hread]
        have hnone : ∀ k, i ≤ k → k < i → badEntry (v.entry k) = false ∧
            ∀ j < k, (v.entry j).syscallNr ≠ (v.entry k).syscallNr := by
          intro k hle hk
          omega
        simp only [Option.bind_eq_bind, Option.bind_none, Option.isSome_none]
        constructor
        · intro h
          cases h
        · rintro (h | h)
          · omega
          · exact absurd hnone h
      · rw [FailVector.read_of_lt hn hlt]
        simp only [Option.bind_eq_bind, Option.bind_some]
        rw [duplicateLoop_inside hn hlt i 0 _ (by omega), Option.bind_some]
        have hbody : SyscallFail.duplicateLoop v.entry i i 0
            (if badEntry (v.entry i) then EINVAL else 0) = 0 ↔
            badEntry (v.entry i) = false ∧ ∀ j < i, (v.entry j).syscallNr ≠ (v.entry i).syscallNr := by
          cases hb : badEntry (v.entry i) with
          | true => simp [duplicateLoop_of_ne]
          | false => simp [duplicateLoop_eq_zero]
        by_cases hgood : SyscallFail.duplicateLoop v.entry i i 0
            (if badEntry (v.entry i) then EINVAL else 0) = 0
        · rw [hgood, validateLoop_isSome_iff hn hlast left (i + 1) hlt]
          have hshift : (∀ k, i ≤ k → k < n → badEntry (v.entry k) = false ∧
                ∀ j < k, (v.entry j).syscallNr ≠ (v.entry k).syscallNr) ↔
              ∀ k, i + 1 ≤ k → k < n → badEntry (v.entry k) = false ∧
                ∀ j < k, (v.entry j).syscallNr ≠ (v.entry k).syscallNr := by
            constructor
            · intro h k hk hkn
              exact h k (by omega) hkn
            · intro h k hk hkn
              rcases Nat.eq_or_lt_of_le hk with rfl | hik
              · exact hbody.mp hgood
              · exact h k hik hkn
          rw [hshift, show i + 1 + left = i + (left + 1) by omega]
        · rw [FailVector.validateLoop_of_ne hgood]
          refine iff_of_true rfl (Or.inr fun h => hgood (hbody.mpr (h i (le_refl i) hlt)))

theorem findCall_inside (hn : n * sizeofSyscallFailure ≤ v.capacity) (nr : Int) :
    ∀ (left i : Nat), i + left ≤ n →
      v.findCall nr left i = some (SyscallFail.findCall v.entry nr left i)
  | 0, _, _ => rfl
  | left + 1, i, hi => by
      rw [FailVector.findCall, SyscallFail.findCall, FailVector.read_of_lt hn (show i < n by omega),
        findCall_inside hn nr left (i + 1) (by omega)]
      simp only [Option.bind_eq_bind, Option.bind_some]
      split <;> rfl

theorem copyLoop_inside (hn : n * sizeofSyscallFailure ≤ v.capacity) {granted : Nat}
    (hgranted : n * sizeofSyscallFailure ≤ granted) : ∀ (left i : Nat), i + left ≤ n →
      v.copyLoop granted left i = some ((List.range' i left).map v.entry)
  | 0, _, _ => rfl
  | left + 1, i, hi => by
      have hroom : (i + 1) * sizeofSyscallFailure ≤ granted :=
        (Nat.mul_le_mul_right _ (show i + 1 ≤ n by omega)).trans hgranted
      rw [FailVector.copyLoop, FailVector.read_of_lt hn (show i < n by omega),
        copyLoop_inside hn hgranted left (i + 1) (by omega)]
      simp only [Option.bind_eq_bind, Option.bind_some]
      rw [if_pos hroom, List.range'_succ]
      rfl

end Loops

/-! ## The checked call -/

theorem mul_sizeof_le_capacity (v : FailVector) :
    v.capacity / sizeofSyscallFailure * sizeofSyscallFailure ≤ v.capacity ∧
      v.capacity < (v.capacity / sizeofSyscallFailure + 1) * sizeofSyscallFailure := by
  unfold sizeofSyscallFailure
  omega

theorem vectorBytes_of_lt {ncall : Int} (hpos : 0 ≤ ncall) (hlt : ncall < 2 ^ 29) :
    vectorBytes ncall = ncall.toNat * sizeofSyscallFailure := by
  unfold vectorBytes sizeofSyscallFailure
  omega

/-- The call comes to its loops with at least `2 ^ 29` entries, and as many as the
allocation holds are valid. -/
def LeavesVector (tsk : Task) (ith ncall : Int) (calls : Option (Nat → SyscallFailure))
    (env : Env) (granted : Nat) : Prop :=
  2 ^ 29 ≤ ncall ∧ 0 ≤ ith ∧ tsk.failVector = none ∧ env.kmallocOk = true ∧ env.copyRet = 0 ∧
    ∃ u, calls = some u ∧
      ValidVector (copiedVector ncall u env).entry (granted / sizeofSyscallFailure)

/-- The validation loops of the call read inside the allocation, which has the
bytes that were asked for or more. -/
theorem sysFailChecked_iff (tsk : Task) (ith ncall : Int) (calls : Option (Nat → SyscallFailure))
    (env : Env) {granted : Nat} (hgranted : vectorBytes ncall ≤ granted)
    (hsmall : granted < 2 ^ 32) :
    (∃ r, sysFailChecked tsk ith ncall calls env granted = some r) ↔
      ¬ LeavesVector tsk ith ncall calls env granted := by
  unfold sysFailChecked LeavesVector
  cases calls with
  | none => exact iff_of_true ⟨_, rfl⟩ fun ⟨_, _, _, _, _, u, hu, _⟩ => by cases hu
  | some u =>
      dsimp only
      by_cases hargs : 0 > ith ∨ 1 > ncall
      · rw [if_pos hargs]
        exact iff_of_true ⟨_, rfl⟩ fun ⟨h, h', _⟩ => by omega
      rw [if_neg hargs]
      by_cases harmed : tsk.failVector.isSome = true
      · rw [if_pos harmed]
        refine iff_of_true ⟨_, rfl⟩ fun ⟨_, _, hnone, _⟩ => ?_
        rw [hnone] at harmed
        cases harmed
      rw [if_neg harmed]
      have hnone : tsk.failVector = none := by simpa using harmed
      by_cases hkmalloc : env.kmallocOk = false
      · rw [if_pos hkmalloc]
        exact iff_of_true ⟨_, rfl⟩ fun ⟨_, _, _, hok, _⟩ => by simp [hkmalloc] at hok
      rw [if_neg hkmalloc]
      by_cases hcopy : env.copyRet = 0
      · rw [if_neg (not_not.mpr hcopy)]
        generalize hv : ({ copiedVector ncall u env with capacity := granted } : FailVector) = v
        have hentry : v.entry = (copiedVector ncall u env).entry := by rw [← hv]
        have hcapacity : v.capacity = granted := by rw [← hv]
        obtain ⟨hin, hlast⟩ := mul_sizeof_le_capacity v
        have hloop := validateLoop_isSome_iff hin hlast ncall.toNat 0 (Nat.zero_le _)
        rw [hentry, hcapacity, Nat.zero_add] at hloop
        -- the loop result decides the call
        have hcall : (∃ r, (do
            let err ← v.validateLoop ncall.toNat 0 0
            if err ≠ 0 then some (-err, freeFail { tsk with failVector := some v })
            else some (0, { tsk with
              failVector := some v, failSkipCount := ith, failVecLength := ncall })) = some r) ↔
            (v.validateLoop ncall.toNat 0 0).isSome = true := by
          cases v.validateLoop ncall.toNat 0 0 with
          | none => simp
          | some err => by_cases herr : err = 0 <;> simp [herr]
        have hfits : ncall.toNat ≤ granted / sizeofSyscallFailure ↔ ncall < 2 ^ 29 := by
          constructor
          · intro h
            unfold sizeofSyscallFailure at h
            omega
          · intro h
            rw [vectorBytes_of_lt (by omega) h] at hgranted
            unfold sizeofSyscallFailure at hgranted ⊢
            omega
        rw [hcall, hloop, hfits]
        have hvalid : (∀ k, 0 ≤ k → k < granted / sizeofSyscallFailure →
            badEntry ((copiedVector ncall u env).entry k) = false ∧
              ∀ j < k, ((copiedVector ncall u env).entry j).syscallNr ≠
                ((copiedVector ncall u env).entry k).syscallNr) ↔
            ValidVector (copiedVector ncall u env).entry (granted / sizeofSyscallFailure) :=
          ⟨fun h k hk => h k (Nat.zero_le k) hk, fun h k _ hk => h k hk⟩
        rw [hvalid]
        constructor
        · rintro (hlt | hbad) ⟨hlarge, _, _, _, _, u', hu', hv'⟩
          · omega
          · cases hu'
            exact hbad hv'
        · intro h
          by_contra hcon
          rw [not_or, not_not] at hcon
          exact h ⟨by omega, by omega, hnone, by simpa using hkmalloc, hcopy, u, rfl, hcon.2⟩
      · rw [if_pos hcopy, FailVector.validateLoop_of_ne (by decide)]
        exact iff_of_true ⟨_, rfl⟩ fun ⟨_, _, _, _, h, _⟩ => hcopy h

theorem FailVector.eq_of_read {v : FailVector} {i : Nat} {e : SyscallFailure}
    (h : v.read i = some e) : v.entry i = e := by
  unfold FailVector.read at h
  split at h
  · exact Option.some.inj h
  · cases h

theorem FailVector.eq_of_duplicateLoop {v : FailVector} {i : Nat} : ∀ {left j : Nat} {err e : Int},
    v.duplicateLoop i left j err = some e → SyscallFail.duplicateLoop v.entry i left j err = e
  | 0, _, _, _, h => Option.some.inj h
  | left + 1, j, err, e, h => by
      rw [FailVector.duplicateLoop] at h
      rw [SyscallFail.duplicateLoop]
      split at h
      · next herr =>
          rw [if_pos herr]
          exact Option.some.inj h
      · next herr =>
          obtain ⟨ej, hj, h⟩ := Option.bind_eq_some_iff.mp h
          obtain ⟨ei, hi, h⟩ := Option.bind_eq_some_iff.mp h
          rw [if_neg herr, FailVector.eq_of_read hj, FailVector.eq_of_read hi]
          exact FailVector.eq_of_duplicateLoop h

theorem FailVector.eq_of_validateLoop {v : FailVector} : ∀ {left i : Nat} {err e : Int},
    v.validateLoop left i err = some e → SyscallFail.validateLoop v.entry left i err = e
  | 0, _, _, _, h => Option.some.inj h
  | left + 1, i, err, e, h => by
      rw [FailVector.validateLoop] at h
      rw [SyscallFail.validateLoop]
      split at h
      · next herr =>
          rw [if_pos herr]
          exact Option.some.inj h
      · next herr =>
          obtain ⟨ei, hi, h⟩ := Option.bind_eq_some_iff.mp h
          obtain ⟨err', hdup, h⟩ := Option.bind_eq_some_iff.mp h
          rw [if_neg herr, FailVector.eq_of_read hi, FailVector.eq_of_duplicateLoop hdup]
          exact FailVector.eq_of_validateLoop h

/-- A checked call on an allocation of the size asked for is the call of the
model. -/
theorem sysFailChecked_eq {tsk : Task} {ith ncall : Int} {calls : Option (Nat → SyscallFailure)}
    {env : Env} {r : Int × Task}
    (h : sysFailChecked tsk ith ncall calls env (vectorBytes ncall) = some r) :
    sysFail tsk ith ncall calls env = r := by
  unfold sysFailChecked at h
  unfold sysFail
  cases calls with
  | none => exact Option.some.inj h
  | some u =>
      dsimp only at h ⊢
      split at h
      · next hargs =>
          rw [if_pos hargs]
          exact Option.some.inj h
      · next hargs =>
          rw [if_neg hargs]
          split at h
          · next harmed =>
              rw [if_pos harmed]
              exact Option.some.inj h
          · next harmed =>
              rw [if_neg harmed]
              split at h
              · next hkmalloc =>
                  rw [if_pos hkmalloc]
                  exact Option.some.inj h
              · next hkmalloc =>
                  obtain ⟨err, hloop, h⟩ := Option.bind_eq_some_iff.mp h
                  have herr : internalError (copiedVector ncall u env) ncall env = err :=
                    FailVector.eq_of_validateLoop hloop
                  rw [if_neg hkmalloc, herr]
                  split at h
                  · next hbad =>
                      rw [if_pos hbad]
                      exact Option.some.inj h
                  · next hgood =>
                      rw [if_neg hgood]
                      exact Option.some.inj h

/-! ## What is accepted -/

/-- What a call of `sys_fail` does, in terms of its arguments. -/
structure SysFailExact (tsk : Task) (ith ncall : Int) (calls : Option (Nat → SyscallFailure))
    (env : Env) : Prop where
  accepts : tsk.failVector = none → ((sysFail tsk ith ncall calls env).1 = 0 ↔
    0 ≤ ith ∧ env.kmallocOk = true ∧ env.copyRet = 0 ∧ ∃ u, calls = some u ∧
      (∀ j < ncall.toNat, 0 ≤ (u j).syscallNr ∧ (u j).syscallNr < NR_syscalls ∧ 0 ≤ (u j).error) ∧
      ∀ j k, j < k → k < ncall.toNat → (u j).syscallNr ≠ (u k).syscallNr)
  stores : (sysFail tsk ith ncall calls env).1 = 0 → ∃ u v, calls = some u ∧
    (sysFail tsk ith ncall calls env).2 = ⟨ith, ncall, some v⟩ ∧ ∀ j < ncall.toNat, v.entry j = u j
  armed : tsk.failVector.isSome = true → (sysFail tsk ith ncall calls env).1 = -EINVAL
  error : (sysFail tsk ith ncall calls env).1 ≠ 0 →
    ((sysFail tsk ith ncall calls env).1 = -EINVAL ∨ (sysFail tsk ith ncall calls env).1 = -ENOMEM ∨
      (sysFail tsk ith ncall calls env).1 = -EFAULT) ∧ (sysFail tsk ith ncall calls env).2 = tsk

theorem validVector_iff {u : Nat → SyscallFailure} {n : Nat} : ValidVector u n ↔
    (∀ j < n, 0 ≤ (u j).syscallNr ∧ (u j).syscallNr < NR_syscalls ∧ 0 ≤ (u j).error) ∧
      ∀ j k, j < k → k < n → (u j).syscallNr ≠ (u k).syscallNr := by
  have hgood : ∀ e : SyscallFailure, badEntry e = false ↔
      0 ≤ e.syscallNr ∧ e.syscallNr < NR_syscalls ∧ 0 ≤ e.error := by
    intro e
    simp only [badEntry, Bool.or_eq_false_iff, decide_eq_false_iff_not, not_lt, not_le, and_assoc]
  constructor
  · intro h
    exact ⟨fun j hj => (hgood _).mp (h j hj).1, fun j k hjk hk => (h k hk).2 j hjk⟩
  · rintro ⟨hrange, hdistinct⟩ i hi
    exact ⟨(hgood _).mpr (hrange i hi), fun j hj => hdistinct j i hj hi⟩

theorem ValidVector.congr {u v : Nat → SyscallFailure} {n : Nat} (h : ∀ i < n, u i = v i) :
    ValidVector u n ↔ ValidVector v n := by
  have hone : ∀ u v : Nat → SyscallFailure, (∀ i < n, u i = v i) → ValidVector u n →
      ValidVector v n := by
    intro u v huv hu i hi
    obtain ⟨hgood, hdistinct⟩ := hu i hi
    rw [huv i hi] at hgood hdistinct
    refine ⟨hgood, fun j hj => ?_⟩
    rw [← huv j (by omega)]
    exact hdistinct j hj
  exact ⟨hone u v h, hone v u fun i hi => (h i hi).symm⟩

/-- Below `2 ^ 29` entries the whole vector is copied. -/
theorem copiedVector_entry_of_lt {ncall : Int} {u : Nat → SyscallFailure} {env : Env}
    (hlt : ncall < 2 ^ 29) {i : Nat} (hi : i < ncall.toNat) :
    (copiedVector ncall u env).entry i = u i := by
  have hbytes := vectorBytes_of_lt (show 0 ≤ ncall by omega) hlt
  refine if_pos ?_
  rw [hbytes]
  exact Nat.mul_le_mul_right _ hi

/-- The loops report nothing but `EINVAL`. -/
theorem duplicateLoop_error {v : Nat → SyscallFailure} {i : Nat} : ∀ (left j : Nat) (err : Int),
    err = 0 ∨ err = EINVAL → duplicateLoop v i left j err = 0 ∨ duplicateLoop v i left j err = EINVAL
  | 0, _, _, h => h
  | left + 1, j, err, h => by
      rw [duplicateLoop]
      split
      · exact h
      · apply duplicateLoop_error left (j + 1)
        split
        · exact Or.inr rfl
        · exact Or.inl rfl

theorem validateLoop_error {v : Nat → SyscallFailure} : ∀ (left i : Nat) (err : Int),
    err = 0 ∨ err = EINVAL → validateLoop v left i err = 0 ∨ validateLoop v left i err = EINVAL
  | 0, _, _, h => h
  | left + 1, i, err, h => by
      rw [validateLoop]
      split
      · exact h
      · apply validateLoop_error left (i + 1)
        apply duplicateLoop_error
        split
        · exact Or.inr rfl
        · exact Or.inl rfl

theorem internalError_cases (v : FailVector) (ncall : Int) (env : Env) :
    internalError v ncall env = 0 ∨ internalError v ncall env = EINVAL ∨
      internalError v ncall env = EFAULT := by
  unfold internalError
  by_cases hcopy : env.copyRet ≠ 0
  · rw [if_pos hcopy, SyscallFail.validateLoop_of_ne (by decide)]
    exact Or.inr (Or.inr rfl)
  · rw [if_neg hcopy]
    rcases validateLoop_error (v := v.entry) ncall.toNat 0 0 (Or.inl rfl) with h | h
    · exact Or.inl h
    · exact Or.inr (Or.inl h)

/-- **`sys_fail` on a well-formed task.** -/
theorem Task.Wf.sysFail_answers {tsk : Task} (h : tsk.Wf) {ith ncall : Int} (hpos : 1 ≤ ncall)
    (hlt : ncall < 2 ^ 29) (calls : Option (Nat → SyscallFailure)) (env : Env) :
    SysFailExact tsk ith ncall calls env := by
  by_cases harmed : tsk.failVector.isSome = true
  · have hr := sysFail_of_armed harmed ith ncall calls env
    have hneg : (-EINVAL : Int) ≠ 0 := by decide
    refine ⟨fun hnone => ?_, fun hzero => ?_, fun _ => by rw [hr], fun _ => ?_⟩
    · rw [hnone] at harmed
      cases harmed
    · rw [hr] at hzero
      exact absurd hzero hneg
    · rw [hr]
      exact ⟨Or.inl rfl, rfl⟩
  have hnone : tsk.failVector = none := by simpa using harmed
  obtain rfl := h.null hnone
  have hneverArmed : ¬ Task.disarmed.failVector.isSome = true := by decide
  -- a refused call, with the reason it is not acceptable
  have hrefused : ∀ e : Int, (e = -EINVAL ∨ e = -ENOMEM ∨ e = -EFAULT) →
      sysFail Task.disarmed ith ncall calls env = (e, Task.disarmed) →
      (0 ≤ ith → env.kmallocOk = true → env.copyRet = 0 → ∀ u, calls = some u →
        ¬ ValidVector u ncall.toNat) → SysFailExact Task.disarmed ith ncall calls env := by
    intro e he hr hno
    have hne : e ≠ 0 := by
      rcases he with rfl | rfl | rfl <;> decide
    refine ⟨fun _ => ?_, fun hzero => ?_, fun harm => absurd harm hneverArmed, fun _ => ?_⟩
    · rw [hr]
      refine iff_of_false hne ?_
      rintro ⟨hith, hok, hcopy, u, hu, hvalid⟩
      exact hno hith hok hcopy u hu (validVector_iff.mpr hvalid)
    · rw [hr] at hzero
      exact absurd hzero hne
    · rw [hr]
      exact ⟨he, rfl⟩
  cases hcalls : calls with
  | none =>
      rw [← hcalls]
      refine hrefused (-EINVAL) (Or.inl rfl) (by rw [hcalls]; rfl) ?_
      intro _ _ _ u hu
      rw [hcalls] at hu
      cases hu
  | some u =>
      rw [← hcalls]
      have hcall : sysFail Task.disarmed ith ncall calls env =
          if 0 > ith ∨ 1 > ncall then (-EINVAL, Task.disarmed)
          else if env.kmallocOk = false then (-ENOMEM, Task.disarmed)
          else if internalError (copiedVector ncall u env) ncall env ≠ 0 then
            (-internalError (copiedVector ncall u env) ncall env, Task.disarmed)
          else (0, ⟨ith, ncall, some (copiedVector ncall u env)⟩) := by
        rw [hcalls]
        rfl
      by_cases hith : 0 > ith
      · refine hrefused (-EINVAL) (Or.inl rfl) (by rw [hcall, if_pos (Or.inl hith)]) ?_
        intro hith' _ _ _ _
        omega
      rw [if_neg (by omega)] at hcall
      by_cases hkmalloc : env.kmallocOk = false
      · refine hrefused (-ENOMEM) (Or.inr (Or.inl rfl)) (by rw [hcall, if_pos hkmalloc]) ?_
        intro _ hok _ _ _
        exact absurd (hkmalloc.symm.trans hok) (by decide)
      rw [if_neg hkmalloc] at hcall
      have hentry : ∀ i < ncall.toNat, (copiedVector ncall u env).entry i = u i :=
        fun i hi => copiedVector_entry_of_lt hlt hi
      have hzero : internalError (copiedVector ncall u env) ncall env = 0 ↔
          env.copyRet = 0 ∧ ValidVector u ncall.toNat := by
        rw [internalError_eq_zero, ValidVector.congr hentry]
      by_cases herr : internalError (copiedVector ncall u env) ncall env ≠ 0
      · rw [if_pos herr] at hcall
        refine hrefused _ ?_ hcall ?_
        · rcases internalError_cases (copiedVector ncall u env) ncall env with h0 | h0 | h0
          · exact absurd h0 herr
          · exact Or.inl (by rw [h0])
          · exact Or.inr (Or.inr (by rw [h0]))
        · intro _ _ hcopy u' hu' hvalid
          rw [hcalls] at hu'
          cases hu'
          exact herr (hzero.mpr ⟨hcopy, hvalid⟩)
      · rw [if_neg herr] at hcall
        obtain ⟨hcopy, hvalid⟩ := hzero.mp (not_not.mp herr)
        refine ⟨fun _ => ?_, fun _ => ?_, fun harm => absurd harm hneverArmed, fun hne => ?_⟩
        · rw [hcall]
          refine iff_of_true rfl ⟨by omega, by simpa using hkmalloc, hcopy, u, hcalls, ?_⟩
          exact validVector_iff.mp hvalid
        · exact ⟨u, copiedVector ncall u env, hcalls, by rw [hcall], hentry⟩
        · rw [hcall] at hne
          exact absurd rfl hne

/-! ## Every reachable task -/

/-- A task whose vector has the size of its count. -/
structure Task.Sized (t : Task) : Prop where
  wf : t.Wf
  capacity : ∀ v, t.failVector = some v → v.capacity = vectorBytes t.failVecLength

theorem Task.Sized.exec {t : Task} (h : t.Sized) (o : Op) : (exec t o).2.Sized := by
  have hdisarmed : Task.disarmed.Sized := ⟨wf_disarmed, fun v hv => by cases hv⟩
  cases o with
  | call nr =>
      refine ⟨(wf_syscallFail h.wf nr).1, ?_⟩
      show ∀ v, (syscallFail t nr).2.failVector = some v →
        v.capacity = vectorBytes (syscallFail t nr).2.failVecLength
      cases hl : lookupCall t nr with
      | none =>
          rw [syscallFail_unlisted hl h.wf.skip]
          exact h.capacity
      | some e =>
          rw [syscallFail_listed hl]
          split
          · exact hdisarmed.capacity
          · exact h.capacity
  | fail ith ncall calls env =>
      refine ⟨wf_sysFail h.wf ith ncall calls env, ?_⟩
      show ∀ v, (sysFail t ith ncall calls env).2.failVector = some v →
        v.capacity = vectorBytes (sysFail t ith ncall calls env).2.failVecLength
      by_cases harmed : t.failVector.isSome = true
      · rw [sysFail_of_armed harmed]
        exact h.capacity
      · obtain rfl := h.wf.null (by simpa using harmed)
        by_cases hret : (sysFail Task.disarmed ith ncall calls env).1 = 0
        · cases calls with
          | none => exact hdisarmed.capacity
          | some u =>
              have hpair : sysFail Task.disarmed ith ncall (some u) env =
                  (0, (sysFail Task.disarmed ith ncall (some u) env).2) := Prod.ext hret rfl
              rw [(sysFail_accepted hpair).2.2.1]
              intro v hv
              cases hv
              rfl
        · rw [sysFail_disarmed_refused hret]
          exact hdisarmed.capacity

/-- The copy in the child has the size of the count. -/
theorem Task.Sized.child {m : Memory} {orig child : TaskStruct} {env : ForkEnv}
    {r : Int × Memory × Option TaskStruct} (h : (orig.deref m).Sized) (hl : LengthOk orig)
    (hr : m.copyProcess orig env = some r) (hchild : r.2.2 = some child) :
    (child.deref r.2.1).Sized := by
  obtain ⟨r', hr', hcopy, _⟩ := copyProcess_spec hl env
  rw [hr, Option.some.injEq] at hr'
  subst hr'
  obtain ⟨_, hcopy⟩ := hcopy child hchild
  refine ⟨⟨?_, ?_, ?_⟩, ?_⟩
  · intro hnone
    have hempty : (orig.deref m).failVector = none := by
      have harmed := hcopy.armed
      rw [hnone] at harmed
      simpa using harmed.symm
    have horig := h.wf.null hempty
    have hskip := hcopy.skip
    have hlength := hcopy.length
    rw [horig] at hskip hlength
    generalize child.deref r.2.1 = u at hnone hskip hlength
    obtain ⟨skip, length, vec⟩ := u
    dsimp only at hnone hskip hlength
    rw [hnone, hskip, hlength]
    rfl
  · rw [hcopy.skip]
    exact h.wf.skip
  · intro v' hv' i hi
    rw [hcopy.length] at hi
    have harmed := hcopy.armed
    rw [hv', Option.isSome_some] at harmed
    obtain ⟨v, hv⟩ := Option.isSome_iff_exists.mp harmed.symm
    rw [hcopy.entry v v' hv hv' i hi]
    exact h.wf.error v hv i hi
  · -- the child's own vector, as `dup_task_struct` allocated it
    intro v' hv'
    obtain ⟨d, hd, hr⟩ := Option.bind_eq_some_iff.mp hr
    split at hr
    · cases hr
      cases hchild
    · next tsk htsk =>
        split at hr
        · cases hr
          cases hchild
          unfold Memory.dupTaskStruct at hd
          split at hd
          · cases hd
            cases htsk
          · dsimp only at hd
            split at hd
            · next hnone =>
                cases hd
                cases htsk
                rw [TaskStruct.deref, hnone] at hv'
                cases hv'
            · split at hd
              · cases hd
                cases htsk
              · next p hkmalloc =>
                  split at hd
                  · cases hd
                    cases htsk
                    rw [TaskStruct.deref, Option.map_some, kmalloc_heap_self,
                      Option.some.injEq] at hv'
                    rw [← hv']
                    rfl
                  · cases hd
        · cases hr
          cases hchild

/-- The tasks of the table, each with its vector. -/
def AllSized (k : TaskTable) : Prop := ∀ i v, k.view i = some v → v.Sized

theorem AllSized.step {k k' : TaskTable} {op : TaskOp} {ret : Int} (h : AllSized k)
    (hinv : TableInv k) (hok : KmallocOk k op) (hstep : k.step op = some (ret, k')) :
    AllSized k' := by
  intro i v' hv'
  cases hv : k.view i with
  | some v =>
      have hsized := h i v hv
      obtain ⟨hown, hother⟩ := hinv.view_step hok hstep hv
      by_cases hmine : ∃ o p, op = .op i o p
      · obtain ⟨o, p, rfl⟩ := hmine
        rw [(hown o p rfl).2, Option.some.injEq] at hv'
        rw [← hv']
        exact hsized.exec o
      · by_cases hfree : op = .free i
        · subst hfree
          obtain ⟨tsk, _, hstep⟩ := Option.bind_eq_some_iff.mp hstep
          cases hstep
          rw [view_update_self] at hv'
          cases hv'
        · rw [hother (fun o p heq => hmine ⟨o, p, heq⟩) hfree, Option.some.injEq] at hv'
          rw [← hv']
          exact hsized
  | none =>
      have hnone : k.task i = none := Option.map_eq_none_iff.mp hv
      -- a task that was not there is the child of a fork
      have hnew : ∀ (j : TaskId) (t : Option TaskStruct) (m : Memory), i ≠ j →
          (⟨Function.update k.task j t, m⟩ : TaskTable).view i = none := by
        intro j t m hij
        show (Function.update k.task j t i).map _ = none
        rw [Function.update_of_ne hij, hnone]
        rfl
      cases op with
      | op j o p =>
          obtain ⟨tsk, htsk, hstep⟩ := Option.bind_eq_some_iff.mp hstep
          cases hstep
          rw [hnew j _ _ (by rintro rfl; rw [hnone] at htsk; cases htsk)] at hv'
          cases hv'
      | free j =>
          obtain ⟨tsk, htsk, hstep⟩ := Option.bind_eq_some_iff.mp hstep
          cases hstep
          rw [hnew j _ _ (by rintro rfl; rw [hnone] at htsk; cases htsk)] at hv'
          cases hv'
      | fork j c env =>
          rw [TaskTable.step] at hstep
          split at hstep
          · cases hstep
          · obtain ⟨orig, horig, hstep⟩ := Option.bind_eq_some_iff.mp hstep
            obtain ⟨r, hr, hstep⟩ := Option.bind_eq_some_iff.mp hstep
            cases hstep
            by_cases hic : i = c
            · subst hic
              rw [view_update_self] at hv'
              obtain ⟨child, hchild, rfl⟩ := Option.map_eq_some_iff.mp hv'
              have hparent : k.view j = some (orig.deref k.mem) := by
                rw [TaskTable.view, horig]
                rfl
              exact (h j _ hparent).child (hinv.length j orig horig) hr hchild
            · rw [hnew c _ _ hic] at hv'
              cases hv'

theorem reach_sized {k : TaskTable} (h : taskTable.Reach KmallocOk k) :
    TableInv k ∧ AllSized k := by
  refine System.Reach.invariant (I := fun k => TableInv k ∧ AllSized k) ?_ ?_ h
  · intro k hk
    refine ⟨TableInv.of_boot hk, ?_⟩
    intro i v hv
    obtain ⟨t, ht, rfl⟩ := Option.map_eq_some_iff.mp hv
    rw [hk.1 i t ht]
    exact ⟨wf_disarmed, fun v hv => by cases hv⟩
  · rintro k op k' ⟨hinv, hsized⟩ hok ⟨ret, hstep⟩
    exact ⟨hinv.step hok hstep, hsized.step hinv hok hstep⟩

/-- **What `sys_fail` accepts**, in every state of the machine. -/
theorem sysFail_exact {k : TaskTable} (h : taskTable.Reach KmallocOk k) {i : TaskId} {tsk : Task}
    (hv : k.view i = some tsk) (ith ncall : Int) (hpos : 1 ≤ ncall) (hlt : ncall < 2 ^ 29)
    (calls : Option (Nat → SyscallFailure)) (env : Env) : SysFailExact tsk ith ncall calls env :=
  ((reach_sized h).2 i tsk hv).wf.sysFail_answers hpos hlt calls env

/-! ### A machine with an armed and an unarmed task -/

/-- The child keeps its vector when `getpid` fails in the parent. -/
def firedTable : Option TaskTable :=
  armedAndForked.bind fun k => (k.step (.op 0 (.call 20) 0)).map Prod.snd

theorem firedTable_reached : ∃ k v, firedTable = some k ∧ taskTable.Reach KmallocOk k ∧
    k.view 0 = some Task.disarmed ∧ k.view 1 = some ⟨0, 2, some v⟩ := by
  obtain ⟨k, hk, hreach⟩ := armedAndForked_reached
  have hviews : (firedTable.map fun k => ((k.task 0), (k.task 1))) =
      some (some ⟨0, 0, none⟩, some ⟨0, 2, some 200⟩) := by
    decide +kernel
  obtain ⟨k', hk', htasks⟩ := Option.map_eq_some_iff.mp hviews
  obtain ⟨h0, h1⟩ := Prod.mk.inj htasks
  have hcall := hk'
  rw [firedTable, hk, Option.bind_some] at hcall
  obtain ⟨r, hstep, rfl⟩ := Option.map_eq_some_iff.mp hcall
  have hok : KmallocOk k (.op 0 (.call 20) 0) := by
    intro hno
    cases hno
  refine ⟨r.2, r.2.mem.heap 200, hk', .step _ hreach hok ⟨r.1, hstep⟩, ?_, ?_⟩
  · rw [TaskTable.view, h0]
    rfl
  · rw [TaskTable.view, h1]
    rfl

/-- Both tasks ask for failures of two different calls: the unarmed one gets them, and
the armed one stays as it is. -/
theorem firedTable_exact : ∃ v,
    (sysFail Task.disarmed 0 2 (some twoCalls) ⟨true, 0, fun _ => ⟨0, 0⟩⟩).1 = 0 ∧
      sysFail ⟨0, 2, some v⟩ 0 2 (some twoCalls) ⟨true, 0, fun _ => ⟨0, 0⟩⟩ =
        (-EINVAL, ⟨0, 2, some v⟩) := by
  obtain ⟨k, v, -, hreach, h0, h1⟩ := firedTable_reached
  have hfree := sysFail_exact hreach h0 0 2 (by decide) (by decide) (some twoCalls)
    ⟨true, 0, fun _ => ⟨0, 0⟩⟩
  have harmed := sysFail_exact hreach h1 0 2 (by decide) (by decide) (some twoCalls)
    ⟨true, 0, fun _ => ⟨0, 0⟩⟩
  refine ⟨v, (hfree.accepts rfl).mpr ⟨by decide, rfl, rfl, twoCalls, rfl, by decide, ?_⟩, ?_⟩
  · intro j k hjk hk
    obtain rfl : j = 0 := by omega
    obtain rfl : k = 1 := by omega
    decide
  · have herr := harmed.armed rfl
    refine Prod.ext herr (harmed.error ?_).2
    rw [herr]
    decide

/-! ## The size of the vectors -/

/-- The vectors of all tasks hold the entries that are counted, and the two loops
that trust the count stay inside. -/
structure VectorsFit (k : TaskTable) : Prop where
  holds : ∀ i t v, k.view i = some t → t.failVector = some v →
    t.failVecLength.toNat * sizeofSyscallFailure ≤ v.capacity
  search : ∀ i t nr, k.view i = some t → ∃ r, t.findCall nr = some r
  copy : ∀ i t v granted, k.view i = some t → t.failVector = some v →
    vectorBytes t.failVecLength ≤ granted → ∃ es, v.copyLoop granted t.failVecLength.toNat 0 = some es

/-- **The size of fail vectors.** The validation loops stay inside the vector
exactly when the call does not come to them with `2 ^ 29` entries or more, of
which those in the allocation are valid; and in every reachable state the vectors
hold the entries that are counted. -/
theorem fail_vectors_fit (tsk : Task) (ith ncall : Int)
    (calls : Option (Nat → SyscallFailure)) (env : Env) (granted : Nat)
    (hgranted : vectorBytes ncall ≤ granted) (hsmall : granted < 2 ^ 32)
    (k : TaskTable) (h : taskTable.Reach KmallocOk k) :
    ((∃ r, sysFailChecked tsk ith ncall calls env granted = some r) ↔
      ¬ LeavesVector tsk ith ncall calls env granted) ∧ VectorsFit k := by
  refine ⟨sysFailChecked_iff tsk ith ncall calls env hgranted hsmall, ?_⟩
  obtain ⟨hinv, hsized⟩ := reach_sized h
  have hbytes : ∀ i t, k.view i = some t →
      t.failVecLength.toNat * sizeofSyscallFailure ≤ vectorBytes t.failVecLength := by
    intro i t hv
    obtain ⟨u, hu, rfl⟩ := Option.map_eq_some_iff.mp hv
    exact (hinv.length i u hu).fits
  have hholds : ∀ i t v, k.view i = some t → t.failVector = some v →
      t.failVecLength.toNat * sizeofSyscallFailure ≤ v.capacity := by
    intro i t v hv hvec
    rw [(hsized i t hv).capacity v hvec]
    exact hbytes i t hv
  refine ⟨hholds, ?_, ?_⟩
  · intro i t nr hv
    unfold Task.findCall
    cases hvec : t.failVector with
    | some v => exact ⟨_, findCall_inside (hholds i t v hv hvec) nr _ 0 (by omega)⟩
    | none =>
        rw [(hsized i t hv).wf.null hvec]
        exact ⟨none, rfl⟩
  · intro i t v granted hv hvec hgranted
    exact ⟨_, copyLoop_inside (hholds i t v hv hvec) ((hbytes i t hv).trans hgranted) _ 0 (by omega)⟩

/-- Two entries are validated in the 16 bytes that were asked for, and the armed task
has both of its entries read by the two loops. -/
theorem firedTable_fit : ∃ k v, firedTable = some k ∧ k.view 1 = some ⟨0, 2, some v⟩ ∧
    (∃ r, sysFailChecked Task.disarmed 0 2 (some twoCalls) ⟨true, 0, fun _ => ⟨0, 0⟩⟩ 16 = some r) ∧
    16 ≤ v.capacity ∧ (∃ r, Task.findCall ⟨0, 2, some v⟩ 24 = some r) ∧
    ∃ es, v.copyLoop 16 2 0 = some es := by
  obtain ⟨k, v, hk, hreach, -, h1⟩ := firedTable_reached
  obtain ⟨hinside, hfit⟩ := fail_vectors_fit Task.disarmed 0 2 (some twoCalls)
    ⟨true, 0, fun _ => ⟨0, 0⟩⟩ 16 (by decide) (by decide) k hreach
  have hfew : ¬ (2 : Int) ^ 29 ≤ 2 := by decide
  refine ⟨k, v, hk, h1, hinside.mpr fun hleaves => hfew hleaves.1, ?_, ?_, ?_⟩
  · exact hfit.holds 1 _ v h1 rfl
  · exact hfit.search 1 _ 24 h1
  · exact hfit.copy 1 _ v 16 h1 rfl (show vectorBytes 2 ≤ 16 by decide)

/-- One valid entry, and a count for which the product wraps to 8 bytes. -/
theorem validation_leaves_vector :
    ¬ ∃ r, sysFailChecked Task.disarmed 0 (2 ^ 29 + 1) (some fun _ => ⟨20, 88⟩)
      ⟨true, 0, fun _ => ⟨0, 0⟩⟩ 8 = some r := by
  rw [sysFailChecked_iff _ _ _ _ _ (by decide) (by decide), not_not]
  refine ⟨by decide, le_refl 0, rfl, rfl, rfl, _, rfl, ?_⟩
  -- the one entry that was copied
  intro i hi
  obtain rfl : i = 0 := by
    unfold sizeofSyscallFailure at hi
    omega
  exact ⟨by decide, fun j hj => absurd hj (by omega)⟩

end LinuxHacks.SyscallFail
