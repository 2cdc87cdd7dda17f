import Mathlib.Data.Finset.Card
import Mathlib.Data.Int.Interval
import Mathlib.Tactic
import LinuxHacks.SyscallFail.Model

/-!
# An accepted injection fires once, at the right call

`sysFail_accepted` says what acceptance means: the stored vector is the user's
vector, entry for entry, its numbers pairwise distinct and in range. (The byte
count cannot have wrapped: more than `NR_syscalls` entries cannot be pairwise
distinct.) From there the task is a counter: after `k` listed calls it either
still holds the vector with skip count `ith - k`, or, past the firing call, is
disarmed. `At` is that state and `At.run` carries it along any run.
-/

namespace LinuxHacks.SyscallFail

/-! ## The loops -/

theorem duplicateLoop_of_ne {v : Nat → SyscallFailure} {i : Nat} {err : Int} (h : err ≠ 0) :
    ∀ left j, duplicateLoop v i left j err = err
  | 0, _ => rfl
  | left + 1, j => by rw [duplicateLoop, if_pos h]

theorem duplicateLoop_eq_zero {v : Nat → SyscallFailure} {i : Nat} : ∀ {left j : Nat},
    duplicateLoop v i left j 0 = 0 ↔
      ∀ k < left, (v (j + k)).syscallNr ≠ (v i).syscallNr
  | 0, _ => by simp [duplicateLoop]
  | left + 1, j => by
      have hshift : (∀ k < left + 1, (v (j + k)).syscallNr ≠ (v i).syscallNr) ↔
          (v j).syscallNr ≠ (v i).syscallNr ∧
            ∀ k < left, (v (j + 1 + k)).syscallNr ≠ (v i).syscallNr := by
        constructor
        · intro h
          refine ⟨h 0 (by omega), fun k hk => ?_⟩
          rw [show j + 1 + k = j + (k + 1) by omega]
          exact h (k + 1) (by omega)
        · rintro ⟨h0, h⟩ k hk
          rcases k with _ | k
          · exact h0
          · rw [show j + (k + 1) = j + 1 + k by omega]
            exact h k (by omega)
      rw [hshift, duplicateLoop, if_neg (by simp)]
      by_cases hj : (v j).syscallNr = (v i).syscallNr
      · rw [if_pos hj, duplicateLoop_of_ne (by decide)]
        simp [hj]
      · rw [if_neg hj, duplicateLoop_eq_zero]
        simp [hj]

theorem validateLoop_of_ne {v : Nat → SyscallFailure} {err : Int} (h : err ≠ 0) :
    ∀ left i, validateLoop v left i err = err
  | 0, _ => rfl
  | left + 1, i => by rw [validateLoop, if_pos h]

/-- The entries `0 .. n - 1` pass the range test and have pairwise distinct
numbers: what the two nested loops of `sys_fail` establish. -/
def ValidVector (v : Nat → SyscallFailure) (n : Nat) : Prop :=
  ∀ i < n, badEntry (v i) = false ∧ ∀ j < i, (v j).syscallNr ≠ (v i).syscallNr

theorem validateLoop_eq_zero {v : Nat → SyscallFailure} : ∀ {left i : Nat},
    validateLoop v left i 0 = 0 ↔
      ∀ k < left, badEntry (v (i + k)) = false ∧
        ∀ j < i + k, (v j).syscallNr ≠ (v (i + k)).syscallNr
  | 0, _ => by simp [validateLoop]
  | left + 1, i => by
      rw [validateLoop, if_neg (by simp)]
      have hbody : duplicateLoop v i i 0 (if badEntry (v i) then EINVAL else 0) = 0 ↔
          badEntry (v i) = false ∧ ∀ j < i, (v j).syscallNr ≠ (v i).syscallNr := by
        cases hb : badEntry (v i) with
        | true => simp [duplicateLoop_of_ne]
        | false => simp [duplicateLoop_eq_zero]
      by_cases h0 : duplicateLoop v i i 0 (if badEntry (v i) then EINVAL else 0) = 0
      · rw [h0, validateLoop_eq_zero]
        constructor
        · intro h k hk
          rcases k with _ | k
          · exact hbody.mp h0
          · rw [show i + (k + 1) = i + 1 + k by omega]
            exact h k (by omega)
        · intro h k hk
          rw [show i + 1 + k = i + (k + 1) by omega]
          exact h (k + 1) (by omega)
      · rw [validateLoop_of_ne h0]
        constructor
        · intro h
          exact absurd h h0
        · intro h
          exact absurd (hbody.mpr (h 0 (by omega))) h0

theorem internalError_eq_zero {v : FailVector} {ncall : Int} {env : Env} :
    internalError v ncall env = 0 ↔ env.copyRet = 0 ∧ ValidVector v.entry ncall.toNat := by
  unfold internalError
  by_cases h : env.copyRet = 0
  · simp [h, validateLoop_eq_zero, ValidVector]
  · simp [h, validateLoop_of_ne]

theorem findCall_eq_none {v : Nat → SyscallFailure} {nr : Int} : ∀ {left i : Nat},
    findCall v nr left i = none ↔ ∀ k < left, (v (i + k)).syscallNr ≠ nr
  | 0, _ => by simp [findCall]
  | left + 1, i => by
      rw [findCall]
      by_cases h : (v i).syscallNr = nr
      · rw [if_pos h]
        constructor
        · intro h'
          cases h'
        · intro h'
          exact absurd h (h' 0 (by omega))
      · rw [if_neg h, findCall_eq_none]
        constructor
        · intro h' k hk
          rcases k with _ | k
          · exact h
          · rw [show i + (k + 1) = i + 1 + k by omega]
            exact h' k (by omega)
        · intro h' k hk
          rw [show i + 1 + k = i + (k + 1) by omega]
          exact h' (k + 1) (by omega)

theorem findCall_some {v : Nat → SyscallFailure} {nr : Int} {e : SyscallFailure} :
    ∀ {left i : Nat}, findCall v nr left i = some e →
      ∃ k < left, v (i + k) = e ∧ e.syscallNr = nr
  | 0, _, h => by simp [findCall] at h
  | left + 1, i, h => by
      rw [findCall] at h
      by_cases hi : (v i).syscallNr = nr
      · rw [if_pos hi] at h
        cases h
        exact ⟨0, by omega, rfl, hi⟩
      · rw [if_neg hi] at h
        obtain ⟨k, hk, hv, he⟩ := findCall_some h
        refine ⟨k + 1, by omega, ?_, he⟩
        rw [show i + (k + 1) = i + 1 + k by omega]
        exact hv

/-! ## What `sys_fail` accepts -/

/-- Pairwise distinct numbers below `NR_syscalls` leave room for at most
`NR_syscalls` entries. -/
theorem ValidVector.length_le {v : Nat → SyscallFailure} {n : Nat} (h : ValidVector v n) :
    n ≤ 289 := by
  have hmaps : Set.MapsTo (fun i => (v i).syscallNr.toNat) (Finset.range n)
      (Finset.range 289) := by
    intro i hi
    have hgood := (h i (by simpa using hi)).1
    simp only [badEntry, Bool.or_eq_false_iff, decide_eq_false_iff_not] at hgood
    have hnr := hgood.1.2
    simp only [NR_syscalls] at hnr
    have hlt : (v i).syscallNr.toNat < 289 := by omega
    simpa using hlt
  have hinj : Set.InjOn (fun i => (v i).syscallNr.toNat) (Finset.range n) := by
    intro i hi j hj hij
    have hi' : i < n := by simpa using hi
    have hj' : j < n := by simpa using hj
    have gi := (h i hi').1
    have gj := (h j hj').1
    simp only [badEntry, Bool.or_eq_false_iff, decide_eq_false_iff_not] at gi gj
    have hnr : (v i).syscallNr = (v j).syscallNr := by
      simp only at hij
      omega
    rcases Nat.lt_trichotomy i j with hlt | heq | hgt
    · exact absurd hnr ((h j hj').2 i hlt)
    · exact heq
    · exact absurd hnr.symm ((h i hi').2 j hgt)
  simpa using Finset.card_le_card_of_injOn _ hmaps hinj

theorem copiedVector_entry {ncall : Int} {u : Nat → SyscallFailure} {env : Env}
    (hle : ncall.toNat ≤ 289) (hpos : 1 ≤ ncall) {i : Nat} (hi : i < ncall.toNat) :
    (copiedVector ncall u env).entry i = u i := by
  have hbytes : vectorBytes ncall = ncall.toNat * 8 := by
    unfold vectorBytes sizeofSyscallFailure
    omega
  simp only [copiedVector, hbytes, sizeofSyscallFailure]
  rw [if_pos (by omega)]

/-- **Acceptance.** A `sys_fail` that returns 0 leaves the task armed with
skip count `ith`, length `ncall`, and a vector that is valid and equals the
user's on all `ncall` entries. -/
theorem sysFail_accepted {t t' : Task} {ith ncall : Int} {u : Nat → SyscallFailure} {env : Env}
    (h : sysFail t ith ncall (some u) env = (0, t')) :
    0 ≤ ith ∧ 1 ≤ ncall ∧ t' = ⟨ith, ncall, some (copiedVector ncall u env)⟩ ∧
      ValidVector u ncall.toNat ∧
      ∀ i < ncall.toNat, (copiedVector ncall u env).entry i = u i := by
  simp only [sysFail] at h
  split at h
  · simp at h
  · rename_i hrange
    split at h
    · simp at h
    · split at h
      · simp at h
      · split at h
        · rename_i herr
          exact absurd (by simpa using congrArg Prod.fst h) herr
        · rename_i herr
          obtain ⟨-, hvalid⟩ := internalError_eq_zero.mp (not_not.mp herr)
          have hentry : ∀ i < ncall.toNat, (copiedVector ncall u env).entry i = u i :=
            fun i hi => copiedVector_entry hvalid.length_le (by omega) hi
          refine ⟨by omega, by omega, (congrArg Prod.snd h).symm, ?_, hentry⟩
          intro i hi
          have hv := hvalid i hi
          rw [hentry i hi] at hv
          refine ⟨hv.1, fun j hj => ?_⟩
          have hd := hv.2 j hj
          rw [hentry j (by omega)] at hd
          exact hd

/-- A `sys_fail` on an armed task is refused and changes nothing. -/
theorem sysFail_of_armed {t : Task} (h : t.failVector.isSome) (ith ncall : Int)
    (calls : Option (Nat → SyscallFailure)) (env : Env) :
    sysFail t ith ncall calls env = (-EINVAL, t) := by
  cases calls with
  | none => rfl
  | some u =>
      simp only [sysFail, h, if_true]
      split <;> rfl

/-- A `sys_fail` refused on a disarmed task leaves it disarmed. -/
theorem sysFail_disarmed_refused {ith ncall : Int} {calls : Option (Nat → SyscallFailure)}
    {env : Env} (h : (sysFail Task.disarmed ith ncall calls env).1 ≠ 0) :
    (sysFail Task.disarmed ith ncall calls env).2 = Task.disarmed := by
  cases calls with
  | none => rfl
  | some u =>
      simp only [sysFail] at h ⊢
      split
      · rfl
      · split
        · rfl
        · split
          · rfl
          · split
            · rfl
            · simp_all

/-! ## Calls of an armed and of a disarmed task -/

/-- `nr` occurs among the first `n` entries of the vector. -/
def occurs (u : Nat → SyscallFailure) (n : Nat) (nr : Int) : Prop :=
  ∃ i < n, (u i).syscallNr = nr

instance (u : Nat → SyscallFailure) (n : Nat) (nr : Int) : Decidable (occurs u n nr) :=
  inferInstanceAs (Decidable (∃ i < n, (u i).syscallNr = nr))

/-- A task armed with the first `n` entries of `u` and `skip` calls to let
through. -/
def ArmedWith (u : Nat → SyscallFailure) (ncall skip : Int) (t : Task) : Prop :=
  ∃ v : FailVector, t = ⟨skip, ncall, some v⟩ ∧ ∀ i < ncall.toNat, v.entry i = u i

theorem lookupCall_not_occurs {u : Nat → SyscallFailure} {ncall skip nr : Int} {t : Task}
    (ht : ArmedWith u ncall skip t) (h : ¬ occurs u ncall.toNat nr) :
    lookupCall t nr = none := by
  obtain ⟨v, rfl, hv⟩ := ht
  show findCall v.entry nr ncall.toNat 0 = none
  rw [findCall_eq_none]
  intro k hk hnr
  rw [Nat.zero_add, hv k hk] at hnr
  exact h ⟨k, hk, hnr⟩

/-- Distinct numbers make the stored error of a listed call unique. -/
theorem lookupCall_occurs {u : Nat → SyscallFailure} {ncall skip nr : Int} {t : Task}
    (ht : ArmedWith u ncall skip t) (hvalid : ValidVector u ncall.toNat) {i : Nat}
    (hi : i < ncall.toNat) (hnr : (u i).syscallNr = nr) :
    lookupCall t nr = some (u i) := by
  obtain ⟨v, rfl, hv⟩ := ht
  show findCall v.entry nr ncall.toNat 0 = some (u i)
  cases hf : findCall v.entry nr ncall.toNat 0 with
  | none =>
      have := findCall_eq_none.mp hf i hi
      rw [Nat.zero_add, hv i hi] at this
      exact absurd hnr this
  | some e =>
      obtain ⟨k, hk, hke, hen⟩ := findCall_some hf
      rw [Nat.zero_add, hv k hk] at hke
      subst hke
      rcases Nat.lt_trichotomy k i with hlt | heq | hgt
      · exact absurd (hen.trans hnr.symm) ((hvalid i hi).2 k hlt)
      · rw [heq]
      · exact absurd (hnr.trans hen.symm) ((hvalid k hk).2 i hgt)

theorem syscallFail_disarmed (nr : Int) :
    syscallFail Task.disarmed nr = (0, Task.disarmed) := rfl

theorem syscallFail_unlisted {t : Task} {nr : Int} (h : lookupCall t nr = none)
    (hskip : 0 ≤ t.failSkipCount) : syscallFail t nr = (0, t) := by
  simp only [syscallFail, h]
  rw [if_neg (by omega)]

theorem syscallFail_listed {t : Task} {nr : Int} {e : SyscallFailure}
    (h : lookupCall t nr = some e) :
    syscallFail t nr =
      if t.failSkipCount - 1 < 0 then (-e.error, Task.disarmed)
      else (0, { t with failSkipCount := t.failSkipCount - 1 }) := by
  simp only [syscallFail, h, freeFail]

/-! ## Runs -/

/-- The number of calls in `ops` whose number is listed in the vector. -/
def hits (u : Nat → SyscallFailure) (n : Nat) : List Op → Nat
  | [] => 0
  | .call nr :: ops => (if occurs u n nr then 1 else 0) + hits u n ops
  | .fail .. :: ops => hits u n ops

/-- No `sys_fail` of the run succeeds. -/
def NoRearm (t : Task) (ops : List Op) : Prop :=
  ∀ ith ncall calls env, (Op.fail ith ncall calls env, 0) ∉ trace t ops

theorem NoRearm.head {t : Task} {op : Op} {ops : List Op} (h : NoRearm t (op :: ops)) :
    NoRearm (exec t op).2 ops :=
  fun ith ncall calls env hmem => h ith ncall calls env (List.mem_cons_of_mem _ hmem)

/-- The task after `k` listed calls of an injection `(ith, ncall, u)`. -/
def At (u : Nat → SyscallFailure) (ith ncall : Int) (k : Nat) (t : Task) : Prop :=
  if (k : Int) ≤ ith then ArmedWith u ncall (ith - k) t else t = Task.disarmed

section Injection

variable {u : Nat → SyscallFailure} {ith ncall : Int} {k : Nat} {t : Task}

theorem At.call (hvalid : ValidVector u ncall.toNat) (h : At u ith ncall k t) (nr : Int) :
    At u ith ncall (k + if occurs u ncall.toNat nr then 1 else 0) (syscallFail t nr).2 := by
  unfold At at h ⊢
  by_cases hk : (k : Int) ≤ ith
  · rw [if_pos hk] at h
    have hskip : t.failSkipCount = ith - k := by
      obtain ⟨v, rfl, -⟩ := h
      rfl
    by_cases hocc : occurs u ncall.toNat nr
    · obtain ⟨i, hi, hnr⟩ := id hocc
      rw [if_pos hocc, syscallFail_listed (lookupCall_occurs h hvalid hi hnr), hskip]
      by_cases hlast : ith - k - 1 < 0
      · rw [if_pos hlast, if_neg (by push_cast; omega)]
      · rw [if_neg hlast, if_pos (by push_cast; omega)]
        obtain ⟨v, rfl, hv⟩ := h
        exact ⟨v, by push_cast; simp only [Task.mk.injEq, and_true]; omega, hv⟩
    · rw [if_neg hocc, syscallFail_unlisted (lookupCall_not_occurs h hocc) (by omega)]
      rw [Nat.add_zero, if_pos hk]
      exact h
  · rw [if_neg hk] at h
    subst h
    rw [if_neg (by push_cast; split <;> omega), syscallFail_disarmed]

theorem At.fail (h : At u ith ncall k t) {ith' ncall' : Int}
    {calls : Option (Nat → SyscallFailure)} {env : Env}
    (hno : (sysFail t ith' ncall' calls env).1 ≠ 0) :
    (sysFail t ith' ncall' calls env).2 = t := by
  unfold At at h
  split at h
  · obtain ⟨v, rfl, -⟩ := h
    rw [sysFail_of_armed rfl]
  · subst h
    exact sysFail_disarmed_refused hno

/-- Run lemma: listed calls advance the counter, everything else keeps it. -/
theorem At.run (hvalid : ValidVector u ncall.toNat) : ∀ {ops : List Op} {k : Nat} {t : Task},
    At u ith ncall k t → NoRearm t ops →
      At u ith ncall (k + hits u ncall.toNat ops) (run t ops)
  | [], _, _, h, _ => h
  | .call nr :: ops, k, t, h, hno => by
      have hstep := At.call hvalid h nr
      have hrun := At.run hvalid hstep hno.head
      rw [Nat.add_assoc] at hrun
      exact hrun
  | .fail ith' ncall' calls env :: ops, k, t, h, hno => by
      have hne : (sysFail t ith' ncall' calls env).1 ≠ 0 := by
        intro h0
        refine hno ith' ncall' calls env ?_
        rw [trace, show exec t (.fail ith' ncall' calls env) = sysFail t ith' ncall' calls env
          from rfl, h0]
        exact List.mem_cons_self
      have hsame := At.fail h hne
      have hrun := At.run hvalid (t := (exec t (.fail ith' ncall' calls env)).2) (k := k)
        (by rw [show (exec t (.fail ith' ncall' calls env)).2 = t from hsame]; exact h) hno.head
      exact hrun

/-- The value returned by the next call, from the counter alone. -/
theorem At.result (hvalid : ValidVector u ncall.toNat) (h : At u ith ncall k t) (nr : Int) :
    ((k : Int) = ith → ∀ i < ncall.toNat, (u i).syscallNr = nr →
      (syscallFail t nr).1 = -(u i).error) ∧
    (¬ ((k : Int) = ith ∧ occurs u ncall.toNat nr) → (syscallFail t nr).1 = 0) := by
  unfold At at h
  by_cases hk : (k : Int) ≤ ith
  · rw [if_pos hk] at h
    have hskip : t.failSkipCount = ith - k := by
      obtain ⟨v, rfl, -⟩ := h
      rfl
    refine ⟨fun heq i hi hnr => ?_, fun hnot => ?_⟩
    · rw [syscallFail_listed (lookupCall_occurs h hvalid hi hnr), if_pos (by omega)]
    · by_cases hocc : occurs u ncall.toNat nr
      · obtain ⟨i, hi, hnr⟩ := hocc
        have hne : (k : Int) ≠ ith := fun heq => hnot ⟨heq, i, hi, hnr⟩
        rw [syscallFail_listed (lookupCall_occurs h hvalid hi hnr), if_neg (by omega)]
      · rw [syscallFail_unlisted (lookupCall_not_occurs h hocc) (by omega)]
  · rw [if_neg hk] at h
    subst h
    exact ⟨fun heq => absurd heq.le hk, fun _ => rfl⟩

end Injection

/-! ## All tasks reachable from boot -/

/-- What every reachable task satisfies: a null vector goes with zero length
and zero skip count, the skip count is never negative, and no stored error is. -/
structure Task.Wf (t : Task) : Prop where
  null : t.failVector = none → t = Task.disarmed
  skip : 0 ≤ t.failSkipCount
  error : ∀ v, t.failVector = some v → ∀ i < t.failVecLength.toNat, 0 ≤ (v.entry i).error

theorem wf_disarmed : Task.disarmed.Wf :=
  ⟨fun _ => rfl, le_refl 0, fun _ h => by cases h⟩

theorem wf_lookup {t : Task} (h : t.Wf) {nr : Int} {e : SyscallFailure}
    (he : lookupCall t nr = some e) : 0 ≤ e.error := by
  obtain ⟨v, hv, hf⟩ := Option.bind_eq_some_iff.mp he
  obtain ⟨k, hk, hke, -⟩ := findCall_some hf
  rw [← hke, Nat.zero_add]
  exact h.error v hv k hk

/-- One call of a well-formed task: it stays well formed and never returns a
positive value, so never the negated default `err = -1`. -/
theorem wf_syscallFail {t : Task} (h : t.Wf) (nr : Int) :
    (syscallFail t nr).2.Wf ∧ (syscallFail t nr).1 ≤ 0 := by
  cases hl : lookupCall t nr with
  | none =>
      rw [syscallFail_unlisted hl h.skip]
      exact ⟨h, le_refl 0⟩
  | some e =>
      have he := wf_lookup h hl
      rw [syscallFail_listed hl]
      split
      · exact ⟨wf_disarmed, by simp only; omega⟩
      · refine ⟨⟨fun hnull => ?_, by simp only; omega, h.error⟩, le_refl 0⟩
        rw [lookupCall, show t.failVector = none from hnull] at hl
        cases hl

theorem wf_sysFail {t : Task} (h : t.Wf) (ith ncall : Int)
    (calls : Option (Nat → SyscallFailure)) (env : Env) :
    (sysFail t ith ncall calls env).2.Wf := by
  by_cases harmed : t.failVector.isSome
  · rw [sysFail_of_armed harmed]
    exact h
  · have ht : t = Task.disarmed := h.null (by simpa using harmed)
    subst ht
    by_cases hret : (sysFail Task.disarmed ith ncall calls env).1 = 0
    · cases calls with
      | none => exact wf_disarmed
      | some u =>
          have hpair : sysFail Task.disarmed ith ncall (some u) env =
              (0, (sysFail Task.disarmed ith ncall (some u) env).2) :=
            Prod.ext hret rfl
          obtain ⟨hith, -, ht', hvalid, hentry⟩ := sysFail_accepted hpair
          rw [ht']
          refine ⟨fun hn => (by cases hn), hith, fun v hv i hi => ?_⟩
          cases hv
          have hgood := (hvalid i hi).1
          rw [hentry i hi]
          simp only [badEntry, Bool.or_eq_false_iff, decide_eq_false_iff_not] at hgood
          omega
    · rw [sysFail_disarmed_refused hret]
      exact wf_disarmed

theorem wf_run : ∀ (ops : List Op) {t : Task}, t.Wf → (run t ops).Wf
  | [], _, h => h
  | op :: ops, t, h => by
      rw [run_cons]
      apply wf_run ops
      cases op with
      | call nr => exact (wf_syscallFail h nr).1
      | fail ith ncall calls env => exact wf_sysFail h ith ncall calls env

/-! ## The injection theorem -/

/-- **Injection fires exactly once, at the right call.** Let `sys_fail` accept
`(ith, ncall, u)`. After any run `ops` without another successful `sys_fail`,
the next `syscall_fail(nr)` returns minus the stored error precisely when
exactly `ith` listed calls came before and `nr` is listed, and 0 otherwise;
until then the task holds the vector and refuses `sys_fail`, afterwards it is
disarmed. And whatever a task booted disarmed has done, `syscall_fail` leaves
no negative skip count and never returns the negated default `-(-1)`. -/
theorem injection_fires_exactly_once :
    (∀ (t t' : Task) (ith ncall : Int) (u : Nat → SyscallFailure) (env : Env),
      sysFail t ith ncall (some u) env = (0, t') →
      ∀ ops, NoRearm t' ops →
        (∀ nr,
          ((hits u ncall.toNat ops : Int) = ith → ∀ i < ncall.toNat, (u i).syscallNr = nr →
            (syscallFail (run t' ops) nr).1 = -(u i).error ∧
            (syscallFail (run t' ops) nr).2 = Task.disarmed) ∧
          (¬ ((hits u ncall.toNat ops : Int) = ith ∧ occurs u ncall.toNat nr) →
            (syscallFail (run t' ops) nr).1 = 0)) ∧
        ((hits u ncall.toNat ops : Int) ≤ ith →
          ArmedWith u ncall (ith - hits u ncall.toNat ops) (run t' ops) ∧
          ∀ ith' ncall' calls env',
            sysFail (run t' ops) ith' ncall' calls env' = (-EINVAL, run t' ops)) ∧
        (ith < hits u ncall.toNat ops → run t' ops = Task.disarmed)) ∧
    (∀ ops nr,
      0 ≤ (syscallFail (run Task.disarmed ops) nr).2.failSkipCount ∧
      (syscallFail (run Task.disarmed ops) nr).1 ≠ -(-1)) := by
  refine ⟨?_, ?_⟩
  · intro t t' ith ncall u env hacc ops hno
    obtain ⟨hith, -, ht', hvalid, hentry⟩ := sysFail_accepted hacc
    have hstart : At u ith ncall 0 t' := by
      unfold At
      rw [if_pos (by simpa using hith), ht']
      exact ⟨_, by simp, hentry⟩
    have hat := At.run hvalid hstart hno
    rw [Nat.zero_add] at hat
    refine ⟨fun nr => ?_, fun hle => ?_, fun hlt => ?_⟩
    · obtain ⟨hfire, hzero⟩ := At.result hvalid hat nr
      refine ⟨fun heq i hi hnr => ⟨hfire heq i hi hnr, ?_⟩, hzero⟩
      have hafter := At.call hvalid hat nr
      rw [if_pos ⟨i, hi, hnr⟩] at hafter
      unfold At at hafter
      rwa [if_neg (by push_cast; omega)] at hafter
    · unfold At at hat
      rw [if_pos hle] at hat
      refine ⟨hat, fun ith' ncall' calls env' => sysFail_of_armed ?_ ith' ncall' calls env'⟩
      obtain ⟨v, hv, -⟩ := hat
      rw [hv]
      rfl
    · unfold At at hat
      rwa [if_neg (by omega)] at hat
  · intro ops nr
    obtain ⟨hwf, hle⟩ := wf_syscallFail (wf_run ops wf_disarmed) nr
    exact ⟨hwf.skip, by omega⟩

/-- `fail(1, 1, {getpid, ENOTSOCK})` lets one `getpid` through and fails the
second one, whatever unlisted calls come between. -/
theorem injection_fires_second_getpid :
    (syscallFail (run (sysFail Task.disarmed 1 1 (some fun _ => ⟨20, 88⟩)
      ⟨true, 0, fun _ => ⟨0, 0⟩⟩).2 [.call 20, .call 4]) 20).1 = -88 :=
  (((injection_fires_exactly_once.1 Task.disarmed _ 1 1 (fun _ => ⟨20, 88⟩)
    ⟨true, 0, fun _ => ⟨0, 0⟩⟩ rfl [.call 20, .call 4]
    (by intro ith ncall calls env hmem; simp [trace] at hmem)).1 20).1
    (by decide) 0 (by decide) rfl).1

end LinuxHacks.SyscallFail
