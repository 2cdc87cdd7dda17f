import LinuxHacks.Ext2.Mapping

/-!
# The end of a truncation

A truncation is never stuck and takes a bounded number of its own steps, whatever
the other tasks do (`truncate_bounded`); when it truncates to nothing, every block
of the file is free again (`truncate_to_nothing`).

The bound is a weight: what is left of a loop, with all that a slot may lead to.
-/

namespace LinuxHacks.Ext2

open Lib.PointerTree LinuxHacks.Lib

/-! ## Weights -/

/-- Steps to free a block of pointers with `d` more levels below it. -/
def readWeight (w : ℕ) : ℕ → ℕ
  | 0 => 3 * w + 4
  | d + 1 => readWeight w d + w * (readWeight w d + 2) + 3

/-- Steps for the slots of `i_data` from `o` on. -/
def indirectsWeight (w o : ℕ) : ℕ :=
  ((List.range' o (nBlocks - o)).map fun o => readWeight w (o - indBlock) + 2).sum + 1

def Frame.weight (w : ℕ) : Frame → ℕ
  | .freeData _ p q _ _ => 3 * (q - p) + 2
  | .freeBranches _ p q d => (q - p) * (readWeight w d + 2) + 1
  | .readBranch _ d => readWeight w d
  | .freeBlocks _ _ => 1
  | .doIndirects o => indirectsWeight w o

def stackWeight (w : ℕ) (stack : List Frame) : ℕ := (stack.map (Frame.weight w)).sum

/-- What `ext2_find_shared` can leave, for a path of `n` offsets. -/
def detachWeight (w n : ℕ) : ℕ :=
  readWeight w n + 1 + n * (w * (readWeight w n + 2) + 3 * w + 3) + indirectsWeight w 0

def Trunc.weight (ino : Inode) : Trunc → ℕ
  | .idle => 0
  | .findShared iblock chain =>
      detachWeight (addrPerBlock ino.bits) (blockPath ino.bits iblock).length + 4 +
        ((sharedPath ino iblock).length - chain.length)
  | .detach iblock _ => detachWeight (addrPerBlock ino.bits) (blockPath ino.bits iblock).length + 3
  | .free _ stack => stackWeight (addrPerBlock ino.bits) stack + 2
  | .done _ => 1

section Weight

variable {w : ℕ}

theorem stackWeight_cons (f : Frame) (stack : List Frame) :
    stackWeight w (f :: stack) = f.weight w + stackWeight w stack := by
  rw [stackWeight, stackWeight, List.map_cons, List.sum_cons]

theorem stackWeight_append (l l' : List Frame) :
    stackWeight w (l ++ l') = stackWeight w l + stackWeight w l' := by
  rw [stackWeight, stackWeight, stackWeight, List.map_append, List.sum_append]

theorem readWeight_mono {d d' : ℕ} (h : d ≤ d') : readWeight w d ≤ readWeight w d' := by
  induction h with
  | refl => exact le_rfl
  | step _ ih =>
      rw [readWeight]
      omega

theorem indirectsWeight_of_lt {o : ℕ} (ho : o < nBlocks) :
    indirectsWeight w o = readWeight w (o - indBlock) + 2 + indirectsWeight w (o + 1) := by
  rw [indirectsWeight, indirectsWeight, ← Nat.sub_add_cancel (Nat.sub_pos_of_lt ho),
    List.range'_succ, List.map_cons, List.sum_cons, Nat.sub_add_eq, Nat.add_assoc]

theorem one_le_indirectsWeight (o : ℕ) : 1 ≤ indirectsWeight w o := Nat.le_add_left 1 _

theorem indirectsWeight_le (o : ℕ) : indirectsWeight w o ≤ indirectsWeight w 0 := by
  induction o with
  | zero => exact le_rfl
  | succ o ih =>
      rcases Nat.lt_or_ge o nBlocks with h | h
      · rw [indirectsWeight_of_lt h] at ih
        omega
      · rw [indirectsWeight, Nat.sub_eq_zero_of_le (Nat.le_succ_of_le h)]
        exact one_le_indirectsWeight 0

theorem weight_freeBranches (n : Option ℕ) (p q d : ℕ) :
    (freeBranches n p q d).weight w ≤ (q - p) * (readWeight w d + 2) + 3 * (q - p) + 2 := by
  cases d with
  | zero =>
      rw [freeBranches, Frame.weight]
      omega
  | succ d =>
      rw [freeBranches, Frame.weight]
      have := Nat.mul_le_mul_left (q - p)
        (Nat.add_le_add_right (readWeight_mono (w := w) (Nat.le_add_right d 1)) 2)
      omega

/-- **A step of the innermost call** lowers the weight. -/
theorem truncFree_weight (ino : Inode) (hw : w = addrPerBlock ino.bits) (s : State) (io : Bool)
    (f : Frame) : stackWeight w (s.truncFree ino io f).2 < f.weight w := by
  cases f with
  | freeData n p q b k =>
      rw [State.truncFree, State.freeDataStep]
      dsimp only
      split_ifs
      all_goals simp only [stackWeight, List.map_cons, List.map_nil, List.sum_cons, List.sum_nil,
        Frame.weight]
      all_goals omega
  | freeBranches n p q d =>
      rw [State.truncFree, State.freeBranchesStep]
      dsimp only
      split_ifs with hpq
      · obtain ⟨m, hm⟩ : ∃ m, q - p = m + 1 := ⟨q - p - 1, by omega⟩
        have hm' : q - (p + 1) = m := by omega
        simp only [stackWeight, List.map_cons, List.map_nil, List.sum_cons, List.sum_nil,
          Frame.weight, hm, hm', Nat.succ_mul]
        omega
      · obtain ⟨m, hm⟩ : ∃ m, q - p = m + 1 := ⟨q - p - 1, by omega⟩
        have hm' : q - (p + 1) = m := by omega
        simp only [stackWeight, List.map_cons, List.map_nil, List.sum_cons, List.sum_nil,
          Frame.weight, hm, hm', Nat.succ_mul]
        omega
      · exact Nat.succ_pos _
  | readBranch nr d =>
      rw [State.truncFree, State.readBranchStep, ← hw]
      split_ifs
      · simp only [stackWeight, List.map_cons, List.map_nil, List.sum_cons, List.sum_nil]
        cases d with
        | zero =>
            simp only [freeBranches, Frame.weight, readWeight]
            omega
        | succ d =>
            simp only [freeBranches, Frame.weight, readWeight, Nat.sub_zero]
            omega
      · cases d with
        | zero => exact Nat.succ_pos _
        | succ d => exact Nat.succ_pos _
  | freeBlocks b k => exact Nat.zero_lt_one
  | doIndirects o =>
      rw [State.truncFree, State.doIndirectsStep]
      dsimp only
      split_ifs with ho
      · rw [stackWeight_cons, Frame.weight, Frame.weight, indirectsWeight_of_lt ho]
        exact Nat.lt_of_lt_of_le (Nat.lt_succ_self _) (by
          rw [stackWeight]
          simp only [List.map_nil, List.sum_nil]
          omega)
      · rw [stackWeight_cons, stackWeight_cons, Frame.weight, Frame.weight,
          indirectsWeight_of_lt ho, freeBranchesOf, Frame.weight]
        rw [stackWeight]
        simp only [List.map_nil, List.sum_nil]
        omega
      · exact one_le_indirectsWeight o

end Weight

section Steps

variable {ino : Inode} {U : Set ℕ} {s s' : State}

theorem clearEnds_weight (n : ℕ) (l : List Indirect) :
    stackWeight (addrPerBlock ino.bits) (clearEnds ino n l) ≤
      l.length * (addrPerBlock ino.bits * (readWeight (addrPerBlock ino.bits) n + 2) +
        3 * addrPerBlock ino.bits + 3) := by
  induction l with
  | nil => exact Nat.zero_le _
  | cons q l ih =>
      cases l with
      | nil => exact Nat.zero_le _
      | cons q' l =>
          rw [clearEnds, stackWeight_cons, List.length_cons, Nat.succ_mul, Nat.add_comm]
          refine Nat.add_le_add ih ?_
          have h1 := weight_freeBranches (w := addrPerBlock ino.bits) q.p.bh (q.p.off + 1)
            (addrPerBlock ino.bits) (n - 1 - (l.length + 1))
          have h2 : (addrPerBlock ino.bits - (q.p.off + 1)) *
              (readWeight (addrPerBlock ino.bits) (n - 1 - (l.length + 1)) + 2) ≤
              addrPerBlock ino.bits * (readWeight (addrPerBlock ino.bits) n + 2) :=
            Nat.mul_le_mul (Nat.sub_le _ _)
              (Nat.add_le_add_right (readWeight_mono (by omega)) 2)
          omega

theorem freeBranchesOf_weight (w nr : ℕ) {d n : ℕ} (h : d ≤ n) :
    (freeBranchesOf nr d).weight w ≤ readWeight w n + 1 := by
  cases d with
  | zero => exact Nat.le_add_left 1 _
  | succ d =>
      rw [freeBranchesOf, Frame.weight]
      have := readWeight_mono (w := w) (Nat.le_of_succ_le h)
      omega

/-- What the section of `ext2_find_shared` leaves is within its bound. -/
theorem afterDetach_weight (ino : Inode) (iblock : ℤ) (top : ℕ) (l : List Indirect)
    (hl : l.length ≤ (blockPath ino.bits iblock).length) :
    stackWeight (addrPerBlock ino.bits) (afterDetach ino iblock top l) ≤
      detachWeight (addrPerBlock ino.bits) (blockPath ino.bits iblock).length := by
  rw [afterDetach, stackWeight_append, stackWeight_append, detachWeight]
  refine Nat.add_le_add (Nat.add_le_add ?_ ?_) ?_
  · split_ifs
    · rw [stackWeight, List.map_singleton, List.sum_singleton]
      exact freeBranchesOf_weight _ _ (by omega)
    · exact Nat.zero_le _
  · exact le_trans (clearEnds_weight _ l) (Nat.mul_le_mul_right _ hl)
  · rw [stackWeight, List.map_singleton, List.sum_singleton]
    exact indirectsWeight_le _

theorem length_findShared {c : Cells ℕ} {k : ℕ} {chain : List Indirect} (hne : chain ≠ [])
    (hk : chain.length ≤ k) : (findShared c k chain).2.2.length ≤ chain.length := by
  cases findShared_cases (c := c) hne hk with
  | noTop _ hres =>
      rw [hres]
      exact le_of_eq (List.length_reverse)
  | decr pre q heq _ _ hres =>
      rw [hres, heq, List.length_cons, List.length_reverse, List.length_append,
        List.length_singleton]
  | top pre q post heq _ _ hres =>
      rw [hres, heq, List.length_cons, List.length_reverse, List.length_append, List.length_cons]
      omega

/-- **A step of a truncation** lowers its weight. -/
theorem Inv.truncStep_weight (h : Inv ino U s) {a : TruncAction} (ha : ∀ n, a ≠ .truncate n)
    (hs : s.truncStep ino a s.trunc = some s') : s'.trunc.weight ino < s.trunc.weight ino := by
  have hok := h.trunc
  unfold State.truncStep at hs
  split at hs
  · exact absurd rfl (ha _)
  · rename_i io iblock chain heq
    cases hs
    rw [heq] at hok ⊢
    obtain ⟨-, -, hsp, hne, hkey, hlen, hl⟩ := hok
    dsimp only
    have hnext : ∀ chain', chain.length < chain'.length →
        (afterShared iblock (branchNext (sharedPath ino iblock).length chain')).weight ino <
          (Trunc.findShared iblock chain).weight ino := by
      intro chain' hlt
      rcases branchNext_cases (sharedPath ino iblock).length chain' with
        ⟨-, hr⟩ | ⟨-, -, hr⟩ | ⟨-, -, hr⟩
      · rw [hr, afterShared, Trunc.weight, Trunc.weight]
        omega
      · rw [hr, afterShared, Trunc.weight, Trunc.weight]
        omega
      · rw [hr, afterShared, Trunc.weight, Trunc.weight]
        omega
    rcases getBranchLoop_cases (c := s.cell) io hsp hne hkey hlen with
      ⟨-, hr⟩ | ⟨-, hn, -⟩ | ⟨-, -, q, hr, -, -⟩
    · rw [hr, afterShared, Trunc.weight, Trunc.weight]
      omega
    · exact absurd hl hn
    · rw [hr]
      exact hnext _ (by simp)
  · rename_i iblock chain heq
    cases hs
    rw [heq] at hok ⊢
    obtain ⟨-, -, hR⟩ := hok
    have hlen := length_findShared (c := s.cell) hR.ne_nil hR.spine.length
    have hle := (cut_isPrefix (blockPath ino.bits iblock)).length_le
    have := afterDetach_weight ino iblock
      (findShared s.cell (sharedPath ino iblock).length chain).2.1
      (findShared s.cell (sharedPath ino iblock).length chain).2.2
      (le_trans hlen (le_trans hR.spine.length hle))
    rw [Trunc.weight, Trunc.weight]
    omega
  · rename_i io iblock f stack heq
    cases hs
    rw [heq]
    have := truncFree_weight ino rfl s io f
    rw [Trunc.weight, Trunc.weight, stackWeight_append, stackWeight_cons]
    omega
  · rename_i heq
    cases hs
    rw [heq]
    exact Nat.lt_of_lt_of_le (by decide : 1 < 2) (Nat.le_add_left 2 _)
  · rename_i heq
    cases hs
    rw [heq]
    exact Nat.zero_lt_one
  · cases hs

/-- The step is one of the truncation's own. -/
def Action.isTrunc : Action → Bool
  | .trunc _ => true
  | _ => false

theorem trunc_of_not_isTrunc {a : Action} (ha : a.isTrunc = false)
    (hs : s.run ino a = some s') : s'.trunc = s.trunc := by
  cases a with
  | call t a => exact (callStep_frame hs).1
  | trunc a => cases ha
  | take b => rw [State.run] at hs; split_ifs at hs; cases hs; rfl
  | give b => rw [State.run] at hs; split_ifs at hs; cases hs; rfl
  | write b data => rw [State.run] at hs; split_ifs at hs; cases hs; rfl

/-- A truncation under way can always take its next step. -/
theorem truncStep_enabled (ino : Inode) (h : s.trunc ≠ .idle) :
    ∃ a s', (∀ n, a ≠ TruncAction.truncate n) ∧ s.run ino (.trunc a) = some s' := by
  cases htr : s.trunc with
  | idle => exact absurd htr h
  | findShared iblock chain =>
      refine ⟨.read true, _, ?_, by rw [State.run, htr, State.truncStep]⟩
      rintro n ⟨⟩
  | detach iblock chain =>
      refine ⟨.detach, _, ?_, by rw [State.run, htr, State.truncStep]⟩
      rintro n ⟨⟩
  | free iblock stack =>
      cases stack with
      | nil =>
          refine ⟨.free true, _, ?_, by rw [State.run, htr, State.truncStep]⟩
          rintro n ⟨⟩
      | cons f stack =>
          refine ⟨.free true, _, ?_, by rw [State.run, htr, State.truncStep]⟩
          rintro n ⟨⟩
  | done iblock =>
      refine ⟨.ret, _, ?_, by rw [State.run, htr, State.truncStep]⟩
      rintro n ⟨⟩

/-- **A truncation ends.** It is never stuck, and however its steps are interleaved
with those of the other tasks and whichever of its reads fail, it takes no more
steps of its own than its weight. -/
theorem truncate_bounded (h : (system ino U).Reach (Allowed ino) s) :
    (s.trunc ≠ .idle → ∃ a s', (∀ n, a ≠ TruncAction.truncate n) ∧
      s.run ino (.trunc a) = some s') ∧
      ∀ l s', (system ino U).Path s l s' →
        (∀ e ∈ l, Allowed ino e.1 e.2.1 ∧ ∀ n, e.2.1 ≠ .trunc (.truncate n)) →
        l.countP (fun e => e.2.1.isTrunc) + s'.trunc.weight ino ≤ s.trunc.weight ino := by
  refine ⟨truncStep_enabled ino, ?_⟩
  intro l s' hpath hall
  have hI := reach_inv h
  suffices hsuf : Inv ino U s' ∧
      l.countP (fun e => e.2.1.isTrunc) + s'.trunc.weight ino ≤ s.trunc.weight ino from hsuf.2
  induction hpath with
  | nil => exact ⟨hI, le_of_eq (Nat.zero_add _)⟩
  | snoc _ hst ih =>
      rename_i s₁ s₂ l a _
      obtain ⟨hI₁, hle⟩ := ih fun e he => hall e (List.mem_append_left _ he)
      obtain ⟨hok, hno⟩ := hall _ (List.mem_append_right _ (List.mem_singleton.mpr rfl))
      refine ⟨hI₁.step hok hst, ?_⟩
      rw [List.countP_append, List.countP_singleton]
      cases ha : a.isTrunc with
      | false =>
          rw [trunc_of_not_isTrunc ha hst]
          simpa using hle
      | true =>
          cases a with
          | trunc a =>
              have := hI₁.truncStep_weight (fun n hn => hno n (by rw [hn])) hst
              rw [if_pos rfl]
              omega
          | call t a => cases ha
          | take b => cases ha
          | give b => cases ha
          | write b data => cases ha

/-- The steps of a truncation whose reads succeed, as a run with its steps. -/
theorem runs_trunc_path {l : List TruncAction} (hs : s.runs ino (l.map .trunc) = some s')
    (hok : ∀ a ∈ l, a.goesOn = true) :
    ∃ p, (system ino U).Path s p s' ∧ (∀ e ∈ p, Plain ino e.1 e.2.1) ∧
      p.countP (fun e => e.2.1.isTrunc) = l.length := by
  induction l generalizing s with
  | nil =>
      obtain rfl := Option.some.inj hs
      exact ⟨[], .nil, fun e he => absurd he List.not_mem_nil, rfl⟩
  | cons a l ih =>
      obtain ⟨s₁, hst, hs⟩ := Option.bind_eq_some_iff.mp hs
      obtain ⟨p, hp, hplain, hcount⟩ := ih hs fun a ha => hok a (List.mem_cons_of_mem _ ha)
      have hfirst : (system ino U).Path s [(s, .trunc a, s₁)] s₁ := System.Path.nil.snoc hst
      refine ⟨(s, .trunc a, s₁) :: p, hfirst.append hp, ?_, ?_⟩
      · intro e he
        rcases List.mem_cons.mp he with rfl | he
        · exact plain_of_goesOn (hok a List.mem_cons_self) s
        · exact hplain e he
      · rw [List.countP_cons_of_pos rfl, hcount, List.length_cons]

/-- The truncation of a file with an indirect block: 279 steps after its start. -/
theorem startedFile_steps : (∃ a s', (∀ n, a ≠ TruncAction.truncate n) ∧
    startedFile.run file (.trunc a) = some s') ∧
      freedFile.trunc = .done 0 ∧ 279 ≤ startedFile.trunc.weight file := by
  have hreach : (system file fileBlocks).Reach (Allowed file) startedFile :=
    .step (.trunc (.truncate 0)) (reach_mappedFile.mono fun _ _ hok => hok.1.1)
      (allowed_truncate 0) start_startedFile
  obtain ⟨hnext, hbound⟩ := truncate_bounded hreach
  obtain ⟨p, hp, hplain, hcount⟩ :=
    runs_trunc_path (U := fileBlocks) steps_freedFile (by decide +kernel)
  have hle := hbound p freedFile hp fun e he => ⟨(hplain e he).1.1, (hplain e he).2.2⟩
  rw [hcount, show freeing.length = 279 from List.length_replicate] at hle
  refine ⟨hnext ?_, by decide +kernel, le_trans (Nat.le_add_right _ _) hle⟩
  decide +kernel

/-! ## Truncating to nothing -/

/-- Steps of runs in which `ext2_free_branches` can read its blocks. -/
def Frees (ino : Inode) (s : State) (a : Action) : Prop :=
  Allowed ino s a ∧ a ≠ .trunc (.free false)

theorem truncFree_lost (f : Frame) : (s.truncFree ino true f).1.lost = s.lost := by
  cases f with
  | freeData n p q b k =>
      rw [State.truncFree, State.freeDataStep]
      dsimp only
      split_ifs <;> rfl
  | freeBranches n p q d =>
      rw [State.truncFree, State.freeBranchesStep]
      dsimp only
      split_ifs <;> rfl
  | readBranch nr d => rfl
  | freeBlocks b k => rfl
  | doIndirects o =>
      rw [State.truncFree, State.doIndirectsStep]
      dsimp only
      split_ifs <;> rfl

theorem step_lost {a : Action} (ha : a ≠ .trunc (.free false)) (hs : s.run ino a = some s') :
    s'.lost = s.lost := by
  cases a with
  | call t a => exact (callStep_frame hs).2.1
  | trunc a =>
      change s.truncStep ino a s.trunc = some s' at hs
      unfold State.truncStep at hs
      split at hs
      · split_ifs at hs <;> cases hs <;> rfl
      · cases hs; rfl
      · cases hs; rfl
      · rename_i io iblock f stack heq
        cases hs
        cases io with
        | true => exact truncFree_lost f
        | false => exact absurd rfl ha
      · cases hs; rfl
      · cases hs; rfl
      · cases hs
  | take b => rw [State.run] at hs; split_ifs at hs; cases hs; rfl
  | give b => rw [State.run] at hs; split_ifs at hs; cases hs; rfl
  | write b data => rw [State.run] at hs; split_ifs at hs; cases hs; rfl

/-- Nothing is before the first block of a file. -/
theorem beyond_first {π : List ℕ} (hπ : π ≠ []) : Beyond (sharedPath ino 0) π := by
  change Beyond [0] π
  cases π with
  | nil => exact absurd rfl hπ
  | cons o os => exact (Nat.eq_zero_or_pos o).elim (fun h => Or.inr ⟨h.symm, trivial⟩) Or.inl

/-- **Truncating to nothing frees everything.** When no read of
`ext2_free_branches` failed and no call holds a block, every block is free or
another user's. -/
theorem truncate_to_nothing (h : (system ino U).Reach (Frees ino) s) (hdone : s.trunc = .done 0)
    (hcalls : ∀ t, (s.calls t).held = []) : ∀ b ∈ U, b ∈ s.free ∨ b ∈ s.other := by
  have hlost : s.lost = ∅ :=
    h.invariant (I := fun s => s.lost = ∅) (fun s hi => Init.lost hi)
      fun s a s' h0 hok hst => (step_lost hok.2 hst).trans h0
  have hI := reach_inv (h.mono fun s a hok => hok.1)
  have hok := hI.trunc
  rw [hdone] at hok
  intro b hb
  obtain ⟨i, hi, -⟩ := hI.parts.existsUnique hb
  cases i with
  | free => exact Or.inl hi
  | other => exact Or.inr hi
  | lost =>
      change b ∈ s.lost at hi
      rw [hlost] at hi
      exact absurd hi (Finset.notMem_empty b)
  | tree =>
      obtain ⟨hb0, π, hπ, hget⟩ := hi
      exact absurd (hget.symm.trans (hok π hπ ⟨nofun, beyond_first hπ.ne_nil⟩)) hb0
  | trunc =>
      change b ∈ s.trunc.owed s.cell _ at hi
      rw [hdone] at hi
      exact absurd hi List.not_mem_nil
  | call t =>
      change b ∈ (s.calls t).held at hi
      rw [hcalls t] at hi
      exact absurd hi List.not_mem_nil

theorem freedFile_free : freedFile.trunc = .done 0 ∧
    ∀ b ∈ fileBlocks, b ∈ freedFile.free ∨ b ∈ freedFile.other := by
  have hstart : (system file fileBlocks).Reach (Frees file) startedFile :=
    .step (.trunc (.truncate 0)) (reach_mappedFile.mono fun _ _ hok => ⟨hok.1.1, hok.2.1⟩)
      ⟨allowed_truncate 0, fun e => (by cases e)⟩ start_startedFile
  have hend := hstart.run (System.run_mono (fun _ _ hok => ⟨hok.1.1, hok.2.1⟩) run_freedFile.1)
  have hdone : freedFile.trunc = .done 0 := by decide +kernel
  refine ⟨hdone, truncate_to_nothing hend hdone ?_⟩
  intro t
  have hst : mappedFile.truncStep file (.truncate 0) mappedFile.trunc = some startedFile :=
    start_startedFile
  have hcalls : startedFile.calls = mappedFile.calls := truncStep_calls hst
  rw [run_freedFile.2, hcalls]
  match t with
  | 0 => rfl
  | 1 => rfl
  | t + 2 => rfl

end Steps

end LinuxHacks.Ext2
