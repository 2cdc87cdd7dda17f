import LinuxHacks.Ext2.Truncating
import LinuxHacks.Lib.Transition

/-!
# Runs of the block map

A step is one access to what the tasks share. `Allowed` is what the callers of
the two functions keep: nobody adds a block that a truncation under way removes.

* `Inv.step`, `reach_inv`: every step keeps the invariant;
* `Inv.callStep_get`, `Inv.truncStep_lookup`: what a step does to the blocks of the
  file;
* `Inv.callStep_answer`: what a call answers is where the block is.
-/

namespace LinuxHacks.Ext2

open Lib.PointerTree LinuxHacks.Lib

/-- What the callers keep ("no allocation past the truncation point is possible
until `ext2_truncate()` finishes"). -/
def Allowed (ino : Inode) (s : State) : Action → Prop
  | .call _ (.getBlock block create) =>
      create = true → ∀ iblock, s.trunc.limit = some iblock → block < iblock
  | .trunc (.truncate iSize) =>
      ∀ t block, (s.calls t).creating = some block → block < truncateBlock ino iSize
  | _ => True

/-- A file nobody works on, in a file system with the blocks `U`. -/
structure Init (ino : Inode) (U : Set ℕ) (s : State) : Prop where
  tree : (shape ino.bits).Tree s.cell
  parts : Parts U (s.at ino)
  zero : 0 ∉ U
  calls : ∀ t, s.calls t = .idle
  trunc : s.trunc = .idle
  lost : s.lost = ∅

/-- The runs on an inode. -/
def system (ino : Inode) (U : Set ℕ) : System State Action where
  init := Init ino U
  step s a s' := s.run ino a = some s'

section Steps

variable {ino : Inode} {U : Set ℕ} {s s' : State}

theorem Init.inv (h : Init ino U s) : Inv ino U s where
  tree := h.tree
  parts := h.parts
  zero := h.zero
  calls t := by
    rw [h.calls]
    trivial
  nodup t := by
    rw [h.calls]
    exact List.nodup_nil
  trunc := by
    rw [h.trunc]
    trivial
  limit t block iblock hc := by
    rw [h.calls] at hc
    cases hc

theorem Inv.getBlock (h : Inv ino U s) {t : ℕ} {block : ℤ} {create : Bool}
    (hheld : (s.calls t).held = [])
    (hok : create = true → ∀ iblock, s.trunc.limit = some iblock → block < iblock) :
    Inv ino U (s.setCall t (if blockPath ino.bits block = [] then .done block (.error (- EIO))
      else .reread block create)) := by
  split_ifs with hpath
  · exact h.setCall_empty trivial hheld rfl fun b hb => nomatch hb
  · refine h.setCall_empty hpath hheld rfl ?_
    intro b hb iblock hl
    cases create with
    | false => cases hb
    | true => exact Option.some.inj hb ▸ hok rfl iblock hl

/-- The steps of `ext2_get_block` keep the invariant. -/
theorem Inv.callStep (h : Inv ino U s) {t : ℕ} {a : CallAction}
    (hok : Allowed ino s (.call t a)) (hs : s.callStep ino t a (s.calls t) = some s') :
    Inv ino U s' := by
  unfold State.callStep at hs
  split at hs
  · rename_i heq
    cases hs
    exact h.getBlock (by rw [heq]; rfl) hok
  · rename_i heq
    cases hs
    exact h.getBlock (by rw [heq]; rfl) hok
  · rename_i heq
    cases hs
    exact h.getBranch heq
  · rename_i heq
    cases hs
    exact h.read heq
  · rename_i heq
    cases hs
    exact h.findGoal heq
  · rename_i heq
    split_ifs at hs with hnr
    cases hs
    exact h.alloc heq hnr
  · rename_i heq
    split_ifs at hs
    cases hs
    exact h.allocFails heq
  · rename_i heq
    cases hs
    exact h.splice heq
  · rename_i heq
    cases hs
    exact h.freeBranch heq
  · cases hs

/-- The steps of `ext2_truncate` keep the invariant. -/
theorem Inv.truncStep (h : Inv ino U s) {a : TruncAction}
    (hok : Allowed ino s (.trunc a)) (hs : s.truncStep ino a s.trunc = some s') :
    Inv ino U s' := by
  unfold State.truncStep at hs
  split at hs
  · rename_i heq
    split_ifs at hs
    · cases hs
      exact h.truncate heq hok
    · cases hs
      exact h
  · rename_i heq
    cases hs
    exact h.truncRead heq _
  · rename_i heq
    cases hs
    exact h.detach heq rfl rfl
  · rename_i heq
    cases hs
    exact h.truncFree heq _
  · rename_i heq
    cases hs
    exact h.truncFinish heq
  · rename_i heq
    cases hs
    exact h.setTrunc trivial (by rw [heq]; rfl) fun _ _ _ _ hl => nomatch hl
  · cases hs

theorem Inv.step (h : Inv ino U s) {a : Action} (hok : Allowed ino s a)
    (hs : s.run ino a = some s') : Inv ino U s' := by
  cases a with
  | call t a => exact h.callStep hok hs
  | trunc a => exact h.truncStep hok hs
  | take b =>
      rw [State.run] at hs
      split_ifs at hs with hb
      cases hs
      exact h.take hb
  | give b =>
      rw [State.run] at hs
      split_ifs at hs with hb
      cases hs
      exact h.give hb
  | write b data =>
      rw [State.run] at hs
      split_ifs at hs with hb
      cases hs
      exact h.write hb data

theorem reach_inv (h : (system ino U).Reach (Allowed ino) s) : Inv ino U s :=
  h.invariant (I := Inv ino U) (fun _ hi => Init.inv hi) fun _ _ _ hi hok hst => hi.step hok hst

end Steps

/-! ## What a step does to the blocks of the file -/

/-- Where block `i` of the file is, 0 for a hole. -/
def lookup (ino : Inode) (s : State) (i : ℤ) : ℕ := get s.cell (blockPath ino.bits i)

section Lookup

variable {ino : Inode} {U : Set ℕ} {s s' : State} {t : ℕ}

/-- A call of `ext2_get_block` removes nothing from the tree. -/
theorem Inv.callStep_get (h : Inv ino U s) {a : CallAction}
    (hs : s.callStep ino t a (s.calls t) = some s') {π : List ℕ} (hπ : (shape ino.bits).Path π)
    (hne : get s.cell π ≠ 0) : get s'.cell π = get s.cell π := by
  unfold State.callStep at hs
  split at hs
  · cases hs; rfl
  · cases hs; rfl
  · cases hs; rfl
  · cases hs; rfl
  · rename_i block chain heq
    cases hs
    obtain ⟨b, g, call, hg, -⟩ := findGoal_cases ino s t block chain
    rw [hg]
    rfl
  · rename_i heq
    split_ifs at hs
    cases hs
    exact (h.alloc_quiet heq _ _).get π hπ
  · split_ifs at hs
    cases hs
    rfl
  · rename_i heq
    cases hs
    rcases h.splice_cases heq with ⟨π', o, os, -, hg, hsp⟩ | hsp
    · rw [hsp]
      exact get_graft_of_ne h.tree hg hπ hne
    · rw [hsp]
      rfl
  · cases hs; rfl
  · cases hs

/-- Which step of a call is its own affair. -/
theorem callStep_frame {a : CallAction} (hs : s.callStep ino t a (s.calls t) = some s') :
    s'.trunc = s.trunc ∧ s'.lost = s.lost ∧ ∀ u, u ≠ t → s'.calls u = s.calls u := by
  have hset : ∀ (s₀ : State) (call : Call) (u : ℕ), u ≠ t → (s₀.setCall t call).calls u =
      s₀.calls u := fun _ _ _ hu => if_neg hu
  unfold State.callStep at hs
  split at hs
  · cases hs; exact ⟨rfl, rfl, hset _ _⟩
  · cases hs; exact ⟨rfl, rfl, hset _ _⟩
  · cases hs; exact ⟨rfl, rfl, hset _ _⟩
  · cases hs; exact ⟨rfl, rfl, hset _ _⟩
  · rename_i block chain heq
    cases hs
    obtain ⟨b, g, call, hg, -⟩ := findGoal_cases ino s t block chain
    rw [hg]
    exact ⟨rfl, rfl, hset _ _⟩
  · split_ifs at hs
    cases hs
    exact ⟨rfl, rfl, hset _ _⟩
  · split_ifs at hs
    cases hs
    exact ⟨rfl, rfl, hset _ _⟩
  · cases hs
    rw [State.splice]
    split
    · exact ⟨rfl, rfl, fun _ _ => rfl⟩
    · split_ifs <;> exact ⟨rfl, rfl, hset _ _⟩
  · cases hs; exact ⟨rfl, rfl, hset _ _⟩
  · cases hs

theorem calls_setCall_self (s : State) (t : ℕ) (call : Call) : (s.setCall t call).calls t = call :=
  if_pos rfl

/-- An answer of `ext2_get_branch` is read off the tree. -/
theorem answer_next {c : Cells ℕ} {block i : ℤ} {create : Bool} {chain : List Indirect}
    {r : Result} {b : ℕ} (hne : chain ≠ []) (hl : Live c (blockPath ino.bits block) chain)
    (hd : afterBranch ino block create (branchNext (blockPath ino.bits block).length chain) =
      .done i r) (hm : r.mapped = some b) :
    get c (blockPath ino.bits i) = b ∧ b ≠ 0 := by
  rcases branchNext_cases (blockPath ino.bits block).length chain with
    ⟨-, heq⟩ | ⟨hkey, hlen, heq⟩ | ⟨-, -, heq⟩
  · rw [heq, afterBranch] at hd
    split_ifs at hd
    obtain ⟨rfl, rfl⟩ := Call.done.inj hd
    cases hm
  · rw [heq] at hd
    obtain ⟨rfl, rfl⟩ := Call.done.inj hd
    obtain rfl := Option.some.inj hm
    have := hl.last hne
    rw [hlen, List.take_length] at this
    exact ⟨this, hkey⟩
  · rw [heq] at hd
    cases hd

theorem no_answer_freeNext {block i : ℤ} {blocks : List ℕ} {err : Option ℤ} {r : Result}
    (hd : freeNext block blocks err = .done i r) : r.mapped = none := by
  cases blocks with
  | nil =>
      cases err with
      | none => cases hd
      | some e =>
          obtain ⟨rfl, rfl⟩ := Call.done.inj hd
          rfl
  | cons x xs => cases hd

/-- **What a call answers is so**: when it returns a block, that is where the
block of the file is. -/
theorem Inv.callStep_answer (h : Inv ino U s) {a : CallAction}
    (hs : s.callStep ino t a (s.calls t) = some s') {i : ℤ} {r : Result} {b : ℕ}
    (hd : s'.calls t = .done i r) (hm : r.mapped = some b) : lookup ino s' i = b ∧ b ≠ 0 := by
  have hok := h.calls t
  unfold State.callStep at hs
  split at hs
  · cases hs
    rw [calls_setCall_self] at hd
    split_ifs at hd
    obtain ⟨rfl, rfl⟩ := Call.done.inj hd
    cases hm
  · cases hs
    rw [calls_setCall_self] at hd
    split_ifs at hd
    obtain ⟨rfl, rfl⟩ := Call.done.inj hd
    cases hm
  · rename_i heq
    cases hs
    rw [heq] at hok
    obtain ⟨q, hq, -, hl⟩ := getBranch_cases s.cell hok
    rw [calls_setCall_self, hq] at hd
    exact answer_next (List.cons_ne_nil _ _) hl hd hm
  · rename_i io block create chain heq
    cases hs
    rw [heq] at hok
    obtain ⟨hsp, hne, hkey, hlen⟩ := hok
    rw [calls_setCall_self] at hd
    rcases getBranchLoop_cases (c := s.cell) io hsp hne hkey hlen with
      ⟨-, hr⟩ | ⟨-, -, hr⟩ | ⟨-, -, q, hr, -, hl⟩
    · rw [hr, afterBranch, if_pos (by simp)] at hd
      obtain ⟨rfl, rfl⟩ := Call.done.inj hd
      cases hm
    · rw [hr, afterBranch] at hd
      split_ifs at hd
      obtain ⟨rfl, rfl⟩ := Call.done.inj hd
      cases hm
    · rw [hr] at hd
      exact answer_next (by simp) hl hd hm
  · rename_i block chain heq
    cases hs
    obtain ⟨b', g, call, hg, hcall⟩ := findGoal_cases ino s t block chain
    rw [hg, calls_setCall_self] at hd
    rcases hcall with ⟨-, goal, rfl⟩ | rfl <;> cases hd
  · split_ifs at hs
    cases hs
    rw [State.alloc, calls_setCall_self] at hd
    split_ifs at hd
  · split_ifs at hs
    cases hs
    rw [calls_setCall_self] at hd
    rw [no_answer_freeNext hd] at hm
    cases hm
  · rename_i block chain branch heq
    cases hs
    rcases h.splice_cases heq with ⟨π, o, os, hall, hg, hsp⟩ | hsp
    · rw [hsp, calls_setCall_self] at hd
      obtain ⟨rfl, rfl⟩ := Call.done.inj hd
      obtain rfl := Option.some.inj hm
      -- the end of the branch is the end of the path
      have hlen := hg.linked.length
      have hne : branch ≠ [] := by
        rintro rfl
        cases hlen
      have hlast : branch.getLastD 0 = branch.getLast hne := by
        rw [List.getLastD_eq_getLast?, List.getLast?_eq_some_getLast hne, Option.getD_some]
      refine ⟨?_, ?_⟩
      · rw [lookup, hsp, ← hall]
        refine (get_graft h.tree hg hg.leaf.path).trans ?_
        rw [if_pos ⟨List.prefix_append _ _, List.prefix_rfl⟩, hlast, List.getLast_eq_getElem,
          List.getD_eq_getElem _ _ (by
            simp only [List.length_append, List.length_singleton]
            omega)]
        congr 1
        simp only [List.length_append, List.length_singleton]
        omega
      · rw [hlast]
        exact hg.ne_zero _ (List.getLast_mem hne)
    · rw [hsp, calls_setCall_self] at hd
      rw [no_answer_freeNext hd] at hm
      cases hm
  · cases hs
    rw [calls_setCall_self] at hd
    rw [no_answer_freeNext hd] at hm
    cases hm
  · cases hs

/-- The chain `ext2_find_shared` detaches by was read to its end. -/
def ReadThrough (ino : Inode) : Trunc → Prop
  | .detach iblock chain => chain.length = (sharedPath ino iblock).length ∨ lastKey chain = 0
  | _ => True

theorem readThrough_next (ino : Inode) (iblock : ℤ) (chain : List Indirect) :
    ReadThrough ino (afterShared iblock (branchNext (sharedPath ino iblock).length chain)) := by
  rcases branchNext_cases (sharedPath ino iblock).length chain with
    ⟨hkey, heq⟩ | ⟨-, hlen, heq⟩ | ⟨-, -, heq⟩
  · rw [heq]
    exact Or.inr hkey
  · rw [heq]
    exact Or.inl hlen
  · rw [heq]
    trivial

theorem lookup_ne_zero {i : ℤ} (h : lookup ino s i ≠ 0) : blockPath ino.bits i ≠ [] := by
  intro hnil
  rw [lookup, hnil] at h
  exact h rfl

/-- A block before the limit is to the left of the cut. -/
theorem before_sharedPath {i iblock : ℤ} (hi : blockPath ino.bits i ≠ []) (hlt : i < iblock)
    (hne : blockPath ino.bits iblock ≠ []) :
    Before (sharedPath ino iblock) (blockPath ino.bits i) :=
  before_cut (before_blockPath ino.bits (blockPath_leaf_of_ne hi).2.1 hlt
    (blockPath_leaf_of_ne hne).2.2)

/-- A truncation moves no block before its limit. -/
theorem Inv.truncStep_lookup (h : Inv ino U s) {a : TruncAction} {i : ℤ}
    (hread : ReadThrough ino s.trunc) (hlim : ∀ iblock, s.trunc.limit = some iblock → i < iblock)
    (hs : s.truncStep ino a s.trunc = some s') (hne : lookup ino s i ≠ 0) :
    lookup ino s' i = lookup ino s i := by
  have hok := h.trunc
  have hi := lookup_ne_zero hne
  unfold State.truncStep at hs
  split at hs
  · split_ifs at hs <;> cases hs <;> rfl
  · cases hs; rfl
  · rename_i iblock chain heq
    cases hs
    rw [heq] at hok hread hlim
    obtain ⟨hleaf, h2, hR⟩ := hok
    exact detach_before h.tree hleaf hR hread (blockPath_leaf_of_ne hi).1.path
      (before_sharedPath hi (hlim iblock rfl) hleaf.path.ne_nil) hne
  · rename_i io iblock f stack heq
    cases hs
    have hout := h.apart heq
    rw [heq] at hok hlim
    obtain ⟨hleaf, hF⟩ := hok
    obtain ⟨-, hstep⟩ := hF.step io (rfl : (shape ino.bits).width = _) h.tree (sharedPath_path hleaf) hout
    refine (hstep.get h.tree hout (blockPath_leaf_of_ne hi).1.path).resolve_right ?_
    rintro ⟨-, hb⟩
    exact hb.not_before (before_sharedPath hi (hlim iblock rfl) hleaf.path.ne_nil)
  · cases hs; rfl
  · cases hs; rfl
  · cases hs

theorem truncStep_readThrough {a : TruncAction} (hread : a ≠ .read false)
    (h : Inv ino U s) (hs : s.truncStep ino a s.trunc = some s') (hr : ReadThrough ino s.trunc) :
    ReadThrough ino s'.trunc := by
  have hok := h.trunc
  unfold State.truncStep at hs
  split at hs
  · split_ifs at hs
    · cases hs
      change ReadThrough ino (truncate ino s.cell _)
      rw [truncate]
      split
      · trivial
      · trivial
      · rename_i hpath
        obtain ⟨q, hq, -, -⟩ := getBranch_cases s.cell
          (cut_ne_nil (hpath.symm ▸ List.cons_ne_nil _ _))
        change ReadThrough ino (afterShared _ (getBranch s.cell (cut _)))
        rw [hq]
        exact readThrough_next _ _ _
    · cases hs
      exact hr
  · rename_i io iblock chain heq
    cases hs
    rw [heq] at hok
    obtain ⟨-, -, hs, hne, hkey, hlen, hl⟩ := hok
    rcases getBranchLoop_cases (c := s.cell) io hs hne hkey hlen with
      ⟨hio, -⟩ | ⟨-, hn, -⟩ | ⟨-, -, q, hr', -, -⟩
    · exact absurd (by rw [hio]) hread
    · exact absurd hl hn
    · dsimp only
      rw [hr']
      exact readThrough_next _ _ _
  · cases hs; trivial
  · cases hs; trivial
  · cases hs; trivial
  · cases hs; trivial
  · cases hs

theorem truncStep_calls {a : TruncAction} (hs : s.truncStep ino a s.trunc = some s') :
    s'.calls = s.calls := by
  unfold State.truncStep at hs
  split at hs
  · split_ifs at hs <;> cases hs <;> rfl
  · cases hs; rfl
  · cases hs; rfl
  · cases hs
    dsimp only
    rw [truncFree_eq]
  · cases hs; rfl
  · cases hs; rfl
  · cases hs

/-- The limit of the truncation under way. -/
theorem truncStep_limit {a : TruncAction} (hs : s.truncStep ino a s.trunc = some s') {L : ℤ}
    (hl : s'.trunc.limit = some L) :
    s.trunc.limit = some L ∨ ∃ iSize, a = .truncate iSize ∧ L = truncateBlock ino iSize := by
  unfold State.truncStep at hs
  split at hs
  · split_ifs at hs
    · cases hs
      refine Or.inr ⟨_, rfl, ?_⟩
      rw [(truncate_ok ino s.cell _).2.2, Option.some.injEq] at hl
      exact hl.symm
    · cases hs
      exact Or.inl hl
  · rename_i heq
    cases hs
    rw [limit_afterShared] at hl
    exact Or.inl (by rw [heq]; exact hl)
  · rename_i heq
    cases hs
    exact Or.inl (by rw [heq]; exact hl)
  · rename_i heq
    cases hs
    exact Or.inl (by rw [heq]; exact hl)
  · rename_i heq
    cases hs
    exact Or.inl (by rw [heq]; exact hl)
  · cases hs
    cases hl
  · cases hs

end Lookup

/-! ## Runs the results are about -/

/-- The steps of runs in which `ext2_find_shared` can read its blocks. -/
def Reads (ino : Inode) (s : State) (a : Action) : Prop :=
  Allowed ino s a ∧ a ≠ .trunc (.read false)

/-- The step does not start a truncation that removes block `i` of the file. -/
def Spares (ino : Inode) (i : ℤ) : Action → Prop
  | .trunc (.truncate iSize) => i < truncateBlock ino iSize
  | _ => True

section Run

variable {ino : Inode} {U : Set ℕ} {s s' : State}

theorem spares_of_ne {a : Action} (ha : ∀ n, a ≠ .trunc (.truncate n)) (i : ℤ) :
    Spares ino i a := by
  cases a with
  | trunc a =>
      cases a with
      | truncate n => exact absurd rfl (ha n)
      | read io => trivial
      | detach => trivial
      | free io => trivial
      | ret => trivial
  | call t a => trivial
  | take b => trivial
  | give b => trivial
  | write b data => trivial

/-- The state after a list of steps. -/
def State.runs (ino : Inode) (s : State) : List Action → Option State
  | [] => some s
  | a :: l => (s.run ino a).bind fun s => s.runs ino l

/-- Steps that succeed, and no start of a truncation. -/
def Plain (ino : Inode) (s : State) (a : Action) : Prop :=
  Reads ino s a ∧ a ≠ .trunc (.free false) ∧ ∀ n, a ≠ .trunc (.truncate n)

/-- A step of `ext2_get_block` while nobody truncates. -/
theorem plain_call {t : ℕ} {a : CallAction} (htr : s.trunc = .idle)
    (hs : s.run ino (.call t a) = some s') :
    (system ino U).Admitted (Plain ino) s s' ∧ s'.trunc = .idle := by
  refine ⟨⟨.call t a, ⟨⟨?_, ?_⟩, ?_, ?_⟩, hs⟩, (callStep_frame hs).1.trans htr⟩
  · rw [Allowed.eq_def]
    split
    · intro _ iblock hl
      rw [htr] at hl
      cases hl
    · trivial
    · trivial
  · rintro ⟨⟩
  · rintro ⟨⟩
  · rintro n ⟨⟩

theorem runs_calls {l : List (ℕ × CallAction)} (htr : s.trunc = .idle)
    (hs : s.runs ino (l.map fun a => .call a.1 a.2) = some s') :
    Relation.ReflTransGen ((system ino U).Admitted (Plain ino)) s s' ∧ s'.trunc = .idle := by
  induction l generalizing s with
  | nil =>
      obtain rfl := Option.some.inj hs
      exact ⟨.refl, htr⟩
  | cons a l ih =>
      obtain ⟨s₁, hst, hs⟩ := Option.bind_eq_some_iff.mp hs
      obtain ⟨hstep, htr₁⟩ := plain_call htr hst
      obtain ⟨hrun, hend⟩ := ih htr₁ hs
      exact ⟨.head hstep hrun, hend⟩

/-- The step is not a failed read, nor the start of a truncation. -/
def TruncAction.goesOn : TruncAction → Bool
  | .truncate _ => false
  | .read io => io
  | .free io => io
  | .detach => true
  | .ret => true

theorem plain_of_goesOn {a : TruncAction} (h : a.goesOn = true) (s : State) :
    Plain ino s (.trunc a) := by
  cases a with
  | truncate n => cases h
  | read io =>
      refine ⟨⟨trivial, ?_⟩, ?_, ?_⟩
      · rintro ⟨⟩
        cases h
      · rintro ⟨⟩
      · rintro n ⟨⟩
  | free io =>
      refine ⟨⟨trivial, ?_⟩, ?_, ?_⟩
      · rintro ⟨⟩
      · rintro ⟨⟩
        cases h
      · rintro n ⟨⟩
  | detach =>
      refine ⟨⟨trivial, ?_⟩, ?_, ?_⟩
      · rintro ⟨⟩
      · rintro ⟨⟩
      · rintro n ⟨⟩
  | ret =>
      refine ⟨⟨trivial, ?_⟩, ?_, ?_⟩
      · rintro ⟨⟩
      · rintro ⟨⟩
      · rintro n ⟨⟩

/-- A truncation whose reads succeed. -/
theorem runs_trunc {l : List TruncAction} (hs : s.runs ino (l.map .trunc) = some s')
    (hok : ∀ a ∈ l, a.goesOn = true) :
    Relation.ReflTransGen ((system ino U).Admitted (Plain ino)) s s' ∧ s'.calls = s.calls := by
  induction l generalizing s with
  | nil =>
      obtain rfl := Option.some.inj hs
      exact ⟨.refl, rfl⟩
  | cons a l ih =>
      obtain ⟨s₁, hst, hs⟩ := Option.bind_eq_some_iff.mp hs
      obtain ⟨hrun, hcalls⟩ := ih hs fun a ha => hok a (List.mem_cons_of_mem _ ha)
      refine ⟨.head ⟨.trunc a, plain_of_goesOn (hok a List.mem_cons_self) s, hst⟩ hrun, ?_⟩
      exact hcalls.trans (truncStep_calls hst)

end Run

/-! ## A file with an indirect block -/

/-- A regular file on a file system with blocks of 1024 bytes. -/
def file : Inode := ⟨8, 8192, 1, 0, true, false, false, false, false, false⟩

/-- The file is empty, and four blocks are free. -/
def emptyFile : State := ⟨fun _ _ => 0, 0, 0, {5, 6, 7, 8}, ∅, ∅, fun _ => .idle, .idle⟩

def fileBlocks : Set ℕ := {b | b ∈ emptyFile.free}

theorem get_emptyFile (π : List ℕ) : get emptyFile.cell π = 0 := by
  cases π with
  | nil => rfl
  | cons o os => exact follow_zero _ os

theorem init_emptyFile : Init file fileBlocks emptyFile where
  tree π ρ _ _ hne := absurd (get_emptyFile π) hne
  parts := by
    have htree : emptyFile.at file .tree = ∅ := by
      ext b
      refine iff_of_false ?_ id
      rintro ⟨hb, π, -, hget⟩
      exact hb (hget.symm.trans (get_emptyFile π))
    have hnone : ∀ i, i ≠ .free → emptyFile.at file i = ∅ := by
      intro i hi
      cases i with
      | free => exact absurd rfl hi
      | tree => exact htree
      | other => ext b; exact iff_of_false (Finset.notMem_empty b) id
      | lost => ext b; exact iff_of_false (Finset.notMem_empty b) id
      | trunc => ext b; exact iff_of_false List.not_mem_nil id
      | call t => ext b; exact iff_of_false List.not_mem_nil id
    have hfree : ∀ i b, b ∈ emptyFile.at file i → i = .free := by
      intro i b hb
      by_contra hi
      rw [hnone i hi] at hb
      exact hb
    refine ⟨fun i j b hi hj => (hfree i b hi).trans (hfree j b hj).symm, fun b => ⟨?_, ?_⟩⟩
    · intro hb
      exact ⟨.free, hb⟩
    · rintro ⟨i, hi⟩
      obtain rfl := hfree i b hi
      exact hi
  zero h := absurd h (show 0 ∉ emptyFile.free by decide)
  calls _ := rfl
  trunc := rfl
  lost := rfl

/-- Steps of calls of `ext2_get_block`. -/
def State.getBlocks (s : State) (l : List (ℕ × CallAction)) : Option State :=
  s.runs file (l.map fun a => .call a.1 a.2)

/-- Steps of `ext2_truncate`. -/
def State.truncates (s : State) (l : List TruncAction) : Option State :=
  s.runs file (l.map .trunc)

/-- A task adds block 0, and then block 12 under an indirect block; its last step
is left. -/
def addingFile : State :=
  (emptyFile.getBlocks [(0, .getBlock 0 true), (0, .getBranch), (0, .findGoal), (0, .alloc 5),
    (0, .splice), (0, .getBlock 12 true), (0, .getBranch), (0, .findGoal), (0, .alloc 6),
    (0, .alloc 7)]).get (by decide +kernel)

def addedFile : State := (addingFile.run file (.call 0 .splice)).get (by decide +kernel)

/-- The task goes on with block 13, up to its last step. -/
def growingFile : State :=
  (addedFile.getBlocks [(0, .getBlock 13 true), (0, .getBranch), (0, .read true), (0, .findGoal),
    (0, .alloc 8)]).get (by decide +kernel)

def grownFile : State := (growingFile.run file (.call 0 .splice)).get (by decide +kernel)

/-- Another task looks block 12 up, up to its last step. -/
def lookingFile : State :=
  (grownFile.getBlocks [(1, .getBlock 12 false), (1, .getBranch)]).get (by decide +kernel)

def mappedFile : State := (lookingFile.run file (.call 1 (.read true))).get (by decide +kernel)

theorem get_some {α : Type} {o : Option α} (h : o.isSome = true) : o = some (o.get h) :=
  (Option.some_get h).symm

theorem step_addedFile : addingFile.run file (.call 0 .splice) = some addedFile := get_some _

theorem step_grownFile : growingFile.run file (.call 0 .splice) = some grownFile := get_some _

theorem step_mappedFile : lookingFile.run file (.call 1 (.read true)) = some mappedFile :=
  get_some _

theorem run_addingFile :
    Relation.ReflTransGen ((system file fileBlocks).Admitted (Plain file)) emptyFile addingFile ∧
      addingFile.trunc = .idle :=
  runs_calls rfl (get_some _)

theorem run_addedFile :
    (system file fileBlocks).Admitted (Plain file) addingFile addedFile ∧
      addedFile.trunc = .idle :=
  plain_call run_addingFile.2 step_addedFile

theorem run_growingFile :
    Relation.ReflTransGen ((system file fileBlocks).Admitted (Plain file)) addedFile growingFile ∧
      growingFile.trunc = .idle :=
  runs_calls run_addedFile.2 (get_some _)

theorem run_grownFile :
    (system file fileBlocks).Admitted (Plain file) growingFile grownFile ∧
      grownFile.trunc = .idle :=
  plain_call run_growingFile.2 step_grownFile

theorem run_lookingFile :
    Relation.ReflTransGen ((system file fileBlocks).Admitted (Plain file)) grownFile lookingFile ∧
      lookingFile.trunc = .idle :=
  runs_calls run_grownFile.2 (get_some _)

theorem run_mappedFile :
    (system file fileBlocks).Admitted (Plain file) lookingFile mappedFile ∧
      mappedFile.trunc = .idle :=
  plain_call run_lookingFile.2 step_mappedFile

theorem reach_addingFile : (system file fileBlocks).Reach (Plain file) addingFile :=
  System.Reach.run (.init init_emptyFile) run_addingFile.1

/-- From the answer for block 12 to the one for block 13, and to the second one for
block 12. -/
theorem run_growing :
    Relation.ReflTransGen ((system file fileBlocks).Admitted (Plain file)) addedFile lookingFile :=
  (run_growingFile.1.tail run_grownFile.1).trans run_lookingFile.1

theorem reach_mappedFile : (system file fileBlocks).Reach (Plain file) mappedFile :=
  reach_addingFile.run ((run_growing.head run_addedFile.1).tail run_mappedFile.1)

theorem allowed_truncate (iSize : ℕ) : Allowed file mappedFile (.trunc (.truncate iSize)) := by
  intro t block hc
  match t with
  | 0 => cases hc
  | 1 => cases hc
  | t + 2 => cases hc

/-- `ext2_truncate` to 13 blocks. -/
def cuttingFile : State :=
  (mappedFile.run file (.trunc (.truncate (13 * 1024)))).get (by decide +kernel)

def cutting : List TruncAction := .read true :: .detach :: List.replicate 261 (.free true)

def cutFile : State := (cuttingFile.truncates cutting).get (by decide +kernel)

theorem start_cuttingFile :
    mappedFile.run file (.trunc (.truncate (13 * 1024))) = some cuttingFile := get_some _

theorem run_cutFile :
    Relation.ReflTransGen ((system file fileBlocks).Admitted (Plain file)) cuttingFile cutFile ∧
      cutFile.calls = cuttingFile.calls :=
  runs_trunc (get_some _) (by decide +kernel)

/-- `ext2_truncate` to nothing. -/
def startedFile : State :=
  (mappedFile.run file (.trunc (.truncate 0))).get (by decide +kernel)

def freeing : List TruncAction := List.replicate 279 (.free true)

def freedFile : State := (startedFile.truncates freeing).get (by decide +kernel)

theorem start_startedFile : mappedFile.run file (.trunc (.truncate 0)) = some startedFile :=
  get_some _

theorem steps_freedFile : startedFile.truncates freeing = some freedFile := get_some _

theorem run_freedFile :
    Relation.ReflTransGen ((system file fileBlocks).Admitted (Plain file)) startedFile freedFile ∧
      freedFile.calls = startedFile.calls :=
  runs_trunc steps_freedFile (by decide +kernel)

end LinuxHacks.Ext2
