import LinuxHacks.Ext2.Runs

/-!
# The blocks of a file over runs

* `blocks_have_one_place`: no block is lost, used twice, or in the tree twice;
* `mapping_stable`: a block of the file stays where it is until a truncation
  removes it, whatever the tasks do at the same time;
* `get_block_agree`: calls get the same block exactly when they ask for the same
  block of the file;
* `truncate_exact`: a truncation removes the blocks from its limit on, and keeps
  the others.

The last three need that `ext2_find_shared` can read its blocks (`Reads`), except
that a truncation removes what it has to whichever reads fail.
-/

namespace LinuxHacks.Ext2

open Lib.PointerTree LinuxHacks.Lib

section Results

variable {ino : Inode} {U : Set ℕ} {s s' : State}

/-- **No block is lost, and none has two uses.** In every state of every run each
block is in exactly one place, and a block of the tree is at exactly one path. -/
theorem blocks_have_one_place (h : (system ino U).Reach (Allowed ino) s) :
    (∀ b ∈ U, ∃! i, b ∈ s.at ino i) ∧
      ∀ b ∈ s.at ino .tree, b ∈ U ∧ ∃! π, (shape ino.bits).Path π ∧ get s.cell π = b := by
  have hI := reach_inv h
  refine ⟨fun b hb => hI.parts.existsUnique hb, ?_⟩
  intro b hb
  refine ⟨hI.parts.mem hb, ?_⟩
  obtain ⟨hb0, π, hπ, hget⟩ := hb
  refine ⟨π, ⟨hπ, hget⟩, ?_⟩
  rintro ρ ⟨hρ, hgetρ⟩
  exact hI.tree ρ π hρ hπ (hgetρ ▸ hb0) (hgetρ.trans hget.symm)

theorem mappedFile_places : (∃! i, 6 ∈ mappedFile.at file i) ∧
    (∃! π, (shape file.bits).Path π ∧ get mappedFile.cell π = 6) ∧
    ∃! π, (shape file.bits).Path π ∧ get mappedFile.cell π = 8 := by
  obtain ⟨hone, htree⟩ := blocks_have_one_place (reach_mappedFile.mono fun _ _ hok => hok.1.1)
  have hind : 6 ∈ mappedFile.at file .tree :=
    ⟨by decide, [12], by decide, by decide +kernel⟩
  have hdata : 8 ∈ mappedFile.at file .tree :=
    ⟨by decide, [12, 1], by decide, by decide +kernel⟩
  exact ⟨hone 6 (htree 6 hind).1, (htree 6 hind).2, (htree 8 hdata).2⟩

theorem Inv.step_readThrough (h : Inv ino U s) {a : Action} (hok : Reads ino s a)
    (hs : s.run ino a = some s') (hr : ReadThrough ino s.trunc) : ReadThrough ino s'.trunc := by
  cases a with
  | call t a =>
      rw [(callStep_frame hs).1]
      exact hr
  | trunc a => exact truncStep_readThrough (fun ha => hok.2 (by rw [ha])) h hs hr
  | take b => rw [State.run] at hs; split_ifs at hs; cases hs; exact hr
  | give b => rw [State.run] at hs; split_ifs at hs; cases hs; exact hr
  | write b data => rw [State.run] at hs; split_ifs at hs; cases hs; exact hr

theorem reach_readThrough (h : (system ino U).Reach (Reads ino) s) :
    Inv ino U s ∧ ReadThrough ino s.trunc := by
  refine h.invariant (I := fun s => Inv ino U s ∧ ReadThrough ino s.trunc) ?_ ?_
  · intro s hi
    refine ⟨Init.inv hi, ?_⟩
    rw [Init.trunc hi]
    trivial
  · rintro s a s' ⟨hI, hr⟩ hok hst
    exact ⟨hI.step hok.1 hst, hI.step_readThrough hok hst hr⟩

/-- One step keeps a block the truncation spares. -/
theorem Inv.step_lookup (h : Inv ino U s) {a : Action} {i : ℤ} (hr : ReadThrough ino s.trunc)
    (hlim : ∀ iblock, s.trunc.limit = some iblock → i < iblock)
    (hs : s.run ino a = some s') (hne : lookup ino s i ≠ 0) :
    lookup ino s' i = lookup ino s i := by
  have hpath := (blockPath_leaf_of_ne (lookup_ne_zero hne)).1.path
  cases a with
  | call t a => exact h.callStep_get hs hpath hne
  | trunc a => exact h.truncStep_lookup hr hlim hs hne
  | take b => rw [State.run] at hs; split_ifs at hs; cases hs; rfl
  | give b => rw [State.run] at hs; split_ifs at hs; cases hs; rfl
  | write b data =>
      rw [State.run] at hs
      split_ifs at hs with hb
      cases hs
      obtain ⟨j, hj, hjt, hjr⟩ : ∃ j, b ∈ s.at ino j ∧ j ≠ .tree ∧ j ≠ .trunc := by
        rcases hb with hb | hb
        · exact ⟨.free, hb, fun e => (by cases e), fun e => (by cases e)⟩
        · exact ⟨.other, hb, fun e => (by cases e), fun e => (by cases e)⟩
      exact (h.quiet hjt hjr fun m k hm => if_neg (hm b hj)).get _ hpath

theorem step_limit {a : Action} (hs : s.run ino a = some s') {L : ℤ}
    (hl : s'.trunc.limit = some L) :
    s.trunc.limit = some L ∨
      ∃ iSize, a = .trunc (.truncate iSize) ∧ L = truncateBlock ino iSize := by
  cases a with
  | call t a =>
      rw [(callStep_frame hs).1] at hl
      exact Or.inl hl
  | trunc a =>
      refine (truncStep_limit hs hl).imp id ?_
      rintro ⟨iSize, rfl, hL⟩
      exact ⟨iSize, rfl, hL⟩
  | take b => rw [State.run] at hs; split_ifs at hs; cases hs; exact Or.inl hl
  | give b => rw [State.run] at hs; split_ifs at hs; cases hs; exact Or.inl hl
  | write b data => rw [State.run] at hs; split_ifs at hs; cases hs; exact Or.inl hl

theorem step_spares {a : Action} {i : ℤ} (hs : s.run ino a = some s') (hsp : Spares ino i a)
    (hlim : ∀ iblock, s.trunc.limit = some iblock → i < iblock) :
    ∀ iblock, s'.trunc.limit = some iblock → i < iblock := by
  intro iblock hl
  rcases step_limit hs hl with hl | ⟨iSize, rfl, rfl⟩
  · exact hlim iblock hl
  · exact hsp

/-- What a run keeps while its truncations spare block `i`. -/
theorem kept_run {i : ℤ} {b : ℕ}
    (hrun : Relation.ReflTransGen
      ((system ino U).Admitted fun s a => Reads ino s a ∧ Spares ino i a) s s')
    (h : Inv ino U s) (hr : ReadThrough ino s.trunc)
    (hlim : ∀ iblock, s.trunc.limit = some iblock → i < iblock) (hb : lookup ino s i = b)
    (hne : b ≠ 0) : Inv ino U s' ∧ ReadThrough ino s'.trunc ∧ lookup ino s' i = b := by
  have := System.invariant_run (S := system ino U) (I := fun s => Inv ino U s ∧
    ReadThrough ino s.trunc ∧ (∀ iblock, s.trunc.limit = some iblock → i < iblock) ∧
    lookup ino s i = b) ?_ hrun ⟨h, hr, hlim, hb⟩
  · obtain ⟨hI', hr', -, hb'⟩ := this
    exact ⟨hI', hr', hb'⟩
  · rintro s a s' ⟨hI, hr, hlim, hb⟩ ⟨hok, hsp⟩ hst
    exact ⟨hI.step hok.1 hst, hI.step_readThrough hok hst hr, step_spares hst hsp hlim,
      (hI.step_lookup hr hlim hst (hb ▸ hne)).trans hb⟩

/-- **A block stays where it is.** Once block `i` of a file is somewhere, no
interleaving of calls that add blocks, of a truncation above `i` and of other users
moves it. -/
theorem mapping_stable {i : ℤ} (h : (system ino U).Reach (Reads ino) s)
    (hlim : ∀ iblock, s.trunc.limit = some iblock → i < iblock)
    (hrun : Relation.ReflTransGen
      ((system ino U).Admitted fun s a => Reads ino s a ∧ Spares ino i a) s s')
    (hne : lookup ino s i ≠ 0) : lookup ino s' i = lookup ino s i := by
  obtain ⟨hI, hr⟩ := reach_readThrough h
  exact (kept_run hrun hI hr hlim rfl hne).2.2

/-- The file is cut to 13 blocks: block 12, under the indirect block, stays. -/
theorem cutFile_stable : cutFile.trunc = .done 13 ∧ lookup file mappedFile 12 = 7 ∧
    lookup file cutFile 12 = lookup file mappedFile 12 := by
  have hmapped : lookup file mappedFile 12 = 7 := by decide +kernel
  refine ⟨by decide +kernel, hmapped, ?_⟩
  have hspares : (12 : ℤ) < truncateBlock file (13 * 1024) := by decide
  refine mapping_stable (reach_mappedFile.mono fun _ _ hok => hok.1) ?_
    (.head ⟨.trunc (.truncate (13 * 1024)), ⟨⟨allowed_truncate _, fun e => (by cases e)⟩, hspares⟩,
      start_cuttingFile⟩ ?_)
    (by rw [hmapped]; decide)
  · rw [run_mappedFile.2]
    exact fun _ hl => nomatch hl
  · exact System.run_mono (fun _ _ hok => ⟨hok.1, spares_of_ne hok.2.2 12⟩) run_cutFile.1

/-- The step answers a call for block `i` of the file: it is at `b`. -/
def Answers (ino : Inode) (s s' : State) (i : ℤ) (b : ℕ) : Prop :=
  ∃ t a r, s.run ino (.call t a) = some s' ∧ s'.calls t = .done i r ∧ r.mapped = some b

/-- The start of a call answers with no block. -/
theorem getBlock_calls {t : ℕ} {block : ℤ} {create : Bool}
    (hs : s.callStep ino t (.getBlock block create) (s.calls t) = some s') :
    s'.calls t = .done block (.error (- EIO)) ∨ s'.calls t = .reread block create := by
  have hstart : (s.setCall t (if blockPath ino.bits block = [] then
      .done block (.error (- EIO)) else .reread block create)).calls t =
      .done block (.error (- EIO)) ∨
      (s.setCall t (if blockPath ino.bits block = [] then
        .done block (.error (- EIO)) else .reread block create)).calls t =
        .reread block create := by
    rw [calls_setCall_self]
    split_ifs
    · exact Or.inl rfl
    · exact Or.inr rfl
  cases hc : s.calls t with
  | idle =>
      rw [hc] at hs
      exact Option.some.inj hs ▸ hstart
  | done i r =>
      rw [hc] at hs
      exact Option.some.inj hs ▸ hstart
  | _ =>
      rw [hc] at hs
      cases hs

theorem Answers.reads {i : ℤ} {b : ℕ} (h : Answers ino s s' i b) :
    ∃ t a, s.run ino (.call t a) = some s' ∧ Reads ino s (.call t a) := by
  obtain ⟨t, a, r, hs, hd, hm⟩ := h
  refine ⟨t, a, hs, ?_, fun e => (by cases e)⟩
  cases a with
  | getBlock block create =>
      rcases getBlock_calls hs with hcall | hcall
      · rw [hcall] at hd
        obtain ⟨rfl, rfl⟩ := Call.done.inj hd
        cases hm
      · rw [hcall] at hd
        cases hd
  | getBranch => trivial
  | read io => trivial
  | findGoal => trivial
  | alloc nr => trivial
  | allocFails err => trivial
  | splice => trivial
  | freeBranch => trivial

/-- What holds when an answer is given. -/
theorem Inv.answers (h : Inv ino U s) (hr : ReadThrough ino s.trunc) {i : ℤ} {b : ℕ}
    (ha : Answers ino s s' i b) :
    Inv ino U s' ∧ ReadThrough ino s'.trunc ∧ lookup ino s' i = b ∧ b ≠ 0 := by
  obtain ⟨t, a, hs, hok⟩ := ha.reads
  obtain ⟨u, a', r, hs', hd, hm⟩ := ha
  exact ⟨h.step hok.1 hs, h.step_readThrough hok hs hr, h.callStep_answer hs' hd hm⟩

/-- **The calls agree.** A call is answered that block `i` of the file is at `b`, and
from then on no truncation removes block `i`. When a call of this or another task is
answered that block `j` is at `b'`, these are the same block exactly when `i` and `j`
are. -/
theorem get_block_agree {s₀ s₁ : State} {i j : ℤ} {b b' : ℕ}
    (h : (system ino U).Reach (Reads ino) s₀) (hb : Answers ino s₀ s i b)
    (hlim : ∀ iblock, s.trunc.limit = some iblock → i < iblock)
    (hrun : Relation.ReflTransGen
      ((system ino U).Admitted fun s a => Reads ino s a ∧ Spares ino i a) s s₁)
    (hb' : Answers ino s₁ s' j b') : b = b' ↔ i = j := by
  obtain ⟨hI₀, hr₀⟩ := reach_readThrough h
  obtain ⟨hI, hr, hi, hne⟩ := hI₀.answers hr₀ hb
  obtain ⟨hI₁, hr₁, hi₁⟩ := kept_run hrun hI hr hlim hi hne
  obtain ⟨hI', -, hj, hne'⟩ := hI₁.answers hr₁ hb'
  have hpi := (blockPath_leaf_of_ne (lookup_ne_zero (hi₁.symm ▸ hne))).1
  have hpj := (blockPath_leaf_of_ne (lookup_ne_zero (hj.symm ▸ hne'))).1
  -- the step that answers the second call leaves block `i` where it is
  have hi' : lookup ino s' i = b := by
    obtain ⟨t, a, r, hst, -, -⟩ := hb'
    have hkept := hI₁.callStep_get hst hpi.path
    rw [← lookup, hi₁] at hkept
    exact hkept hne
  constructor
  · rintro rfl
    have hpath : blockPath ino.bits i = blockPath ino.bits j := by
      apply hI'.tree _ _ hpi.path hpj.path
      · rw [← lookup, hi']
        exact hne
      · exact hi'.trans hj.symm
    exact (existsUnique_blockPath ino.bits hpj).unique hpath rfl
  · rintro rfl
    exact hi'.symm.trans hj

/-- A task adds blocks 12 and 13 one after the other, and another one looks block 12
up. -/
theorem mappedFile_agree : Answers file addingFile addedFile 12 7 ∧
    Answers file growingFile grownFile 13 8 ∧ Answers file lookingFile mappedFile 12 7 ∧
    (7 = 8 ↔ (12 : ℤ) = 13) ∧ (7 = 7 ↔ (12 : ℤ) = 12) := by
  have h12 : Answers file addingFile addedFile 12 7 :=
    ⟨0, .splice, ⟨0, some 7, true, false⟩, step_addedFile, by decide +kernel, rfl⟩
  have h13 : Answers file growingFile grownFile 13 8 :=
    ⟨0, .splice, ⟨0, some 8, true, false⟩, step_grownFile, by decide +kernel, rfl⟩
  have hagain : Answers file lookingFile mappedFile 12 7 :=
    ⟨1, .read true, ⟨0, some 7, false, false⟩, step_mappedFile, by decide +kernel, rfl⟩
  have hspares : ∀ s a, Plain file s a → Reads file s a ∧ Spares file 12 a :=
    fun _ _ hok => ⟨hok.1, spares_of_ne hok.2.2 12⟩
  have hidle : ∀ iblock, addedFile.trunc.limit = some iblock → 12 < iblock := by
    rw [run_addedFile.2]
    rintro iblock ⟨⟩
  have hreach : (system file fileBlocks).Reach (Reads file) addingFile :=
    reach_addingFile.mono fun _ _ hok => hok.1
  exact ⟨h12, h13, hagain,
    get_block_agree hreach h12 hidle (System.run_mono hspares run_growingFile.1) h13,
    get_block_agree hreach h12 hidle (System.run_mono hspares run_growing) hagain⟩

/-! ### Truncation -/

theorem lt_truncateBlock {i : ℤ} (hi : 0 ≤ i) (iSize : ℕ) :
    i < truncateBlock ino iSize ↔ i * (4 * addrPerBlock ino.bits : ℕ) < iSize := by
  obtain ⟨n, rfl⟩ := Int.eq_ofNat_of_zero_le hi
  have hbs : 4 * addrPerBlock ino.bits = 2 ^ (ino.bits + 2) := by
    rw [addrPerBlock_eq, pow_add, Nat.mul_comm]
    rfl
  have hpos : 0 < 2 ^ (ino.bits + 2) := Nat.two_pow_pos _
  rw [truncateBlock, Nat.shiftRight_eq_div_pow, hbs, Nat.cast_lt, ← Nat.cast_mul, Nat.cast_lt,
    Nat.lt_iff_add_one_le, Nat.le_div_iff_mul_le hpos, Nat.succ_mul]
  omega

/-- After a truncation there is nothing beyond its cut. -/
theorem Inv.lookup_done (h : Inv ino U s) {iblock i : ℤ} (htr : s.trunc = .done iblock)
    (hi : iblock ≤ i) (h0 : 0 ≤ iblock) : lookup ino s i = 0 := by
  by_contra hne
  have hpi := lookup_ne_zero hne
  obtain ⟨hleaf, -, hcap⟩ := blockPath_leaf_of_ne hpi
  have hok := h.trunc
  rw [htr] at hok
  refine hne (hok _ hleaf.path ⟨?_, ?_⟩)
  · intro hnil
    have := (blockPath_eq_nil_iff ino.bits iblock).mp hnil
    omega
  · rcases lt_or_eq_of_le hi with hlt | rfl
    · exact beyond_cut (before_blockPath ino.bits h0 hlt hcap)
    · exact beyond_of_prefix (cut_isPrefix _)

/-- **What a truncation does.** From its start to its end, whatever other tasks do in
between and whichever reads fail, the blocks of the file with no byte before `iSize`
are gone; and when the reads of `ext2_find_shared` succeed, the others stay where they
were. -/
theorem truncate_exact {s₀ s₁ s₂ : State} {iSize : ℕ} {iblock : ℤ}
    (h : (system ino U).Reach (Allowed ino) s₀) (htr : ino.truncatable = true)
    (hidle : s₀.trunc = .idle) (hok : Allowed ino s₀ (.trunc (.truncate iSize)))
    (hstart : s₀.run ino (.trunc (.truncate iSize)) = some s₁)
    (hrun : Relation.ReflTransGen ((system ino U).Admitted fun s a =>
      Allowed ino s a ∧ ∀ n, a ≠ .trunc (.truncate n)) s₁ s₂)
    (hdone : s₂.trunc = .done iblock) (i : ℤ) (hi : 0 ≤ i) :
    ((iSize : ℤ) ≤ i * (4 * addrPerBlock ino.bits : ℕ) → lookup ino s₂ i = 0) ∧
      (Relation.ReflTransGen ((system ino U).Admitted fun s a =>
          Reads ino s a ∧ ∀ n, a ≠ .trunc (.truncate n)) s₁ s₂ →
        i * (4 * addrPerBlock ino.bits : ℕ) < iSize → lookup ino s₀ i ≠ 0 →
          lookup ino s₂ i = lookup ino s₀ i) := by
  have hI₀ := reach_inv h
  have hr₀ : ReadThrough ino s₀.trunc := by
    rw [hidle]
    trivial
  have hI₁ := hI₀.step hok hstart
  have hlim₁ : s₁.trunc.limit = some (truncateBlock ino iSize) := by
    rw [State.run, hidle] at hstart
    rw [State.truncStep, if_pos htr] at hstart
    obtain rfl := Option.some.inj hstart
    exact (truncate_ok ino s₀.cell iSize).2.2
  -- the run has no other truncation
  obtain ⟨hI₂, hlim₂⟩ := System.invariant_run (S := system ino U) (I := fun s => Inv ino U s ∧
    ∀ L, s.trunc.limit = some L → L = truncateBlock ino iSize) (by
      rintro s a s' ⟨hI, hL⟩ ⟨hok, hno⟩ hst
      refine ⟨hI.step hok hst, fun L hl => ?_⟩
      rcases step_limit hst hl with hl | ⟨n, rfl, -⟩
      · exact hL L hl
      · exact absurd rfl (hno n)) hrun
    ⟨hI₁, fun L hl => (Option.some.inj (hlim₁.symm.trans hl)).symm⟩
  have hL : iblock = truncateBlock ino iSize := hlim₂ iblock (by rw [hdone]; rfl)
  rw [← lt_truncateBlock hi, ← not_lt, ← lt_truncateBlock hi, ← hL, not_lt]
  constructor
  · intro hge
    refine hI₂.lookup_done hdone hge ?_
    rw [hL]
    exact Int.natCast_nonneg _
  · intro hreads hlt hne
    have hstep : lookup ino s₁ i = lookup ino s₀ i :=
      hI₀.step_lookup hr₀ (by rw [hidle]; exact fun _ hl => (by cases hl)) hstart hne
    have hr₁ : ReadThrough ino s₁.trunc :=
      hI₀.step_readThrough ⟨hok, fun e => (by cases e)⟩ hstart hr₀
    refine (kept_run (System.run_mono ?_ hreads) hI₁ hr₁ ?_ hstep hne).2.2
    · rintro s a ⟨hok, hno⟩
      exact ⟨hok, spares_of_ne hno i⟩
    · intro L hl
      rw [hlim₁, Option.some.injEq] at hl
      rw [← hl, ← hL]
      exact hlt

/-- The file is cut to 13 blocks: block 13 is gone, block 12 stays. -/
theorem cutFile_exact : lookup file mappedFile 13 = 8 ∧ lookup file cutFile 13 = 0 ∧
    lookup file mappedFile 12 = 7 ∧ lookup file cutFile 12 = 7 := by
  have h12 : lookup file mappedFile 12 = 7 := by decide +kernel
  have hrun : Relation.ReflTransGen ((system file fileBlocks).Admitted
      fun s a => Reads file s a ∧ ∀ n, a ≠ .trunc (.truncate n)) cuttingFile cutFile :=
    System.run_mono (fun _ _ hok => ⟨hok.1, hok.2.2⟩) run_cutFile.1
  have hexact := truncate_exact
    (reach_mappedFile.mono fun _ _ hok => hok.1.1) rfl run_mappedFile.2
    (allowed_truncate (13 * 1024)) start_cuttingFile
    (System.run_mono (fun _ _ hok => ⟨hok.1.1, hok.2⟩) hrun)
    (show cutFile.trunc = .done 13 by decide +kernel)
  refine ⟨by decide +kernel, (hexact 13 (by decide)).1 (by decide), h12, ?_⟩
  rw [(hexact 12 (by decide)).2 hrun (by decide) (by rw [h12]; decide), h12]

end Results

end LinuxHacks.Ext2
