import LinuxHacks.Lib.Transition
import LinuxHacks.Tags.Adding

/-!
# The tag pointer and write-back

The number of the tag block lives in memory as `i_file_tags` and on disk as
`i_reserved1`. Nobody marks the inode dirty for it: `ext2_new_block` and
`ext2_free_blocks` do, for the charge of the block, and only after they have
returned does `ext2_addtag` or `ext2_tags_clear` store the new value. The calls
are split there, so that a write-back can fall between the two.

Calls on one inode exclude each other (`xattr_sem`); write-back does not take
that semaphore, and only a clean inode that nobody uses is evicted.
-/

namespace LinuxHacks.Tags

open LinuxHacks.Lib

/-! ## Steps -/

/-- Where the tag call in progress stands. -/
inductive Pc where
  | idle
  /-- At the start of `ext2_addtag`. -/
  | addtag (now : Nat) (new : NewBlock) (w : Word)
  /-- `ext2_new_block` has returned `id`, and has marked the inode. -/
  | charged (now id : Nat) (data : Bytes) (w : Word)
  /-- `i_file_tags` is `id`; at the label `write_tag`. -/
  | stored (now id : Nat) (w : Word)
  /-- At the start of `ext2_rmtag`. -/
  | rmtag (now : Nat) (w : Word)
  /-- `ext2_free_blocks` has returned, and has marked the inode. -/
  | released (now id : Nat)

/-- The inode: in memory (`tags`, `dirty`) or not, and its copy on disk. -/
structure Cached where
  tags : State
  inMemory : Bool
  dirty : Bool
  iReserved1 : Nat
  pc : Pc

inductive Act where
  | addtag (now : Nat) (new : NewBlock) (w : Word)
  | rmtag (now : Nat) (w : Word)
  | run
  | markDirty
  | writeInode
  | evict
  | readInode

/-- `ext2_rmtag` gets to free the block: it found the tag, and no other entry. -/
def rmClears (s : State) (w : Word) : Bool :=
  match rmScan (s.block s.iFileTags) w EXT2_MAX_TAGS ⟨0, 0, 0, false, 0, 0⟩ with
  | some r => r.tagFound && decide (r.error = 0) && decide (r.i = 1) && decide (s.iFileTags ≠ 0)
  | none => false

/-- `ext2_addtag` up to the return of `ext2_new_block`; the whole call if that
is not reached. -/
def runAddtag (c : Cached) (now : Nat) (new : NewBlock) (w : Word) : Option Cached :=
  if c.tags.sBlocksize < sizeT (w.bytes.length + 4) then some { c with pc := .idle }
  else if c.tags.iFileTags = 0 then
    match new with
    | .error _ => some { c with pc := .idle }
    | .block id data => some { c with dirty := true, pc := .charged now id data w }
  else do
    let r ← ext2Addtag c.tags now new w
    some { c with tags := r.2, pc := .idle }

/-- `ext2_rmtag` up to the return of `ext2_free_blocks`; the whole call if that
is not reached. -/
def runRmtag (c : Cached) (now : Nat) (w : Word) : Option Cached :=
  if rmClears c.tags w then
    some { c with
      tags := { c.tags with freed := c.tags.freed ++ [c.tags.iFileTags] }
      dirty := true
      pc := .released now c.tags.iFileTags }
  else do
    let r ← ext2Rmtag c.tags now w
    some { c with tags := r.2, pc := .idle }

/-- The next step of the call in progress. -/
def Cached.run (c : Cached) : Option Cached :=
  match c.pc with
  | .idle => none
  | .addtag now new w => runAddtag c now new w
  | .charged now id data w =>
      some { c with tags := { c.tags.setBlock id data with iFileTags := id }, pc := .stored now id w }
  | .stored now id w => do
      let r ← writeTagLabel c.tags now id 0 0 w
      some { c with tags := r.2, pc := .idle }
  | .rmtag now w => runRmtag c now w
  | .released now id =>
      some { c with tags := ({ c.tags with iFileTags := 0 } : State).touch now id, pc := .idle }

/-- `ext2_write_inode`: the copy on disk gets `i_file_tags`, the mark goes. -/
def Cached.writeInode (c : Cached) : Cached :=
  { c with iReserved1 := c.tags.iFileTags, dirty := false }

/-- `ext2_read_inode`: `i_file_tags` comes from the copy on disk. -/
def Cached.readInode (c : Cached) : Cached :=
  { c with tags := { c.tags with iFileTags := c.iReserved1 }, inMemory := true, dirty := false }

def Cached.evict (c : Cached) : Cached := { c with inMemory := false }

def Pc.isIdle : Pc → Bool
  | .idle => true
  | _ => false

/-- One step; `none` where it cannot be taken. -/
def Cached.step (c : Cached) : Act → Option Cached
  | .addtag now new w =>
      if c.inMemory && c.pc.isIdle then some { c with pc := .addtag now new w } else none
  | .rmtag now w => if c.inMemory && c.pc.isIdle then some { c with pc := .rmtag now w } else none
  | .run => c.run
  | .markDirty => if c.inMemory then some { c with dirty := true } else none
  | .writeInode => if c.inMemory then some c.writeInode else none
  | .evict => if c.inMemory && c.pc.isIdle && !c.dirty then some c.evict else none
  | .readInode => if c.inMemory then none else some c.readInode

/-- The inode starts on disk. -/
def persistence : System Cached Act where
  init c := c.inMemory = false ∧ c.pc = .idle
  step c a c' := c.step a = some c'

/-! ## The steps of a call make up the call -/

/-- The call in progress up to its end, with nothing in between. -/
def Cached.finish : Nat → Cached → Option Cached
  | 0, c => some c
  | n + 1, c => if c.pc.isIdle then some c else c.run >>= Cached.finish n

/-- A removal that does not free the block keeps the pointer. -/
theorem ext2Rmtag_iFileTags {s : State} {now : Nat} {w : Word} {r : Int × State}
    (hkeeps : rmClears s w = false) (h : ext2Rmtag s now w = some r) :
    r.2.iFileTags = s.iFileTags := by
  unfold ext2Rmtag at h
  obtain ⟨scan, hscan, hr⟩ := Option.bind_eq_some_iff.mp h
  unfold rmClears at hkeeps
  rw [hscan] at hkeeps
  split at hr
  · cases hr
    rfl
  · split at hr
    · cases hr
      rfl
    · split at hr
      · -- the only entry, of an untagged file
        cases hr
        have hnone : s.iFileTags = 0 := by
          simp_all
        rw [tagsClear, if_neg (by simp [hnone])]
        rfl
      · obtain ⟨b, _, hr⟩ := Option.bind_eq_some_iff.mp hr
        cases hr
        rfl

theorem rmClears_iff {s : State} {w : Word} : rmClears s w = true ↔
    ∃ r, rmScan (s.block s.iFileTags) w EXT2_MAX_TAGS ⟨0, 0, 0, false, 0, 0⟩ = some r ∧
      r.tagFound = true ∧ r.error = 0 ∧ r.i = 1 ∧ s.iFileTags ≠ 0 := by
  unfold rmClears
  cases rmScan (s.block s.iFileTags) w EXT2_MAX_TAGS ⟨0, 0, 0, false, 0, 0⟩ with
  | none => simp
  | some r => simp [and_assoc]

theorem ext2Rmtag_of_clears {s : State} {w : Word} (now : Nat) (h : rmClears s w = true) :
    ext2Rmtag s now w = some (0, ({ s with
      freed := s.freed ++ [s.iFileTags], iFileTags := 0 } : State).touch now s.iFileTags) := by
  obtain ⟨r, hr, hfound, herr, hone, htagged⟩ := rmClears_iff.mp h
  unfold ext2Rmtag
  rw [hr]
  simp only [Option.bind_eq_bind, Option.bind_some]
  rw [if_neg (by simp [hfound]), if_neg (by simp [herr]), if_pos hone, herr, tagsClear,
    if_pos htagged]

/-- **The steps of `ext2_addtag`**, taken without interruption, are the call. -/
theorem finish_addtag {c : Cached} {now : Nat} {new : NewBlock} {w : Word}
    (hpc : c.pc = .addtag now new w) :
    ∃ d, c.finish 3 = (ext2Addtag c.tags now new w).map fun r =>
      { c with tags := r.2, dirty := d, pc := .idle } := by
  have hstart : c.finish 3 = runAddtag c now new w >>= Cached.finish 2 := by
    rw [Cached.finish, hpc, Cached.run, hpc]
    rfl
  rw [hstart]
  unfold runAddtag
  by_cases hbig : c.tags.sBlocksize < sizeT (w.bytes.length + 4)
  · refine ⟨c.dirty, ?_⟩
    unfold ext2Addtag
    rw [if_pos hbig, if_pos hbig]
    rfl
  · rw [if_neg hbig]
    by_cases hnone : c.tags.iFileTags = 0
    · rw [if_pos hnone]
      cases new with
      | error code =>
          refine ⟨c.dirty, ?_⟩
          unfold ext2Addtag
          rw [if_neg hbig, if_pos hnone]
          rfl
      | block id data =>
          refine ⟨true, ?_⟩
          unfold ext2Addtag
          rw [if_neg hbig, if_pos hnone]
          simp only [Option.bind_eq_bind, Option.bind_some, Cached.finish, Cached.run, Pc.isIdle,
            Bool.false_eq_true, if_false]
          cases writeTagLabel { c.tags.setBlock id data with iFileTags := id } now id 0 0 w with
          | none => rfl
          | some r => rfl
    · refine ⟨c.dirty, ?_⟩
      rw [if_neg hnone]
      cases ext2Addtag c.tags now new w with
      | none => rfl
      | some r => rfl

/-- **The steps of `ext2_rmtag`**, taken without interruption, are the call. -/
theorem finish_rmtag {c : Cached} {now : Nat} {w : Word} (hpc : c.pc = .rmtag now w) :
    ∃ d, c.finish 3 = (ext2Rmtag c.tags now w).map fun r =>
      { c with tags := r.2, dirty := d, pc := .idle } := by
  have hstart : c.finish 3 = runRmtag c now w >>= Cached.finish 2 := by
    rw [Cached.finish, hpc, Cached.run, hpc]
    rfl
  rw [hstart]
  unfold runRmtag
  by_cases hclears : rmClears c.tags w = true
  · refine ⟨true, ?_⟩
    rw [if_pos hclears, ext2Rmtag_of_clears now hclears]
    rfl
  · refine ⟨c.dirty, ?_⟩
    rw [if_neg hclears]
    cases ext2Rmtag c.tags now w with
    | none => rfl
    | some r => rfl

/-! ## The pointer on disk -/

/-- Between the mark of the allocator and the store of the pointer. -/
def Pc.pointerPending : Pc → Bool
  | .charged _ _ _ _ => true
  | .released _ _ => true
  | _ => false

/-- No write-back between the mark of the allocator and the store. -/
def NoEarlyWrite (c : Cached) : Act → Prop
  | .writeInode => c.pc.pointerPending = false
  | _ => True

/-- The pointer of a clean inode is the one on disk; while a new pointer is to
be stored the inode is dirty. -/
structure PointerInv (c : Cached) : Prop where
  clean : c.inMemory = true → c.dirty = false → c.iReserved1 = c.tags.iFileTags
  pending : c.pc.pointerPending = true → c.dirty = true
  inUse : c.inMemory = false → c.pc = .idle

/-- The state after the last step of a call that stored no pointer. -/
theorem PointerInv.ends {c : Cached} (h : PointerInv c) (hmem : c.inMemory = true) {t : State}
    (htags : t.iFileTags = c.tags.iFileTags) :
    PointerInv { c with tags := t, pc := .idle } := by
  refine ⟨?_, ?_, ?_⟩
  · intro _ hclean
    show c.iReserved1 = t.iFileTags
    rw [htags]
    exact h.clean hmem hclean
  · intro hpending
    cases hpending
  · intro hno
    exact absurd (hmem.symm.trans hno) (by decide)

/-- A call on an inode in memory begins. -/
theorem PointerInv.begins {c : Cached} (h : PointerInv c) (hmem : c.inMemory = true) {p : Pc}
    (hp : p.pointerPending = false) : PointerInv { c with pc := p } := by
  refine ⟨h.clean, ?_, ?_⟩
  · intro hpending
    exact absurd (hp.symm.trans hpending) (by decide)
  · intro hno
    exact absurd (hmem.symm.trans hno) (by decide)

/-- A dirty inode in use. -/
theorem pointerInv_of_dirty {c : Cached} (hmem : c.inMemory = true) (hdirty : c.dirty = true) :
    PointerInv c :=
  ⟨fun _ hclean => absurd (hdirty.symm.trans hclean) (by decide), fun _ => hdirty,
    fun hno => absurd (hmem.symm.trans hno) (by decide)⟩

theorem PointerInv.run {c c' : Cached} (h : PointerInv c) (hrun : c.run = some c') :
    PointerInv c' := by
  have hmem : c.inMemory = true := by
    cases hm : c.inMemory with
    | true => rfl
    | false =>
        rw [Cached.run, h.inUse hm] at hrun
        cases hrun
  unfold Cached.run at hrun
  split at hrun
  · cases hrun
  · next now new w hpc =>
      unfold runAddtag at hrun
      split at hrun
      · cases hrun
        exact h.ends hmem rfl
      · split at hrun
        · cases new with
          | error code =>
              cases hrun
              exact h.ends hmem rfl
          | block id data =>
              cases hrun
              exact pointerInv_of_dirty hmem rfl
        · next htagged =>
            obtain ⟨r, hr, hrun⟩ := Option.bind_eq_some_iff.mp hrun
            cases hrun
            exact h.ends hmem ((ext2Addtag_frame hr).1 htagged)
  · next now id data w hpc =>
      cases hrun
      exact pointerInv_of_dirty hmem (h.pending (by rw [hpc]; rfl))
  · next now id w hpc =>
      obtain ⟨r, hr, hrun⟩ := Option.bind_eq_some_iff.mp hrun
      cases hrun
      exact h.ends hmem (writeTagLabel_frame hr).1
  · next now w hpc =>
      unfold runRmtag at hrun
      split at hrun
      · cases hrun
        exact pointerInv_of_dirty hmem rfl
      · next hkeeps =>
          obtain ⟨r, hr, hrun⟩ := Option.bind_eq_some_iff.mp hrun
          cases hrun
          exact h.ends hmem (ext2Rmtag_iFileTags (by simpa using hkeeps) hr)
  · next now id hpc =>
      cases hrun
      exact pointerInv_of_dirty hmem (h.pending (by rw [hpc]; rfl))

theorem PointerInv.step {c c' : Cached} {a : Act} (h : PointerInv c) (hok : NoEarlyWrite c a)
    (hstep : c.step a = some c') : PointerInv c' := by
  cases a with
  | run => exact h.run hstep
  | addtag now new w =>
      obtain ⟨hidle, heq⟩ := Option.ite_none_right_eq_some.mp hstep
      cases heq
      rw [Bool.and_eq_true] at hidle
      exact h.begins hidle.1 rfl
  | rmtag now w =>
      obtain ⟨hidle, heq⟩ := Option.ite_none_right_eq_some.mp hstep
      cases heq
      rw [Bool.and_eq_true] at hidle
      exact h.begins hidle.1 rfl
  | markDirty =>
      obtain ⟨hmem, heq⟩ := Option.ite_none_right_eq_some.mp hstep
      cases heq
      exact pointerInv_of_dirty hmem rfl
  | writeInode =>
      obtain ⟨hmem, heq⟩ := Option.ite_none_right_eq_some.mp hstep
      cases heq
      refine ⟨fun _ _ => rfl, ?_, h.inUse⟩
      intro hpending
      exact absurd (hok.symm.trans hpending) (by decide)
  | evict =>
      obtain ⟨hidle, heq⟩ := Option.ite_none_right_eq_some.mp hstep
      cases heq
      simp only [Bool.and_eq_true] at hidle
      refine ⟨?_, h.pending, ?_⟩
      · intro hmem
        cases hmem
      · intro _
        show c.pc = .idle
        cases hpc : c.pc <;> simp_all [Pc.isIdle]
  | readInode =>
      have hmem : c.inMemory = false := by
        cases hm : c.inMemory with
        | false => rfl
        | true =>
            rw [Cached.step, if_pos hm] at hstep
            cases hstep
      rw [Cached.step, if_neg (by simp [hmem])] at hstep
      cases hstep
      refine ⟨fun _ _ => rfl, ?_, fun _ => h.inUse hmem⟩
      intro hpending
      rw [show (Cached.readInode c).pc = .idle from h.inUse hmem] at hpending
      cases hpending

/-- Between tag calls a clean inode has its tag pointer on disk, and an
eviction gives it back. -/
def Persisted (c : Cached) : Prop :=
  c.pc = .idle → c.inMemory = true → c.dirty = false →
    c.iReserved1 = c.tags.iFileTags ∧
      ∀ c₁ c₂, c.step .evict = some c₁ → c₁.step .readInode = some c₂ →
        c₂.tags.iFileTags = c.tags.iFileTags

theorem PointerInv.persisted {c : Cached} (h : PointerInv c) : Persisted c := by
  intro _ hmem hclean
  have hdisk := h.clean hmem hclean
  refine ⟨hdisk, ?_⟩
  intro c₁ c₂ hevict hread
  obtain ⟨_, heq⟩ := Option.ite_none_right_eq_some.mp hevict
  cases heq
  cases hread
  exact hdisk

/-- **When the tag pointer persists.** In every run in which no write-back falls
between the return of the allocator and the store of the pointer. -/
theorem tag_pointer_persists {c : Cached} (h : persistence.Reach NoEarlyWrite c) :
    Persisted c := by
  have hinv : PointerInv c := by
    refine System.Reach.invariant ?_ ?_ h
    · rintro c ⟨hmem, hpc⟩
      refine ⟨fun hyes => absurd (hmem.symm.trans hyes) (by decide), ?_, fun _ => hpc⟩
      intro hpending
      rw [hpc] at hpending
      cases hpending
    · intro c a c' hinv hok hstep
      exact hinv.step hok hstep
  exact hinv.persisted

/-! The first tag of a file, with and without a write-back in between. -/

def onDisk : Cached := ⟨freshDevice, false, false, 0, .idle⟩

def firstTag : List Act :=
  [.readInode, .addtag 1 (.block 5 (List.replicate 1024 0)) wordA, .run, .run, .run]

/-- The same call, with a write-back after `ext2_new_block`. -/
def firstTagWritten : List Act :=
  [.readInode, .addtag 1 (.block 5 (List.replicate 1024 0)) wordA, .run, .writeInode, .run, .run]

/-- Written back after the call, evicted, and read again: the tag block is there. -/
theorem firstTag_persists : ∃ c, firstTag.foldlM Cached.step onDisk = some c ∧ Persisted c.writeInode ∧
    c.writeInode.evict.readInode.tags.iFileTags = 5 := by
  have hrun : (firstTag.foldlM Cached.step onDisk).map
      (fun c => (c.pc.isIdle, c.inMemory, c.tags.iFileTags)) = some (true, true, 5) := by
    decide +kernel
  obtain ⟨c, hc, hfields⟩ := Option.map_eq_some_iff.mp hrun
  simp only [Prod.mk.injEq] at hfields
  obtain ⟨hidle, hmem, htags⟩ := hfields
  have hok : ∀ a ∈ firstTag, ∀ c, NoEarlyWrite c a := by
    intro a ha c
    simp only [firstTag, List.mem_cons, List.not_mem_nil, or_false] at ha
    rcases ha with rfl | rfl | rfl | rfl | rfl <;> trivial
  have hpc : c.pc = .idle := by
    cases hpc : c.pc <;> simp_all [Pc.isIdle]
  have hwritten : persistence.Reach NoEarlyWrite c.writeInode :=
    .step .writeInode (.foldlM (fun _ _ _ h => h) hok (.init ⟨rfl, rfl⟩) hc)
      (by rw [NoEarlyWrite, hpc]; rfl) (if_pos hmem)
  have hpersisted := tag_pointer_persists hwritten
  refine ⟨c, hc, hpersisted, ?_⟩
  have hback := (hpersisted hpc hmem rfl).2 c.writeInode.evict c.writeInode.evict.readInode
  have hevict : c.writeInode.step .evict = some c.writeInode.evict := by
    refine if_pos ?_
    show (c.inMemory && c.pc.isIdle && !false) = true
    rw [hmem, hidle]
    rfl
  rw [hback hevict rfl]
  exact htags

/-- The write-back has put the old pointer on disk and taken the mark away. -/
theorem tag_pointer_lost : ∃ c, persistence.Reach System.anyStep c ∧ ¬ Persisted c := by
  have hrun : (firstTagWritten.foldlM Cached.step onDisk).map
      (fun c => (c.pc.isIdle, c.inMemory, c.dirty, c.iReserved1, c.tags.iFileTags)) =
        some (true, true, false, 0, 5) := by
    decide +kernel
  obtain ⟨c, hc, hfields⟩ := Option.map_eq_some_iff.mp hrun
  simp only [Prod.mk.injEq] at hfields
  obtain ⟨hidle, hmem, hclean, hdisk, htags⟩ := hfields
  refine ⟨c, .foldlM (fun _ _ _ h => h) (fun _ _ _ => trivial) (.init ⟨rfl, rfl⟩) hc, ?_⟩
  intro h
  have hpc : c.pc = .idle := by
    cases hpc : c.pc <;> simp_all [Pc.isIdle]
  have heq := (h hpc hmem hclean).1
  rw [hdisk, htags] at heq
  exact absurd heq (by decide)

end LinuxHacks.Tags
