import LinuxHacks.Tags.Adding

/-!
# Tagging a fast symlink

A symlink whose target is short keeps the text in `i_data`, where other files
have their block numbers. Whether it does is not stored: it is inferred from
`i_blocks`, which counts the blocks of the inode in units of 512 bytes, less the
extended-attribute block. A tag block is counted there too, so tagging such a
link makes its text pass for block numbers: `fast_symlink_kept`.
-/

namespace LinuxHacks.Tags

/-! ## The inode -/

def S_IFMT : Nat := 0o170000

def S_IFLNK : Nat := 0o120000

def S_IFREG : Nat := 0o100000

def S_IFDIR : Nat := 0o040000

def S_ISLNK (m : Nat) : Prop := m &&& S_IFMT = S_IFLNK

def S_ISREG (m : Nat) : Prop := m &&& S_IFMT = S_IFREG

def S_ISDIR (m : Nat) : Prop := m &&& S_IFMT = S_IFDIR

instance : DecidablePred S_ISLNK := fun m => inferInstanceAs (Decidable (m &&& S_IFMT = S_IFLNK))

instance : DecidablePred S_ISREG := fun m => inferInstanceAs (Decidable (m &&& S_IFMT = S_IFREG))

instance : DecidablePred S_ISDIR := fun m => inferInstanceAs (Decidable (m &&& S_IFMT = S_IFDIR))

/-- An inode, with the device and its tag block in `tags`. -/
structure Inode where
  tags : State
  iMode : Nat
  iBlocks : Nat
  iFileAcl : Nat
  iData : List Nat
  appendOrImmutable : Bool

def Inode.sBlocksize (i : Inode) : Nat := i.tags.sBlocksize

/-- `ea_blocks` of `ext2_inode_is_fast_symlink`. -/
def Inode.eaBlocks (i : Inode) : Nat := if i.iFileAcl ≠ 0 then i.sBlocksize >>> 9 else 0

/-- `ext2_inode_is_fast_symlink`; the difference is unsigned. -/
def Inode.isFastSymlink (i : Inode) : Prop :=
  S_ISLNK i.iMode ∧ ((i.iBlocks : Int) - i.eaBlocks) % 2 ^ 32 = 0

instance (i : Inode) : Decidable i.isFastSymlink :=
  inferInstanceAs (Decidable (_ ∧ _))

/-! ## What is inferred from it -/

inductive Operations where
  | file
  | dir
  | fastSymlink
  | symlink
  | special
deriving DecidableEq, Repr

/-- The `i_op` that `ext2_read_inode` chooses. -/
def Inode.readInodeOp (i : Inode) : Operations :=
  if S_ISREG i.iMode then .file
  else if S_ISDIR i.iMode then .dir
  else if S_ISLNK i.iMode then if i.isFastSymlink then .fastSymlink else .symlink
  else .special

/-- `ext2_truncate` on an inode of size 0: the block numbers it takes from
`i_data` to free them, the data blocks and the roots of the indirect ones. -/
def Inode.truncateFrees (i : Inode) : List Nat :=
  if ¬ (S_ISREG i.iMode ∨ S_ISDIR i.iMode ∨ S_ISLNK i.iMode) then []
  else if i.isFastSymlink then []
  else if i.appendOrImmutable then []
  else i.iData.filter (· ≠ 0)

/-- `ext2_delete_inode` truncates an inode that has blocks. -/
def Inode.deleteFrees (i : Inode) : List Nat :=
  if i.iBlocks ≠ 0 then i.truncateFrees else []

/-! ## Tag calls on the inode -/

/-- A call on the inode: `ext2_new_block` adds the size of a block to
`i_blocks`, `ext2_free_blocks` subtracts it. -/
def Inode.run (i : Inode) : Op → Option (Int × Inode)
  | .add now new w => do
      let r ← ext2Addtag i.tags now new w
      let charged := (newBlockIds i.tags new w).length * (i.sBlocksize / 512)
      some (r.1, { i with tags := r.2, iBlocks := sizeT (i.iBlocks + charged) })
  | .rm now w => do
      let r ← ext2Rmtag i.tags now w
      let released := (r.2.freed.length - i.tags.freed.length) * (i.sBlocksize / 512)
      some (r.1, { i with tags := r.2, iBlocks := sizeTOfInt (i.iBlocks - released) })

def Inode.runOps (i : Inode) : List Op → Option Inode
  | [] => some i
  | op :: ops => do
      let r ← i.run op
      r.2.runOps ops

/-! ## Links -/

/-- A link as `ext2_symlink` leaves it for a short name, before any tag. -/
structure FreshLink (i : Inode) : Prop where
  device : DeviceOk i.tags
  blocksize : 1024 ≤ i.sBlocksize
  mode : S_ISLNK i.iMode
  iBlocks : i.iBlocks = i.eaBlocks
  untagged : i.tags.iFileTags = 0

/-- The text of the link is read as a text, and no block is freed for it. -/
def TextKept (i : Inode) : Prop :=
  i.isFastSymlink ∧ i.readInodeOp = .fastSymlink ∧ i.deleteFrees = []

/-- The call gets a block: a word that fits, and an allocation that succeeds. -/
def Op.GetsBlock (sBlocksize : Nat) : Op → Prop
  | .add _ (.block _ _) w => w.bytes.length + 4 ≤ sBlocksize
  | .add _ (.error _) _ => False
  | .rm _ _ => False

theorem S_ISLNK.not_reg {m : Nat} (h : S_ISLNK m) : ¬ S_ISREG m := fun hreg =>
  absurd (h.symm.trans hreg) (by decide)

theorem S_ISLNK.not_dir {m : Nat} (h : S_ISLNK m) : ¬ S_ISDIR m := fun hdir =>
  absurd (h.symm.trans hdir) (by decide)

/-- What is inferred depends on the test alone. -/
theorem textKept_iff (i : Inode) : TextKept i ↔ i.isFastSymlink := by
  constructor
  · exact fun h => h.1
  · intro h
    refine ⟨h, ?_, ?_⟩
    · rw [Inode.readInodeOp, if_neg h.1.not_reg, if_neg h.1.not_dir, if_pos h.1, if_pos h]
    · have htruncate : i.truncateFrees = [] := by
        rw [Inode.truncateFrees, if_neg (by simp [h.1]), if_pos h]
      rw [Inode.deleteFrees, htruncate, ite_self]

theorem FreshLink.isFastSymlink {i : Inode} (h : FreshLink i) : i.isFastSymlink := by
  refine ⟨h.mode, ?_⟩
  rw [h.iBlocks]
  simp

/-- An inode with other tags and another block count. -/
theorem eaBlocks_congr {i j : Inode} (hacl : j.iFileAcl = i.iFileAcl)
    (hsize : j.sBlocksize = i.sBlocksize) : j.eaBlocks = i.eaBlocks := by
  unfold Inode.eaBlocks
  rw [hacl, hsize]

/-- A call that gets no block leaves the link as it was. -/
theorem FreshLink.run_kept {i : Inode} (h : FreshLink i) {op : Op}
    (hop : op.Sized i.sBlocksize) (hnone : ¬ op.GetsBlock i.sBlocksize) :
    ∃ r, i.run op = some r ∧ FreshLink r.2 ∧ r.2.sBlocksize = i.sBlocksize := by
  have hea : i.eaBlocks < 2 ^ 32 := by
    have hsmall : i.sBlocksize ≤ 4096 := h.device.small
    rw [Inode.eaBlocks, Nat.shiftRight_eq_div_pow]
    split
    · omega
    · decide
  -- a call that neither charges nor releases a block
  have hlink : ∀ s' : State, DeviceOk s' → s'.sBlocksize = i.tags.sBlocksize → s'.iFileTags = 0 →
      ∀ n : Nat, n = i.iBlocks → FreshLink { i with tags := s', iBlocks := n } := by
    intro s' hd hsize htags n hn
    refine ⟨hd, ?_, h.mode, ?_, htags⟩
    · show 1024 ≤ s'.sBlocksize
      rw [hsize]
      exact h.blocksize
    · have heq := eaBlocks_congr (i := i) (j := { i with tags := s', iBlocks := n }) rfl hsize
      rw [heq, ← h.iBlocks]
      exact hn
  cases op with
  | add now new w =>
      have hlen := w.len_lt
      have hcharged : newBlockIds i.tags new w = [] := by
        cases new with
        | error code => exact newBlockIds_error i.tags code w
        | block id data => exact newBlockIds_big _ (Nat.lt_of_not_le hnone)
      obtain ⟨r, hr, hout⟩ := ext2Addtag_untagged now new w h.device h.untagged hop
      have hsame : r.2 = i.tags := by
        cases hout with
        | refused _ => rfl
        | noBlock _ _ _ => rfl
        | written id data s' hfits hnew _ _ _ _ =>
            subst hnew
            exact absurd (show w.bytes.length + 4 ≤ i.tags.sBlocksize by omega) hnone
      refine ⟨(r.1, { i with tags := r.2, iBlocks := sizeT (i.iBlocks + 0) }), ?_, ?_, ?_⟩
      · simp only [Inode.run, hr, hcharged, Option.bind_eq_bind, Option.bind_some,
          List.length_nil, Nat.zero_mul]
      · rw [hsame]
        refine hlink i.tags h.device rfl h.untagged _ (sizeT_of_lt ?_)
        rw [Nat.add_zero, h.iBlocks]
        exact hea
      · rw [hsame]
        rfl
  | rm now w =>
      obtain ⟨r, hr, hout⟩ := ext2Rmtag_untagged now w h.device h.untagged
      refine ⟨(r.1, { i with tags := r.2, iBlocks := sizeTOfInt (i.iBlocks - (0 : Nat)) }), ?_, ?_,
        hout.within.sBlocksize⟩
      · simp only [Inode.run, hr, hout.freed, Option.bind_eq_bind, Option.bind_some, Nat.sub_self,
          Nat.zero_mul]
      · refine hlink r.2 hout.within.device hout.within.sBlocksize hout.iFileTags _ ?_
        rw [← h.iBlocks] at hea
        unfold sizeTOfInt
        omega

/-- The first call that gets a block turns the link into a slow one. -/
theorem FreshLink.run_lost {i : Inode} (h : FreshLink i) {op : Op}
    (hop : op.Sized i.sBlocksize) (hgets : op.GetsBlock i.sBlocksize) :
    ∃ r, i.run op = some r ∧ ¬ r.2.isFastSymlink := by
  have hsmall : i.sBlocksize ≤ 4096 := h.device.small
  have hlarge := h.blocksize
  cases op with
  | rm now w => exact hgets.elim
  | add now new w =>
      cases new with
      | error code => exact hgets.elim
      | block id data =>
          have hlen := w.len_lt
          have hfits : w.bytes.length + 4 ≤ i.tags.sBlocksize := hgets
          have hcharged : newBlockIds i.tags (.block id data) w = [id] :=
            newBlockIds_block data h.untagged (Nat.not_lt.mpr hfits)
          obtain ⟨r, hr, hout⟩ := ext2Addtag_untagged now (.block id data) w h.device h.untagged hop
          have hsize : r.2.sBlocksize = i.tags.sBlocksize := by
            cases hout with
            | refused _ => rfl
            | noBlock _ _ _ => rfl
            | written _ _ _ _ _ hwithin _ _ _ => exact hwithin.sBlocksize
          refine ⟨(r.1, { i with
            tags := r.2, iBlocks := sizeT (i.iBlocks + i.sBlocksize / 512) }), ?_, ?_⟩
          · simp only [Inode.run, hr, hcharged, Option.bind_eq_bind, Option.bind_some,
              List.length_singleton, Nat.one_mul]
          · rintro ⟨_, hzero⟩
            have heq := eaBlocks_congr (i := i) (j := { i with
              tags := r.2, iBlocks := sizeT (i.iBlocks + i.sBlocksize / 512) }) rfl hsize
            rw [heq, ← h.iBlocks] at hzero
            have hea : i.iBlocks ≤ 4096 := by
              rw [h.iBlocks, Inode.eaBlocks, Nat.shiftRight_eq_div_pow]
              split
              · omega
              · decide
            dsimp only at hzero
            rw [sizeT_of_lt (by omega)] at hzero
            omega

/-! ## Every sequence of calls -/

/-- **When tagging keeps a fast symlink.** After every call of the sequence the
text of the link is still read as a text exactly when no call of it gets a
block. -/
theorem fast_symlink_kept {i : Inode} (h : FreshLink i) (ops : List Op)
    (hops : ∀ op ∈ ops, op.Sized i.sBlocksize) :
    (∀ pre, pre <+: ops → ∃ i', i.runOps pre = some i' ∧ TextKept i') ↔
      ∀ op ∈ ops, ¬ op.GetsBlock i.sBlocksize := by
  simp only [textKept_iff]
  induction ops generalizing i with
  | nil =>
      simp only [List.prefix_nil, forall_eq, List.not_mem_nil, false_implies, implies_true, iff_true]
      exact ⟨i, rfl, h.isFastSymlink⟩
  | cons op ops ih =>
      have hop := hops op List.mem_cons_self
      by_cases hgets : op.GetsBlock i.sBlocksize
      · -- after this call already the link is a slow one
        obtain ⟨r, hr, hslow⟩ := h.run_lost hop hgets
        refine ⟨fun hall => ?_, fun hall => absurd hgets (hall op List.mem_cons_self)⟩
        obtain ⟨i', hi', hfast⟩ := hall [op] (List.prefix_append [op] ops)
        have hrun : i.runOps [op] = some r.2 := by
          rw [Inode.runOps, hr]
          rfl
        rw [hrun] at hi'
        cases hi'
        exact absurd hfast hslow
      · obtain ⟨r, hr, hlink, hsize⟩ := h.run_kept hop hgets
        have hrest := ih hlink (by
          intro op' hop'
          rw [hsize]
          exact hops op' (List.mem_cons_of_mem _ hop'))
        rw [hsize] at hrest
        have hcons : ∀ pre, i.runOps (op :: pre) = r.2.runOps pre := by
          intro pre
          rw [Inode.runOps, hr]
          rfl
        rw [List.forall_mem_cons, and_iff_right hgets, ← hrest]
        constructor
        · intro hall pre hpre
          obtain ⟨i', hi', hfast⟩ := hall (op :: pre) (List.cons_prefix_cons.mpr ⟨rfl, hpre⟩)
          exact ⟨i', by rw [← hcons]; exact hi', hfast⟩
        · intro hall pre hpre
          cases pre with
          | nil => exact ⟨i, rfl, h.isFastSymlink⟩
          | cons op' pre =>
              obtain ⟨rfl, hrest⟩ := List.cons_prefix_cons.mp hpre
              obtain ⟨i', hi', hfast⟩ := hall pre hrest
              exact ⟨i', by rw [hcons]; exact hi', hfast⟩

/-- A link to `/etc/passwd`, without an extended-attribute block. -/
def passwdLink : Inode where
  tags := freshDevice
  iMode := 0o120777
  iBlocks := 0
  iFileAcl := 0
  iData := [0x6374652f, 0x7361702f, 0x00647773, 0, 0, 0, 0, 0, 0, 0, 0, 0, 0, 0, 0]
  appendOrImmutable := false

theorem passwdLink_fresh : FreshLink passwdLink where
  device := ⟨fun _ => List.length_replicate .., by decide⟩
  blocksize := by decide
  mode := by decide
  iBlocks := by decide
  untagged := rfl

def tagOnce : List Op := [.add 1 (.block 5 (List.replicate 1024 0)) wordA]

theorem tagOnce_sized : ∀ op ∈ tagOnce, op.Sized passwdLink.sBlocksize := by
  intro op hop
  rw [List.mem_singleton.mp hop]
  exact List.length_replicate ..

theorem passwdLink_kept :
    (∀ pre, pre <+: tagOnce → ∃ i', passwdLink.runOps pre = some i' ∧ TextKept i') ↔
      ∀ op ∈ tagOnce, ¬ op.GetsBlock passwdLink.sBlocksize :=
  fast_symlink_kept passwdLink_fresh tagOnce tagOnce_sized

/-- One tag on the link: its text is freed as block numbers when it is deleted. -/
theorem passwdLink_tagged_slow :
    ¬ ∀ pre, pre <+: tagOnce → ∃ i', passwdLink.runOps pre = some i' ∧ TextKept i' := by
  intro hall
  obtain ⟨i', hi', _, _, hfrees⟩ := hall tagOnce (List.prefix_refl _)
  have hrun : (passwdLink.runOps tagOnce).map Inode.deleteFrees =
      some [0x6374652f, 0x7361702f, 0x00647773] := by
    decide +kernel
  rw [hi'] at hrun
  have hfreed : i'.deleteFrees = [0x6374652f, 0x7361702f, 0x00647773] := Option.some.inj hrun
  rw [hfrees] at hfreed
  cases hfreed

end LinuxHacks.Tags
