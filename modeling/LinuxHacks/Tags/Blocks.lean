import LinuxHacks.Lib.Ledger
import LinuxHacks.Lib.Transition
import LinuxHacks.Tags.Adding

/-!
# Who owns the tag blocks

The inodes of a file system, in memory or on disk only, and the tag calls on
them. `i_file_tags` is the only record of the ownership of a tag block: it is
reset by `ext2_new_inode`, stored by `ext2_addtag`, cleared by
`ext2_tags_clear`, and goes to disk and back through `i_reserved1`. The log of
the allocator is kept beside it, and the two agree: the inodes are owners in the
sense of `Lib.Ledger`.
-/

namespace LinuxHacks.Tags

open LinuxHacks.Lib LinuxHacks.Lib.Ledger

/-! ## The file system -/

/-- An inode number: in use or not, the `i_file_tags` of the inode in memory if
it is there, and the field of the inode on disk. -/
structure Slot where
  live : Bool
  incore : Option Nat
  iReserved1 : Nat
deriving DecidableEq, Repr

/-- `log` has the tag blocks `ext2_new_block` returned and `ext2_free_blocks` got. -/
structure Fs where
  sBlocksize : Nat
  block : Nat → Bytes
  slot : Nat → Slot
  log : List (Entry Nat)

/-- The inode in memory, or what `ext2_read_inode` would make of the one on disk. -/
def Slot.iFileTags (sl : Slot) : Nat := sl.incore.getD sl.iReserved1

/-- The tag block of a live inode, 0 for none. -/
def Fs.fileTags (f : Fs) (ino : Nat) : Nat :=
  if (f.slot ino).live then (f.slot ino).iFileTags else 0

def ownedBlock (tags : Nat) : Option Nat := if tags = 0 then none else some tags

def Fs.owns (f : Fs) (ino : Nat) : Option Nat := ownedBlock (f.fileTags ino)

def Fs.setSlot (f : Fs) (ino : Nat) (sl : Slot) : Fs :=
  { f with slot := Function.update f.slot ino sl }

/-- The device, with an inode whose `i_file_tags` is `tags`. -/
def Fs.state (f : Fs) (tags : Nat) : State where
  sBlocksize := f.sBlocksize
  block := f.block
  iFileTags := tags
  iCtime := 0
  dirtied := []
  freed := []

/-- After a call on the inode in memory that left `s`, and for which the
allocator returned the blocks `charged`. -/
def Fs.after (f : Fs) (ino : Nat) (s : State) (charged : List Nat) : Fs where
  sBlocksize := f.sBlocksize
  block := s.block
  slot := Function.update f.slot ino { f.slot ino with incore := some s.iFileTags }
  log := f.log ++ (charged.map .alloc ++ s.freed.map .free)

inductive FsOp where
  | newInode (ino : Nat)
  | addtag (ino now : Nat) (new : NewBlock) (w : Word)
  | rmtag (ino now : Nat) (w : Word)
  | writeInode (ino : Nat)
  | evict (ino : Nat)
  | readInode (ino : Nat)
  | freeInode (ino : Nat)

/-- One call; `none` where the inode is not in the state it needs. An inode is
written before it is evicted. -/
def Fs.step (f : Fs) : FsOp → Option Fs
  | .newInode ino =>
      if (f.slot ino).live then none
      else some (f.setSlot ino { f.slot ino with live := true, incore := some 0 })
  | .addtag ino now new w => do
      let tags ← (f.slot ino).incore
      let r ← ext2Addtag (f.state tags) now new w
      some (f.after ino r.2 (newBlockIds (f.state tags) new w))
  | .rmtag ino now w => do
      let tags ← (f.slot ino).incore
      let r ← ext2Rmtag (f.state tags) now w
      some (f.after ino r.2 [])
  | .writeInode ino => do
      let tags ← (f.slot ino).incore
      some (f.setSlot ino { f.slot ino with iReserved1 := tags })
  | .evict ino => do
      let tags ← (f.slot ino).incore
      some (f.setSlot ino { f.slot ino with iReserved1 := tags, incore := none })
  | .readInode ino =>
      if (f.slot ino).live ∧ (f.slot ino).incore = none then
        some (f.setSlot ino { f.slot ino with incore := some (f.slot ino).iReserved1 })
      else none
  | .freeInode ino => do
      let tags ← (f.slot ino).incore
      let f' := f.after ino (tagsClear (f.state tags)) []
      some (f'.setSlot ino { f'.slot ino with live := false, incore := none })

/-- The allocator returns whole blocks, and free ones only. -/
def AllocatorOk (f : Fs) : FsOp → Prop
  | .addtag _ _ new _ => new.Sized f.sBlocksize ∧ new.Nonzero ∧
      ∀ id data, new = .block id data → ¬ Outstanding f.log id
  | _ => True

/-- No tag block has been allocated yet. -/
structure Fs.Fresh (f : Fs) : Prop where
  device : DeviceOk (f.state 0)
  incore : ∀ ino tags, (f.slot ino).incore = some tags → (f.slot ino).live = true
  untagged : ∀ ino, f.fileTags ino = 0
  log : f.log = []

def fileSystem : System Fs FsOp where
  init := Fs.Fresh
  step f op f' := f.step op = some f'

/-! ## The invariant -/

/-- The inodes own the outstanding blocks, and each tag block is well formed. -/
structure TagInv (f : Fs) : Prop where
  device : DeviceOk (f.state 0)
  incore : ∀ ino tags, (f.slot ino).incore = some tags → (f.slot ino).live = true
  owned : Owned f.owns f.log
  wellFormed : ∀ ino, f.fileTags ino ≠ 0 → WellFormed (f.block (f.fileTags ino))

theorem ownedBlock_eq_some {tags b : Nat} : ownedBlock tags = some b ↔ b ≠ 0 ∧ tags = b := by
  unfold ownedBlock
  split
  · next h =>
      subst h
      constructor
      · intro h
        cases h
      · rintro ⟨hne, rfl⟩
        exact absurd rfl hne
  · next h =>
      rw [Option.some.injEq]
      exact ⟨fun heq => ⟨heq ▸ h, heq⟩, fun heq => heq.2⟩

theorem fileTags_incore {f : Fs} {ino tags : Nat} (hlive : (f.slot ino).live = true)
    (h : (f.slot ino).incore = some tags) : f.fileTags ino = tags := by
  rw [Fs.fileTags, if_pos hlive, Slot.iFileTags, h]
  rfl

/-- Replacing a slot by one with the same tag block. -/
theorem fileTags_setSlot {f : Fs} {ino : Nat} {sl : Slot}
    (h : (if sl.live then sl.iFileTags else 0) = f.fileTags ino) :
    (f.setSlot ino sl).fileTags = f.fileTags := by
  funext j
  by_cases hj : j = ino
  · subst hj
    rw [← h, Fs.fileTags]
    show (if (Function.update f.slot j sl j).live then _ else 0) = _
    rw [Function.update_self]
    show (if sl.live then (Function.update f.slot j sl j).iFileTags else 0) = _
    rw [Function.update_self]
  · rw [Fs.fileTags, Fs.fileTags]
    show (if (Function.update f.slot ino sl j).live then
      (Function.update f.slot ino sl j).iFileTags else 0) = _
    rw [Function.update_of_ne hj]

theorem TagInv.setSlot {f : Fs} {ino : Nat} {sl : Slot} (h : TagInv f)
    (htags : (if sl.live then sl.iFileTags else 0) = f.fileTags ino)
    (hlive : ∀ tags, sl.incore = some tags → sl.live = true) : TagInv (f.setSlot ino sl) := by
  have heq := fileTags_setSlot htags
  have howns : (f.setSlot ino sl).owns = f.owns := by
    funext j
    rw [Fs.owns, Fs.owns, heq]
  refine ⟨⟨h.device.size, h.device.small⟩, ?_, ?_, ?_⟩
  · intro j tags hj
    show (Function.update f.slot ino sl j).live = true
    by_cases hji : j = ino
    · subst hji
      rw [Function.update_self]
      refine hlive tags ?_
      have hj' : (Function.update f.slot j sl j).incore = some tags := hj
      rw [Function.update_self] at hj'
      exact hj'
    · rw [Function.update_of_ne hji]
      refine h.incore j tags ?_
      have hj' : (Function.update f.slot ino sl j).incore = some tags := hj
      rw [Function.update_of_ne hji] at hj'
      exact hj'
  · rw [howns]
    exact h.owned
  · rw [heq]
    exact h.wellFormed

/-! ## A call on one inode -/

section Call

variable {f : Fs} {ino tags : Nat} {s : State}

theorem fileTags_after (charged : List Nat) (hlive : (f.slot ino).live = true) :
    (f.after ino s charged).fileTags = Function.update f.fileTags ino s.iFileTags := by
  funext j
  rw [Fs.fileTags]
  by_cases hj : j = ino
  · subst hj
    simp [Fs.after, hlive, Slot.iFileTags]
  · simp [Fs.after, Function.update_of_ne hj, Fs.fileTags]

theorem owns_after (charged : List Nat) (hlive : (f.slot ino).live = true) :
    (f.after ino s charged).owns = Function.update f.owns ino (ownedBlock s.iFileTags) := by
  funext j
  rw [Fs.owns, fileTags_after charged hlive]
  by_cases hj : j = ino
  · rw [hj, Function.update_self, Function.update_self]
  · rw [Function.update_of_ne hj, Function.update_of_ne hj, Fs.owns]

/-- The call wrote to block `id` only, which no other inode owns, left its own
file well formed, and the owners agree with the log again. -/
theorem TagInv.after (h : TagInv f) (hlive : (f.slot ino).live = true) {id : Nat}
    {charged : List Nat} (hwithin : Within (f.state tags) s id) (hfile : FileOk s)
    (hother : ∀ j, j ≠ ino → f.fileTags j ≠ 0 → f.fileTags j ≠ id)
    (howned : Owned (Function.update f.owns ino (ownedBlock s.iFileTags))
      (f.log ++ (charged.map .alloc ++ s.freed.map .free))) :
    TagInv (f.after ino s charged) := by
  have hsize : s.sBlocksize = f.sBlocksize := hwithin.sBlocksize
  refine ⟨⟨?_, ?_⟩, ?_, ?_, ?_⟩
  · intro j
    exact (hwithin.device.size j).trans hsize
  · exact h.device.small
  · intro j t hj
    by_cases hji : j = ino
    · subst hji
      simpa [Fs.after] using hlive
    · have hj' : (f.slot j).incore = some t := by
        simpa [Fs.after, Function.update_of_ne hji] using hj
      simpa [Fs.after, Function.update_of_ne hji] using h.incore j t hj'
  · rw [owns_after charged hlive]
    exact howned
  · intro j
    rw [fileTags_after charged hlive]
    by_cases hji : j = ino
    · subst hji
      rw [Function.update_self]
      exact hfile.resolve_left
    · rw [Function.update_of_ne hji]
      intro hne
      have hsame : s.block (f.fileTags j) = f.block (f.fileTags j) :=
        hwithin.elsewhere _ (hother j hji hne)
      show WellFormed (s.block (f.fileTags j))
      rw [hsame]
      exact h.wellFormed j hne

/-- An inode whose tag block stays the same. -/
theorem TagInv.owned_same (h : TagInv f) (htags : f.fileTags ino = tags)
    (hs : s.iFileTags = tags) (hfreed : s.freed = []) :
    Owned (Function.update f.owns ino (ownedBlock s.iFileTags))
      (f.log ++ (([] : List Nat).map .alloc ++ s.freed.map .free)) := by
  have hown : ownedBlock s.iFileTags = f.owns ino := by
    rw [hs, ← htags, Fs.owns]
  rw [hown, Function.update_eq_self, hfreed]
  simpa using h.owned

/-- Another inode does not own the block of this one. -/
theorem TagInv.other (h : TagInv f) (htags : f.fileTags ino = tags) :
    ∀ j, j ≠ ino → f.fileTags j ≠ 0 → f.fileTags j ≠ tags := by
  intro j hji hne heq
  refine hji (h.owned.distinct j ino tags ?_ ?_)
  · exact ownedBlock_eq_some.mpr ⟨heq ▸ hne, heq⟩
  · exact ownedBlock_eq_some.mpr ⟨heq ▸ hne, htags⟩

theorem TagInv.device_state (h : TagInv f) (t : Nat) : DeviceOk (f.state t) :=
  ⟨h.device.size, h.device.small⟩

/-- A call that changes nothing. -/
theorem TagInv.after_same (h : TagInv f) (hlive : (f.slot ino).live = true)
    (htags : f.fileTags ino = tags) : TagInv (f.after ino (f.state tags) []) := by
  refine h.after hlive (Within.refl (h.device_state tags) tags) ?_ (h.other htags)
    (h.owned_same htags rfl rfl)
  by_cases hnone : tags = 0
  · exact Or.inl hnone
  · refine Or.inr ?_
    rw [← htags] at hnone ⊢
    exact h.wellFormed ino hnone

theorem TagInv.addtag (h : TagInv f) (hlive : (f.slot ino).live = true)
    (htags : f.fileTags ino = tags) {now : Nat} {new : NewBlock} {w : Word}
    (hok : AllocatorOk f (.addtag ino now new w)) {r : Int × State}
    (hr : ext2Addtag (f.state tags) now new w = some r) :
    TagInv (f.after ino r.2 (newBlockIds (f.state tags) new w)) := by
  obtain ⟨hsized, hnonzero, hfree⟩ := hok
  have hd := h.device_state tags
  by_cases hnone : tags = 0
  · subst hnone
    obtain ⟨r', hr', hout⟩ := ext2Addtag_untagged now new w hd rfl hsized
    rw [hr] at hr'
    cases hr'
    cases hout with
    | refused hbig =>
        rw [newBlockIds_big new hbig]
        exact h.after_same hlive htags
    | noBlock code _ herr =>
        rw [herr, newBlockIds_error]
        exact h.after_same hlive htags
    | written id data s' hfits hnew hwithin htags' hfreed hdec =>
        subst hnew
        rw [newBlockIds_block data rfl hfits]
        have hne : id ≠ 0 := hnonzero
        have hout : ¬ Outstanding f.log id := hfree id data rfl
        refine h.after hlive hwithin (Or.inr ⟨_, by rw [htags']; exact hdec⟩) ?_ ?_
        · intro j _ hj heq
          exact hout ((h.owned.outstanding id).mpr ⟨j, ownedBlock_eq_some.mpr ⟨hne, heq⟩⟩)
        · have hown : ownedBlock s'.iFileTags = some id := ownedBlock_eq_some.mpr ⟨hne, htags'⟩
          have hnobody : f.owns ino = none := by
            rw [Fs.owns, htags]
            rfl
          have hfreed' : s'.freed = [] := hfreed
          rw [hown, hfreed']
          simpa using h.owned.alloc hnobody hout
  · have hwf := h.wellFormed ino (by rw [htags]; exact hnone)
    rw [htags] at hwf
    obtain ⟨ts, hdec⟩ := hwf
    rw [newBlockIds_tagged new w (show (f.state tags).iFileTags ≠ 0 from hnone)]
    obtain ⟨r', hr', hout⟩ := ext2Addtag_tagged now new w hd hnone hdec
    rw [hr] at hr'
    cases hr'
    cases hout with
    | present _ => exact h.after_same hlive htags
    | refused _ _ => exact h.after_same hlive htags
    | written s' _ _ hwithin htags' hfreed hdec' =>
        refine h.after hlive hwithin (Or.inr ⟨_, by rw [htags']; exact hdec'⟩) (h.other htags) ?_
        exact h.owned_same htags htags' hfreed

/-- Giving up the tag block of the inode. -/
theorem TagInv.owned_freed (h : TagInv f) (htags : f.fileTags ino = tags) (hne : tags ≠ 0)
    (hs : s.iFileTags = 0) (hfreed : s.freed = [tags]) :
    Owned (Function.update f.owns ino (ownedBlock s.iFileTags))
      (f.log ++ (([] : List Nat).map .alloc ++ s.freed.map .free)) := by
  have hown : f.owns ino = some tags := ownedBlock_eq_some.mpr ⟨hne, htags⟩
  have hnone : ownedBlock s.iFileTags = none := by
    rw [hs]
    rfl
  rw [hnone, hfreed]
  simpa using h.owned.free hown

theorem TagInv.rmtag (h : TagInv f) (hlive : (f.slot ino).live = true)
    (htags : f.fileTags ino = tags) {now : Nat} {w : Word} {r : Int × State}
    (hr : ext2Rmtag (f.state tags) now w = some r) : TagInv (f.after ino r.2 []) := by
  have hd := h.device_state tags
  by_cases hnone : tags = 0
  · subst hnone
    obtain ⟨r', hr', hout⟩ := ext2Rmtag_untagged now w hd rfl
    rw [hr] at hr'
    cases hr'
    refine h.after hlive hout.within (Or.inl hout.iFileTags) ?_ ?_
    · exact fun j _ hj => hj
    · exact h.owned_same htags hout.iFileTags hout.freed
  · have hwf := h.wellFormed ino (by rw [htags]; exact hnone)
    rw [htags] at hwf
    obtain ⟨ts, hdec⟩ := hwf
    obtain ⟨r', hr', hout⟩ := ext2Rmtag_tagged now w hd hnone hdec
    rw [hr] at hr'
    cases hr'
    cases hout with
    | missing _ => exact h.after_same hlive htags
    | twice _ _ _ _ _ _ => exact h.after_same hlive htags
    | last t s' _ _ hwithin _ htags' hfreed =>
        exact h.after hlive hwithin (Or.inl htags') (h.other htags)
          (h.owned_freed htags hnone htags' hfreed)
    | removed pre t post s' _ _ _ _ hwithin htags' hfreed hdec' =>
        refine h.after hlive hwithin (Or.inr ⟨_, by rw [htags']; exact hdec'⟩) (h.other htags) ?_
        exact h.owned_same htags htags' hfreed

theorem TagInv.tagsClear (h : TagInv f) (hlive : (f.slot ino).live = true)
    (htags : f.fileTags ino = tags) : TagInv (f.after ino (tagsClear (f.state tags)) []) := by
  unfold Tags.tagsClear
  by_cases hnone : tags = 0
  · rw [if_neg (by simpa [Fs.state] using hnone)]
    exact h.after_same hlive htags
  · have hne : (f.state tags).iFileTags ≠ 0 := hnone
    rw [if_pos hne]
    have hd := h.device_state tags
    have hwithin : Within (f.state tags) { f.state tags with
        freed := (f.state tags).freed ++ [(f.state tags).iFileTags], iFileTags := 0 } tags :=
      ⟨⟨hd.size, hd.small⟩, rfl, fun _ _ => rfl⟩
    exact h.after hlive hwithin (Or.inl rfl) (h.other htags) (h.owned_freed htags hnone rfl rfl)

end Call

/-! ## Every run -/

theorem TagInv.of_fresh {f : Fs} (h : f.Fresh) : TagInv f := by
  refine ⟨h.device, h.incore, ?_, ?_⟩
  · have hown : f.owns = fun _ => none := by
      funext ino
      rw [Fs.owns, h.untagged ino]
      rfl
    rw [hown, h.log]
    exact .nil
  · intro ino hne
    exact absurd (h.untagged ino) hne

theorem TagInv.step {f f' : Fs} {op : FsOp} (h : TagInv f) (hok : AllocatorOk f op)
    (hstep : f.step op = some f') : TagInv f' := by
  cases op with
  | newInode ino =>
      rw [Fs.step] at hstep
      split at hstep
      · cases hstep
      · next hdead =>
          cases hstep
          refine h.setSlot ?_ (fun _ _ => rfl)
          rw [Fs.fileTags, if_neg hdead]
          rfl
  | addtag ino now new w =>
      obtain ⟨tags, htags, hstep⟩ := Option.bind_eq_some_iff.mp hstep
      obtain ⟨r, hr, hstep⟩ := Option.bind_eq_some_iff.mp hstep
      cases hstep
      have hlive := h.incore ino tags htags
      exact h.addtag hlive (fileTags_incore hlive htags) hok hr
  | rmtag ino now w =>
      obtain ⟨tags, htags, hstep⟩ := Option.bind_eq_some_iff.mp hstep
      obtain ⟨r, hr, hstep⟩ := Option.bind_eq_some_iff.mp hstep
      cases hstep
      have hlive := h.incore ino tags htags
      exact h.rmtag hlive (fileTags_incore hlive htags) hr
  | writeInode ino =>
      obtain ⟨tags, htags, hstep⟩ := Option.bind_eq_some_iff.mp hstep
      cases hstep
      have hlive := h.incore ino tags htags
      refine h.setSlot ?_ (fun _ _ => hlive)
      rw [fileTags_incore hlive htags]
      simp [hlive, Slot.iFileTags, htags]
  | evict ino =>
      obtain ⟨tags, htags, hstep⟩ := Option.bind_eq_some_iff.mp hstep
      cases hstep
      have hlive := h.incore ino tags htags
      refine h.setSlot ?_ (fun _ _ => hlive)
      rw [fileTags_incore hlive htags]
      simp [hlive, Slot.iFileTags]
  | readInode ino =>
      obtain ⟨⟨hlive, hnone⟩, hstep⟩ := Option.ite_none_right_eq_some.mp hstep
      cases hstep
      refine h.setSlot ?_ (fun _ _ => hlive)
      simp [Fs.fileTags, hlive, Slot.iFileTags, hnone]
  | freeInode ino =>
      obtain ⟨tags, htags, hstep⟩ := Option.bind_eq_some_iff.mp hstep
      cases hstep
      have hlive := h.incore ino tags htags
      have hcleared := h.tagsClear hlive (fileTags_incore hlive htags)
      refine hcleared.setSlot ?_ (fun _ hsome => by cases hsome)
      rw [fileTags_after [] hlive, Function.update_self, Tags.tagsClear]
      split
      · rfl
      · next hnone =>
          have hzero : tags = 0 := by simpa [Fs.state] using hnone
          exact hzero.symm

/-- When a call gives a tag block back: it removed the last tag of the block, or
it freed the inode. -/
def FreesBlock (f : Fs) (op : FsOp) (b : Nat) : Prop :=
  match op with
  | .rmtag ino now w => b ≠ 0 ∧ f.fileTags ino = b ∧
      ∃ t s', Decodes (f.block b) [t] ∧ ext2Rmtag (f.state b) now w = some (0, s')
  | .freeInode ino => b ≠ 0 ∧ f.fileTags ino = b
  | _ => False

/-- The blocks a call gives back, each once. -/
def FreesExactly (f f' : Fs) (op : FsOp) : Prop :=
  ∃ entries, f'.log = f.log ++ entries ∧
    ∀ b, entries.count (.free b) ≤ 1 ∧ (.free b ∈ entries ↔ FreesBlock f op b)

/-- A call that allocates the blocks `l`, and frees nothing. -/
theorem freesExactly_of_allocs {f f' : Fs} {op : FsOp} {l : List Nat}
    (hlog : f'.log = f.log ++ (l.map .alloc ++ [])) (hop : ∀ b, ¬ FreesBlock f op b) :
    FreesExactly f f' op := by
  refine ⟨_, hlog, fun b => ?_⟩
  have hnot : Entry.free b ∉ l.map Entry.alloc ++ [] := by simp
  refine ⟨?_, fun hmem => absurd hmem hnot, fun hfrees => absurd hfrees (hop b)⟩
  rw [List.count_eq_zero_of_not_mem hnot]
  exact Nat.zero_le 1

/-- A call that leaves the allocator alone. -/
theorem freesExactly_of_none {f f' : Fs} {op : FsOp} (hlog : f'.log = f.log)
    (hop : ∀ b, ¬ FreesBlock f op b) : FreesExactly f f' op := by
  apply freesExactly_of_allocs (l := []) _ hop
  rw [hlog]
  exact (List.append_nil _).symm

/-- A call that frees the block `t`. -/
theorem freesExactly_of_one {f f' : Fs} {op : FsOp} {t : Nat}
    (hlog : f'.log = f.log ++ [.free t]) (hop : ∀ b, FreesBlock f op b ↔ b = t) :
    FreesExactly f f' op := by
  refine ⟨_, hlog, fun b => ⟨?_, ?_⟩⟩
  · rw [List.count_singleton]
    split <;> decide
  · rw [hop b, List.mem_singleton, Entry.free.injEq]

/-- A call that frees its block is a call on an inode whose block holds one tag. -/
theorem freesBlock_rmtag {f : Fs} {ino now : Nat} {w : Word} {tags : Nat} {ts : List Bytes}
    {r : Int × State} (hfile : f.fileTags ino = tags) (hne : tags ≠ 0)
    (hdec : Decodes ((f.state tags).block tags) ts)
    (hr : ext2Rmtag (f.state tags) now w = some r) (b : Nat) :
    FreesBlock f (.rmtag ino now w) b ↔ b = tags ∧ ts.length = 1 ∧ r.1 = 0 := by
  constructor
  · rintro ⟨_, heq, t, s', hdec', hr'⟩
    rw [hfile] at heq
    subst heq
    rw [hdec.unique hdec']
    rw [hr] at hr'
    cases hr'
    exact ⟨rfl, rfl, rfl⟩
  · rintro ⟨rfl, hlen, hzero⟩
    obtain ⟨t, rfl⟩ := List.length_eq_one_iff.mp hlen
    exact ⟨hne, hfile, t, r.2, hdec, by rw [hr, ← hzero]⟩

/-- `ext2_rmtag` frees the block when it takes the last tag out of it. -/
theorem TagInv.frees_rmtag {f f' : Fs} {ino now : Nat} {w : Word} (h : TagInv f)
    (hstep : f.step (.rmtag ino now w) = some f') : FreesExactly f f' (.rmtag ino now w) := by
  obtain ⟨tags, htags, hstep⟩ := Option.bind_eq_some_iff.mp hstep
  obtain ⟨r, hr, hstep⟩ := Option.bind_eq_some_iff.mp hstep
  cases hstep
  have hfile := fileTags_incore (h.incore ino tags htags) htags
  have hd := h.device_state tags
  by_cases hnone : tags = 0
  · subst hnone
    obtain ⟨r', hr', hout⟩ := ext2Rmtag_untagged now w hd rfl
    rw [hr] at hr'
    cases hr'
    apply freesExactly_of_none
    · rw [Fs.after, hout.freed]
      exact List.append_nil _
    · rintro b ⟨hne, heq, _⟩
      exact hne (heq.symm.trans hfile)
  · have hwf := h.wellFormed ino (by rw [hfile]; exact hnone)
    rw [hfile] at hwf
    obtain ⟨ts, hdec⟩ := hwf
    have hfrees := freesBlock_rmtag (w := w) hfile hnone hdec hr
    have hrefused : r.1 = -EINVAL → ∀ b, ¬ FreesBlock f (.rmtag ino now w) b := by
      intro he b hb
      have hzero := ((hfrees b).mp hb).2.2
      rw [he] at hzero
      cases hzero
    obtain ⟨r', hr', hout⟩ := ext2Rmtag_tagged now w hd hnone hdec
    rw [hr] at hr'
    cases hr'
    cases hout with
    | missing _ => exact freesExactly_of_none (List.append_nil _) (hrefused rfl)
    | twice _ _ _ _ _ _ => exact freesExactly_of_none (List.append_nil _) (hrefused rfl)
    | last t s' hts _ _ _ _ hfreed =>
        apply freesExactly_of_one (t := tags)
        · rw [Fs.after, hfreed]
          rfl
        · intro b
          rw [hfrees b, hts]
          simp
    | removed pre t post s' hts _ _ hne _ _ hfreed _ =>
        apply freesExactly_of_none
        · rw [Fs.after, hfreed]
          exact List.append_nil _
        · intro b hb
          have hlen := ((hfrees b).mp hb).2.1
          have hpos := List.length_pos_iff.mpr hne
          rw [hts] at hlen
          simp only [List.length_append, List.length_cons] at hlen hpos
          omega

/-- The inode goes, and its block with it. -/
theorem TagInv.frees_freeInode {f f' : Fs} {ino : Nat} (h : TagInv f)
    (hstep : f.step (.freeInode ino) = some f') : FreesExactly f f' (.freeInode ino) := by
  obtain ⟨tags, htags, hstep⟩ := Option.bind_eq_some_iff.mp hstep
  cases hstep
  have hfile := fileTags_incore (h.incore ino tags htags) htags
  by_cases hnone : tags = 0
  · subst hnone
    apply freesExactly_of_none (List.append_nil _)
    rintro b ⟨hne, heq⟩
    exact hne (heq.symm.trans hfile)
  · have hne : (f.state tags).iFileTags ≠ 0 := hnone
    apply freesExactly_of_one (t := tags)
    · show f.log ++ (_ ++ (Tags.tagsClear (f.state tags)).freed.map Entry.free) = _
      rw [Tags.tagsClear, if_pos hne]
      rfl
    · intro b
      constructor
      · rintro ⟨_, heq⟩
        exact heq.symm.trans hfile
      · rintro rfl
        exact ⟨hnone, hfile⟩

theorem TagInv.frees {f f' : Fs} {op : FsOp} (h : TagInv f)
    (hstep : f.step op = some f') : FreesExactly f f' op := by
  cases op with
  | newInode ino =>
      rw [Fs.step] at hstep
      split at hstep
      · cases hstep
      · cases hstep
        exact freesExactly_of_none rfl (fun _ => id)
  | writeInode ino =>
      obtain ⟨tags, htags, hstep⟩ := Option.bind_eq_some_iff.mp hstep
      cases hstep
      exact freesExactly_of_none rfl (fun _ => id)
  | evict ino =>
      obtain ⟨tags, htags, hstep⟩ := Option.bind_eq_some_iff.mp hstep
      cases hstep
      exact freesExactly_of_none rfl (fun _ => id)
  | readInode ino =>
      obtain ⟨_, hstep⟩ := Option.ite_none_right_eq_some.mp hstep
      cases hstep
      exact freesExactly_of_none rfl (fun _ => id)
  | addtag ino now new w =>
      obtain ⟨tags, htags, hstep⟩ := Option.bind_eq_some_iff.mp hstep
      obtain ⟨r, hr, hstep⟩ := Option.bind_eq_some_iff.mp hstep
      cases hstep
      refine freesExactly_of_allocs (l := newBlockIds (f.state tags) new w) ?_ (fun _ => id)
      rw [Fs.after, (ext2Addtag_frame hr).2]
      rfl
  | rmtag ino now w => exact h.frees_rmtag hstep
  | freeInode ino => exact h.frees_freeInode hstep

/-- The tag blocks of the live inodes are pairwise different and exactly the
outstanding ones; a block is freed only while outstanding, and a call frees one
exactly when it removes the last tag or frees the inode. -/
structure TagBlocksOwned (f : Fs) : Prop where
  distinct : ∀ i j, (f.slot i).live = true → (f.slot j).live = true →
    f.fileTags i = f.fileTags j → f.fileTags i ≠ 0 → i = j
  outstanding : ∀ b, Outstanding f.log b ↔
    b ≠ 0 ∧ ∃ ino, (f.slot ino).live = true ∧ f.fileTags ino = b
  sound : Sound f.log
  frees : ∀ op f', AllocatorOk f op → f.step op = some f' → FreesExactly f f' op

/-- **Tag blocks are neither leaked nor freed twice.** -/
theorem tag_blocks_owned {f : Fs} (h : fileSystem.Reach AllocatorOk f) : TagBlocksOwned f := by
  have hinv : TagInv f := by
    refine System.Reach.invariant ?_ ?_ h
    · intro f hf
      exact TagInv.of_fresh (f := f) hf
    · intro f op f' hinv hok hstep
      exact hinv.step hok hstep
  refine ⟨?_, ?_, hinv.owned.sound, fun op f' _ hstep => hinv.frees hstep⟩
  · intro i j _ _ heq hne
    exact hinv.owned.distinct i j (f.fileTags i) (ownedBlock_eq_some.mpr ⟨hne, rfl⟩)
      (ownedBlock_eq_some.mpr ⟨hne, heq.symm⟩)
  · intro b
    rw [hinv.owned.outstanding b]
    constructor
    · rintro ⟨ino, hown⟩
      obtain ⟨hne, hino⟩ := ownedBlock_eq_some.mp hown
      refine ⟨hne, ino, ?_, hino⟩
      cases hlive : (f.slot ino).live with
      | true => rfl
      | false =>
          rw [Fs.fileTags, if_neg (by simp [hlive])] at hino
          exact absurd hino.symm hne
    · rintro ⟨hne, ino, _, hino⟩
      exact ⟨ino, ownedBlock_eq_some.mpr ⟨hne, hino⟩⟩

/-- A file system with 1024-byte blocks and no inode in use. -/
def emptyFs : Fs where
  sBlocksize := 1024
  block := fun _ => List.replicate 1024 0
  slot := fun _ => ⟨false, none, 0⟩
  log := []

theorem emptyFs_fresh : emptyFs.Fresh where
  device := ⟨fun _ => List.length_replicate .., by decide⟩
  incore := fun _ _ h => by cases h
  untagged := fun _ => rfl
  log := rfl

def firstBlock : NewBlock := .block 5 (List.replicate 1024 0)

/-- A new inode gets its first tag. -/
def firstTagged : Option Fs :=
  emptyFs.step (.newInode 11) >>= fun f => f.step (.addtag 11 1 firstBlock wordA)

theorem firstTagged_owned : ∃ f, firstTagged = some f ∧ TagBlocksOwned f := by
  have hsome : firstTagged.isSome = true := by decide +kernel
  obtain ⟨f, hf⟩ := Option.isSome_iff_exists.mp hsome
  have hbind : (emptyFs.step (.newInode 11)).bind
      (fun f => f.step (.addtag 11 1 firstBlock wordA)) = some f := hf
  obtain ⟨f₁, hnew, hadd⟩ := Option.bind_eq_some_iff.mp hbind
  have hlog : f₁.log = [] := by
    cases hnew
    rfl
  have hsize : f₁.sBlocksize = 1024 := by
    cases hnew
    rfl
  have hok : AllocatorOk f₁ (.addtag 11 1 firstBlock wordA) := by
    refine ⟨?_, show 5 ≠ 0 by decide, ?_⟩
    · rw [hsize]
      exact List.length_replicate ..
    · intro id data _
      rw [hlog]
      simp [Outstanding]
  have hreach : fileSystem.Reach AllocatorOk f₁ :=
    .step (.newInode 11) (.init emptyFs_fresh) trivial hnew
  exact ⟨f, hf, tag_blocks_owned (.step (.addtag 11 1 firstBlock wordA) hreach hok hadd)⟩

end LinuxHacks.Tags
