import LinuxHacks.Tags.Invariant

/-!
# The result of `ext2_addtag`

On a tagged file the call is a set insertion with a capacity: `addtag_exact`.
On any file a return of 0 should mean that the tag is there. Two kinds of call
break that, a first tag for which no block could be allocated and the empty
word, and `addtag_success` says that there are no others.
-/

namespace LinuxHacks.Tags

open LinuxHacks.Lib

/-- The tags of a file, with or without a tag block. -/
def FileHolds (s : State) (ts : List Bytes) : Prop :=
  (s.iFileTags = 0 ∧ ts = []) ∨ (s.iFileTags ≠ 0 ∧ Decodes (s.block s.iFileTags) ts)

theorem FileHolds.length_pos {s : State} {ts : List Bytes} (h : FileHolds s ts) {t : Bytes}
    (ht : t ∈ ts) : 1 ≤ t.length := by
  rcases h with ⟨_, rfl⟩ | ⟨_, hdec⟩
  · simp at ht
  · exact (hdec.lengths t ht).1

theorem addTag_of_pos {w : Word} (ts : List Bytes) (hw : 1 ≤ w.bytes.length) :
    addTag ts w = ts ++ [w.bytes] := by
  apply if_neg
  intro hnil
  rw [hnil] at hw
  exact absurd hw (by decide)

/-! ## A tagged file -/

/-- The two size checks, in the numbers of the format. -/
theorem noRoom_iff (s : State) (ts : List Bytes) (w : Word) :
    NoRoom s ts w ↔ ts.length = EXT2_MAX_TAGS ∨
      s.sBlocksize < 2 * ts.length + (ts.map List.length).sum + w.bytes.length + 4 := by
  unfold NoRoom
  rw [length_encode]

/-- **Adding to a tagged file.** A tag that is there already changes nothing; a
new one is refused, without a change, exactly when the file has 16 tags or the
entry does not fit; otherwise it becomes the last tag. -/
theorem addtag_exact {s : State} {ts : List Bytes} (now : Nat) (new : NewBlock) (w : Word)
    (hd : DeviceOk s) (htagged : s.iFileTags ≠ 0) (hdec : Decodes (s.block s.iFileTags) ts)
    (hw : 1 ≤ w.bytes.length) :
    (w.bytes ∈ ts → ext2Addtag s now new w = some (0, s)) ∧
    (w.bytes ∉ ts →
      (ts.length = EXT2_MAX_TAGS ∨
        s.sBlocksize < 2 * ts.length + (ts.map List.length).sum + w.bytes.length + 4) →
      ext2Addtag s now new w = some (-ENOSPC, s)) ∧
    (w.bytes ∉ ts →
      ¬ (ts.length = EXT2_MAX_TAGS ∨
        s.sBlocksize < 2 * ts.length + (ts.map List.length).sum + w.bytes.length + 4) →
      ∃ s', ext2Addtag s now new w = some (0, s') ∧ s'.iFileTags = s.iFileTags ∧
        Decodes (s'.block s'.iFileTags) (ts ++ [w.bytes])) := by
  rw [← noRoom_iff]
  obtain ⟨r, hr, hout⟩ := ext2Addtag_tagged now new w hd htagged hdec
  rw [hr]
  cases hout with
  | present hmem =>
      refine ⟨fun _ => rfl, fun hnot => absurd hmem hnot, fun hnot => absurd hmem hnot⟩
  | refused hnot hfull =>
      refine ⟨fun hmem => absurd hmem hnot, fun _ _ => rfl, fun _ hroom => absurd hfull hroom⟩
  | written s' hnot hroom _ htags _ hdec' =>
      refine ⟨fun hmem => absurd hmem hnot, fun _ hfull => absurd hfull hroom, fun _ _ => ?_⟩
      refine ⟨s', rfl, htags, ?_⟩
      rw [htags, ← addTag_of_pos ts hw]
      exact hdec'

/-- Blocks of 1024 bytes; the file is untagged. -/
def freshDevice : State where
  sBlocksize := 1024
  block := fun _ => List.replicate 1024 0
  iFileTags := 0
  iCtime := 0
  dirtied := []
  freed := []

/-- The tag block of the file is block 5. -/
def deviceWith (b : Bytes) : State :=
  { freshDevice with block := Function.update freshDevice.block 5 b, iFileTags := 5 }

theorem deviceWith_ok {b : Bytes} (hb : b.length = 1024) : DeviceOk (deviceWith b) := by
  refine ⟨fun id => ?_, show 1024 ≤ 4096 by decide⟩
  show (Function.update freshDevice.block 5 b id).length = 1024
  by_cases hid : id = 5
  · rw [hid, Function.update_self, hb]
  · rw [Function.update_of_ne hid]
    exact List.length_replicate ..

/-- The tag `a`. -/
def tagBlock : Bytes := [1, 0, 97, 0, 0] ++ List.replicate 1019 7

def taggedDevice : State := deviceWith tagBlock

theorem taggedDevice_ok : DeviceOk taggedDevice :=
  deviceWith_ok (by rw [tagBlock, List.length_append, List.length_replicate]; rfl)

theorem taggedDevice_decodes : Decodes (taggedDevice.block taggedDevice.iFileTags) [[97]] :=
  ⟨by decide, by decide, by decide, ⟨List.replicate 1019 7, rfl⟩⟩

theorem taggedDevice_addtag :
    (wordB.bytes ∈ [[97]] → ext2Addtag taggedDevice 1 (.error 0) wordB = some (0, taggedDevice)) ∧
    (wordB.bytes ∉ [[97]] →
      (List.length [[97]] = EXT2_MAX_TAGS ∨
        taggedDevice.sBlocksize < 2 * List.length [[97]] +
          (List.map List.length [([97] : Bytes)]).sum + wordB.bytes.length + 4) →
      ext2Addtag taggedDevice 1 (.error 0) wordB = some (-ENOSPC, taggedDevice)) ∧
    (wordB.bytes ∉ [[97]] →
      ¬ (List.length [[97]] = EXT2_MAX_TAGS ∨
        taggedDevice.sBlocksize < 2 * List.length [[97]] +
          (List.map List.length [([97] : Bytes)]).sum + wordB.bytes.length + 4) →
      ∃ s', ext2Addtag taggedDevice 1 (.error 0) wordB = some (0, s') ∧
        s'.iFileTags = taggedDevice.iFileTags ∧
        Decodes (s'.block s'.iFileTags) ([[97]] ++ [wordB.bytes])) :=
  addtag_exact 1 (.error 0) wordB taggedDevice_ok (by decide) taggedDevice_decodes (by decide)

/-! ## Success and the tag -/

/-- Block 0 holds the boot record, so the allocator never returns it. -/
def NewBlock.Nonzero : NewBlock → Prop
  | .error _ => True
  | .block id _ => id ≠ 0

/-- The call asks for a block and gets an error. -/
def AllocationFails (s : State) (new : NewBlock) (w : Word) : Prop :=
  s.iFileTags = 0 ∧ w.bytes.length + 4 ≤ s.sBlocksize ∧ ∃ code, new = .error code

/-- A return of 0 means that the word is a tag of the file, and a failed
allocation is reported, with the file still untagged. -/
def SuccessMeansThere (s : State) (now : Nat) (new : NewBlock) (w : Word) : Prop :=
  ∃ e s', ext2Addtag s now new w = some (e, s') ∧
    (e = 0 → ∃ ts, FileHolds s' ts ∧ w.bytes ∈ ts) ∧
    (AllocationFails s new w → e < 0 ∧ s'.iFileTags = 0)

/-- A refusal meets the promise. -/
theorem successMeansThere_of_refused {s : State} {now : Nat} {new : NewBlock} {w : Word}
    (hr : ext2Addtag s now new w = some (-ENOSPC, s)) (hok : ¬ AllocationFails s new w) :
    SuccessMeansThere s now new w :=
  ⟨-ENOSPC, s, hr, fun h => absurd h (by decide), fun h => absurd h hok⟩

/-- A call that returned 0 meets the promise when the word is a tag now. -/
theorem successMeansThere_iff_of_zero {s s' : State} {now : Nat} {new : NewBlock} {w : Word}
    (hr : ext2Addtag s now new w = some (0, s')) :
    SuccessMeansThere s now new w ↔
      (∃ ts, FileHolds s' ts ∧ w.bytes ∈ ts) ∧ ¬ AllocationFails s new w := by
  constructor
  · rintro ⟨e, s₁, hr₁, hthere, hfails⟩
    rw [hr] at hr₁
    cases hr₁
    exact ⟨hthere rfl, fun h => absurd (hfails h).1 (by decide)⟩
  · rintro ⟨hthere, hok⟩
    exact ⟨0, s', hr, fun _ => hthere, fun h => absurd h hok⟩

/-- After a written entry the word is a tag unless it is empty. -/
theorem there_after_written {s' : State} {ts : List Bytes} {w : Word} (hne : s'.iFileTags ≠ 0)
    (hdec : Decodes (s'.block s'.iFileTags) (addTag ts w)) :
    (∃ us, FileHolds s' us ∧ w.bytes ∈ us) ↔ 1 ≤ w.bytes.length := by
  constructor
  · rintro ⟨us, hus, hmem⟩
    exact hus.length_pos hmem
  · intro hw
    refine ⟨addTag ts w, Or.inr ⟨hne, hdec⟩, ?_⟩
    rw [addTag_of_pos ts hw]
    exact List.mem_append_right _ List.mem_cons_self

/-- **When success means that the tag is there.** Exactly when the call does not
meet a failed allocation, and an empty word is refused for lack of room. -/
theorem addtag_success {s : State} {ts : List Bytes} (now : Nat) (new : NewBlock) (w : Word)
    (hd : DeviceOk s) (hf : FileHolds s ts) (hnew : new.Sized s.sBlocksize)
    (hblock : new.Nonzero) :
    SuccessMeansThere s now new w ↔
      ¬ AllocationFails s new w ∧ (w.bytes = [] → NoRoom s ts w) := by
  -- the condition on the word, where there is room
  have hword : ∀ hroom : ¬ NoRoom s ts w,
      (w.bytes = [] → NoRoom s ts w) ↔ 1 ≤ w.bytes.length := by
    intro hroom
    rw [Nat.one_le_iff_ne_zero, Ne, List.length_eq_zero_iff]
    exact ⟨fun h hnil => hroom (h hnil), fun h hnil => absurd hnil h⟩
  rcases hf with ⟨hnone, rfl⟩ | ⟨htagged, hdec⟩
  · have hsmall : NoRoom s [] w ↔ s.sBlocksize < w.bytes.length + 4 := by
      simp [NoRoom, EXT2_MAX_TAGS]
    obtain ⟨r, hr, hout⟩ := ext2Addtag_untagged now new w hd hnone hnew
    cases hout with
    | refused hbig =>
        have hok : ¬ AllocationFails s new w := fun h => absurd h.2.1 (by omega)
        exact ⟨fun _ => ⟨hok, fun _ => hsmall.mpr hbig⟩,
          fun _ => successMeansThere_of_refused hr hok⟩
    | noBlock code hfits herr =>
        have hfails : AllocationFails s new w := ⟨hnone, by omega, code, herr⟩
        rw [successMeansThere_iff_of_zero hr]
        exact ⟨fun h => absurd hfails h.2, fun h => absurd hfails h.1⟩
    | written id data s' hfits hid _ htags _ hdec =>
        subst hid
        have hok : ¬ AllocationFails s (.block id data) w := by
          rintro ⟨_, _, code, h⟩
          cases h
        have hne : s'.iFileTags ≠ 0 := by
          rw [htags]
          exact hblock
        rw [successMeansThere_iff_of_zero hr, there_after_written hne (by rw [htags]; exact hdec),
          hword (fun h => hfits (hsmall.mp h))]
        exact And.comm
  · have hok : ¬ AllocationFails s new w := fun h => htagged h.1
    obtain ⟨r, hr, hout⟩ := ext2Addtag_tagged now new w hd htagged hdec
    cases hout with
    | present hmem =>
        have hpos := (hdec.lengths _ hmem).1
        rw [successMeansThere_iff_of_zero hr]
        refine ⟨fun _ => ⟨hok, fun hnil => ?_⟩, fun _ => ⟨⟨ts, Or.inr ⟨htagged, hdec⟩, hmem⟩, hok⟩⟩
        rw [hnil] at hpos
        exact absurd hpos (by decide)
    | refused _ hfull =>
        exact ⟨fun _ => ⟨hok, fun _ => hfull⟩, fun _ => successMeansThere_of_refused hr hok⟩
    | written s' _ hroom _ htags _ hdec' =>
        have hne : s'.iFileTags ≠ 0 := by
          rw [htags]
          exact htagged
        rw [successMeansThere_iff_of_zero hr, there_after_written hne (by rw [htags]; exact hdec'),
          hword hroom]
        exact And.comm

theorem taggedDevice_success : SuccessMeansThere taggedDevice 1 (.error (-ENOSPC)) wordA ↔
    ¬ AllocationFails taggedDevice (.error (-ENOSPC)) wordA ∧
      (wordA.bytes = [] → NoRoom taggedDevice [[97]] wordA) :=
  addtag_success 1 (.error (-ENOSPC)) wordA taggedDevice_ok
    (Or.inr ⟨by decide, taggedDevice_decodes⟩) trivial trivial

/-- No block is left for the first tag, and the call returns 0. -/
theorem success_without_block : ¬ SuccessMeansThere freshDevice 1 (.error (-ENOSPC)) wordA := by
  rintro ⟨e, s', hr, hthere, hfails⟩
  have hzero : ext2Addtag freshDevice 1 (.error (-ENOSPC)) wordA = some (0, freshDevice) := rfl
  rw [hzero] at hr
  cases hr
  exact absurd (hfails ⟨rfl, by decide, _, rfl⟩).1 (by decide)

end LinuxHacks.Tags
