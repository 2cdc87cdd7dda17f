import LinuxHacks.Tags.Format

/-!
# What one tag call does

The two updates of a tag block, `writeTag` at the terminator and `memmove` over
an entry, take well-formed blocks to well-formed blocks. From that and the
specification of the scans follow the outcomes of a call: on a file whose block
holds the tags `ts` (`AddTagged`, `RmTagged`), and on a file without a tag block
(`AddUntagged`, `RmUntagged`). An addition formats a new block whatever bytes it
held; a removal from an untagged file reads block 0 and leaves the file without
tags.
-/

namespace LinuxHacks.Tags

open LinuxHacks.Lib

theorem sizeT_of_lt {n : Nat} (h : n < 2 ^ 32) : sizeT n = n := Nat.mod_eq_of_lt h

/-! ## Appending -/

/-- The three copies write one run of bytes. -/
theorem writeTag_append (pre old post : Bytes) (w : Word)
    (hold : old.length = w.bytes.length + 4) :
    writeTag (pre ++ (old ++ post)) pre.length w =
      some (pre ++ (encodeTag w.bytes ++ (le16 0 ++ post))) := by
  -- the overwritten bytes, cut where the copies meet
  obtain ⟨o₁, o₂, o₃, rfl, h₁, h₂, h₃⟩ : ∃ o₁ o₂ o₃ : Bytes, old = o₁ ++ (o₂ ++ o₃) ∧
      o₁.length = 2 ∧ o₂.length = w.bytes.length ∧ o₃.length = 2 := by
    refine ⟨old.take 2, (old.drop 2).take w.bytes.length, (old.drop 2).drop w.bytes.length,
      ?_, ?_, ?_, ?_⟩
    · rw [List.take_append_drop, List.take_append_drop]
    · rw [List.length_take]
      omega
    · rw [List.length_take, List.length_drop]
      omega
    · rw [List.length_drop, List.length_drop]
      omega
  have hlen : memcpy (pre ++ (o₁ ++ (o₂ ++ o₃) ++ post)) pre.length (le16 w.bytes.length) =
      some (pre ++ (le16 w.bytes.length ++ (o₂ ++ (o₃ ++ post)))) := by
    have := memcpy_append pre o₁ (o₂ ++ (o₃ ++ post)) (le16 w.bytes.length) h₁
    simpa [List.append_assoc] using this
  have hcontent : memcpy (pre ++ (le16 w.bytes.length ++ (o₂ ++ (o₃ ++ post)))) (pre.length + 2)
      w.bytes = some (pre ++ (le16 w.bytes.length ++ (w.bytes ++ (o₃ ++ post)))) := by
    have := memcpy_append (pre ++ le16 w.bytes.length) o₂ (o₃ ++ post) w.bytes h₂
    simpa [List.append_assoc] using this
  have hterm : memcpy (pre ++ (le16 w.bytes.length ++ (w.bytes ++ (o₃ ++ post))))
      (pre.length + 2 + w.bytes.length) (le16 0) =
      some (pre ++ (le16 w.bytes.length ++ (w.bytes ++ (le16 0 ++ post)))) := by
    have := memcpy_append (pre ++ (le16 w.bytes.length ++ w.bytes)) o₃ post (le16 0) h₃
    simpa [List.append_assoc, Nat.add_assoc] using this
  rw [writeTag, hlen]
  simp only [Option.bind_eq_bind, Option.bind_some]
  rw [hcontent]
  simp only [Option.bind_some]
  rw [hterm, encodeTag, List.append_assoc]

/-- The tags after a successful addition: an empty word adds nothing. -/
def addTag (ts : List Bytes) (w : Word) : List Bytes :=
  if w.bytes = [] then ts else ts ++ [w.bytes]

/-- Writing behind the entries `ts`, over whatever stands there. -/
theorem writeTag_decodes {ts : List Bytes} (rest : Bytes) {w : Word}
    (hmax : ts.length < EXT2_MAX_TAGS) (hlen : ∀ t ∈ ts, 1 ≤ t.length ∧ t.length < 65536)
    (hnodup : ts.Nodup) (hnew : w.bytes ∉ ts) (hw : w.bytes.length < 65536)
    (hroom : w.bytes.length + 4 ≤ rest.length) :
    ∃ b, writeTag (encode ts ++ rest) (encode ts).length w = some b ∧
      b.length = (encode ts ++ rest).length ∧ Decodes b (addTag ts w) := by
  have hsplit : rest = rest.take (w.bytes.length + 4) ++ rest.drop (w.bytes.length + 4) :=
    (List.take_append_drop _ _).symm
  have hwrite := writeTag_append (encode ts) (rest.take (w.bytes.length + 4))
    (rest.drop (w.bytes.length + 4)) w (by rw [List.length_take]; omega)
  rw [← hsplit] at hwrite
  refine ⟨_, hwrite, ?_, ?_⟩
  · simp only [List.length_append, length_encodeTag, length_le16, List.length_drop]
    omega
  · unfold addTag
    by_cases hempty : w.bytes = []
    · -- four zero bytes: the first two are the terminator
      rw [if_pos hempty, hempty]
      exact ⟨by omega, hlen, hnodup, le16 0 ++ _, rfl⟩
    · have hpos : 1 ≤ w.bytes.length := List.length_pos_iff.mpr hempty
      rw [if_neg hempty]
      refine ⟨?_, ?_, ?_, ?_⟩
      · rw [List.length_append, List.length_singleton]
        omega
      · intro t ht
        rcases List.mem_append.mp ht with ht | ht
        · exact hlen t ht
        · rw [List.mem_singleton.mp ht]
          exact ⟨hpos, hw⟩
      · exact List.nodup_append.mpr ⟨hnodup, List.nodup_singleton _, fun a ha b hb hab =>
          hnew (by rw [← List.mem_singleton.mp hb, ← hab]; exact ha)⟩
      · exact ⟨rest.drop (w.bytes.length + 4), by simp⟩

/-! ## Removing -/

/-- Closing the gap of one entry. -/
theorem Decodes.removeEntry {b : Bytes} {pre post : List Bytes} {t : Bytes}
    (h : Decodes b (pre ++ t :: post)) :
    ∃ b', memmove b (encode pre).length ((encode pre).length + (2 + t.length))
        (b.length - ((encode pre).length + (2 + t.length))) = some b' ∧
      b'.length = b.length ∧ Decodes b' (pre ++ post) := by
  obtain ⟨junk, hb⟩ := h.layout
  have hb' : b = encode pre ++ (encodeTag t ++ (encode post ++ (le16 0 ++ junk))) := by
    rw [hb]
    simp
  have htail : b.length - ((encode pre).length + (2 + t.length)) =
      (encode post ++ (le16 0 ++ junk)).length := by
    rw [hb']
    simp only [List.length_append, length_encodeTag]
    omega
  have hmove := memmove_append (encode pre) (encodeTag t) (encode post ++ (le16 0 ++ junk))
  rw [length_encodeTag, ← hb', ← htail] at hmove
  refine ⟨_, hmove, length_memmove hmove, ?_, ?_, ?_, ?_⟩
  · have := h.atMost
    simp only [List.length_append, List.length_cons] at this ⊢
    omega
  · intro u hu
    refine h.lengths u ?_
    rcases List.mem_append.mp hu with hu | hu
    · exact List.mem_append_left _ hu
    · exact List.mem_append_right _ (List.mem_cons_of_mem _ hu)
  · exact h.nodup.sublist (List.Sublist.append_left (List.sublist_cons_self t post) pre)
  · exact ⟨_, by rw [encode_append, List.append_assoc, List.append_assoc, List.append_assoc]⟩

/-- On any block at all the loop of `ext2_rmtag` reads inside the block, and
the offsets it leaves are in order. -/
theorem rmScan_inBounds {b : Bytes} {w : Word} : ∀ {n : Nat} {r : RmScan},
    r.rmOffset ≤ r.rmOffsetEnd ∧ r.rmOffsetEnd ≤ b.length →
      ∃ r', rmScan b w n r = some r' ∧ r'.rmOffset ≤ r'.rmOffsetEnd ∧ r'.rmOffsetEnd ≤ b.length
  | 0, r, h => ⟨r, rfl, h⟩
  | n + 1, r, h => by
      by_cases herr : r.error < 0
      · rw [rmScan, if_pos herr]
        exact rmScan_inBounds h
      by_cases hroom : b.length < r.curr + 2
      · rw [rmScan, if_neg herr, if_pos hroom]
        exact ⟨_, rfl, h⟩
      obtain ⟨taglen, _, hread⟩ := readLe16_of_le (show r.curr + 2 ≤ b.length by omega)
      by_cases hzero : taglen = 0
      · rw [rmScan, if_neg herr, if_neg hroom, hread, hzero]
        exact ⟨_, rfl, h⟩
      by_cases hfits : b.length < r.curr + 2 + taglen
      · rw [rmScan, if_neg herr, if_neg hroom, hread]
        simp only [Option.bind_eq_bind, Option.bind_some]
        rw [if_neg hzero, if_pos hfits]
        exact ⟨_, rfl, h⟩
      obtain ⟨same, hsame⟩ : ∃ same, strncmpEq (b.drop (r.curr + 2)) w.cstr taglen = some same :=
        strncmpEq_of_le (by rw [List.length_drop]; omega) w.noNul
      rw [rmScan_entry herr hroom hread hzero hfits hsame]
      cases same with
      | false => exact rmScan_inBounds h
      | true =>
          rw [if_pos rfl]
          by_cases hfound : r.tagFound = true
          · rw [if_pos hfound]
            exact ⟨_, rfl, h⟩
          · rw [if_neg hfound]
            refine rmScan_inBounds ⟨?_, ?_⟩
            · show r.curr ≤ r.curr + 2 + taglen
              omega
            · show r.curr + 2 + taglen ≤ b.length
              omega

/-! ## The device during a call -/

/-- The buffers have the block size, and that is at most 4096. -/
structure DeviceOk (s : State) : Prop where
  size : ∀ id, (s.block id).length = s.sBlocksize
  small : s.sBlocksize ≤ 4096

/-- The allocator hands out blocks of the block size. -/
def NewBlock.Sized (sBlocksize : Nat) : NewBlock → Prop
  | .error _ => True
  | .block _ data => data.length = sBlocksize

/-- The call left whole buffers, and wrote to block `id` at most. -/
structure Within (s s' : State) (id : Nat) : Prop where
  device : DeviceOk s'
  sBlocksize : s'.sBlocksize = s.sBlocksize
  elsewhere : ∀ j, j ≠ id → s'.block j = s.block j

theorem Within.refl {s : State} (hd : DeviceOk s) (id : Nat) : Within s s id :=
  ⟨hd, rfl, fun _ _ => rfl⟩

theorem DeviceOk.within_setBlock {s : State} {id : Nat} {b : Bytes} (h : DeviceOk s)
    (hb : b.length = s.sBlocksize) : Within s (s.setBlock id b) id := by
  refine ⟨⟨?_, h.small⟩, rfl, ?_⟩
  · intro j
    show (Function.update s.block id b j).length = s.sBlocksize
    by_cases hj : j = id
    · rw [hj, Function.update_self, hb]
    · rw [Function.update_of_ne hj]
      exact h.size j
  · intro j hj
    exact Function.update_of_ne hj _ _

/-- Writing once more to the same block. -/
theorem Within.trans {s s' s'' : State} {id : Nat} (h : Within s s' id) (h' : Within s' s'' id) :
    Within s s'' id := by
  refine ⟨h'.device, h'.sBlocksize.trans h.sBlocksize, ?_⟩
  intro j hj
  rw [h'.elsewhere j hj, h.elsewhere j hj]

/-! ## Outcomes of an addition -/

/-- No entry for `w` fits behind the entries of `ts`: there are 16 already, or
the block is too short. -/
def NoRoom (s : State) (ts : List Bytes) (w : Word) : Prop :=
  ts.length = EXT2_MAX_TAGS ∨ s.sBlocksize < (encode ts).length + w.bytes.length + 4

/-- `ext2_addtag` on a file whose block holds `ts`. -/
inductive AddTagged (s : State) (ts : List Bytes) (w : Word) : Int × State → Prop
  | present : w.bytes ∈ ts → AddTagged s ts w (0, s)
  | refused : w.bytes ∉ ts → NoRoom s ts w → AddTagged s ts w (-ENOSPC, s)
  | written (s' : State) : w.bytes ∉ ts → ¬ NoRoom s ts w → Within s s' s.iFileTags →
      s'.iFileTags = s.iFileTags → s'.freed = s.freed →
      Decodes (s'.block s.iFileTags) (addTag ts w) → AddTagged s ts w (0, s')

/-- `ext2_addtag` on a file without a tag block. -/
inductive AddUntagged (s : State) (new : NewBlock) (w : Word) : Int × State → Prop
  | refused : s.sBlocksize < w.bytes.length + 4 → AddUntagged s new w (-ENOSPC, s)
  | noBlock (code : Int) : ¬ s.sBlocksize < w.bytes.length + 4 → new = .error code →
      AddUntagged s new w (0, s)
  | written (id : Nat) (data : Bytes) (s' : State) : ¬ s.sBlocksize < w.bytes.length + 4 →
      new = .block id data → Within s s' id → s'.iFileTags = id → s'.freed = s.freed →
      Decodes (s'.block id) (addTag [] w) → AddUntagged s new w (0, s')

theorem length_encode (ts : List Bytes) :
    (encode ts).length = 2 * ts.length + (ts.map List.length).sum := by
  induction ts with
  | nil => rfl
  | cons t ts ih =>
      rw [encode_cons, List.length_append, length_encodeTag, ih]
      simp only [List.length_cons, List.map_cons, List.sum_cons]
      omega

/-- From the label `write_tag`, at the end of the entries `ts` of block `id`. -/
theorem writeTagLabel_full {s : State} {ts : List Bytes} {w : Word} (now id : Nat)
    (hd : DeviceOk s) (hfull : s.sBlocksize < (encode ts).length + w.bytes.length + 4)
    (hfits : (encode ts).length ≤ s.sBlocksize) :
    writeTagLabel s now id (encode ts).length 0 w = some (-ENOSPC, s) := by
  have hsmall := hd.small
  have hw := w.len_lt
  unfold writeTagLabel
  rw [sizeT_of_lt (by omega), hd.size, if_pos hfull]

theorem writeTagLabel_room {s : State} (ts : List Bytes) {rest : Bytes} {w : Word} (now id : Nat)
    (hd : DeviceOk s) (hb : s.block id = encode ts ++ rest)
    (hroom : ¬ s.sBlocksize < (encode ts).length + w.bytes.length + 4)
    (hmax : ts.length < EXT2_MAX_TAGS) (hlen : ∀ t ∈ ts, 1 ≤ t.length ∧ t.length < 65536)
    (hnodup : ts.Nodup) (hnew : w.bytes ∉ ts) :
    ∃ s', writeTagLabel s now id (encode ts).length 0 w = some (0, s') ∧ Within s s' id ∧
      s'.iFileTags = s.iFileTags ∧ s'.freed = s.freed ∧
      Decodes (s'.block id) (addTag ts w) := by
  have hsmall := hd.small
  have hsize : (encode ts).length + rest.length = s.sBlocksize := by
    rw [← List.length_append, ← hb, hd.size]
  obtain ⟨b, hwrite, hbl, hdec⟩ :=
    writeTag_decodes rest hmax hlen hnodup hnew (by omega) (by omega)
  have hset : Within s (s.setBlock id b) id :=
    hd.within_setBlock (by rw [hbl, ← hb, hd.size])
  unfold writeTagLabel
  rw [sizeT_of_lt (by omega), hd.size, if_neg hroom, hb, hwrite]
  refine ⟨(s.setBlock id b).touch now id, rfl, ?_, rfl, rfl, ?_⟩
  · exact ⟨⟨hset.device.size, hset.device.small⟩, hset.sBlocksize, hset.elsewhere⟩
  · show Decodes (Function.update s.block id b id) (addTag ts w)
    rw [Function.update_self]
    exact hdec

/-- **Adding to a tagged file.** -/
theorem ext2Addtag_tagged {s : State} {ts : List Bytes} (now : Nat) (new : NewBlock) (w : Word)
    (hd : DeviceOk s) (htagged : s.iFileTags ≠ 0) (hdec : Decodes (s.block s.iFileTags) ts) :
    ∃ r, ext2Addtag s now new w = some r ∧ AddTagged s ts w r := by
  have hw := w.len_lt
  have hsmall := hd.small
  obtain ⟨junk, hlayout⟩ := hdec.layout
  have hsize : (encode ts).length + 2 ≤ s.sBlocksize := by
    rw [← hd.size s.iFileTags, hlayout]
    simp only [List.length_append, length_le16]
    omega
  unfold ext2Addtag
  rw [sizeT_of_lt (show w.bytes.length + 4 < 2 ^ 32 by omega)]
  by_cases hbig : s.sBlocksize < w.bytes.length + 4
  · rw [if_pos hbig]
    refine ⟨_, rfl, .refused ?_ (Or.inr (by omega))⟩
    -- a stored tag of this length would not have fitted either
    intro hmem
    have hentry := List.le_sum_of_mem (List.mem_map_of_mem (f := List.length) hmem)
    have hpos := List.length_pos_of_mem hmem
    rw [length_encode] at hsize
    omega
  rw [if_neg hbig, if_neg htagged]
  obtain ⟨r, hr, hspec⟩ := hdec.addScan w
  rw [hr]
  simp only [Option.bind_eq_bind, Option.bind_some]
  cases hspec with
  | found hmem hi herr hfound =>
      rw [if_neg (by omega), if_pos hfound, herr]
      exact ⟨_, rfl, .present hmem⟩
  | full hnot hmax hi =>
      rw [if_pos (by omega)]
      exact ⟨_, rfl, .refused hnot (Or.inl hmax)⟩
  | atEnd hnot hmax heq =>
      subst heq
      rw [if_neg (by simpa using hmax), if_neg (by simp)]
      by_cases hfull : s.sBlocksize < (encode ts).length + w.bytes.length + 4
      · rw [writeTagLabel_full now _ hd hfull (by omega)]
        exact ⟨_, rfl, .refused hnot (Or.inr hfull)⟩
      · obtain ⟨s', hs', hwithin, htags, hfreed, hdec'⟩ :=
          writeTagLabel_room _ now s.iFileTags hd hlayout hfull hmax hdec.lengths hdec.nodup hnot
        refine ⟨_, hs', .written s' hnot ?_ hwithin htags hfreed hdec'⟩
        rintro (h | h)
        · omega
        · exact hfull h

/-- **Adding to an untagged file.** -/
theorem ext2Addtag_untagged {s : State} (now : Nat) (new : NewBlock) (w : Word) (hd : DeviceOk s)
    (hnone : s.iFileTags = 0) (hnew : new.Sized s.sBlocksize) :
    ∃ r, ext2Addtag s now new w = some r ∧ AddUntagged s new w r := by
  have hw := w.len_lt
  unfold ext2Addtag
  rw [sizeT_of_lt (show w.bytes.length + 4 < 2 ^ 32 by omega)]
  by_cases hbig : s.sBlocksize < w.bytes.length + 4
  · rw [if_pos hbig]
    exact ⟨_, rfl, .refused hbig⟩
  rw [if_neg hbig, if_pos hnone]
  cases new with
  | error code => exact ⟨_, rfl, .noBlock code hbig rfl⟩
  | block id data =>
      have hset : Within s (s.setBlock id data) id := hd.within_setBlock hnew
      have hset' : Within s { s.setBlock id data with iFileTags := id } id :=
        ⟨⟨hset.device.size, hset.device.small⟩, hset.sBlocksize, hset.elsewhere⟩
      have hblock : Function.update s.block id data id = encode [] ++ data := by
        rw [Function.update_self]
        rfl
      obtain ⟨s', hs', hwithin, htags, hfreed, hdec⟩ :=
        writeTagLabel_room [] now id hset'.device hblock
          (by simpa [State.setBlock] using hbig) (by decide) (by simp) List.nodup_nil (by simp)
      exact ⟨_, hs', .written id data s' hbig rfl (hset'.trans hwithin) htags hfreed hdec⟩

/-! What the call does with the pointer and the allocator. -/

theorem writeTagLabel_frame {s : State} {now id curr : Nat} {error : Int} {w : Word}
    {r : Int × State} (h : writeTagLabel s now id curr error w = some r) :
    r.2.iFileTags = s.iFileTags ∧ r.2.freed = s.freed := by
  unfold writeTagLabel at h
  split at h
  · cases h
    exact ⟨rfl, rfl⟩
  · obtain ⟨b, _, hr⟩ := Option.bind_eq_some_iff.mp h
    cases hr
    exact ⟨rfl, rfl⟩

/-- An addition frees nothing, and keeps the pointer of a tagged file. -/
theorem ext2Addtag_frame {s : State} {now : Nat} {new : NewBlock} {w : Word} {r : Int × State}
    (h : ext2Addtag s now new w = some r) :
    (s.iFileTags ≠ 0 → r.2.iFileTags = s.iFileTags) ∧ r.2.freed = s.freed := by
  unfold ext2Addtag at h
  split at h
  · cases h
    exact ⟨fun _ => rfl, rfl⟩
  · split at h
    · next hnone =>
        cases new with
        | error code =>
            cases h
            exact ⟨fun _ => rfl, rfl⟩
        | block id data => exact ⟨absurd hnone, (writeTagLabel_frame h).2⟩
    · obtain ⟨scan, _, hr⟩ := Option.bind_eq_some_iff.mp h
      split at hr
      · cases hr
        exact ⟨fun _ => rfl, rfl⟩
      · split at hr
        · cases hr
          exact ⟨fun _ => rfl, rfl⟩
        · exact ⟨fun _ => (writeTagLabel_frame hr).1, (writeTagLabel_frame hr).2⟩

theorem newBlockIds_tagged {s : State} (new : NewBlock) (w : Word) (htagged : s.iFileTags ≠ 0) :
    newBlockIds s new w = [] := by
  unfold newBlockIds
  rw [if_neg htagged, ite_self]

theorem newBlockIds_error (s : State) (code : Int) (w : Word) :
    newBlockIds s (.error code) w = [] := by
  unfold newBlockIds
  rw [ite_self, ite_self]

theorem newBlockIds_big {s : State} (new : NewBlock) {w : Word}
    (hbig : s.sBlocksize < w.bytes.length + 4) : newBlockIds s new w = [] := by
  have hw := w.len_lt
  unfold newBlockIds
  rw [sizeT_of_lt (by omega), if_pos hbig]

theorem newBlockIds_block {s : State} {id : Nat} (data : Bytes) {w : Word}
    (hnone : s.iFileTags = 0) (hfits : ¬ s.sBlocksize < w.bytes.length + 4) :
    newBlockIds s (.block id data) w = [id] := by
  have hw := w.len_lt
  unfold newBlockIds
  rw [sizeT_of_lt (by omega), if_neg hfits, if_pos hnone]

/-! ## Outcomes of a removal -/

/-- `ext2_rmtag` on a file whose block holds `ts`. -/
inductive RmTagged (s : State) (ts : List Bytes) (w : Word) : Int × State → Prop
  | missing : (∀ t ∈ ts, ¬ Takes w t) → RmTagged s ts w (-EINVAL, s)
  | twice (pre : List Bytes) (t : Bytes) (post : List Bytes) : ts = pre ++ t :: post →
      Takes w t → (∃ u ∈ pre, Takes w u) → RmTagged s ts w (-EINVAL, s)
  | last (t : Bytes) (s' : State) : ts = [t] → Takes w t → Within s s' s.iFileTags →
      s'.block = s.block → s'.iFileTags = 0 → s'.freed = s.freed ++ [s.iFileTags] →
      RmTagged s ts w (0, s')
  | removed (pre : List Bytes) (t : Bytes) (post : List Bytes) (s' : State) :
      ts = pre ++ t :: post → Takes w t → (∀ u ∈ pre ++ post, ¬ Takes w u) → pre ++ post ≠ [] →
      Within s s' s.iFileTags → s'.iFileTags = s.iFileTags → s'.freed = s.freed →
      Decodes (s'.block s.iFileTags) (pre ++ post) → RmTagged s ts w (0, s')

/-- `ext2_rmtag` on a file without a tag block. -/
structure RmUntagged (s : State) (r : Int × State) : Prop where
  within : Within s r.2 0
  iFileTags : r.2.iFileTags = 0
  freed : r.2.freed = s.freed

/-- **Removing from a tagged file.** -/
theorem ext2Rmtag_tagged {s : State} {ts : List Bytes} (now : Nat) (w : Word) (hd : DeviceOk s)
    (htagged : s.iFileTags ≠ 0) (hdec : Decodes (s.block s.iFileTags) ts) :
    ∃ r, ext2Rmtag s now w = some r ∧ RmTagged s ts w r := by
  obtain ⟨r, hr, hspec⟩ := hdec.rmScan w
  unfold ext2Rmtag
  rw [hr]
  simp only [Option.bind_eq_bind, Option.bind_some]
  cases hspec with
  | twice pre t post hts ht hu herr hfound =>
      rw [if_neg (by simp [hfound]), if_pos (by rw [herr]; decide), herr]
      exact ⟨_, rfl, .twice pre t post hts ht hu⟩
  | through herr hi hfind =>
      cases hfind with
      | missing hnone hfound =>
          rw [if_pos (by simp [hfound])]
          exact ⟨_, rfl, .missing hnone⟩
      | one pre t post hts ht hrest hfound hoff hend =>
          rw [if_neg (by simp [hfound]), if_neg (by simp [herr])]
          subst hts
          by_cases hone : r.i = 1
          · rw [if_pos hone, herr]
            have hnil : pre = [] ∧ post = [] := by
              rw [hi] at hone
              simp only [List.length_append, List.length_cons] at hone
              exact ⟨List.eq_nil_of_length_eq_zero (by omega),
                List.eq_nil_of_length_eq_zero (by omega)⟩
            obtain ⟨rfl, rfl⟩ := hnil
            refine ⟨_, rfl, .last t _ rfl ht ?_ ?_ ?_ ?_⟩
            · refine ⟨⟨?_, ?_⟩, ?_, ?_⟩ <;> simp only [tagsClear, if_pos htagged, State.touch]
              · exact hd.size
              · exact hd.small
              · exact fun _ _ => trivial
            · simp only [tagsClear, if_pos htagged, State.touch]
            · simp only [tagsClear, if_pos htagged, State.touch]
            · simp only [tagsClear, if_pos htagged, State.touch]
          · rw [if_neg hone, herr]
            obtain ⟨b, hmove, hbl, hdec'⟩ := hdec.removeEntry
            have hset : Within s (s.setBlock s.iFileTags b) s.iFileTags :=
              hd.within_setBlock (by rw [hbl, hd.size])
            rw [hoff, hend, hmove]
            refine ⟨_, rfl, .removed pre t post _ rfl ht hrest ?_ ?_ rfl rfl ?_⟩
            · intro hnil
              obtain ⟨rfl, rfl⟩ := List.append_eq_nil_iff.mp hnil
              exact hone (by rw [hi]; rfl)
            · exact ⟨⟨hset.device.size, hset.device.small⟩, hset.sBlocksize, hset.elsewhere⟩
            · show Decodes (Function.update s.block s.iFileTags b s.iFileTags) (pre ++ post)
              rw [Function.update_self]
              exact hdec'

/-- **Removing from an untagged file.** The removal works on block 0; the file
stays untagged. -/
theorem ext2Rmtag_untagged {s : State} (now : Nat) (w : Word) (hd : DeviceOk s)
    (hnone : s.iFileTags = 0) : ∃ r, ext2Rmtag s now w = some r ∧ RmUntagged s r := by
  obtain ⟨r, hr, hle, hend⟩ := rmScan_inBounds (b := s.block s.iFileTags) (w := w)
    (n := EXT2_MAX_TAGS) (r := ⟨0, 0, 0, false, 0, 0⟩) ⟨le_refl _, Nat.zero_le _⟩
  unfold ext2Rmtag
  rw [hr]
  simp only [Option.bind_eq_bind, Option.bind_some]
  by_cases hfound : r.tagFound = true
  · rw [if_neg (by simp [hfound])]
    by_cases herr : r.error ≠ 0
    · rw [if_pos herr]
      exact ⟨_, rfl, Within.refl hd 0, hnone, rfl⟩
    rw [if_neg herr]
    by_cases hone : r.i = 1
    · rw [if_pos hone, tagsClear, if_neg (by simp [hnone])]
      exact ⟨_, rfl, ⟨⟨hd.size, hd.small⟩, rfl, fun _ _ => rfl⟩, hnone, rfl⟩
    · rw [if_neg hone]
      obtain ⟨b, hmove⟩ := memmove_of_le (b := s.block s.iFileTags)
        (show r.rmOffsetEnd + ((s.block s.iFileTags).length - r.rmOffsetEnd) ≤ _ by omega)
        (show r.rmOffset + ((s.block s.iFileTags).length - r.rmOffsetEnd) ≤ _ by omega)
      rw [hmove]
      have hset : Within s (s.setBlock s.iFileTags b) s.iFileTags :=
        hd.within_setBlock (by rw [length_memmove hmove, hd.size])
      rw [hnone] at hset
      refine ⟨_, rfl, ⟨⟨?_, ?_⟩, ?_, ?_⟩, hnone, rfl⟩
      · rw [hnone]
        exact hset.device.size
      · exact hset.device.small
      · rfl
      · rw [hnone]
        exact hset.elsewhere
  · rw [if_pos (by simp [hfound])]
    exact ⟨_, rfl, Within.refl hd 0, hnone, rfl⟩

end LinuxHacks.Tags
