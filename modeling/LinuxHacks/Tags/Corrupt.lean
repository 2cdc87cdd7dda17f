import LinuxHacks.Tags.Listing
import LinuxHacks.Tags.Reading

/-!
# Calls on arbitrary blocks

What the tag calls do when the bytes of the block are anything at all.

* `tag_failures_clean`: a call that fails leaves the block and the pointer alone,
  except where a scan that was cut short by a corrupt length is followed by the
  write it should have prevented.
* `rmtag_untagged`: without a tag block, block 0 is read in its place, and the
  answer depends on what stands there.
* `tag_accesses_inside`: no access leaves the block or the output buffer.
-/

namespace LinuxHacks.Tags

open LinuxHacks.Lib

/-! ## Failed calls -/

/-- A nonzero return leaves the bytes of every block and `i_file_tags` as they
were. -/
def FailsCleanly (s : State) (op : Op) : Prop :=
  ∃ e s', op.run s = some (e, s') ∧
    (e ≠ 0 → s'.block = s.block ∧ s'.iFileTags = s.iFileTags)

/-- The tags as they can be read from the block of the file. -/
def State.listing (s : State) : Listing := Tags.listing EXT2_MAX_TAGS (s.block s.iFileTags)

/-- The scan for `w` runs into an entry whose content leaves the block, a new
entry would fit behind its length, and other bytes stand there. -/
def WritesBehindCut (s : State) (w : Word) : Prop :=
  s.iFileTags ≠ 0 ∧ w.bytes.length + 4 ≤ s.sBlocksize ∧ w.bytes ∉ s.listing.entries ∧
    s.listing.stop = .contentCut ∧
    s.listing.cursor + w.bytes.length + 4 ≤ (s.block s.iFileTags).length ∧
    ((s.block s.iFileTags).drop s.listing.cursor).take (w.bytes.length + 4) ≠
      encodeTag w.bytes ++ le16 0

/-! ## The write -/

/-- The bytes `b` with an entry for `w` and a terminator behind it at `curr`. -/
def withEntry (b : Bytes) (curr : Nat) (w : Word) : Bytes :=
  b.take curr ++ ((encodeTag w.bytes ++ le16 0) ++ b.drop (curr + (w.bytes.length + 4)))

theorem encodeTag_le16_length (t : Bytes) : (encodeTag t ++ le16 0).length = t.length + 4 := by
  rw [List.length_append, length_encodeTag, length_le16]
  omega

/-- A block as the bytes in front of an entry, those it takes, and the others. -/
theorem take_drop_split (b : Bytes) (curr n : Nat) :
    b.take curr ++ ((b.drop curr).take n ++ b.drop (curr + n)) = b := by
  rw [← List.drop_drop, List.take_append_drop, List.take_append_drop]

theorem writeTag_of_le {b : Bytes} {curr : Nat} {w : Word}
    (h : curr + w.bytes.length + 4 ≤ b.length) :
    writeTag b curr w = some (withEntry b curr w) := by
  have hpre : (b.take curr).length = curr := by
    rw [List.length_take]
    omega
  have hwrite := writeTag_append (b.take curr) ((b.drop curr).take (w.bytes.length + 4))
    (b.drop (curr + (w.bytes.length + 4))) w (by
      rw [List.length_take, List.length_drop]
      omega)
  rw [take_drop_split, hpre] at hwrite
  rw [hwrite, withEntry, List.append_assoc (encodeTag w.bytes)]

/-- The write changes nothing exactly when the entry stands there already. -/
theorem withEntry_eq_iff {b : Bytes} {curr : Nat} {w : Word}
    (h : curr + w.bytes.length + 4 ≤ b.length) :
    withEntry b curr w = b ↔
      (b.drop curr).take (w.bytes.length + 4) = encodeTag w.bytes ++ le16 0 := by
  have hsplit := take_drop_split b curr (w.bytes.length + 4)
  have hlen : ((b.drop curr).take (w.bytes.length + 4)).length =
      (encodeTag w.bytes ++ le16 0).length := by
    rw [List.length_take, List.length_drop, encodeTag_le16_length]
    omega
  constructor
  · intro heq
    have htail := List.append_cancel_left (hsplit.trans heq.symm)
    exact (List.append_inj htail hlen).1
  · intro heq
    rw [heq] at hsplit
    exact hsplit

/-- The entry is read back, when its length has 16 bits. -/
theorem withEntry_reads (b : Bytes) (curr : Nat) {w : Word}
    (h : curr + w.bytes.length + 4 ≤ b.length) (hw : w.bytes.length < 65536) :
    (withEntry b curr w).length = b.length ∧
      readLe16 (withEntry b curr w) curr = some w.bytes.length ∧
      ((withEntry b curr w).drop (curr + 2)).take w.bytes.length = w.bytes := by
  have hpre : (b.take curr).length = curr := by
    rw [List.length_take]
    omega
  have hentry : withEntry b curr w =
      b.take curr ++ (encodeTag w.bytes ++ (le16 0 ++ b.drop (curr + (w.bytes.length + 4)))) := by
    rw [withEntry, List.append_assoc (encodeTag w.bytes)]
  obtain ⟨hread, _, _, hdrop⟩ :=
    entry_at (b.take curr) (le16 0 ++ b.drop (curr + (w.bytes.length + 4))) hw
  rw [← hentry, hpre] at hread hdrop
  refine ⟨?_, hread, ?_⟩
  · rw [withEntry]
    simp only [List.length_append, List.length_drop, hpre, length_encodeTag, length_le16]
    omega
  · rw [hdrop, List.take_left]

/-- From the label `write_tag` on, where the sum of the size check does not wrap. -/
theorem writeTagLabel_cases (s : State) (now id curr : Nat) (error : Int) {w : Word}
    (hsmall : curr + w.bytes.length + 4 < 2 ^ 32) :
    ((s.block id).length < curr + w.bytes.length + 4 ∧
        writeTagLabel s now id curr error w = some (-ENOSPC, s)) ∨
      (curr + w.bytes.length + 4 ≤ (s.block id).length ∧
        writeTagLabel s now id curr error w =
          some (error, (s.setBlock id (withEntry (s.block id) curr w)).touch now id)) := by
  rw [writeTagLabel, sizeT_of_lt hsmall]
  by_cases hroom : (s.block id).length < curr + w.bytes.length + 4
  · rw [if_pos hroom]
    exact Or.inl ⟨hroom, rfl⟩
  · rw [if_neg hroom, writeTag_of_le (by omega)]
    exact Or.inr ⟨by omega, rfl⟩

/-! ## The calls -/

/-- `ext2_addtag` on a tagged file, whatever its block holds. -/
inductive AddAny (s : State) (now : Nat) (w : Word) : Int × State → Prop
  | tooLong : s.sBlocksize < w.bytes.length + 4 → AddAny s now w (-ENOSPC, s)
  | present : w.bytes ∈ s.listing.entries → AddAny s now w (0, s)
  | full : s.listing.stop = .full → AddAny s now w (-ENOSPC, s)
  | noRoom : (s.block s.iFileTags).length < s.listing.cursor + w.bytes.length + 4 →
      AddAny s now w (-ENOSPC, s)
  | written : w.bytes.length + 4 ≤ s.sBlocksize → w.bytes ∉ s.listing.entries →
      s.listing.stop ≠ .full →
      s.listing.cursor + w.bytes.length + 4 ≤ (s.block s.iFileTags).length →
      AddAny s now w (s.listing.stop.error, (s.setBlock s.iFileTags
        (withEntry (s.block s.iFileTags) s.listing.cursor w)).touch now s.iFileTags)

theorem ext2Addtag_any {s : State} (now : Nat) (new : NewBlock) (w : Word)
    (htagged : s.iFileTags ≠ 0) : ∃ r, ext2Addtag s now new w = some r ∧ AddAny s now w r := by
  have hw := w.len_lt
  have hcursor := cursor_le EXT2_MAX_TAGS (s.block s.iFileTags)
  obtain ⟨hle, hfull⟩ := listing_length EXT2_MAX_TAGS (s.block s.iFileTags)
  change s.listing.cursor ≤ 65537 * 16 + 2 at hcursor
  change s.listing.entries.length ≤ EXT2_MAX_TAGS at hle
  change s.listing.entries.length = EXT2_MAX_TAGS ↔ s.listing.stop = .full at hfull
  unfold ext2Addtag
  rw [sizeT_of_lt (show w.bytes.length + 4 < 2 ^ 32 by omega)]
  by_cases hlong : s.sBlocksize < w.bytes.length + 4
  · rw [if_pos hlong]
    exact ⟨_, rfl, .tooLong hlong⟩
  rw [if_neg hlong, if_neg htagged]
  obtain ⟨r, hr, hspec⟩ := addScan_listing w EXT2_MAX_TAGS [] (s.block s.iFileTags) 0
  rw [List.nil_append, List.length_nil] at hr
  rw [hr]
  simp only [Option.bind_eq_bind, Option.bind_some]
  cases hspec with
  | found hmem hi herr hfound =>
      rw [if_neg (by omega), if_pos hfound, herr]
      exact ⟨_, rfl, .present hmem⟩
  | through hnot heq =>
      change r = ⟨0 + s.listing.entries.length, 0 + s.listing.cursor, s.listing.stop.error, false⟩
        at heq
      rw [Nat.zero_add, Nat.zero_add] at heq
      subst heq
      dsimp only
      by_cases hmax : s.listing.entries.length = EXT2_MAX_TAGS
      · rw [if_pos (by omega)]
        exact ⟨_, rfl, .full (hfull.mp hmax)⟩
      rw [if_neg (by omega), if_neg (by simp)]
      rcases writeTagLabel_cases s now s.iFileTags s.listing.cursor s.listing.stop.error
        (w := w) (by omega) with ⟨hroom, hwrite⟩ | ⟨hroom, hwrite⟩
      · exact ⟨_, hwrite, .noRoom hroom⟩
      · exact ⟨_, hwrite, .written (by omega) hnot (fun h => hmax (hfull.mpr h)) hroom⟩

/-- `ext2_addtag` on an untagged file, whatever buffer it gets. -/
inductive AddFirst (s : State) (now : Nat) (new : NewBlock) (w : Word) : Int × State → Prop
  | tooLong : s.sBlocksize < w.bytes.length + 4 → AddFirst s now new w (-ENOSPC, s)
  | noBlock (code : Int) : new = .error code → AddFirst s now new w (0, s)
  | noRoom (id : Nat) (data : Bytes) : new = .block id data → w.bytes.length + 4 ≤ s.sBlocksize →
      data.length < w.bytes.length + 4 →
      AddFirst s now new w (-ENOSPC, { s.setBlock id data with iFileTags := id })
  | written (id : Nat) (data : Bytes) (s' : State) : new = .block id data →
      w.bytes.length + 4 ≤ data.length → s'.iFileTags = id → s'.dirtied = s.dirtied ++ [id] →
      s'.block id = withEntry data 0 w → AddFirst s now new w (0, s')

theorem ext2Addtag_first {s : State} (now : Nat) (new : NewBlock) (w : Word)
    (hnone : s.iFileTags = 0) :
    ∃ r, ext2Addtag s now new w = some r ∧ AddFirst s now new w r := by
  have hw := w.len_lt
  unfold ext2Addtag
  rw [sizeT_of_lt (show w.bytes.length + 4 < 2 ^ 32 by omega)]
  by_cases hlong : s.sBlocksize < w.bytes.length + 4
  · rw [if_pos hlong]
    exact ⟨_, rfl, .tooLong hlong⟩
  rw [if_neg hlong, if_pos hnone]
  cases new with
  | error code => exact ⟨_, rfl, .noBlock code rfl⟩
  | block id data =>
      have hbuf : (State.setBlock s id data).block id = data := Function.update_self ..
      rcases writeTagLabel_cases { s.setBlock id data with iFileTags := id } now id 0 0
        (w := w) (by omega) with ⟨hroom, hwrite⟩ | ⟨hroom, hwrite⟩
      · dsimp only at hroom
        rw [hbuf, Nat.zero_add] at hroom
        exact ⟨_, hwrite, .noRoom id data rfl (by omega) hroom⟩
      · dsimp only at hroom
        rw [hbuf, Nat.zero_add] at hroom
        refine ⟨_, hwrite, .written id data _ rfl hroom rfl rfl ?_⟩
        rw [hbuf]
        exact Function.update_self ..

/-- `ext2_rmtag` on any block: the write comes with a return of 0. -/
theorem ext2Rmtag_any (s : State) (now : Nat) (w : Word) :
    ∃ e s', ext2Rmtag s now w = some (e, s') ∧
      (s.listing.entries.countP (Agrees w ·) ≠ 1 → e = -EINVAL ∧ s' = s) ∧
      (s.listing.entries.countP (Agrees w ·) = 1 →
        (e = s.listing.stop.error) ∧ (e ≠ 0 → s' = s)) := by
  obtain ⟨r, hr, hle, hend⟩ := rmScan_inBounds (b := s.block s.iFileTags) (w := w)
    (n := EXT2_MAX_TAGS) (r := ⟨0, 0, 0, false, 0, 0⟩) ⟨le_refl _, Nat.zero_le _⟩
  obtain ⟨r', hr', hfound, herr⟩ :=
    rmScan_listing w EXT2_MAX_TAGS [] (s.block s.iFileTags) ⟨0, 0, 0, false, 0, 0⟩ rfl rfl
  rw [List.nil_append, hr, Option.some.injEq] at hr'
  subst hr'
  have htaken : taken (Tags.listing EXT2_MAX_TAGS (s.block s.iFileTags)) w false =
      s.listing.entries.countP (Agrees w ·) := by
    rw [taken, Bool.toNat_false, Nat.zero_add, State.listing]
  rw [htaken] at hfound herr
  unfold ext2Rmtag
  rw [hr]
  simp only [Option.bind_eq_bind, Option.bind_some]
  by_cases hzero : s.listing.entries.countP (Agrees w ·) = 0
  · have hmissing : ¬ r.tagFound = true := fun h => hfound.mp h hzero
    rw [if_pos (by simp [hmissing])]
    exact ⟨_, _, rfl, fun _ => ⟨rfl, rfl⟩, fun h => by omega⟩
  rw [if_neg (by simp [hfound.mpr hzero])]
  by_cases hone : s.listing.entries.countP (Agrees w ·) = 1
  · rw [hone, if_neg (by decide)] at herr
    change r.error = s.listing.stop.error at herr
    by_cases hcut : r.error ≠ 0
    · rw [if_pos hcut]
      exact ⟨_, _, rfl, fun h => absurd hone h, fun _ => ⟨herr, fun _ => rfl⟩⟩
    rw [if_neg hcut]
    have hclean : ∀ s' : State, r.error ≠ 0 → s' = s := fun _ h => absurd h hcut
    by_cases hlast : r.i = 1
    · rw [if_pos hlast]
      exact ⟨_, _, rfl, fun h => absurd hone h, fun _ => ⟨herr, hclean _⟩⟩
    · rw [if_neg hlast]
      obtain ⟨b, hmove⟩ := memmove_of_le (b := s.block s.iFileTags)
        (show r.rmOffsetEnd + ((s.block s.iFileTags).length - r.rmOffsetEnd) ≤ _ by omega)
        (show r.rmOffset + ((s.block s.iFileTags).length - r.rmOffsetEnd) ≤ _ by omega)
      rw [hmove]
      exact ⟨_, _, rfl, fun h => absurd hone h, fun _ => ⟨herr, hclean _⟩⟩
  · rw [if_pos (by omega)] at herr
    rw [if_pos (by rw [herr]; decide), herr]
    exact ⟨_, _, rfl, fun _ => ⟨rfl, rfl⟩, fun h => absurd h hone⟩

/-- The call is an addition that writes behind a cut entry. -/
def Op.WritesBehindCut (s : State) : Op → Prop
  | .add _ _ w => Tags.WritesBehindCut s w
  | .rm _ _ => False

/-- **When a failed call changes nothing.** Exactly when it is not an addition
that writes behind a cut entry. -/
theorem tag_failures_clean {s : State} (op : Op) (hop : op.Sized s.sBlocksize) :
    FailsCleanly s op ↔ ¬ op.WritesBehindCut s := by
  -- a call that leaves the state, or returns 0, is clean
  have hclean : ∀ {e : Int} {s' : State}, op.run s = some (e, s') → (e ≠ 0 → s' = s) →
      FailsCleanly s op := by
    intro e s' hr hsame
    refine ⟨e, s', hr, fun he => ?_⟩
    rw [hsame he]
    exact ⟨rfl, rfl⟩
  cases op with
  | rm now w =>
      obtain ⟨e, s', hr, hnot, hone⟩ := ext2Rmtag_any s now w
      refine iff_of_true (hclean hr fun he => ?_) id
      by_cases h : s.listing.entries.countP (Agrees w ·) = 1
      · exact (hone h).2 he
      · exact (hnot h).2
  | add now new w =>
      by_cases hnone : s.iFileTags = 0
      · refine iff_of_true ?_ (fun h => h.1 hnone)
        obtain ⟨r, hr, hout⟩ := ext2Addtag_first now new w hnone
        cases hout with
        | tooLong _ => exact hclean hr fun _ => rfl
        | noBlock code _ => exact hclean hr fun h => absurd rfl h
        | noRoom id data hid hfits hroom =>
            subst hid
            have hdata : data.length = s.sBlocksize := hop
            omega
        | written id data s' _ _ _ _ _ => exact hclean hr fun h => absurd rfl h
      obtain ⟨r, hr, hout⟩ := ext2Addtag_any now new w hnone
      cases hout with
      | tooLong hlong =>
          exact iff_of_true (hclean hr fun _ => rfl) fun h => absurd h.2.1 (by omega)
      | present hmem =>
          exact iff_of_true (hclean hr fun _ => rfl) fun h => h.2.2.1 hmem
      | full hfull =>
          refine iff_of_true (hclean hr fun _ => rfl) fun h => ?_
          have hcut := h.2.2.2.1
          rw [hfull] at hcut
          cases hcut
      | noRoom hroom =>
          exact iff_of_true (hclean hr fun _ => rfl) fun h => absurd h.2.2.2.2.1 (by omega)
      | written hfits hnot hfull hroom =>
          cases hstop : s.listing.stop with
          | full => exact absurd hstop hfull
          | terminator =>
              rw [hstop] at hr
              refine iff_of_true (hclean hr fun h => absurd rfl h) fun h => ?_
              have hcut := h.2.2.2.1
              rw [hstop] at hcut
              cases hcut
          | lengthCut =>
              have hend := cursor_lengthCut EXT2_MAX_TAGS (s.block s.iFileTags) hstop
              change (s.block s.iFileTags).length < s.listing.cursor + 2 at hend
              omega
          | contentCut =>
              -- the write is made, and -ESPIPE returned
              rw [hstop] at hr
              have hsame := withEntry_eq_iff hroom
              rw [← Function.update_eq_self_iff (f := s.block)] at hsame
              constructor
              · rintro ⟨e, s', hr', hkept⟩ h
                have hpair : (ScanEnd.contentCut.error,
                    (s.setBlock s.iFileTags (withEntry (s.block s.iFileTags) s.listing.cursor w)).touch
                      now s.iFileTags) = (e, s') :=
                  Option.some.inj (hr.symm.trans hr')
                cases hpair
                exact h.2.2.2.2.2 (hsame.mp (hkept (by decide)).1)
              · intro h
                refine ⟨_, _, hr, fun _ => ⟨hsame.mpr ?_, rfl⟩⟩
                by_contra hne
                exact h ⟨hnone, hfits, hnot, hstop, hroom, hne⟩

/-- Block 5 begins with a length that leads out of it. -/
def corruptDevice : State :=
  { freshDevice with
    block := Function.update freshDevice.block 5 ([255, 255] ++ List.replicate 1022 0)
    iFileTags := 5 }

theorem corruptDevice_rmtag : FailsCleanly corruptDevice (.rm 1 wordA) ↔
    ¬ Op.WritesBehindCut corruptDevice (.rm 1 wordA) :=
  tag_failures_clean (.rm 1 wordA) trivial

/-- The addition reports the corrupt length and writes all the same. -/
theorem failure_writes : ¬ FailsCleanly corruptDevice (.add 1 (.error 0) wordA) := by
  rintro ⟨e, s', hr, hkept⟩
  have hwritten : ((Op.add 1 (.error 0) wordA).run corruptDevice).map
      (fun r => (r.1, (r.2.block 5).take 7)) = some (-ESPIPE, [255, 255, 1, 0, 97, 0, 0]) := by
    decide +kernel
  rw [hr, Option.map_some, Option.some.injEq, Prod.mk.injEq] at hwritten
  obtain ⟨herr, hbytes⟩ := hwritten
  have hblock := (hkept (by rw [show e = -ESPIPE from herr]; decide)).1
  dsimp only at hbytes
  rw [hblock] at hbytes
  exact absurd hbytes (by decide +kernel)

/-! ## Removing from an untagged file -/

/-- The call is refused and touches no block. -/
def RefusesUntagged (s : State) (now : Nat) (w : Word) : Prop :=
  ∃ s', ext2Rmtag s now w = some (-EINVAL, s') ∧ s'.block = s.block ∧ s'.dirtied = s.dirtied ∧
    s'.iFileTags = 0

/-- **When a removal from an untagged file is refused.** Exactly when block 0,
read as a list of entries, does not hold just one that is taken for the word. -/
theorem rmtag_untagged {s : State} (now : Nat) (w : Word) (hnone : s.iFileTags = 0) :
    RefusesUntagged s now w ↔
      (listing EXT2_MAX_TAGS (s.block 0)).entries.countP (Agrees w ·) ≠ 1 := by
  have hlisting : listing EXT2_MAX_TAGS (s.block 0) = s.listing := by rw [State.listing, hnone]
  obtain ⟨e, s', hr, hnot, hone⟩ := ext2Rmtag_any s now w
  rw [hlisting]
  constructor
  · rintro ⟨s₁, hr₁, _⟩ hcount
    have hpair : (e, s') = (-EINVAL, s₁) := Option.some.inj (hr.symm.trans hr₁)
    have herr : -EINVAL = s.listing.stop.error := (congrArg Prod.fst hpair).symm.trans (hone hcount).1
    cases hstop : s.listing.stop <;> rw [hstop] at herr <;> exact absurd herr (by decide)
  · intro hcount
    obtain ⟨rfl, rfl⟩ := hnot hcount
    exact ⟨_, hr, rfl, rfl, hnone⟩

/-- Block 0 reads as the tags `a` and `b`; the file has no tags. -/
def bootDevice : State :=
  { freshDevice with
    block := Function.update freshDevice.block 0 ([1, 0, 97, 1, 0, 98, 0, 0] ++ List.replicate 1016 0) }

theorem freshDevice_rmtag : RefusesUntagged freshDevice 1 wordA ↔
    (listing EXT2_MAX_TAGS (freshDevice.block 0)).entries.countP (Agrees wordA ·) ≠ 1 :=
  rmtag_untagged 1 wordA rfl

/-- The removal of `a` succeeds, on block 0. -/
theorem boot_block_modified : ¬ RefusesUntagged bootDevice 1 wordA := by
  rintro ⟨s', hr, hblock, _⟩
  have hmoved : (ext2Rmtag bootDevice 1 wordA).map (fun r => (r.1, (r.2.block 0).take 5)) =
      some (0, [1, 0, 98, 0, 0]) := by
    decide +kernel
  rw [hr, Option.map_some, Option.some.injEq, Prod.mk.injEq] at hmoved
  have hrefused : (0 : Int) = -EINVAL := hmoved.1.symm
  exact absurd hrefused (by decide)

/-! ## Bounds -/

/-- `strncpy` over bytes that are all there. -/
theorem strncpy_of_le {a : Bytes} {n : Nat} (h : n ≤ a.length) :
    ∃ content, strncpy a n = some content ∧ content.length = n := by
  have hlen : (a.take n).length = n := by
    rw [List.length_take]
    omega
  have hcopy := strncpy_append (a.take n) (a.drop n)
  rw [List.take_append_drop, hlen] at hcopy
  exact ⟨_, hcopy, by rw [length_padNul, hlen]⟩

/-- The copy of one entry stays in the output, as long as the offset is at most
the total. -/
theorem copyTag_inside {b : Bytes} (taglen : Nat) {r : GetScan} {buflen : Nat}
    (hout : r.out.length = buflen) (hcontent : r.curr + taglen ≤ b.length)
    (hbuf : r.buf + taglen + 1 ≤ r.totalBytes) :
    ∃ r', copyTag b buflen taglen r = some r' ∧ r'.out.length = buflen ∧
      r'.buf ≤ r'.totalBytes ∧ r'.totalBytes = r.totalBytes := by
  unfold copyTag
  by_cases hroom : r.totalBytes < buflen
  · rw [if_pos hroom]
    obtain ⟨content, hcopy, hlen⟩ := strncpy_of_le (a := b.drop r.curr) (n := taglen) (by
      rw [List.length_drop]
      omega)
    obtain ⟨out₁, hfirst⟩ : ∃ out₁, memcpy r.out r.buf content = some out₁ :=
      ⟨_, memcpy_of_le (by omega)⟩
    have hout₁ : out₁.length = buflen := (length_memcpy hfirst).trans hout
    obtain ⟨out₂, hnul⟩ : ∃ out₂, memcpy out₁ (r.buf + taglen) [0] = some out₂ :=
      ⟨_, memcpy_of_le (by rw [List.length_singleton]; omega)⟩
    have hout₂ : out₂.length = buflen := (length_memcpy hnul).trans hout₁
    rw [hcopy]
    simp only [Option.bind_eq_bind, Option.bind_some]
    rw [hfirst]
    simp only [Option.bind_some]
    rw [hnul]
    exact ⟨_, rfl, hout₂, hbuf, rfl⟩
  · rw [if_neg hroom]
    exact ⟨r, rfl, hout, by omega, rfl⟩

theorem getScan_inside {b : Bytes} {buflen : Nat} : ∀ (n : Nat) (r : GetScan),
    r.out.length = buflen → r.buf ≤ r.totalBytes → r.totalBytes + 65536 * n < 2 ^ 32 →
    ∃ r', getScan b buflen n r = some r' ∧ r'.out.length = buflen
  | 0, r, hout, _, _ => ⟨r, rfl, hout⟩
  | n + 1, r, hout, hbuf, hsmall => by
      by_cases hroom : b.length < r.curr + 2
      · rw [getScan, if_pos hroom]
        exact ⟨_, rfl, hout⟩
      obtain ⟨taglen, hlt, hread⟩ := readLe16_of_le (show r.curr + 2 ≤ b.length by omega)
      rw [getScan, if_neg hroom, hread]
      simp only [Option.bind_eq_bind, Option.bind_some]
      by_cases hzero : taglen = 0
      · rw [if_pos hzero]
        exact ⟨r, rfl, hout⟩
      rw [if_neg hzero]
      by_cases hcut : b.length < r.curr + 2 + taglen
      · rw [if_pos hcut]
        exact ⟨_, rfl, hout⟩
      rw [if_neg hcut, sizeT_of_lt (by omega)]
      obtain ⟨r', hcopy, hout', hbuf', htotal⟩ := copyTag_inside (b := b) taglen
        (r := { r with curr := r.curr + 2, totalBytes := r.totalBytes + taglen + 1 }) hout
        (show r.curr + 2 + taglen ≤ b.length by omega)
        (show r.buf + taglen + 1 ≤ r.totalBytes + taglen + 1 by omega)
      rw [hcopy]
      simp only [Option.bind_some]
      refine getScan_inside n { r' with curr := r'.curr + taglen } hout' hbuf' ?_
      show r'.totalBytes + 65536 * n < 2 ^ 32
      rw [htotal]
      show r.totalBytes + taglen + 1 + 65536 * n < 2 ^ 32
      omega

/-- Where the addition writes, it writes the length of the tag and the tag. -/
def WritesLength (s : State) (now : Nat) (new : NewBlock) (w : Word) : Prop :=
  ∀ e s', ext2Addtag s now new w = some (e, s') → s'.dirtied ≠ s.dirtied →
    ∃ curr, curr + w.bytes.length + 4 ≤ (s'.block s'.iFileTags).length ∧
      readLe16 (s'.block s'.iFileTags) curr = some w.bytes.length ∧
      ((s'.block s'.iFileTags).drop (curr + 2)).take w.bytes.length = w.bytes

theorem writesLength_of_lt {s : State} (now : Nat) (new : NewBlock) {w : Word}
    (hw : w.bytes.length < 65536) : WritesLength s now new w := by
  intro e s' hr hdirty
  by_cases hnone : s.iFileTags = 0
  · obtain ⟨r, hr₁, hout⟩ := ext2Addtag_first now new w hnone
    rw [hr, Option.some.injEq] at hr₁
    subst hr₁
    cases hout with
    | tooLong _ => exact absurd rfl hdirty
    | noBlock code _ => exact absurd rfl hdirty
    | noRoom id data _ _ _ => exact absurd rfl hdirty
    | written id data _ _ hroom htags _ hblock =>
        obtain ⟨hlen, hread, hcontent⟩ := withEntry_reads data 0 (w := w) (by omega) hw
        rw [htags, hblock, hlen]
        exact ⟨0, by omega, hread, hcontent⟩
  · obtain ⟨r, hr₁, hout⟩ := ext2Addtag_any now new w hnone
    rw [hr, Option.some.injEq] at hr₁
    subst hr₁
    cases hout with
    | tooLong _ => exact absurd rfl hdirty
    | present _ => exact absurd rfl hdirty
    | full _ => exact absurd rfl hdirty
    | noRoom _ => exact absurd rfl hdirty
    | written _ _ _ hroom =>
        obtain ⟨hlen, hread, hcontent⟩ := withEntry_reads _ _ hroom hw
        refine ⟨s.listing.cursor, ?_⟩
        rw [State.touch, State.setBlock]
        dsimp only
        rw [Function.update_self, hlen]
        exact ⟨hroom, hread, hcontent⟩

/-- **The tag calls stay inside their buffers.** For every content of the block,
every size and every tag; and a tag shorter than 65536 bytes is written with its
length. -/
theorem tag_accesses_inside (s : State) (now : Nat) (new : NewBlock) (w : Word) (buf : Bytes) :
    (∃ r, ext2Addtag s now new w = some r) ∧ (∃ r, ext2Rmtag s now w = some r) ∧
      (∃ total out, ext2Gettags s buf buf.length = some (total, out) ∧ out.length = buf.length) ∧
      (w.bytes.length < 65536 → WritesLength s now new w) := by
  refine ⟨?_, ?_, ?_, writesLength_of_lt now new⟩
  · by_cases hnone : s.iFileTags = 0
    · obtain ⟨r, hr, _⟩ := ext2Addtag_first now new w hnone
      exact ⟨r, hr⟩
    · obtain ⟨r, hr, _⟩ := ext2Addtag_any now new w hnone
      exact ⟨r, hr⟩
  · obtain ⟨e, s', hr, _, _⟩ := ext2Rmtag_any s now w
    exact ⟨_, hr⟩
  · by_cases hnone : s.iFileTags = 0
    · exact ⟨0, buf, by rw [ext2Gettags, if_pos hnone], rfl⟩
    · obtain ⟨r, hr, hlen⟩ := getScan_inside (b := s.block s.iFileTags) EXT2_MAX_TAGS
        ⟨0, 0, 0, buf⟩ rfl (le_refl _) (show 0 + 65536 * 16 < 2 ^ 32 by decide)
      rw [ext2Gettags, if_neg hnone, hr]
      exact ⟨_, _, rfl, hlen⟩

theorem corruptDevice_inside : WritesLength corruptDevice 1 (.error 0) wordA :=
  (tag_accesses_inside corruptDevice 1 (.error 0) wordA []).2.2.2 (by decide)

/-- Blocks of 65540 bytes. -/
def hugeDevice : State :=
  { freshDevice with sBlocksize := 65540, block := fun _ => List.replicate 65540 0 }

def longWord : Word :=
  ⟨List.replicate 65536 97, fun h => absurd (List.eq_of_mem_replicate h) (by decide), by
    rw [List.length_replicate]
    decide⟩

/-- A tag of 65536 bytes fits the block, and 0 is written for its length. -/
theorem long_tag_length_cut :
    4 ≤ hugeDevice.sBlocksize ∧ (∀ id, (hugeDevice.block id).length = hugeDevice.sBlocksize) ∧
      longWord.bytes.length ≤ hugeDevice.sBlocksize ∧
      ¬ WritesLength hugeDevice 1 (.block 5 (List.replicate 65540 0)) longWord := by
  have hlen : longWord.bytes.length = 65536 := List.length_replicate ..
  refine ⟨by decide, fun id => List.length_replicate .., by rw [hlen]; decide, ?_⟩
  intro hwrites
  obtain ⟨r, hr, hout⟩ :=
    ext2Addtag_first (s := hugeDevice) 1 (.block 5 (List.replicate 65540 0)) longWord rfl
  cases hout with
  | tooLong hlong =>
      have hsize : ¬ 65540 < longWord.bytes.length + 4 := by omega
      exact hsize hlong
  | noBlock code hnew => cases hnew
  | noRoom id data hnew _ hroom =>
      cases hnew
      rw [List.length_replicate] at hroom
      omega
  | written id data s' hnew _ _ hdirty _ =>
      obtain ⟨curr, hinside, hread, _⟩ := hwrites 0 s' hr (by rw [hdirty]; simp)
      -- two bytes hold no number from 65536 on
      obtain ⟨n, hlt, hn⟩ := readLe16_of_le (show curr + 2 ≤ (s'.block s'.iFileTags).length by omega)
      rw [hn, Option.some.injEq] at hread
      omega

end LinuxHacks.Tags
