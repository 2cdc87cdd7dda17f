import LinuxHacks.Tags.Removing

/-!
# Reading any block as a list of entries

The scans do not know that the block they walk was written by this code.
`listing` reads arbitrary bytes as entries, up to a zero length, the limit on the
number of entries, or a length that leads out of the block, and the scans of
`ext2_addtag` and `ext2_rmtag` are specified by it: `addScan_listing`,
`rmScan_listing`.
-/

namespace LinuxHacks.Tags

open LinuxHacks.Lib

/-! ## The listing of a block -/

/-- Why no further entry is read. -/
inductive ScanEnd where
  | terminator
  | full
  | lengthCut
  | contentCut
deriving DecidableEq, Repr

/-- `error` of a scan that came to this end. -/
def ScanEnd.error : ScanEnd → Int
  | .terminator => 0
  | .full => 0
  | .lengthCut => -ESPIPE
  | .contentCut => -ESPIPE

structure Listing where
  entries : List Bytes
  stop : ScanEnd
deriving DecidableEq, Repr

/-- The entries from the start of `b`, at most `n` of them. -/
def listing : Nat → Bytes → Listing
  | 0, _ => ⟨[], .full⟩
  | n + 1, lo :: hi :: rest =>
      if lo.toNat + 256 * hi.toNat = 0 then ⟨[], .terminator⟩
      else if rest.length < lo.toNat + 256 * hi.toNat then ⟨[], .contentCut⟩
      else
        ⟨rest.take (lo.toNat + 256 * hi.toNat) ::
            (listing n (rest.drop (lo.toNat + 256 * hi.toNat))).entries,
          (listing n (rest.drop (lo.toNat + 256 * hi.toNat))).stop⟩
  | _ + 1, _ => ⟨[], .lengthCut⟩

/-- Where the cursor stands at the end: a cut content is found out behind its
length. -/
def Listing.cursor (l : Listing) : Nat :=
  (encode l.entries).length + if l.stop = .contentCut then 2 else 0

/-- The four ways a block goes on at the cursor. -/
inductive Head (n : Nat) : Bytes → Prop
  | lengthCut {rest : Bytes} : rest.length < 2 → listing (n + 1) rest = ⟨[], .lengthCut⟩ →
      Head n rest
  | terminator (rest : Bytes) : listing (n + 1) (0 :: 0 :: rest) = ⟨[], .terminator⟩ →
      Head n (0 :: 0 :: rest)
  | contentCut {lo hi : UInt8} {rest : Bytes} : lo.toNat + 256 * hi.toNat ≠ 0 →
      rest.length < lo.toNat + 256 * hi.toNat →
      listing (n + 1) (lo :: hi :: rest) = ⟨[], .contentCut⟩ → Head n (lo :: hi :: rest)
  | entry {lo hi : UInt8} (t rest : Bytes) : lo.toNat + 256 * hi.toNat = t.length →
      t.length ≠ 0 → listing (n + 1) (lo :: hi :: (t ++ rest)) =
        ⟨t :: (listing n rest).entries, (listing n rest).stop⟩ → Head n (lo :: hi :: (t ++ rest))

theorem head_cases (n : Nat) : ∀ b : Bytes, Head n b
  | [] => .lengthCut (by decide) rfl
  | [x] => .lengthCut (by simp) rfl
  | lo :: hi :: rest => by
      by_cases hzero : lo.toNat + 256 * hi.toNat = 0
      · have hlo : lo = 0 := UInt8.toNat_inj.mp (show lo.toNat = 0 by omega)
        have hhi : hi = 0 := UInt8.toNat_inj.mp (show hi.toNat = 0 by omega)
        subst hlo hhi
        exact .terminator rest (by rw [listing, if_pos hzero])
      by_cases hcut : rest.length < lo.toNat + 256 * hi.toNat
      · exact .contentCut hzero hcut (by rw [listing, if_neg hzero, if_pos hcut])
      · have hlen : (rest.take (lo.toNat + 256 * hi.toNat)).length = lo.toNat + 256 * hi.toNat := by
          rw [List.length_take]
          omega
        have hsplit := List.take_append_drop (lo.toNat + 256 * hi.toNat) rest
        have hentry : listing (n + 1) (lo :: hi :: rest) =
            ⟨rest.take (lo.toNat + 256 * hi.toNat) ::
                (listing n (rest.drop (lo.toNat + 256 * hi.toNat))).entries,
              (listing n (rest.drop (lo.toNat + 256 * hi.toNat))).stop⟩ := by
          rw [listing, if_neg hzero, if_neg hcut]
        rw [← hsplit] at hentry ⊢
        rw [hsplit] at hentry
        refine .entry _ _ hlen.symm (by rw [hlen]; exact hzero) ?_
        rw [hsplit]
        exact hentry

/-- Fewer entries than allowed, unless the limit stopped the reading. -/
theorem listing_length : ∀ (n : Nat) (b : Bytes), (listing n b).entries.length ≤ n ∧
    ((listing n b).entries.length = n ↔ (listing n b).stop = .full)
  | 0, b => by simp [listing]
  | n + 1, b => by
      cases head_cases n b with
      | lengthCut _ hl => simp [hl]
      | terminator rest hl => simp [hl]
      | contentCut _ _ hl => simp [hl]
      | entry t rest _ _ hl =>
          obtain ⟨hle, hiff⟩ := listing_length n rest
          rw [hl]
          simpa using ⟨hle, hiff⟩

theorem listing_entry_lt : ∀ (n : Nat) (b : Bytes), ∀ t ∈ (listing n b).entries, t.length < 65536
  | 0, b => by simp [listing]
  | n + 1, b => by
      cases head_cases n b with
      | lengthCut _ hl => simp [hl]
      | terminator rest hl => simp [hl]
      | contentCut _ _ hl => simp [hl]
      | @entry lo hi t rest hlen _ hl =>
          rw [hl]
          intro u hu
          rcases List.mem_cons.mp hu with rfl | hu
          · have hlo := lo.toNat_lt
            have hhi := hi.toNat_lt
            omega
          · exact listing_entry_lt n rest u hu

/-- The cursor stays small, so that sums with it do not wrap. -/
theorem cursor_le (n : Nat) (b : Bytes) : (listing n b).cursor ≤ 65537 * n + 2 := by
  obtain ⟨hle, _⟩ := listing_length n b
  have hsum : ((listing n b).entries.map List.length).sum ≤ (listing n b).entries.length * 65535 := by
    have := List.sum_le_card_nsmul ((listing n b).entries.map List.length) 65535 (by
      intro m hm
      obtain ⟨t, ht, rfl⟩ := List.mem_map.mp hm
      have := listing_entry_lt n b t ht
      omega)
    simpa using this
  have hmul : (listing n b).entries.length * 65537 ≤ n * 65537 := Nat.mul_le_mul_right _ hle
  unfold Listing.cursor
  rw [length_encode]
  split <;> omega

/-- A cut length has less than two bytes left. -/
theorem cursor_lengthCut : ∀ (n : Nat) (b : Bytes), (listing n b).stop = .lengthCut →
    b.length < (listing n b).cursor + 2
  | 0, b, h => by simp [listing] at h
  | n + 1, b, h => by
      cases head_cases n b with
      | lengthCut hlt hl => simpa [hl, Listing.cursor] using hlt
      | terminator rest hl => simp [hl] at h
      | contentCut _ _ hl => simp [hl] at h
      | entry t rest _ _ hl =>
          rw [hl] at h
          have hrest := cursor_lengthCut n rest h
          rw [hl]
          simp only [Listing.cursor, encode_cons, List.length_append, length_encodeTag,
            List.length_cons] at hrest ⊢
          omega

/-! ## The scans on any block -/

theorem readLe16_at (pre rest : Bytes) (lo hi : UInt8) :
    readLe16 (pre ++ lo :: hi :: rest) pre.length = some (lo.toNat + 256 * hi.toNat) := by
  rw [readLe16, List.drop_left]

theorem drop_behind_length (pre rest : Bytes) (lo hi : UInt8) :
    (pre ++ lo :: hi :: rest).drop (pre.length + 2) = rest := by
  rw [← List.drop_drop, List.drop_left]
  rfl

/-- What the scan of `ext2_addtag` finds, `n` entries at most from offset `off`
on: the word, or the end of the listing. -/
inductive AddScanOf (l : Listing) (w : Word) (n i off : Nat) (r : AddScan) : Prop
  | found : w.bytes ∈ l.entries → r.i < i + n → r.error = 0 → r.tagFound = true →
      AddScanOf l w n i off r
  | through : w.bytes ∉ l.entries →
      r = ⟨i + l.entries.length, off + l.cursor, l.stop.error, false⟩ → AddScanOf l w n i off r

theorem addScan_listing (w : Word) : ∀ (n : Nat) (pre rest : Bytes) (i : Nat),
    ∃ r, addScan (pre ++ rest) w n i pre.length = some r ∧
      AddScanOf (listing n rest) w n i pre.length r
  | 0, pre, rest, i => ⟨_, rfl, .through (by simp [listing]) rfl⟩
  | n + 1, pre, rest, i => by
      cases head_cases n rest with
      | lengthCut hlt hl =>
          refine ⟨_, ?_, .through (by simp [hl]) rfl⟩
          rw [addScan, if_pos (by rw [List.length_append]; omega), hl]
          rfl
      | terminator rest hl =>
          refine ⟨_, ?_, .through (by simp [hl]) rfl⟩
          rw [addScan, if_neg (by simp), readLe16_at, hl]
          rfl
      | @contentCut lo hi rest hne hcut hl =>
          refine ⟨_, ?_, .through (by simp [hl]) rfl⟩
          rw [addScan, if_neg (by simp), readLe16_at]
          simp only [Option.bind_eq_bind, Option.bind_some]
          rw [if_neg hne, if_pos (by simp only [List.length_append, List.length_cons]; omega), hl]
          rfl
      | @entry lo hi t rest hlen hne hl =>
          have hread := readLe16_at pre (t ++ rest) lo hi
          have hdrop := drop_behind_length pre (t ++ rest) lo hi
          rw [hlen] at hread
          have hstep := addScan_entry (n := n) (i := i) (by simp) hread hne
            (by simp only [List.length_append, List.length_cons]; omega)
            (addMatch_eq (w := w) hdrop)
          rw [hstep, hl]
          by_cases htw : t = w.bytes
          · refine ⟨⟨i, pre.length + 2, 0, true⟩, by simp [htw], ?_⟩
            exact .found (by simp [htw]) (show i < i + (n + 1) by omega) rfl rfl
          · rw [if_neg (by simpa using htw)]
            -- the same block, with the entry on the side that was read
            obtain ⟨r, hr, hspec⟩ := addScan_listing w n (pre ++ lo :: hi :: t) rest (i + 1)
            have hcurr : (pre ++ lo :: hi :: t).length = pre.length + 2 + t.length := by
              simp only [List.length_append, List.length_cons]
              omega
            rw [List.append_assoc, hcurr] at hr
            refine ⟨r, hr, ?_⟩
            cases hspec with
            | found hmem hi herr hfound =>
                exact .found (List.mem_cons_of_mem _ hmem) (by omega) herr hfound
            | through hnot heq =>
                refine .through ?_ ?_
                · intro h
                  rcases List.mem_cons.mp h with h | h
                  · exact htw h.symm
                  · exact hnot h
                · rw [heq, hcurr]
                  simp only [Listing.cursor, encode_cons, List.length_append, length_encodeTag,
                    List.length_cons, AddScan.mk.injEq, and_true]
                  omega

/-- How many entries were taken for the word, with the earlier one. -/
def taken (l : Listing) (w : Word) (tagFound : Bool) : Nat :=
  tagFound.toNat + l.entries.countP (Agrees w ·)

/-- The scan of `ext2_rmtag` from offset `|pre|` on. -/
theorem rmScan_listing (w : Word) : ∀ (n : Nat) (pre rest : Bytes) (r : RmScan), r.error = 0 →
    r.curr = pre.length →
    ∃ r', rmScan (pre ++ rest) w n r = some r' ∧
      (r'.tagFound = true ↔ taken (listing n rest) w r.tagFound ≠ 0) ∧
      r'.error = if 2 ≤ taken (listing n rest) w r.tagFound then -EINVAL
        else (listing n rest).stop.error
  | 0, pre, rest, r, herr, hcurr => by
      refine ⟨r, rfl, ?_, ?_⟩
      · cases r.tagFound <;> simp [taken, listing]
      · cases r.tagFound <;> simp [taken, listing, herr, ScanEnd.error]
  | n + 1, pre, rest, r, herr, hcurr => by
      -- where the reading stops at once
      have hstop : ∀ (r' : RmScan) (e : ScanEnd), listing (n + 1) rest = ⟨[], e⟩ →
          rmScan (pre ++ rest) w (n + 1) r = some r' → r'.tagFound = r.tagFound →
          r'.error = e.error →
          ∃ r', rmScan (pre ++ rest) w (n + 1) r = some r' ∧
            (r'.tagFound = true ↔ taken (listing (n + 1) rest) w r.tagFound ≠ 0) ∧
            r'.error = if 2 ≤ taken (listing (n + 1) rest) w r.tagFound then -EINVAL
              else (listing (n + 1) rest).stop.error := by
        intro r' e hl hr hfound herr'
        rw [hl]
        refine ⟨r', hr, ?_, ?_⟩
        · rw [hfound]
          cases r.tagFound <;> simp [taken]
        · rw [herr']
          cases r.tagFound <;> simp [taken]
      cases head_cases n rest with
      | lengthCut hlt hl =>
          refine hstop { r with error := -ESPIPE } _ hl ?_ rfl rfl
          rw [rmScan, if_neg (by omega), hcurr, if_pos (by rw [List.length_append]; omega)]
      | terminator rest hl =>
          refine hstop r _ hl ?_ rfl herr
          rw [rmScan, if_neg (by omega), hcurr, if_neg (by simp), readLe16_at]
          rfl
      | @contentCut lo hi rest hne hcut hl =>
          refine hstop { r with curr := r.curr + 2, error := -ESPIPE } _ hl ?_ rfl rfl
          rw [rmScan, if_neg (by omega), hcurr, if_neg (by simp), readLe16_at]
          simp only [Option.bind_eq_bind, Option.bind_some]
          rw [if_neg hne, if_pos (by simp only [List.length_append, List.length_cons]; omega)]
      | @entry lo hi t rest hlen hne hl =>
          clear hstop
          obtain ⟨same, hsame⟩ : ∃ same, strncmpEq t w.cstr t.length = some same :=
            strncmpEq_of_le (le_refl _) w.noNul
          have hread := readLe16_at pre (t ++ rest) lo hi
          have hcmp : strncmpEq ((pre ++ lo :: hi :: (t ++ rest)).drop (pre.length + 2)) w.cstr
              t.length = some same := by
            rw [drop_behind_length, strncmpEq_append, hsame]
          rw [hlen, ← hcurr] at hread
          rw [← hcurr] at hcmp
          have hstep := rmScan_entry (n := n) (by omega) (by rw [hcurr]; simp) hread hne
            (by rw [hcurr]; simp only [List.length_append, List.length_cons]; omega) hcmp
          rw [hstep, hl]
          -- the same block, with the entry on the side that was read
          have hnext : ∀ r₁ : RmScan, r₁.error = 0 → r₁.curr = r.curr + 2 + t.length →
              ∃ r', rmScan (pre ++ lo :: hi :: (t ++ rest)) w n r₁ = some r' ∧
                (r'.tagFound = true ↔ taken (listing n rest) w r₁.tagFound ≠ 0) ∧
                r'.error = if 2 ≤ taken (listing n rest) w r₁.tagFound then -EINVAL
                  else (listing n rest).stop.error := by
            intro r₁ herr₁ hcurr₁
            have := rmScan_listing w n (pre ++ lo :: hi :: t) rest r₁ herr₁ (by
              rw [hcurr₁, hcurr]
              simp only [List.length_append, List.length_cons]
              omega)
            rwa [List.append_assoc] at this
          have hagrees : Agrees w t ↔ same = true := by
            rw [← takes_iff_agrees, Takes, hsame, Option.some.injEq]
          cases same with
          | false =>
              have hcount : taken ⟨t :: (listing n rest).entries, (listing n rest).stop⟩ w
                  r.tagFound = taken (listing n rest) w r.tagFound := by
                rw [taken, taken, List.countP_cons_of_neg (by simpa using hagrees)]
              rw [if_neg (by simp), hcount]
              exact hnext _ herr rfl
          | true =>
              have hcount : taken ⟨t :: (listing n rest).entries, (listing n rest).stop⟩ w
                  r.tagFound = taken (listing n rest) w r.tagFound + 1 := by
                rw [taken, taken, List.countP_cons_of_pos (by simpa using hagrees), Nat.add_assoc]
              rw [if_pos rfl, hcount]
              by_cases hfound : r.tagFound = true
              · rw [if_pos hfound, hfound]
                refine ⟨_, rfl, ?_, ?_⟩
                · simp
                · rw [if_pos (by simp [taken])]
              · rw [if_neg hfound]
                obtain ⟨r', hr', hfound', herr'⟩ := hnext
                  ⟨r.i + 1, r.curr + 2 + t.length, r.error, true, r.curr, r.curr + 2 + t.length⟩
                  herr rfl
                have hone : taken (listing n rest) w true =
                    taken (listing n rest) w r.tagFound + 1 := by
                  rw [Bool.not_eq_true] at hfound
                  rw [hfound, taken, taken]
                  simp [Nat.add_comm]
                refine ⟨r', hr', ?_, ?_⟩
                · rw [hfound', hone]
                · rw [herr', hone]

end LinuxHacks.Tags
