import LinuxHacks.Tags.Model

/-!
# The format of a tag block, and its preservation

`Decodes b ts` says that the block `b` holds the tags `ts`: their entries, a
zero length, and bytes nobody reads. The two scans are specified on such
blocks, and from that each call keeps the file without a tag block or with a
block that decodes to some list of tags.

The scans are followed along a split of the list, `ts = done ++ todo`, with the
offset at the end of the entries of `done`.
-/

namespace LinuxHacks.Tags

open LinuxHacks.Lib

/-! ## The format -/

/-- One entry: length and content. -/
def encodeTag (t : Bytes) : Bytes := le16 t.length ++ t

def encode (ts : List Bytes) : Bytes := ts.flatMap encodeTag

/-- Block `b` holds the tags `ts`. -/
structure Decodes (b : Bytes) (ts : List Bytes) : Prop where
  atMost : ts.length ≤ EXT2_MAX_TAGS
  lengths : ∀ t ∈ ts, 1 ≤ t.length ∧ t.length < 65536
  nodup : ts.Nodup
  layout : ∃ junk, b = encode ts ++ (le16 0 ++ junk)

def WellFormed (b : Bytes) : Prop := ∃ ts, Decodes b ts

@[simp] theorem encode_nil : encode [] = [] := rfl

@[simp] theorem encode_cons (t : Bytes) (ts : List Bytes) :
    encode (t :: ts) = encodeTag t ++ encode ts := rfl

@[simp] theorem encode_append (ts us : List Bytes) :
    encode (ts ++ us) = encode ts ++ encode us := by
  simp [encode]

@[simp] theorem length_encodeTag (t : Bytes) : (encodeTag t).length = 2 + t.length := by
  simp [encodeTag]

/-! ## Reading one entry -/

/-- The block at an entry: its length, its content within the block, and the
content itself. -/
theorem entry_at (pre post : Bytes) {t : Bytes} (ht : t.length < 65536) :
    readLe16 (pre ++ (encodeTag t ++ post)) pre.length = some t.length ∧
      ¬ (pre ++ (encodeTag t ++ post)).length < pre.length + 2 ∧
      ¬ (pre ++ (encodeTag t ++ post)).length < pre.length + 2 + t.length ∧
      (pre ++ (encodeTag t ++ post)).drop (pre.length + 2) = t ++ post := by
  refine ⟨?_, ?_, ?_, ?_⟩
  · rw [encodeTag, List.append_assoc]
    exact readLe16_append pre (t ++ post) ht
  · simp only [List.length_append, length_encodeTag]
    omega
  · simp only [List.length_append, length_encodeTag]
    omega
  · rw [encodeTag, List.append_assoc, ← List.append_assoc pre]
    exact List.drop_left' (by simp)

/-- The block at the terminator. -/
theorem terminator_at (pre post : Bytes) :
    readLe16 (pre ++ (le16 0 ++ post)) pre.length = some 0 ∧
      ¬ (pre ++ (le16 0 ++ post)).length < pre.length + 2 := by
  refine ⟨readLe16_append pre post (by decide), ?_⟩
  simp only [List.length_append, length_le16]
  omega

/-- The first entry is read off the bytes. -/
theorem encode_cons_inj {t u : Bytes} {ts us : List Bytes} {j k : Bytes}
    (ht : t.length < 65536) (hu : u.length < 65536)
    (h : encode (t :: ts) ++ j = encode (u :: us) ++ k) : t = u ∧ encode ts ++ j = encode us ++ k := by
  rw [encode_cons, encode_cons, encodeTag, encodeTag, List.append_assoc, List.append_assoc,
    List.append_assoc, List.append_assoc] at h
  have hlen : t.length = u.length := by
    have hread := readLe16_append [] (t ++ (encode ts ++ j)) ht
    rw [List.nil_append, h, ← List.nil_append (le16 u.length ++ _), readLe16_append [] _ hu] at hread
    exact (Option.some.inj hread).symm
  rw [hlen] at h
  exact List.append_inj (List.append_cancel_left h) hlen

/-- The terminator is not an entry. -/
theorem encode_cons_ne {t : Bytes} {ts : List Bytes} {j k : Bytes} (hpos : 1 ≤ t.length)
    (ht : t.length < 65536) : encode (t :: ts) ++ j ≠ le16 0 ++ k := by
  intro h
  rw [encode_cons, encodeTag, List.append_assoc, List.append_assoc] at h
  have hread := readLe16_append [] (t ++ (encode ts ++ j)) ht
  rw [List.nil_append, h, ← List.nil_append (le16 0 ++ _), readLe16_append [] _ (by decide)] at hread
  have hzero : 0 = t.length := Option.some.inj hread
  omega

/-- A block holds one list of tags at most. -/
theorem Decodes.unique {b : Bytes} : ∀ {ts us : List Bytes}, Decodes b ts → Decodes b us →
    ts = us := by
  intro ts us h h'
  obtain ⟨j, hj⟩ := h.layout
  obtain ⟨k, hk⟩ := h'.layout
  have heq : encode ts ++ (le16 0 ++ j) = encode us ++ (le16 0 ++ k) := hj.symm.trans hk
  have hts := h.lengths
  have hus := h'.lengths
  clear hj hk h h'
  induction ts generalizing us with
  | nil =>
      cases us with
      | nil => rfl
      | cons u us =>
          obtain ⟨hpos, hlt⟩ := hus u List.mem_cons_self
          exact absurd heq.symm (encode_cons_ne hpos hlt)
  | cons t ts ih =>
      obtain ⟨hpos, hlt⟩ := hts t List.mem_cons_self
      cases us with
      | nil => exact absurd heq (encode_cons_ne hpos hlt)
      | cons u us =>
          obtain ⟨rfl, hrest⟩ := encode_cons_inj hlt (hus u List.mem_cons_self).2 heq
          rw [ih hrest (fun v hv => hts v (List.mem_cons_of_mem _ hv))
            (fun v hv => hus v (List.mem_cons_of_mem _ hv))]

/-! ## The scan of `ext2_addtag` -/

/-- What the scan finds: the word itself, no room for a 17th entry, or the
offset of the terminator. -/
inductive AddScanSpec (ts : List Bytes) (w : Word) (r : AddScan) : Prop
  | found : w.bytes ∈ ts → r.i < EXT2_MAX_TAGS → r.error = 0 → r.tagFound = true →
      AddScanSpec ts w r
  | full : w.bytes ∉ ts → ts.length = EXT2_MAX_TAGS → r.i = EXT2_MAX_TAGS →
      AddScanSpec ts w r
  | atEnd : w.bytes ∉ ts → ts.length < EXT2_MAX_TAGS →
      r = ⟨ts.length, (encode ts).length, 0, false⟩ → AddScanSpec ts w r

/-- One iteration over an entry that lies in the block. -/
theorem addScan_entry {b : Bytes} {w : Word} {n i curr taglen : Nat} {same : Bool}
    (hroom : ¬ b.length < curr + 2) (hread : readLe16 b curr = some taglen)
    (hpos : taglen ≠ 0) (hfits : ¬ b.length < curr + 2 + taglen)
    (hmatch : addMatch b w (curr + 2) taglen = some same) :
    addScan b w (n + 1) i curr =
      if same then some ⟨i, curr + 2, 0, true⟩
      else addScan b w n (i + 1) (curr + 2 + taglen) := by
  rw [addScan, if_neg hroom, hread]
  simp only [Option.bind_eq_bind, Option.bind_some]
  rw [if_neg hpos, if_neg hfits, hmatch]
  rfl

theorem addMatch_eq {b post t : Bytes} {w : Word} {curr : Nat} (hdrop : b.drop curr = t ++ post) :
    addMatch b w curr t.length = some (decide (t = w.bytes)) := by
  unfold addMatch
  by_cases hl : t.length = w.bytes.length
  · rw [if_pos hl, hdrop, hl, Word.cstr, strncmpEq_eq hl w.noNul]
  · rw [if_neg hl]
    have hne : t ≠ w.bytes := fun h => hl (by rw [h])
    simp [hne]

theorem addScan_spec (w : Word) (junk : Bytes) :
    ∀ (todo done : List Bytes) (n : Nat), done.length + n = EXT2_MAX_TAGS →
      todo.length ≤ n → (∀ t ∈ todo, 1 ≤ t.length ∧ t.length < 65536) → w.bytes ∉ done →
      ∃ r, addScan (encode done ++ (encode todo ++ (le16 0 ++ junk))) w n done.length
          (encode done).length = some r ∧ AddScanSpec (done ++ todo) w r
  | [], done, 0, hn, _, _, hw => by
      refine ⟨_, rfl, .full (by simpa using hw) (by simpa using hn) (by simpa using hn)⟩
  | [], done, n + 1, hn, _, _, hw => by
      obtain ⟨hread, hroom⟩ := terminator_at (encode done) junk
      refine ⟨⟨done.length, (encode done).length, 0, false⟩, ?_, ?_⟩
      · rw [addScan, encode_nil, List.nil_append, if_neg hroom, hread]
        rfl
      · refine .atEnd (by simpa using hw) ?_ (by simp)
        rw [List.append_nil]
        omega
  | t :: todo, done, 0, _, hle, _, _ => by simp at hle
  | t :: todo, done, n + 1, hn, hle, hlen, hw => by
      obtain ⟨hpos, hlt⟩ := hlen t List.mem_cons_self
      obtain ⟨hread, hroom, hfits, hdrop⟩ :=
        entry_at (encode done) (encode todo ++ (le16 0 ++ junk)) hlt
      have hstep := addScan_entry (n := n) (i := done.length) hroom hread (by omega) hfits
        (addMatch_eq (w := w) hdrop)
      rw [encode_cons, List.append_assoc, hstep]
      by_cases htw : t = w.bytes
      · refine ⟨⟨done.length, (encode done).length + 2, 0, true⟩, by simp [htw], ?_⟩
        exact .found (by simp [htw]) (by show done.length < _; omega) rfl rfl
      · -- the block does not change, only the split of its list of tags
        obtain ⟨r, hr, hspec⟩ := addScan_spec w junk todo (done ++ [t]) n
          (by simp; omega) (by simpa using hle)
          (fun u hu => hlen u (List.mem_cons_of_mem _ hu))
          (by simpa using ⟨hw, fun h => htw h.symm⟩)
        refine ⟨r, ?_, by simpa using hspec⟩
        rw [if_neg (by simpa using htw), ← hr]
        congr 1
        · simp
        · simp
        · simp
          omega

/-- The scan of a well-formed block from its start. -/
theorem Decodes.addScan {b : Bytes} {ts : List Bytes} (h : Decodes b ts) (w : Word) :
    ∃ r, addScan b w EXT2_MAX_TAGS 0 0 = some r ∧ AddScanSpec ts w r := by
  obtain ⟨junk, rfl⟩ := h.layout
  exact addScan_spec w junk ts [] EXT2_MAX_TAGS (by simp) h.atMost h.lengths (by simp)

/-! ## The scan of `ext2_rmtag` -/

/-- The entry `t` is taken for the word `w`: the bytes of `t` agree with the
word up to the length of `t` (or up to a NUL in `t` at the end of the word). -/
def Takes (w : Word) (t : Bytes) : Prop := strncmpEq t w.cstr t.length = some true

/-- One iteration over an entry that lies in the block. -/
theorem rmScan_entry {b : Bytes} {w : Word} {n taglen : Nat} {r : RmScan} {same : Bool}
    (herr : ¬ r.error < 0) (hroom : ¬ b.length < r.curr + 2)
    (hread : readLe16 b r.curr = some taglen) (hpos : taglen ≠ 0)
    (hfits : ¬ b.length < r.curr + 2 + taglen)
    (hmatch : strncmpEq (b.drop (r.curr + 2)) w.cstr taglen = some same) :
    rmScan b w (n + 1) r =
      if same then
        if r.tagFound then some { r with curr := r.curr + 2, error := -EINVAL }
        else
          rmScan b w n
            ⟨r.i + 1, r.curr + 2 + taglen, r.error, true, r.curr, r.curr + 2 + taglen⟩
      else rmScan b w n { r with i := r.i + 1, curr := r.curr + 2 + taglen } := by
  rw [rmScan, if_neg herr, if_neg hroom, hread]
  simp only [Option.bind_eq_bind, Option.bind_some]
  rw [if_neg hpos, if_neg hfits, rmMatch, if_pos rfl, hmatch]
  rfl

/-- Whether, and where, the entries `ts` hold an entry taken for the word. -/
inductive RmFound (ts : List Bytes) (w : Word) (r : RmScan) : Prop
  | missing : (∀ t ∈ ts, ¬ Takes w t) → r.tagFound = false → RmFound ts w r
  | one (pre : List Bytes) (t : Bytes) (post : List Bytes) : ts = pre ++ t :: post →
      Takes w t → (∀ u ∈ pre ++ post, ¬ Takes w u) → r.tagFound = true →
      r.rmOffset = (encode pre).length → r.rmOffsetEnd = (encode pre).length + (2 + t.length) →
      RmFound ts w r

/-- The loop went over all entries, or met a second one taken for the word. -/
inductive RmScanSpec (ts : List Bytes) (w : Word) (r : RmScan) : Prop
  | through : r.error = 0 → r.i = ts.length → RmFound ts w r → RmScanSpec ts w r
  | twice (pre : List Bytes) (t : Bytes) (post : List Bytes) : ts = pre ++ t :: post →
      Takes w t → (∃ u ∈ pre, Takes w u) → r.error = -EINVAL → r.tagFound = true →
      RmScanSpec ts w r

/-- An entry that is not taken leaves the finding as it is. -/
theorem RmFound.skip {ts : List Bytes} {w : Word} {r : RmScan} {i curr : Nat} {t : Bytes}
    (h : RmFound ts w r) (ht : ¬ Takes w t) :
    RmFound (ts ++ [t]) w { r with i := i, curr := curr } := by
  cases h with
  | missing hnone hfound =>
      refine .missing ?_ hfound
      intro u hu
      rcases List.mem_append.mp hu with hu | hu
      · exact hnone u hu
      · rw [List.mem_singleton.mp hu]
        exact ht
  | one pre u post hts hu hrest hfound hoff hend =>
      refine .one pre u (post ++ [t]) (by simp [hts]) hu ?_ hfound hoff hend
      intro v hv
      rw [← List.append_assoc] at hv
      rcases List.mem_append.mp hv with hv | hv
      · exact hrest v hv
      · rw [List.mem_singleton.mp hv]
        exact ht

theorem rmScan_spec (w : Word) (junk : Bytes) :
    ∀ (todo done : List Bytes) (n : Nat) (r : RmScan), done.length + n = EXT2_MAX_TAGS →
      todo.length ≤ n → (∀ t ∈ todo, 1 ≤ t.length ∧ t.length < 65536) →
      r.error = 0 → r.i = done.length → r.curr = (encode done).length → RmFound done w r →
      ∃ r', rmScan (encode done ++ (encode todo ++ (le16 0 ++ junk))) w n r = some r' ∧
        RmScanSpec (done ++ todo) w r'
  | [], done, 0, r, _, _, _, herr, hi, _, hf => by
      refine ⟨r, rfl, .through herr ?_ ?_⟩
      · simpa using hi
      · simpa using hf
  | [], done, n + 1, r, _, _, _, herr, hi, hcurr, hf => by
      obtain ⟨hread, hroom⟩ := terminator_at (encode done) junk
      refine ⟨r, ?_, .through herr ?_ ?_⟩
      · rw [rmScan, if_neg (by omega), encode_nil, List.nil_append, hcurr, if_neg hroom, hread]
        rfl
      · simpa using hi
      · simpa using hf
  | t :: todo, done, 0, _, _, hle, _, _, _, _, _ => by simp at hle
  | t :: todo, done, n + 1, r, hn, hle, hlen, herr, hi, hcurr, hf => by
      obtain ⟨hpos, hlt⟩ := hlen t List.mem_cons_self
      obtain ⟨hread, hroom, hfits, hdrop⟩ :=
        entry_at (encode done) (encode todo ++ (le16 0 ++ junk)) hlt
      obtain ⟨same, hsame⟩ : ∃ same, strncmpEq t w.cstr t.length = some same :=
        strncmpEq_of_le (le_refl _) w.noNul
      have hcmp : strncmpEq ((encode done ++ (encodeTag t ++ (encode todo ++ (le16 0 ++ junk)))).drop
          ((encode done).length + 2)) w.cstr t.length = some same := by
        rw [hdrop, strncmpEq_append, hsame]
      rw [← hcurr] at hread hroom hfits hcmp
      have hstep := rmScan_entry (n := n) (by omega) hroom hread (by omega) hfits hcmp
      rw [encode_cons, List.append_assoc, hstep]
      -- the rest of the loop, over the block split one entry later
      have hblock : encode done ++ (encodeTag t ++ (encode todo ++ (le16 0 ++ junk))) =
          encode (done ++ [t]) ++ (encode todo ++ (le16 0 ++ junk)) := by
        simp
      have hrest : ∀ r₁ : RmScan, r₁.error = 0 → r₁.i = r.i + 1 →
          r₁.curr = r.curr + 2 + t.length → RmFound (done ++ [t]) w r₁ →
          ∃ r', rmScan (encode done ++ (encodeTag t ++ (encode todo ++ (le16 0 ++ junk)))) w n r₁ =
            some r' ∧ RmScanSpec (done ++ t :: todo) w r' := by
        intro r₁ herr₁ hi₁ hcurr₁ hf₁
        obtain ⟨r', hr', hspec⟩ := rmScan_spec w junk todo (done ++ [t]) n r₁
          (by simp; omega) (by simpa using hle)
          (fun u hu => hlen u (List.mem_cons_of_mem _ hu)) herr₁ (by simp; omega)
          (by simp; omega) hf₁
        exact ⟨r', by rw [hblock, hr'], by simpa using hspec⟩
      cases same with
      | false =>
          have hnot : ¬ Takes w t := by
            rw [Takes, hsame]
            simp
          rw [if_neg (by simp)]
          exact hrest _ herr rfl rfl (hf.skip hnot)
      | true =>
          rw [if_pos rfl]
          cases hf with
          | missing hnone hfound =>
              rw [if_neg (by simp [hfound])]
              refine hrest _ herr rfl rfl (.one done t [] rfl hsame ?_ rfl hcurr ?_)
              · simpa using hnone
              · show r.curr + 2 + t.length = _
                omega
          | one pre u post hts hu _ hfound _ _ =>
              rw [if_pos hfound]
              refine ⟨_, rfl, .twice done t todo rfl hsame ⟨u, ?_, hu⟩ rfl hfound⟩
              simp [hts]

/-- The scan of a well-formed block from its start. -/
theorem Decodes.rmScan {b : Bytes} {ts : List Bytes} (h : Decodes b ts) (w : Word) :
    ∃ r, rmScan b w EXT2_MAX_TAGS ⟨0, 0, 0, false, 0, 0⟩ = some r ∧ RmScanSpec ts w r := by
  obtain ⟨junk, rfl⟩ := h.layout
  exact rmScan_spec w junk ts [] EXT2_MAX_TAGS _ (by simp) h.atMost h.lengths rfl rfl rfl
    (.missing (by simp) rfl)

end LinuxHacks.Tags
