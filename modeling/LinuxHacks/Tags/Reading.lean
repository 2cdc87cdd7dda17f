import Mathlib.Data.List.TakeWhile
import LinuxHacks.Tags.Adding

/-!
# Reading the tags (`ext2_gettags`, `sys_gettags`)

`ext2_gettags` copies an entry while the running total stays below the size of
the buffer; `sys_gettags` hands the buffer on when the total is at most that
size. The kernel buffer starts with arbitrary bytes, and the user gets exactly
the tags when the two comparisons agree: `gettags_readsBack`.

Sizes are `size_t`, which holds a negative error number as its residue; the
system call stores the result in an `int`.
-/

namespace LinuxHacks.Tags

open LinuxHacks.Lib

/-! ## The two functions -/

def intOfSizeT (n : Nat) : Int := if n < 2 ^ 31 then n else n - 2 ^ 32

/-- The locals of `ext2_gettags`: `buf` as an offset into the output `out`. -/
structure GetScan where
  curr : Nat
  totalBytes : Nat
  buf : Nat
  out : Bytes
deriving DecidableEq, Repr

/-- The copy of one entry, made when `total_bytes < buflen`. -/
def copyTag (b : Bytes) (buflen taglen : Nat) (r : GetScan) : Option GetScan :=
  if r.totalBytes < buflen then do
    let content ← strncpy (b.drop r.curr) taglen
    let out₁ ← memcpy r.out r.buf content
    let out₂ ← memcpy out₁ (r.buf + taglen) [0]
    some { r with out := out₂, buf := r.buf + taglen + 1 }
  else some r

/-- The loop of `ext2_gettags`. -/
def getScan (b : Bytes) (buflen : Nat) : Nat → GetScan → Option GetScan
  | 0, r => some r
  | n + 1, r =>
      if b.length < r.curr + 2 then some { r with totalBytes := sizeTOfInt (-ESPIPE) }
      else do
        let taglen ← readLe16 b r.curr
        if taglen = 0 then some r
        else if b.length < r.curr + 2 + taglen then
          some { r with curr := r.curr + 2, totalBytes := sizeTOfInt (-ESPIPE) }
        else do
          let r' ← copyTag b buflen taglen
            { r with curr := r.curr + 2, totalBytes := sizeT (r.totalBytes + taglen + 1) }
          getScan b buflen n { r' with curr := r'.curr + taglen }

/-- The total, and the output buffer afterwards. -/
def ext2Gettags (s : State) (buf : Bytes) (buflen : Nat) : Option (Nat × Bytes) :=
  if s.iFileTags = 0 then some (0, buf)
  else do
    let r ← getScan (s.block s.iFileTags) buflen EXT2_MAX_TAGS ⟨0, 0, 0, buf⟩
    some (r.totalBytes, r.out)

/-- What the path leads to: an error, or an inode whose operations have
`get_tags` or not. -/
inductive PathLookup where
  | failed (error : Int)
  | found (getTags : Bool)

/-- What `sys_gettags` meets on its way: the path, the buffer of `kmalloc` with
its bytes, and how many bytes `copy_to_user` leaves uncopied. -/
structure Surroundings where
  lookup : PathLookup
  kBuf : Option Bytes
  uncopied : Nat

/-- `copy_to_user(buffer, k_buf, n)`. -/
def copyToUser (user kBuf : Bytes) (n uncopied : Nat) : Option Bytes :=
  if n ≤ kBuf.length then memcpy user 0 (kBuf.take (n - uncopied)) else none

/-- The return value, and the user buffer afterwards. -/
def sysGettags (s : State) (env : Surroundings) (user : Bytes) (size : Nat) :
    Option (Nat × Bytes) :=
  match env.lookup with
  | .failed error => some (sizeTOfInt error, user)
  | .found getTags =>
      match env.kBuf with
      | none => some (sizeTOfInt (-ENOMEM), user)
      | some kBuf =>
          if getTags then do
            let r ← ext2Gettags s kBuf size
            let error := intOfSizeT r.1
            if 0 ≤ error ∧ sizeTOfInt error ≤ size then do
              let user' ← copyToUser user r.2 error.toNat env.uncopied
              some (sizeTOfInt (if env.uncopied ≠ 0 then -EFAULT else error), user')
            else some (sizeTOfInt error, user)
          else some (sizeTOfInt (-ENOSYS), user)

/-- The loop of `testing/tag.c` over the `status` bytes it was given, `n`
iterations at most, from the offset `tmp`. -/
def listTags (tag : Bytes) (status : Nat) : Nat → Nat → List Bytes
  | 0, _ => []
  | n + 1, tmp =>
      if tmp < status then
        (tag.drop tmp).takeWhile (· ≠ 0) ::
          listTags tag status n (tmp + ((tag.drop tmp).takeWhile (· ≠ 0)).length + 1)
      else []

/-! ## The scan -/

/-- The bytes the tags take as strings. -/
def total (ts : List Bytes) : Nat := (ts.map fun t => t.length + 1).sum

/-- The tags as strings, one behind the other. -/
def tagText (ts : List Bytes) : Bytes := ts.flatMap fun t => t ++ [0]

/-- The same as `strncpy` copies them. -/
def copiedText (ts : List Bytes) : Bytes := tagText (ts.map padNul)

@[simp] theorem total_nil : total [] = 0 := rfl

@[simp] theorem total_append (ts us : List Bytes) : total (ts ++ us) = total ts + total us := by
  simp [total]

theorem total_singleton (t : Bytes) : total [t] = t.length + 1 := by
  simp [total]

@[simp] theorem tagText_nil : tagText [] = [] := rfl

@[simp] theorem tagText_cons (t : Bytes) (ts : List Bytes) :
    tagText (t :: ts) = t ++ 0 :: tagText ts := by
  simp [tagText]

theorem tagText_append (ts us : List Bytes) : tagText (ts ++ us) = tagText ts ++ tagText us := by
  simp [tagText]

theorem length_tagText (ts : List Bytes) : (tagText ts).length = total ts := by
  induction ts with
  | nil => rfl
  | cons t ts ih =>
      rw [tagText_cons, List.length_append, List.length_cons, ih]
      simp only [total, List.map_cons, List.sum_cons]
      omega

theorem length_copiedText (ts : List Bytes) : (copiedText ts).length = total ts := by
  rw [copiedText, length_tagText, total, total, List.map_map]
  congr 1
  apply List.map_congr_left
  intro t _
  simp

theorem copiedText_snoc (ts : List Bytes) (t : Bytes) :
    copiedText (ts ++ [t]) = copiedText ts ++ (padNul t ++ [0]) := by
  rw [copiedText, List.map_append, tagText_append]
  simp [copiedText]

theorem copiedText_of_noNul {ts : List Bytes} (h : ∀ t ∈ ts, 0 ∉ t) :
    copiedText ts = tagText ts := by
  have hmap : ts.map padNul = ts := by
    conv_rhs => rw [← List.map_id ts]
    apply List.map_congr_left
    intro t ht
    exact padNul_of_noNul (h t ht)
  rw [copiedText, hmap]

/-- After the entries `done` the tags `copied` stand in the output, which held
the bytes `k`. Copying stops for good when the total reaches the size. -/
structure Copied (k : Bytes) (done copied : List Bytes) (r : GetScan) : Prop where
  curr : r.curr = (encode done).length
  totalBytes : r.totalBytes = total done
  buf : r.buf = total copied
  out : r.out = copiedText copied ++ k.drop (total copied)
  below : total copied < k.length
  all : copied = done ∨ k.length ≤ total done
  le : total copied ≤ total done

/-- Copying a string into the rest of a buffer. -/
theorem memcpy_string (text k content : Bytes) (hroom : text.length + content.length < k.length) :
    ∃ out, memcpy (text ++ k.drop text.length) text.length content = some out ∧
      memcpy out (text.length + content.length) [0] =
        some (text ++ (content ++ [0]) ++ k.drop (text.length + content.length + 1)) := by
  -- the rest of the buffer, cut at the end of the string and behind its NUL
  obtain ⟨o₁, o₂, hk, h₁, h₂⟩ : ∃ o₁ o₂ : Bytes, k.drop text.length =
      o₁ ++ (o₂ ++ k.drop (text.length + content.length + 1)) ∧
      o₁.length = content.length ∧ o₂.length = 1 := by
    refine ⟨(k.drop text.length).take content.length,
      ((k.drop text.length).drop content.length).take 1, ?_, ?_, ?_⟩
    · have hdrop : k.drop (text.length + content.length + 1) =
          ((k.drop text.length).drop content.length).drop 1 := by
        rw [List.drop_drop, List.drop_drop, Nat.add_assoc]
      rw [hdrop, List.take_append_drop, List.take_append_drop]
    · rw [List.length_take, List.length_drop]
      omega
    · rw [List.length_take, List.length_drop, List.length_drop]
      omega
  have hcontent := memcpy_append text o₁ (o₂ ++ k.drop (text.length + content.length + 1))
    content h₁
  have hnul := memcpy_append (text ++ content) o₂ (k.drop (text.length + content.length + 1))
    [0] h₂
  rw [List.length_append] at hnul
  refine ⟨text ++ (content ++ (o₂ ++ k.drop (text.length + content.length + 1))), ?_, ?_⟩
  · rw [hk]
    exact hcontent
  · rw [← List.append_assoc text content, hnul]
    simp

/-- One entry of the block. -/
theorem copyTag_copied {k b post t : Bytes} {done copied : List Bytes} {r : GetScan}
    (h : Copied k done copied r) (hdrop : b.drop (r.curr + 2) = t ++ post)
    (hsize : total (done ++ [t]) < 2 ^ 32) :
    ∃ r', copyTag b k.length t.length
        { r with curr := r.curr + 2, totalBytes := sizeT (r.totalBytes + t.length + 1) } = some r' ∧
      ∃ copied', Copied k (done ++ [t]) copied' { r' with curr := r'.curr + t.length } := by
  have htotal : total (done ++ [t]) = r.totalBytes + t.length + 1 := by
    rw [total_append, total_singleton, h.totalBytes, Nat.add_assoc]
  have hcurr : r.curr + 2 + t.length = (encode (done ++ [t])).length := by
    rw [h.curr]
    simp
    omega
  unfold copyTag
  rw [sizeT_of_lt (by omega)]
  by_cases hfits : r.totalBytes + t.length + 1 < k.length
  · rw [if_pos hfits]
    have hall : copied = done := by
      rcases h.all with hall | hstop
      · exact hall
      · rw [← h.totalBytes] at hstop
        omega
    subst hall
    obtain ⟨out, hcontent, hnul⟩ := memcpy_string (copiedText copied) k (padNul t) (by
      rw [length_copiedText, length_padNul, ← h.totalBytes]
      omega)
    rw [length_copiedText, length_padNul] at hnul
    rw [length_copiedText] at hcontent
    dsimp only
    rw [hdrop, strncpy_append, h.out, h.buf]
    simp only [Option.bind_eq_bind, Option.bind_some]
    rw [hcontent]
    simp only [Option.bind_some]
    rw [hnul]
    refine ⟨_, rfl, copied ++ [t], hcurr, htotal.symm, ?_, ?_, ?_, Or.inl rfl, le_refl _⟩
    · show total copied + t.length + 1 = _
      rw [total_append, total_singleton, Nat.add_assoc]
    · show copiedText copied ++ (padNul t ++ [0]) ++ k.drop (total copied + t.length + 1) = _
      rw [copiedText_snoc, total_append, total_singleton, Nat.add_assoc]
    · rw [htotal]
      exact hfits
  · rw [if_neg hfits]
    have hle := h.le
    refine ⟨_, rfl, copied, hcurr, htotal.symm, h.buf, h.out, h.below, Or.inr ?_, ?_⟩
    · omega
    · rw [total_append]
      omega

theorem getScan_spec (k junk : Bytes) :
    ∀ (todo done copied : List Bytes) (n : Nat) (r : GetScan),
      done.length + n = EXT2_MAX_TAGS → todo.length ≤ n →
      (∀ t ∈ todo, 1 ≤ t.length ∧ t.length < 65536) → total (done ++ todo) < 2 ^ 32 →
      Copied k done copied r →
      ∃ r', getScan (encode done ++ (encode todo ++ (le16 0 ++ junk))) k.length n r = some r' ∧
        ∃ copied', Copied k (done ++ todo) copied' r'
  | [], done, copied, 0, r, _, _, _, _, h => by
      refine ⟨r, rfl, copied, ?_⟩
      rw [List.append_nil]
      exact h
  | [], done, copied, n + 1, r, _, _, _, _, h => by
      obtain ⟨hread, hroom⟩ := terminator_at (encode done) junk
      refine ⟨r, ?_, copied, ?_⟩
      · rw [getScan, encode_nil, List.nil_append, h.curr, if_neg hroom, hread]
        rfl
      · rw [List.append_nil]
        exact h
  | t :: todo, done, _, 0, _, _, hle, _, _, _ => by simp at hle
  | t :: todo, done, copied, n + 1, r, hn, hle, hlen, hsize, h => by
      obtain ⟨hpos, hlt⟩ := hlen t List.mem_cons_self
      obtain ⟨hread, hroom, hfits, hdrop⟩ :=
        entry_at (encode done) (encode todo ++ (le16 0 ++ junk)) hlt
      rw [← h.curr] at hread hroom hfits hdrop
      have hsplit : done ++ t :: todo = (done ++ [t]) ++ todo := by simp
      rw [hsplit] at hsize ⊢
      obtain ⟨r₁, hcopy, copied₁, h₁⟩ := copyTag_copied h hdrop (by
        rw [total_append] at hsize
        omega)
      obtain ⟨r', hr', hspec⟩ := getScan_spec k junk todo (done ++ [t]) copied₁ n _
        (by simp; omega) (by simpa using hle) (fun u hu => hlen u (List.mem_cons_of_mem _ hu))
        hsize h₁
      refine ⟨r', ?_, hspec⟩
      -- the block does not change, only the split of its list of tags
      have hblock : encode done ++ (encode (t :: todo) ++ (le16 0 ++ junk)) =
          encode (done ++ [t]) ++ (encode todo ++ (le16 0 ++ junk)) := by
        simp
      rw [← hr', ← hblock, getScan]
      rw [encode_cons, List.append_assoc, if_neg hroom, hread]
      simp only [Option.bind_eq_bind, Option.bind_some]
      rw [if_neg (by omega), if_neg hfits, hcopy]
      rfl

/-- The tags are shorter than their block. -/
theorem total_le {s : State} {ts : List Bytes} (hd : DeviceOk s) (hf : FileHolds s ts) :
    total ts ≤ 4096 := by
  rcases hf with ⟨_, rfl⟩ | ⟨_, hdec⟩
  · exact Nat.zero_le _
  · obtain ⟨junk, hlayout⟩ := hdec.layout
    have hsize := hd.size s.iFileTags
    have hsmall := hd.small
    rw [hlayout, List.length_append, length_encode] at hsize
    have hsum : total ts = (ts.map List.length).sum + ts.length := by
      rw [total, List.sum_map_add]
      simp
    omega

/-- **What `ext2_gettags` leaves in its buffer.** The last byte of the buffer is
never written, and below the size all tags are copied. -/
theorem ext2Gettags_spec {s : State} {ts : List Bytes} {kBuf : Bytes} (hd : DeviceOk s)
    (hf : FileHolds s ts) (hpos : 0 < kBuf.length) :
    ∃ out, ext2Gettags s kBuf kBuf.length = some (total ts, out) ∧ out.length = kBuf.length ∧
      (total ts < kBuf.length → out = copiedText ts ++ kBuf.drop (total ts)) ∧
      out.drop (kBuf.length - 1) = kBuf.drop (kBuf.length - 1) := by
  have hle := total_le hd hf
  have hstart : Copied kBuf [] [] ⟨0, 0, 0, kBuf⟩ := ⟨rfl, rfl, rfl, rfl, hpos, Or.inl rfl, le_refl _⟩
  rcases hf with ⟨hnone, rfl⟩ | ⟨htagged, hdec⟩
  · refine ⟨kBuf, ?_, rfl, fun _ => rfl, rfl⟩
    rw [ext2Gettags, if_pos hnone]
    rfl
  · obtain ⟨junk, hlayout⟩ := hdec.layout
    obtain ⟨r, hr, copied, hcopied⟩ := getScan_spec kBuf junk ts [] [] EXT2_MAX_TAGS _ (by simp)
      hdec.atMost hdec.lengths (by rw [List.nil_append]; omega) hstart
    have hbelow := hcopied.below
    refine ⟨r.out, ?_, ?_, ?_, ?_⟩
    · rw [ext2Gettags, if_neg htagged, hlayout]
      rw [encode_nil, List.nil_append] at hr
      rw [show (0 : Nat) = ([] : Bytes).length from rfl] at *
      rw [hr]
      simp [hcopied.totalBytes]
    · rw [hcopied.out, List.length_append, length_copiedText, List.length_drop]
      omega
    · intro hsize
      rcases hcopied.all with hall | hstop
      · rw [hcopied.out, hall]
        rfl
      · rw [List.nil_append] at hstop
        omega
    · rw [hcopied.out, List.drop_append, length_copiedText, List.drop_eq_nil_of_le (by
        rw [length_copiedText]
        omega), List.nil_append, List.drop_drop]
      congr 1
      omega

/-! ## What the user reads -/

/-- The services succeed: the path leads to an inode with `get_tags`, `kmalloc`
returns the bytes `kBuf`, and everything is copied. -/
def served (kBuf : Bytes) : Surroundings := ⟨.found true, some kBuf, 0⟩

theorem sysGettags_spec {s : State} {ts : List Bytes} {kBuf : Bytes} (user : Bytes)
    (hd : DeviceOk s) (hf : FileHolds s ts) (hpos : 0 < kBuf.length)
    (huser : user.length = kBuf.length) :
    ∃ out, ext2Gettags s kBuf kBuf.length = some (total ts, out) ∧
      sysGettags s (served kBuf) user kBuf.length = some (total ts,
        if total ts ≤ kBuf.length then out.take (total ts) ++ user.drop (total ts) else user) := by
  have hle := total_le hd hf
  obtain ⟨out, hout, hlen, _, _⟩ := ext2Gettags_spec hd hf hpos
  refine ⟨out, hout, ?_⟩
  have hint : intOfSizeT (total ts) = total ts := if_pos (by omega)
  have hback : sizeTOfInt (total ts) = total ts := by
    rw [sizeTOfInt]
    omega
  unfold sysGettags served
  simp only [hout, Option.bind_eq_bind, Option.bind_some, if_true, hint, hback]
  by_cases hfits : total ts ≤ kBuf.length
  · rw [if_pos ⟨by omega, hfits⟩, if_pos hfits, copyToUser, Int.toNat_natCast,
      if_pos (by omega), Nat.sub_zero, memcpy_of_le (by rw [List.length_take]; omega)]
    have htake : (out.take (total ts)).length = total ts := by
      rw [List.length_take]
      omega
    simp [htake, hback]
  · rw [if_neg (fun h => hfits h.2), if_neg hfits]

/-- The strings behind the offset `pre.length` of the user buffer. -/
theorem listTags_tagText (rest : Bytes) : ∀ (ts : List Bytes) (pre : Bytes) (n : Nat),
    ts.length ≤ n → (∀ t ∈ ts, 0 ∉ t) →
      listTags (pre ++ (tagText ts ++ rest)) (pre.length + total ts) n pre.length = ts
  | [], pre, 0, _, _ => rfl
  | [], pre, n + 1, _, _ => by
      rw [listTags, total_nil, if_neg (by omega)]
  | t :: ts, pre, 0, hle, _ => by simp at hle
  | t :: ts, pre, n + 1, hle, hnul => by
      have ht : 0 ∉ t := hnul t List.mem_cons_self
      have htotal : total (t :: ts) = t.length + 1 + total ts := by
        simp [total]
      have hstring : (((pre ++ (tagText (t :: ts) ++ rest)).drop pre.length).takeWhile (· ≠ 0)) =
          t := by
        rw [List.drop_left, tagText_cons, List.append_assoc, List.cons_append]
        exact takeWhile_append_nul ht _
      rw [listTags, if_pos (by omega), hstring]
      congr 1
      have hrest := listTags_tagText rest ts (pre ++ (t ++ [0])) n (by simpa using hle)
        (fun u hu => hnul u (List.mem_cons_of_mem _ hu))
      have hbuf : pre ++ (t ++ [0]) ++ (tagText ts ++ rest) = pre ++ (tagText (t :: ts) ++ rest) := by
        simp
      have hlen : (pre ++ (t ++ [0])).length = pre.length + t.length + 1 := by
        simp
        omega
      have hend : pre.length + total (t :: ts) = pre.length + t.length + 1 + total ts := by
        rw [htotal]
        omega
      rw [hbuf, hlen] at hrest
      rw [hend]
      exact hrest

theorem listTags_noNul (tag : Bytes) (status : Nat) : ∀ (n tmp : Nat),
    ∀ t ∈ listTags tag status n tmp, 0 ∉ t
  | 0, _, t, ht => by simp [listTags] at ht
  | n + 1, tmp, t, ht => by
      rw [listTags] at ht
      split at ht
      · rcases List.mem_cons.mp ht with rfl | ht
        · intro h
          simpa using List.mem_takeWhile_imp h
        · exact listTags_noNul tag status n _ t ht
      · simp at ht

/-- Whatever bytes `kmalloc` and the user start with, the call returns the
length of the text, the user gets the text if it fits, `tag.c` reads the tags
back from it, and otherwise the user buffer stays as it is. -/
def ReadsBack (s : State) (ts : List Bytes) (size : Nat) : Prop :=
  ∀ kBuf user : Bytes, kBuf.length = size → user.length = size →
    ∃ user', sysGettags s (served kBuf) user size = some (total ts, user') ∧
      (total ts ≤ size → user'.take (total ts) = tagText ts ∧
        listTags user' (total ts) (total ts) 0 = ts) ∧
      (size < total ts → user' = user)

theorem length_le_total (ts : List Bytes) : ts.length ≤ total ts := by
  have hsum : total ts = (ts.map List.length).sum + ts.length := by
    rw [total, List.sum_map_add]
    simp
  omega

theorem drop_tagText {ts : List Bytes} (hne : ts ≠ []) :
    (tagText ts).drop (total ts - 1) = [0] := by
  obtain ⟨us, t, rfl⟩ := List.eq_nil_or_concat ts |>.resolve_left hne
  rw [List.concat_eq_append, tagText_append, total_append, total_singleton]
  have hlen : (tagText us ++ t).length = total us + (t.length + 1) - 1 := by
    rw [List.length_append, length_tagText]
    omega
  rw [← hlen, tagText_cons, tagText_nil, ← List.append_assoc, List.drop_left]

/-- **When the tags are read back.** Exactly when their text does not fill the
buffer to the last byte, and no tag holds a NUL where it is copied. -/
theorem gettags_readsBack {s : State} {ts : List Bytes} {size : Nat} (hd : DeviceOk s)
    (hf : FileHolds s ts) (hsize : 0 < size) :
    ReadsBack s ts size ↔ total ts ≠ size ∧ (total ts < size → ∀ t ∈ ts, 0 ∉ t) := by
  constructor
  · intro h
    refine ⟨?_, ?_⟩
    · -- the last byte of the kernel buffer would have to be a NUL
      intro hexact
      have hk : (List.replicate size (1 : UInt8)).length = size := List.length_replicate ..
      obtain ⟨user', huser, hread, _⟩ := h _ _ hk hk
      obtain ⟨out, hout, hspec⟩ := sysGettags_spec (List.replicate size 1) hd hf
        (by rw [hk]; exact hsize) rfl
      obtain ⟨out', hout', hlen, _, hlast⟩ := ext2Gettags_spec hd hf (by rw [hk]; exact hsize)
      rw [hout] at hout'
      cases hout'
      rw [hk, if_pos (le_of_eq hexact), huser] at hspec
      rw [hk] at hlen hlast
      have huser' : user' = out := by
        rw [(Prod.mk.inj (Option.some.inj hspec)).2, hexact, List.take_of_length_le (le_of_eq hlen),
          List.drop_eq_nil_of_le (le_of_eq hk), List.append_nil]
      have htext := (hread (le_of_eq hexact)).1
      rw [huser', hexact, List.take_of_length_le (le_of_eq hlen)] at htext
      have hne : ts ≠ [] := by
        rintro rfl
        exact absurd hexact (by simp; omega)
      have hnul := drop_tagText hne
      rw [hexact, ← htext, hlast, List.drop_replicate] at hnul
      have hone : size - (size - 1) = 1 := by omega
      rw [hone] at hnul
      exact absurd hnul (by decide)
    · intro hless
      have hk : (List.replicate size (0 : UInt8)).length = size := List.length_replicate ..
      obtain ⟨user', _, hread, _⟩ := h _ _ hk hk
      intro t ht
      rw [← (hread (by omega)).2] at ht
      exact listTags_noNul _ _ _ _ t ht
  · rintro ⟨hexact, hnul⟩ kBuf user rfl huser
    obtain ⟨out, hout, hspec⟩ := sysGettags_spec user hd hf hsize huser
    obtain ⟨out', hout', hlen, hall, _⟩ := ext2Gettags_spec hd hf hsize
    rw [hout] at hout'
    cases hout'
    refine ⟨_, hspec, ?_, ?_⟩
    · intro hfits
      have hless : total ts < kBuf.length := by omega
      have htext : out.take (total ts) = tagText ts := by
        rw [hall hless, copiedText_of_noNul (hnul hless)]
        exact List.take_left' (length_tagText ts)
      rw [if_pos hfits, htext]
      refine ⟨List.take_left' (length_tagText ts), ?_⟩
      have hlist := listTags_tagText (user.drop (total ts)) ts [] (total ts) (length_le_total ts)
        (hnul hless)
      simpa using hlist
    · intro hbig
      rw [if_neg (by omega)]

theorem taggedDevice_gettags : ReadsBack taggedDevice [[97]] 4 ↔
    total [[97]] ≠ 4 ∧ (total [[97]] < 4 → ∀ t ∈ [([97] : Bytes)], 0 ∉ t) :=
  gettags_readsBack taggedDevice_ok (Or.inr ⟨by decide, taggedDevice_decodes⟩) (by decide)

/-- A buffer of two bytes for the tag `a`: the user gets the two bytes that
`kmalloc` found. -/
theorem exact_fit_unread : ¬ ReadsBack taggedDevice [[97]] 2 := by
  intro h
  obtain ⟨user', huser, hread, _⟩ := h [1, 1] [7, 7] rfl rfl
  have hrun : sysGettags taggedDevice (served [1, 1]) [7, 7] 2 = some (2, [1, 1]) := by
    decide +kernel
  rw [hrun] at huser
  obtain ⟨-, rfl⟩ := Prod.mk.inj (Option.some.inj huser)
  exact absurd (hread (by decide)).1 (by decide)

end LinuxHacks.Tags
