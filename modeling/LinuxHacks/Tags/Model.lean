import LinuxHacks.Errno
import LinuxHacks.Lib.Bytes

/-!
# File tags in ext2 (`HW6/fs/ext2/inode.c`)

A tagged file has one block for its tags, whose number is `i_file_tags` (0 for
none). The block holds entries, each a little-endian 16-bit length followed by
the bytes of the tag, and ends with a zero length.

`ext2_addtag` and `ext2_rmtag` are written over the bytes of the buffer, with
offsets in place of the pointers into `bh->b_data`; `bh->b_size` is the length
of the buffer. An access outside it is the result `none`. `sb_bread` and
`sb_getblk` return a buffer, as the code assumes. The machine is little-endian
(`arch/i386`), so `le16_to_cpu` and `cpu_to_le16` do nothing.
-/

namespace LinuxHacks.Tags

open LinuxHacks.Lib

def EXT2_MAX_TAGS : Nat := 16

/-- `size_t` arithmetic. -/
def sizeT (n : Nat) : Nat := n % 2 ^ 32

def sizeTOfInt (e : Int) : Nat := (e % 2 ^ 32).toNat

/-- A tag as `sys_addtag` and `sys_rmtag` deliver it: `real_len`, a
non-negative `int`, bytes without a NUL; in memory a NUL follows. -/
structure Word where
  bytes : Bytes
  noNul : 0 ∉ bytes
  len_lt : bytes.length < 2 ^ 31

/-- The word as the C string the file system gets. -/
def Word.cstr (w : Word) : Bytes := w.bytes ++ [0]

/-- What `ext2_new_block` does, with the bytes `sb_getblk` then finds. -/
inductive NewBlock where
  | error (code : Int)
  | block (id : Nat) (data : Bytes)

/-- The device and one of its inodes. `dirtied` and `freed` log the calls of
`mark_buffer_dirty` and `ext2_free_blocks`. -/
structure State where
  sBlocksize : Nat
  block : Nat → Bytes
  iFileTags : Nat
  iCtime : Nat
  dirtied : List Nat
  freed : List Nat

/-- Buffer `id` holds `data`. -/
def State.setBlock (s : State) (id : Nat) (data : Bytes) : State :=
  { s with block := Function.update s.block id data }

/-- `node->i_ctime = CURRENT_TIME_SEC; mark_buffer_dirty(bh)`. -/
def State.touch (s : State) (now id : Nat) : State :=
  { s with iCtime := now, dirtied := s.dirtied ++ [id] }

def tagsClear (s : State) : State :=
  if s.iFileTags ≠ 0 then { s with freed := s.freed ++ [s.iFileTags], iFileTags := 0 } else s

/-! ## `ext2_addtag` -/

/-- The locals of `ext2_addtag` when its loop is left. -/
structure AddScan where
  i : Nat
  curr : Nat
  error : Int
  tagFound : Bool
deriving DecidableEq, Repr

/-- `taglen == input_length && !strncmp(curr, tag, taglen)`. -/
def addMatch (b : Bytes) (w : Word) (curr taglen : Nat) : Option Bool :=
  if taglen = w.bytes.length then strncmpEq (b.drop curr) w.cstr taglen else some false

/-- The loop of `ext2_addtag`, `n` iterations before `i = EXT2_MAX_TAGS`. -/
def addScan (b : Bytes) (w : Word) : Nat → Nat → Nat → Option AddScan
  | 0, i, curr => some ⟨i, curr, 0, false⟩
  | n + 1, i, curr =>
      if b.length < curr + 2 then some ⟨i, curr, -ESPIPE, false⟩
      else do
        let taglen ← readLe16 b curr
        if taglen = 0 then some ⟨i, curr, 0, false⟩
        else if b.length < curr + 2 + taglen then some ⟨i, curr + 2, -ESPIPE, false⟩
        else do
          let same ← addMatch b w (curr + 2) taglen
          if same then some ⟨i, curr + 2, 0, true⟩
          else addScan b w n (i + 1) (curr + 2 + taglen)

/-- The three `memcpy` after the label `write_tag`. -/
def writeTag (b : Bytes) (curr : Nat) (w : Word) : Option Bytes := do
  let b₁ ← memcpy b curr (le16 w.bytes.length)
  let b₂ ← memcpy b₁ (curr + 2) w.bytes
  memcpy b₂ (curr + 2 + w.bytes.length) (le16 0)

/-- From the label `write_tag` to the end; `error` may come from the scan. -/
def writeTagLabel (s : State) (now id curr : Nat) (error : Int) (w : Word) :
    Option (Int × State) :=
  if (s.block id).length < sizeT (curr + w.bytes.length + 4) then some (-ENOSPC, s)
  else do
    let b ← writeTag (s.block id) curr w
    some (error, (s.setBlock id b).touch now id)

/-- A failed `ext2_new_block` is recorded in an inner `error`, and the outer
one, still 0, is returned. -/
def ext2Addtag (s : State) (now : Nat) (new : NewBlock) (w : Word) : Option (Int × State) :=
  if s.sBlocksize < sizeT (w.bytes.length + 4) then some (-ENOSPC, s)
  else if s.iFileTags = 0 then
    match new with
    | .error _ => some (0, s)
    | .block id data =>
        writeTagLabel { s.setBlock id data with iFileTags := id } now id 0 0 w
  else do
    let r ← addScan (s.block s.iFileTags) w EXT2_MAX_TAGS 0 0
    if EXT2_MAX_TAGS ≤ r.i then some (-ENOSPC, s)
    else if r.tagFound then some (r.error, s)
    else writeTagLabel s now s.iFileTags r.curr r.error w

/-- The blocks that `ext2_new_block` returns to the call, one at most. -/
def newBlockIds (s : State) (new : NewBlock) (w : Word) : List Nat :=
  if s.sBlocksize < sizeT (w.bytes.length + 4) then []
  else if s.iFileTags = 0 then
    match new with
    | .error _ => []
    | .block id _ => [id]
  else []

/-! ## `ext2_rmtag` -/

/-- The locals of `ext2_rmtag`. -/
structure RmScan where
  i : Nat
  curr : Nat
  error : Int
  tagFound : Bool
  rmOffset : Nat
  rmOffsetEnd : Nat
deriving DecidableEq, Repr

/-- `currtaglen == taglen`, then `strncmp(curr, tag, taglen) == 0`. -/
def rmMatch (b : Bytes) (w : Word) (curr currtaglen taglen : Nat) : Option Bool :=
  if currtaglen = taglen then strncmpEq (b.drop curr) w.cstr taglen else some false

/-- The loop of `ext2_rmtag`. The parameter `taglen` is overwritten with the
length of the entry, so the length of the word is not compared. -/
def rmScan (b : Bytes) (w : Word) : Nat → RmScan → Option RmScan
  | 0, r => some r
  | n + 1, r =>
      if r.error < 0 then rmScan b w n { r with i := r.i + 1 }
      else if b.length < r.curr + 2 then some { r with error := -ESPIPE }
      else do
        let currtaglen ← readLe16 b r.curr
        let taglen := currtaglen
        if currtaglen = 0 then some r
        else if b.length < r.curr + 2 + currtaglen then
          some { r with curr := r.curr + 2, error := -ESPIPE }
        else do
          let same ← rmMatch b w (r.curr + 2) currtaglen taglen
          if same then
            if r.tagFound then some { r with curr := r.curr + 2, error := -EINVAL }
            else
              rmScan b w n
                { i := r.i + 1
                  curr := r.curr + 2 + currtaglen
                  error := r.error
                  tagFound := true
                  rmOffset := r.curr
                  rmOffsetEnd := r.curr + 2 + currtaglen }
          else rmScan b w n { r with i := r.i + 1, curr := r.curr + 2 + currtaglen }

/-- An untagged file is not turned away: block 0 is read in its place. -/
def ext2Rmtag (s : State) (now : Nat) (w : Word) : Option (Int × State) := do
  let r ← rmScan (s.block s.iFileTags) w EXT2_MAX_TAGS ⟨0, 0, 0, false, 0, 0⟩
  if !r.tagFound then some (-EINVAL, s)
  else if r.error ≠ 0 then some (r.error, s)
  else if r.i = 1 then some (r.error, (tagsClear s).touch now s.iFileTags)
  else do
    let b ← memmove (s.block s.iFileTags) r.rmOffset r.rmOffsetEnd
      ((s.block s.iFileTags).length - r.rmOffsetEnd)
    some (r.error, (s.setBlock s.iFileTags b).touch now s.iFileTags)

/-! ## Runs -/

/-- One call, with the time it is made at and, for an addition, what the
allocator would do. -/
inductive Op where
  | add (now : Nat) (new : NewBlock) (w : Word)
  | rm (now : Nat) (w : Word)

/-- The return value and the state afterwards. -/
def Op.run : Op → State → Option (Int × State)
  | .add now new w, s => ext2Addtag s now new w
  | .rm now w, s => ext2Rmtag s now w

/-- A sequence of calls, whatever they return. -/
def runOps : List Op → State → Option State
  | [], s => some s
  | op :: ops, s => do
      let r ← op.run s
      runOps ops r.2

end LinuxHacks.Tags
