import Mathlib.Data.Finset.Basic
import LinuxHacks.Errno
import LinuxHacks.Ext2.BlockPath

/-!
# The block map of an ext2 inode

`ext2_get_block` and `ext2_truncate` on one inode. Any number of tasks look up
or add blocks while at most one truncates (the callers hold `i_sem`); what they
share is the tree of pointers, guarded by `i_meta_lock`, and the allocator of
blocks. A section under the lock is one step, and so is each access that is made
without it; `ext2_new_block` hands out any block that is free, and a read
of a block may fail.

The tree is kept in `cell`: `i_data` (`none`) and the buffers of the blocks of
pointers. Values are block numbers; the byte order on disk does not matter here.
-/

namespace LinuxHacks.Ext2

open Lib.PointerTree

/-- A `__le32 *`: the buffer it points into, `none` for `i_data`, and the index. -/
structure Slot where
  bh : Option ℕ
  off : ℕ
deriving DecidableEq

/-- `Indirect`: where a pointer was read, and what was read. -/
structure Indirect where
  p : Slot
  key : ℕ
deriving DecidableEq

/-- What the functions read of the inode and its super block and never change. -/
structure Inode where
  /-- `EXT2_ADDR_PER_BLOCK_BITS` -/
  bits : ℕ
  blocksPerGroup : ℕ
  firstDataBlock : ℕ
  iBlockGroup : ℕ
  isReg : Bool
  isDir : Bool
  isLnk : Bool
  fastSymlink : Bool
  append : Bool
  immutable : Bool

/-- The buffer of the block an `Indirect` chain ends with. -/
def lastKey (chain : List Indirect) : ℕ := (chain.getLast?.map Indirect.key).getD 0

/-! ## `ext2_get_block` -/

def addChain (cell : Cells ℕ) (chain : List Indirect) (p : Slot) : List Indirect :=
  chain ++ [⟨p, cell p.bh p.off⟩]

def verifyChain (cell : Cells ℕ) (chain : List Indirect) : Bool :=
  chain.all fun q => q.key == cell q.p.bh q.p.off

/-- Where `ext2_get_branch` is: in its loop, or back with `NULL`, or back with the
last triple and an error. -/
inductive Branch where
  | more (chain : List Indirect)
  | found (chain : List Indirect)
  | part (chain : List Indirect) (err : ℤ)

/-- The checks after a pointer is added to the chain. -/
def branchNext (depth : ℕ) (chain : List Indirect) : Branch :=
  if lastKey chain = 0 then .part chain 0
  else if chain.length = depth then .found chain
  else .more chain

/-- `ext2_get_branch` up to its loop. -/
def getBranch (cell : Cells ℕ) (offsets : List ℕ) : Branch :=
  branchNext offsets.length (addChain cell [] ⟨none, offsets.headD 0⟩)

/-- One turn of the loop of `ext2_get_branch`; `io` says whether `sb_bread`
reads the block. -/
def getBranchLoop (cell : Cells ℕ) (offsets : List ℕ) (chain : List Indirect) (io : Bool) :
    Branch :=
  if !io then .part chain (- EIO)
  else if verifyChain cell chain then
    branchNext offsets.length
      (addChain cell chain ⟨some (lastKey chain), offsets.getD chain.length 0⟩)
  else .part chain (-EAGAIN)

/-- `ext2_find_near`; `pid` is that of the caller. -/
def findNear (ino : Inode) (cell : Cells ℕ) (pid : ℕ) (ind : Indirect) : ℕ :=
  match (List.range ind.p.off).reverse.find? fun o => cell ind.p.bh o != 0 with
  | some o => cell ind.p.bh o
  | none =>
      match ind.p.bh with
      | some b => b
      | none => ino.iBlockGroup * ino.blocksPerGroup + ino.firstDataBlock +
          pid % 16 * (ino.blocksPerGroup / 16)

structure Result where
  err : ℤ
  /-- The block the buffer is mapped to. -/
  mapped : Option ℕ
  new : Bool
  boundary : Bool
deriving DecidableEq

def Result.error (err : ℤ) : Result := ⟨err, none, false, false⟩

/-- Where a call of `ext2_get_block` is. The blocks it has allocated and not
attached are in `branch` or, when it gives them back, in `blocks`. -/
inductive Call where
  | idle
  | reread (block : ℤ) (create : Bool)
  | getBranch (block : ℤ) (create : Bool) (chain : List Indirect)
  | findGoal (block : ℤ) (chain : List Indirect)
  | allocBranch (block : ℤ) (chain : List Indirect) (goal : ℕ) (branch : List ℕ)
  | spliceBranch (block : ℤ) (chain : List Indirect) (branch : List ℕ)
  /-- Freeing a branch; then the error is returned, or all is done again. -/
  | freeBranch (block : ℤ) (blocks : List ℕ) (err : Option ℤ)
  | done (block : ℤ) (r : Result)
deriving DecidableEq

/-- `got_it`. -/
def gotIt (ino : Inode) (block : ℤ) (key : ℕ) (new : Bool) : Call :=
  .done block ⟨0, some key, new, (blockToPath ino.bits block).2⟩

/-- What `ext2_get_block` does with what `ext2_get_branch` returned. -/
def afterBranch (ino : Inode) (block : ℤ) (create : Bool) : Branch → Call
  | .more chain => .getBranch block create chain
  | .found chain => gotIt ino block (lastKey chain) false
  | .part chain err =>
      if !create || err == - EIO then .done block (.error err)
      else if err = -EAGAIN then .reread block create
      else .findGoal block chain

/-- The end of the loops that free a branch. -/
def freeNext (block : ℤ) (blocks : List ℕ) (err : Option ℤ) : Call :=
  match blocks, err with
  | [], some err => .done block (.error err)
  | [], none => .reread block true
  | b :: bs, err => .freeBranch block (b :: bs) err

/-- In `ext2_alloc_branch`: the buffer of `parent` is zeroed and its pointer at
`off` set. -/
def linkParent (cell : Cells ℕ) (parent off nr : ℕ) : Cells ℕ :=
  fun m k => if m = some parent then (if k = off then nr else 0) else cell m k

/-- The same for the last block of a branch, when it has one. -/
def linkLast (cell : Cells ℕ) (branch : List ℕ) (off nr : ℕ) : Cells ℕ :=
  match branch.getLast? with
  | none => cell
  | some parent => linkParent cell parent off nr

/-- The number of blocks to allocate: `(chain + depth) - partial`. -/
def left (depth : ℕ) (chain : List Indirect) : ℕ := depth - (chain.length - 1)

/-! ## `ext2_truncate` -/

/-- The work that is left of `ext2_truncate` after `ext2_find_shared`: calls of
the functions that free, the innermost first. -/
inductive Frame where
  /-- `ext2_free_data` at slot `p` of `p .. q`, with the run to free. -/
  | freeData (n : Option ℕ) (p q blockToFree count : ℕ)
  /-- The loop of `ext2_free_branches` at slot `p` of `p .. q`, with `depth`
  decremented. -/
  | freeBranches (n : Option ℕ) (p q depth : ℕ)
  /-- In that loop, before `sb_bread`. -/
  | readBranch (nr depth : ℕ)
  /-- `ext2_free_blocks`. -/
  | freeBlocks (block count : ℕ)
  /-- `do_indirects` at a slot of the inode. -/
  | doIndirects (o : ℕ)
deriving DecidableEq

/-- `ext2_free_branches` on an array. -/
def freeBranches (n : Option ℕ) (p q : ℕ) : ℕ → Frame
  | 0 => .freeData n p q 0 0
  | depth + 1 => .freeBranches n p q depth

/-- `ext2_free_branches` on the local variable `nr`, which is not 0. -/
def freeBranchesOf (nr : ℕ) : ℕ → Frame
  | 0 => .freeBlocks nr 1
  | depth + 1 => .readBranch nr depth

/-- Where `ext2_truncate` is. -/
inductive Trunc where
  | idle
  /-- In the loop of `ext2_get_branch` called by `ext2_find_shared`. -/
  | findShared (iblock : ℤ) (chain : List Indirect)
  /-- In `ext2_find_shared`, before its `write_lock`. -/
  | detach (iblock : ℤ) (chain : List Indirect)
  | free (iblock : ℤ) (stack : List Frame)
  | done (iblock : ℤ)
deriving DecidableEq

/-- `for (k = depth; k > 1 && !offsets[k-1]; k--)`. -/
def sharedDepth (offsets : List ℕ) : ℕ → ℕ
  | k + 2 => if offsets.getD (k + 1) 0 = 0 then sharedDepth offsets (k + 1) else k + 2
  | k => k

/-- The offsets `ext2_find_shared` follows. -/
def sharedPath (ino : Inode) (iblock : ℤ) : List ℕ :=
  let offsets := blockPath ino.bits iblock
  offsets.take (sharedDepth offsets offsets.length)

def afterShared (iblock : ℤ) : Branch → Trunc
  | .more chain => .findShared iblock chain
  | .found chain => .detach iblock chain
  | .part chain _ => .detach iblock chain

/-- `all_zeroes` of the slots before `p`. -/
def allZeroes (cell : Cells ℕ) (p : Slot) : Bool :=
  (List.range p.off).all fun o => cell p.bh o == 0

/-- `for (p = partial; p > chain && all_zeroes(...); p--)`, on the chain from its
end. -/
def backUp (cell : Cells ℕ) : List Indirect → List Indirect
  | q :: q' :: rest => if allZeroes cell q.p then backUp cell (q' :: rest) else q :: q' :: rest
  | rest => rest

/-- `p->p--`. -/
def Indirect.decr (q : Indirect) : Indirect := { q with p := { q.p with off := q.p.off - 1 } }

/-- The section of `ext2_find_shared` under `write_lock`: the tree, `*top` and the
chain up to what is returned, from its end. -/
def findShared (cell : Cells ℕ) (k : ℕ) (chain : List Indirect) :
    Cells ℕ × ℕ × List Indirect :=
  match chain.reverse with
  | [] => (cell, 0, [])
  | part :: before =>
      if part.key = 0 ∧ cell part.p.bh part.p.off ≠ 0 then (cell, 0, part :: before)
      else
        match backUp cell (part :: before) with
        | [] => (cell, 0, [])
        | p :: rest =>
            if (p :: rest).length = k ∧ rest ≠ [] then (cell, 0, p.decr :: rest)
            else (put cell p.p.bh p.p.off 0, cell p.p.bh p.p.off, p :: rest)

/-- "Clear the ends of indirect blocks on the shared branch", for a block `n`
levels deep. -/
def clearEnds (ino : Inode) (n : ℕ) : List Indirect → List Frame
  | q :: q' :: rest =>
      freeBranches q.p.bh (q.p.off + 1) (addrPerBlock ino.bits) (n - 1 - (rest.length + 1)) ::
        clearEnds ino n (q' :: rest)
  | _ => []

/-- `switch (offsets[0])`. -/
def indirectsFrom (o : ℕ) : ℕ :=
  if o = indBlock then dindBlock
  else if o = dindBlock then tindBlock
  else if o = tindBlock then nBlocks
  else indBlock

/-- `ext2_truncate` after `ext2_find_shared`. -/
def afterDetach (ino : Inode) (iblock : ℤ) (top : ℕ) (chain : List Indirect) : List Frame :=
  let offsets := blockPath ino.bits iblock
  (if top ≠ 0 then [freeBranchesOf top (offsets.length - 1 - (chain.length - 1))] else []) ++
    clearEnds ino offsets.length chain ++ [.doIndirects (indirectsFrom (offsets.headD 0))]

/-- `(inode->i_size + blocksize - 1) >> EXT2_BLOCK_SIZE_BITS`: pointers have four
bytes. -/
def truncateBlock (ino : Inode) (iSize : ℕ) : ℤ :=
  ((iSize + (4 * addrPerBlock ino.bits) - 1) >>> (ino.bits + 2) : ℕ)

/-- The checks at the start of `ext2_truncate`. -/
def Inode.truncatable (ino : Inode) : Bool :=
  (ino.isReg || ino.isDir || ino.isLnk) && !ino.fastSymlink && !(ino.append || ino.immutable)

/-- `ext2_truncate` up to the loop of `ext2_find_shared`. -/
def truncate (ino : Inode) (cell : Cells ℕ) (iSize : ℕ) : Trunc :=
  let iblock := truncateBlock ino iSize
  match blockPath ino.bits iblock with
  | [] => .done iblock
  | [o] => .free iblock [.freeData none o ndirBlocks 0 0, .doIndirects (indirectsFrom o)]
  | _ :: _ :: _ => afterShared iblock (getBranch cell (sharedPath ino iblock))

/-! ## The system -/

structure State where
  cell : Cells ℕ
  iNextAllocBlock : ℤ
  iNextAllocGoal : ℕ
  /-- What `ext2_new_block` may hand out. -/
  free : Finset ℕ
  /-- Blocks of other inodes, and the rest of the file system's own. -/
  other : Finset ℕ
  /-- Blocks left allocated because `ext2_free_branches` could not read their
  parent. -/
  lost : Finset ℕ
  /-- The calls of `ext2_get_block`, by the `pid` of the caller. -/
  calls : ℕ → Call
  trunc : Trunc

/-- The steps of a call of `ext2_get_block`. -/
inductive CallAction where
  | getBlock (block : ℤ) (create : Bool)
  | getBranch
  | read (io : Bool)
  | findGoal
  /-- `ext2_alloc_block` returns a block. -/
  | alloc (nr : ℕ)
  /-- `ext2_alloc_block` fails. -/
  | allocFails (err : ℤ)
  | splice
  | freeBranch

/-- The steps of `ext2_truncate`. -/
inductive TruncAction where
  | truncate (iSize : ℕ)
  | read (io : Bool)
  | detach
  | free (io : Bool)
  | ret

inductive Action where
  | call (t : ℕ) (a : CallAction)
  | trunc (a : TruncAction)
  /-- Another user of the file system takes, returns or writes a block. -/
  | take (b : ℕ)
  | give (b : ℕ)
  | write (b : ℕ) (data : ℕ → ℕ)

namespace State

def setCall (s : State) (t : ℕ) (c : Call) : State :=
  { s with calls := fun u => if u = t then c else s.calls u }

/-- The start of `ext2_find_goal`: the next block of the file was asked for. -/
def nextAlloc (s : State) (block : ℤ) : State :=
  if block = s.iNextAllocBlock + 1 ∧ s.iNextAllocGoal ≠ 0 then
    { s with iNextAllocBlock := s.iNextAllocBlock + 1, iNextAllocGoal := s.iNextAllocGoal + 1 }
  else s

/-- The goal: the heuristic for sequential allocation, else locality. -/
def goal (ino : Inode) (s : State) (t : ℕ) (block : ℤ) (chain : List Indirect) : ℕ :=
  let goal := if block = s.iNextAllocBlock then s.iNextAllocGoal else 0
  if goal = 0 then (chain.getLast?.map (findNear ino s.cell t)).getD 0 else goal

/-- `ext2_find_goal`, and on to `ext2_alloc_branch` or back. -/
def findGoal (ino : Inode) (s : State) (t : ℕ) (block : ℤ) (chain : List Indirect) : State :=
  let s := s.nextAlloc block
  if verifyChain s.cell chain then
    s.setCall t (.allocBranch block chain (s.goal ino t block chain) [])
  else s.setCall t (.reread block true)

/-- One more block of `ext2_alloc_branch`. -/
def alloc (ino : Inode) (s : State) (t nr : ℕ) (block : ℤ) (chain : List Indirect) (goal : ℕ)
    (branch : List ℕ) : State :=
  let offsets := blockPath ino.bits block
  let off := offsets.getD (chain.length - 1 + branch.length) 0
  let call := if branch.length + 1 = left offsets.length chain then
      .spliceBranch block chain (branch ++ [nr])
    else .allocBranch block chain goal (branch ++ [nr])
  { s with cell := linkLast s.cell branch off nr, free := s.free.erase nr }.setCall t call

/-- `ext2_splice_branch`, up to the freeing of the branch, and `got_it`. -/
def splice (ino : Inode) (s : State) (t : ℕ) (block : ℤ) (chain : List Indirect)
    (branch : List ℕ) : State :=
  match chain.getLast? with
  | none => s
  | some place =>
      if verifyChain s.cell chain.dropLast && (s.cell place.p.bh place.p.off == 0) then
        { s with
          cell := put s.cell place.p.bh place.p.off (branch.headD 0)
          iNextAllocBlock := block
          iNextAllocGoal := branch.getLastD 0 }.setCall t
          (gotIt ino block (branch.getLastD 0) true)
      else s.setCall t (freeNext block branch none)

/-- One turn of the loop of `ext2_free_data`. -/
def freeDataStep (s : State) (n : Option ℕ) (p q blockToFree count : ℕ) :
    State × List Frame :=
  if p < q then
    let nr := s.cell n p
    if nr = 0 then (s, [.freeData n (p + 1) q blockToFree count])
    else
      let s := { s with cell := put s.cell n p 0 }
      if count = 0 then (s, [.freeData n (p + 1) q nr 1])
      else if blockToFree + count = nr then (s, [.freeData n (p + 1) q blockToFree (count + 1)])
      else (s, [.freeBlocks blockToFree count, .freeData n (p + 1) q nr 1])
  else if 0 < count then (s, [.freeBlocks blockToFree count])
  else (s, [])

/-- One turn of the loop of `ext2_free_branches`. -/
def freeBranchesStep (s : State) (n : Option ℕ) (p q depth : ℕ) : State × List Frame :=
  if p < q then
    let nr := s.cell n p
    if nr = 0 then (s, [.freeBranches n (p + 1) q depth])
    else ({ s with cell := put s.cell n p 0 },
      [.readBranch nr depth, .freeBranches n (p + 1) q depth])
  else (s, [])

/-- `sb_bread` in that loop, and what follows it. -/
def readBranchStep (ino : Inode) (s : State) (nr depth : ℕ) (io : Bool) : State × List Frame :=
  if io then
    (s, [Ext2.freeBranches (some nr) 0 (addrPerBlock ino.bits) depth, .freeBlocks nr 1])
  else
    ({ s with lost := s.lost ∪ (sub s.cell (addrPerBlock ino.bits) (depth + 1) nr).toFinset }, [])

/-- One case of `do_indirects`. -/
def doIndirectsStep (s : State) (o : ℕ) : State × List Frame :=
  if o < nBlocks then
    let nr := s.cell none o
    if nr = 0 then (s, [.doIndirects (o + 1)])
    else ({ s with cell := put s.cell none o 0 },
      [freeBranchesOf nr (o - indBlock + 1), .doIndirects (o + 1)])
  else (s, [])

/-- A step of the innermost call. -/
def truncFree (ino : Inode) (s : State) (io : Bool) : Frame → State × List Frame
  | .freeData n p q b c => s.freeDataStep n p q b c
  | .freeBranches n p q d => s.freeBranchesStep n p q d
  | .readBranch nr d => s.readBranchStep ino nr d io
  | .freeBlocks b c => ({ s with free := s.free ∪ (List.range' b c).toFinset }, [])
  | .doIndirects o => s.doIndirectsStep o

/-- A step of a call of `ext2_get_block`. -/
def callStep (ino : Inode) (s : State) (t : ℕ) : CallAction → Call → Option State
  | .getBlock block create, .idle | .getBlock block create, .done _ _ =>
      some (s.setCall t (if blockPath ino.bits block = [] then .done block (.error (- EIO))
        else .reread block create))
  | .getBranch, .reread block create =>
      some (s.setCall t (afterBranch ino block create
        (Ext2.getBranch s.cell (blockPath ino.bits block))))
  | .read io, .getBranch block create chain =>
      some (s.setCall t (afterBranch ino block create
        (getBranchLoop s.cell (blockPath ino.bits block) chain io)))
  | .findGoal, .findGoal block chain => some (s.findGoal ino t block chain)
  | .alloc nr, .allocBranch block chain goal branch =>
      if nr ∈ s.free then some (s.alloc ino t nr block chain goal branch) else none
  | .allocFails err, .allocBranch block _ _ branch =>
      if err < 0 then some (s.setCall t (freeNext block branch (some err))) else none
  | .splice, .spliceBranch block chain branch => some (s.splice ino t block chain branch)
  | .freeBranch, .freeBranch block (b :: bs) err =>
      some ({ s with free := insert b s.free }.setCall t (freeNext block bs err))
  | _, _ => none

/-- A step of `ext2_truncate`. -/
def truncStep (ino : Inode) (s : State) : TruncAction → Trunc → Option State
  | .truncate iSize, .idle =>
      if ino.truncatable then some { s with trunc := Ext2.truncate ino s.cell iSize } else some s
  | .read io, .findShared iblock chain =>
      let r := getBranchLoop s.cell (sharedPath ino iblock) chain io
      some { s with trunc := afterShared iblock r }
  | .detach, .detach iblock chain =>
      let r := findShared s.cell (sharedPath ino iblock).length chain
      some { s with cell := r.1, trunc := .free iblock (afterDetach ino iblock r.2.1 r.2.2) }
  | .free io, .free iblock (f :: stack) =>
      let r := s.truncFree ino io f
      some { r.1 with trunc := .free iblock (r.2 ++ stack) }
  | .free _, .free iblock [] => some { s with trunc := .done iblock }
  | .ret, .done _ => some { s with trunc := .idle }
  | _, _ => none

def run (ino : Inode) (s : State) : Action → Option State
  | .call t a => s.callStep ino t a (s.calls t)
  | .trunc a => s.truncStep ino a s.trunc
  | .take b =>
      if b ∈ s.free then some { s with free := s.free.erase b, other := insert b s.other }
      else none
  | .give b =>
      if b ∈ s.other then some { s with other := s.other.erase b, free := insert b s.free }
      else none
  | .write b data =>
      if b ∈ s.free ∨ b ∈ s.other then
        some { s with cell := fun m k => if m = some b then data k else s.cell m k }
      else none

end State

end LinuxHacks.Ext2
