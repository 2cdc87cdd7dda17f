import LinuxHacks.Ext2.Cut
import LinuxHacks.Lib.Parts

/-!
# The invariant of the block map

Every block of the file system is in one place: free, with another user, in the
tree of the inode at one path, with one call of `ext2_get_block`, owed by the
truncation, or lost to a failed read. A call knows a chain it once read and a
branch it has linked; a truncation knows that what it has not visited yet is all
there is beyond the cut.

What a call writes is its own branch or an empty slot of the tree, and what a
truncation writes is detached or beyond the cut: `TruncOk.mono` and `CallOk.congr`
say that the others do not notice.
-/

namespace LinuxHacks.Ext2

open Lib.PointerTree LinuxHacks.Lib

/-- Where a block can be. -/
inductive Place where
  | free
  | other
  | lost
  | tree
  | trunc
  | call (t : ℕ)

/-- The blocks a call has allocated and not attached. -/
def Call.held : Call → List ℕ
  | .allocBranch _ _ _ branch => branch
  | .spliceBranch _ _ branch => branch
  | .freeBranch _ blocks _ => blocks
  | _ => []

/-- The block of the file a call may still add. -/
def Call.creating : Call → Option ℤ
  | .reread block create => if create then some block else none
  | .getBranch block create _ => if create then some block else none
  | .findGoal block _ => some block
  | .allocBranch block _ _ _ => some block
  | .spliceBranch block _ _ => some block
  | .freeBranch block _ err => if err = none then some block else none
  | _ => none

def Trunc.owed (c : Cells ℕ) (w : ℕ) : Trunc → List ℕ
  | .free _ stack => Ext2.owed c w stack
  | _ => []

/-- The first block a truncation removes. -/
def Trunc.limit : Trunc → Option ℤ
  | .idle => none
  | .findShared iblock _ => some iblock
  | .detach iblock _ => some iblock
  | .free iblock _ => some iblock
  | .done iblock => some iblock

/-- The blocks at a place. -/
def State.at (ino : Inode) (s : State) : Place → Set ℕ
  | .free => {b | b ∈ s.free}
  | .other => {b | b ∈ s.other}
  | .lost => {b | b ∈ s.lost}
  | .tree => (shape ino.bits).blocks s.cell
  | .trunc => {b | b ∈ s.trunc.owed s.cell (addrPerBlock ino.bits)}
  | .call t => {b | b ∈ (s.calls t).held}

/-- The path is beyond the cut of a truncation to `iblock`. -/
def Doomed (ino : Inode) (iblock : ℤ) (π : List ℕ) : Prop :=
  blockPath ino.bits iblock ≠ [] ∧ Beyond (sharedPath ino iblock) π

/-- What a call of `ext2_get_block` knows. -/
def CallOk (bits : ℕ) (c : Cells ℕ) : Call → Prop
  | .idle => True
  | .reread block _ => blockPath bits block ≠ []
  | .getBranch block _ chain =>
      Spine (blockPath bits block) chain ∧ chain ≠ [] ∧ lastKey chain ≠ 0 ∧
        chain.length < (blockPath bits block).length
  | .findGoal block chain => Spine (blockPath bits block) chain ∧ chain ≠ []
  | .allocBranch block chain _ branch =>
      Spine (blockPath bits block) chain ∧ chain ≠ [] ∧
        branch.length < left (blockPath bits block).length chain ∧
        (branch = [] ∨ Linked c branch
          (((blockPath bits block).drop chain.length).take (branch.length - 1)))
  | .spliceBranch block chain branch =>
      Spine (blockPath bits block) chain ∧ chain ≠ [] ∧
        Linked c branch ((blockPath bits block).drop chain.length)
  | .freeBranch block blocks _ => blockPath bits block ≠ [] ∧ blocks ≠ []
  | .done _ _ => True

/-- What a truncation knows. -/
def TruncOk (ino : Inode) (c : Cells ℕ) : Trunc → Prop
  | .idle => True
  | .findShared iblock chain =>
      (shape ino.bits).Leaf (blockPath ino.bits iblock) ∧
        2 ≤ (blockPath ino.bits iblock).length ∧
        Spine (sharedPath ino iblock) chain ∧ chain ≠ [] ∧ lastKey chain ≠ 0 ∧
        chain.length < (sharedPath ino iblock).length ∧ Live c (sharedPath ino iblock) chain
  | .detach iblock chain =>
      (shape ino.bits).Leaf (blockPath ino.bits iblock) ∧
        2 ≤ (blockPath ino.bits iblock).length ∧
        Reached (shape ino.bits) c (sharedPath ino iblock) chain
  | .free iblock stack =>
      (shape ino.bits).Leaf (blockPath ino.bits iblock) ∧
        FreeOk (shape ino.bits) c (sharedPath ino iblock) stack
  | .done iblock => ∀ π, (shape ino.bits).Path π → Doomed ino iblock π → get c π = 0

/-- **The invariant**; `U` are the blocks there are. -/
structure Inv (ino : Inode) (U : Set ℕ) (s : State) : Prop where
  tree : (shape ino.bits).Tree s.cell
  parts : Parts U (s.at ino)
  zero : 0 ∉ U
  calls : ∀ t, CallOk ino.bits s.cell (s.calls t)
  nodup : ∀ t, (s.calls t).held.Nodup
  trunc : TruncOk ino s.cell s.trunc
  limit : ∀ t block iblock, (s.calls t).creating = some block →
    s.trunc.limit = some iblock → block < iblock

/-! ## What others do not notice -/

section Frame

variable {ino : Inode} {c c' : Cells ℕ}

/-- A chain the tree has stays one while nothing on it is removed. -/
theorem Live.keep {S : Shape} {P : List ℕ} {chain : List Indirect} (hs : Spine P chain)
    (hkey : chain = [] ∨ lastKey chain ≠ 0)
    (hP : ∀ π, π <+: P → π ≠ [] → S.Path π)
    (hkeep : ∀ π, S.Path π → get c π ≠ 0 → get c' π = get c π) (h : Live c P chain) :
    Live c' P chain := by
  intro pre q hpre
  have hget := h pre q hpre
  have hq : q.key ≠ 0 := by
    have hne : pre ++ [q] ≠ [] := by simp
    by_cases heq : pre ++ [q] = chain
    · have := hkey.resolve_left (heq ▸ hne)
      rwa [← heq, lastKey_concat] at this
    · have := hs.key _ hpre hne heq
      rwa [lastKey_concat] at this
  have hlen := (hs.of_prefix hpre).lt_length
  rw [hkeep _ (hP _ (List.take_prefix _ _) (take_ne_nil (Nat.succ_ne_zero _) hlen)) (hget ▸ hq), hget]

theorem sharedPath_path {iblock : ℤ} (hleaf : (shape ino.bits).Leaf (blockPath ino.bits iblock)) :
    ∀ π, π <+: sharedPath ino iblock → π ≠ [] → (shape ino.bits).Path π :=
  fun _ hpre hne => hleaf.path.of_prefix (hpre.trans (cut_isPrefix _)) hne

/-- A truncation does not notice that empty slots before the cut are filled. -/
theorem TruncOk.mono {tr : Trunc}
    (hkeep : ∀ π, (shape ino.bits).Path π → get c π ≠ 0 → get c' π = get c π)
    (hdoom : ∀ iblock, tr.limit = some iblock →
      ∀ π, (shape ino.bits).Path π → Doomed ino iblock π → get c' π = get c π)
    (howed : ∀ b ∈ tr.owed c (addrPerBlock ino.bits), ∀ k, c' (some b) k = c (some b) k)
    (h : TruncOk ino c tr) : TruncOk ino c' tr := by
  cases tr with
  | idle => trivial
  | findShared iblock chain =>
      obtain ⟨hleaf, h2, hs, hne, hkey, hlen, hl⟩ := h
      exact ⟨hleaf, h2, hs, hne, hkey, hlen,
        hl.keep hs (Or.inr hkey) (sharedPath_path hleaf) hkeep⟩
  | detach iblock chain =>
      obtain ⟨hleaf, h2, hR⟩ := h
      have hdrop : chain.dropLast = [] ∨ lastKey chain.dropLast ≠ 0 := by
        rcases List.eq_nil_or_concat chain with h0 | ⟨pre, q, rfl⟩
        · exact absurd h0 hR.ne_nil
        · have hs := hR.spine
          rw [List.concat_eq_append] at hs ⊢
          rw [List.dropLast_concat]
          exact hs.before
      refine ⟨hleaf, h2, hR.spine, hR.ne_nil, ?_, ?_, ?_⟩
      · exact hR.live.keep (hR.spine.of_prefix (List.dropLast_prefix _)) hdrop
          (sharedPath_path hleaf) hkeep
      · exact fun hkey => (hR.last hkey).keep hR.spine (Or.inr hkey) (sharedPath_path hleaf) hkeep
      · intro hkey π hπ hb hpre
        rw [hdoom iblock rfl π hπ ⟨hleaf.path.ne_nil, hb⟩]
        exact hR.absent hkey π hπ hb hpre
  | free iblock stack =>
      obtain ⟨hleaf, hF⟩ := h
      have hkeeps : Keeps c c' (sharedPath ino iblock) := by
        intro π hpre _ ha
        refine ha.imp id fun hne => hkeep π (sharedPath_path hleaf π hpre ?_) hne
        rintro rfl
        exact hne rfl
      refine ⟨hleaf, ?_, hF.frames.mono hkeeps, ?_⟩
      · have := owed_congr howed
        rw [show (shape ino.bits).width = addrPerBlock ino.bits from rfl, this]
        exact hF.nodup
      · intro π hπ hb
        refine (hF.swept π hπ hb).imp (fun h0 => ?_) fun hp => hp.mono hkeeps
        rw [hdoom iblock rfl π hπ ⟨hleaf.path.ne_nil, hb⟩, h0]
  | done iblock =>
      intro π hπ hd
      rw [hdoom iblock rfl π hπ hd]
      exact h π hπ hd

theorem CallOk.congr {bits : ℕ} {call : Call}
    (hheld : ∀ b ∈ call.held, ∀ k, c' (some b) k = c (some b) k) (h : CallOk bits c call) :
    CallOk bits c' call := by
  cases call with
  | allocBranch block chain goal branch =>
      obtain ⟨hs, hne, hlen, hlink⟩ := h
      exact ⟨hs, hne, hlen, hlink.imp id fun hl => hl.congr hheld⟩
  | spliceBranch block chain branch =>
      obtain ⟨hs, hne, hlink⟩ := h
      exact ⟨hs, hne, hlink.congr hheld⟩
  | idle => exact h
  | reread block create => exact h
  | getBranch block create chain => exact h
  | findGoal block chain => exact h
  | freeBranch block blocks err => exact h
  | done block r => exact h

end Frame

section Calls

variable {ino : Inode} {U : Set ℕ} {s : State} {t : ℕ}

/-- A call moves on and keeps its blocks. -/
theorem Inv.setCall (h : Inv ino U s) {call : Call} (hok : CallOk ino.bits s.cell call)
    (hheld : ∀ b, b ∈ call.held ↔ b ∈ (s.calls t).held) (hnd : call.held.Nodup)
    (hlim : ∀ block, call.creating = some block → ∀ iblock, s.trunc.limit = some iblock →
      block < iblock) :
    Inv ino U (s.setCall t call) where
  tree := h.tree
  parts := by
    have hat : (s.setCall t call).at ino = s.at ino := by
      funext i
      cases i with
      | call u =>
          by_cases hu : u = t
          · subst hu
            ext b
            change b ∈ (if u = u then call else s.calls u).held ↔ b ∈ (s.calls u).held
            rw [if_pos rfl]
            exact hheld b
          · change {b | b ∈ (if u = t then call else s.calls u).held} = {b | b ∈ (s.calls u).held}
            rw [if_neg hu]
      | free => rfl
      | other => rfl
      | lost => rfl
      | tree => rfl
      | trunc => rfl
    rw [hat]
    exact h.parts
  zero := h.zero
  calls u := by
    change CallOk ino.bits s.cell (if u = t then call else s.calls u)
    split
    · exact hok
    · exact h.calls u
  nodup u := by
    change (if u = t then call else s.calls u).held.Nodup
    split
    · exact hnd
    · exact h.nodup u
  trunc := h.trunc
  limit u block iblock := by
    change (if u = t then call else s.calls u).creating = some block → _
    split
    · exact fun hc hl => hlim block hc iblock hl
    · exact h.limit u block iblock

/-- A call that holds nothing moves on. -/
theorem Inv.setCall_empty (h : Inv ino U s) {call : Call} (hok : CallOk ino.bits s.cell call)
    (hold : (s.calls t).held = []) (hheld : call.held = [])
    (hlim : ∀ block, call.creating = some block → ∀ iblock, s.trunc.limit = some iblock →
      block < iblock) :
    Inv ino U (s.setCall t call) := by
  refine h.setCall hok ?_ ?_ hlim
  · rw [hold, hheld]
    exact fun _ => Iff.rfl
  · rw [hheld]
    exact List.nodup_nil

theorem held_afterBranch (block : ℤ) (create : Bool) (r : Branch) :
    (afterBranch ino block create r).held = [] := by
  cases r with
  | more chain => rfl
  | found chain => rfl
  | part chain err =>
      rw [afterBranch]
      split_ifs <;> rfl

theorem creating_afterBranch {block : ℤ} {create : Bool} {r : Branch} {b : ℤ}
    (h : (afterBranch ino block create r).creating = some b) : create = true ∧ b = block := by
  cases r with
  | more chain =>
      cases create with
      | true => exact ⟨rfl, (Option.some.inj h).symm⟩
      | false => cases h
  | found chain => cases h
  | part chain err =>
      rw [afterBranch] at h
      cases create with
      | true =>
          refine ⟨rfl, ?_⟩
          split_ifs at h
          · cases h
          · exact (Option.some.inj h).symm
          · exact (Option.some.inj h).symm
      | false => cases h

/-- What a call knows when `ext2_get_branch` has taken one more step. -/
theorem callOk_next {c : Cells ℕ} {block : ℤ} {create : Bool} {chain : List Indirect}
    (hs : Spine (blockPath ino.bits block) chain) (hne : chain ≠ []) :
    CallOk ino.bits c
      (afterBranch ino block create (branchNext (blockPath ino.bits block).length chain)) := by
  rcases branchNext_cases (blockPath ino.bits block).length chain with
    ⟨-, heq⟩ | ⟨-, -, heq⟩ | ⟨hkey, hlen, heq⟩
  · rw [heq, afterBranch]
    split_ifs with h1 h2
    · trivial
    · exact absurd h2 (by decide)
    · exact ⟨hs, hne⟩
  · rw [heq]
    trivial
  · rw [heq]
    exact ⟨hs, hne, hkey, lt_of_le_of_ne hs.length hlen⟩

theorem Inv.getBranch (h : Inv ino U s) {block : ℤ} {create : Bool}
    (hc : s.calls t = .reread block create) :
    Inv ino U (s.setCall t (afterBranch ino block create
      (Ext2.getBranch s.cell (blockPath ino.bits block)))) := by
  have hok := h.calls t
  rw [hc] at hok
  obtain ⟨q, hq, hs, -⟩ := getBranch_cases s.cell hok
  rw [hq]
  refine h.setCall_empty (callOk_next hs (List.cons_ne_nil _ _)) (by rw [hc]; rfl)
    (held_afterBranch _ _ _) ?_
  intro b hb iblock hl
  obtain ⟨hcr, rfl⟩ := creating_afterBranch hb
  refine h.limit t b iblock ?_ hl
  rw [hc, hcr]
  rfl

theorem Inv.read (h : Inv ino U s) {block : ℤ} {create io : Bool} {chain : List Indirect}
    (hc : s.calls t = .getBranch block create chain) :
    Inv ino U (s.setCall t (afterBranch ino block create
      (getBranchLoop s.cell (blockPath ino.bits block) chain io))) := by
  have hok := h.calls t
  rw [hc] at hok
  obtain ⟨hs, hne, hkey, hlen⟩ := hok
  have hP : blockPath ino.bits block ≠ [] := by
    intro h0
    rw [h0] at hlen
    exact absurd hlen (Nat.not_lt_zero _)
  refine h.setCall_empty ?_ (by rw [hc]; rfl) (held_afterBranch _ _ _) ?_
  · rcases getBranchLoop_cases (c := s.cell) io hs hne hkey hlen with
      ⟨-, heq⟩ | ⟨-, -, heq⟩ | ⟨-, -, q, heq, hs', -⟩
    · rw [heq, afterBranch, if_pos (by simp)]
      trivial
    · rw [heq, afterBranch]
      split_ifs with h1 h2
      · trivial
      · exact hP
      · exact absurd rfl h2
    · rw [heq]
      exact callOk_next hs' (by simp)
  · intro b hb iblock hl
    obtain ⟨hcr, rfl⟩ := creating_afterBranch hb
    refine h.limit t b iblock ?_ hl
    rw [hc, hcr]
    rfl

theorem Spine.ne_nil {P : List ℕ} {chain : List Indirect} (h : Spine P chain) (hne : chain ≠ []) :
    P ≠ [] := by
  rintro rfl
  exact hne (List.eq_nil_of_length_eq_zero (Nat.le_zero.mp h.length))

/-- `ext2_find_goal` only moves the fields for the next goal. -/
theorem findGoal_cases (ino : Inode) (s : State) (t : ℕ) (block : ℤ) (chain : List Indirect) :
    ∃ b g call, s.findGoal ino t block chain =
        { s with iNextAllocBlock := b, iNextAllocGoal := g }.setCall t call ∧
      ((verifyChain s.cell chain = true ∧ ∃ goal, call = .allocBranch block chain goal []) ∨
        call = .reread block true) := by
  obtain ⟨b, g, hnext⟩ : ∃ b g,
      s.nextAlloc block = { s with iNextAllocBlock := b, iNextAllocGoal := g } := by
    rw [State.nextAlloc]
    split_ifs
    · exact ⟨_, _, rfl⟩
    · exact ⟨s.iNextAllocBlock, s.iNextAllocGoal, rfl⟩
  rw [State.findGoal, hnext]
  dsimp only
  split_ifs with hv
  · exact ⟨b, g, _, rfl, Or.inl ⟨hv, _, rfl⟩⟩
  · exact ⟨b, g, _, rfl, Or.inr rfl⟩

theorem Inv.findGoal (h : Inv ino U s) {block : ℤ} {chain : List Indirect}
    (hc : s.calls t = .findGoal block chain) : Inv ino U (s.findGoal ino t block chain) := by
  have hok := h.calls t
  rw [hc] at hok
  obtain ⟨hs, hne⟩ := hok
  obtain ⟨b, g, call, heq, hcall⟩ := findGoal_cases ino s t block chain
  rw [heq]
  -- the fields for the goal belong to nothing the invariant speaks of
  have hgoal : Inv ino U { s with iNextAllocBlock := b, iNextAllocGoal := g } :=
    ⟨h.tree, h.parts, h.zero, h.calls, h.nodup, h.trunc, h.limit⟩
  have hlim : ∀ iblock, s.trunc.limit = some iblock → block < iblock :=
    fun iblock hl => h.limit t block iblock (by rw [hc]; rfl) hl
  have hheld : (s.calls t).held = [] := by rw [hc]; rfl
  rcases hcall with ⟨-, goal, rfl⟩ | rfl
  · refine hgoal.setCall_empty ⟨hs, hne, ?_, Or.inl rfl⟩ hheld rfl ?_
    · have h1 := hs.length
      have h2 := List.length_pos_of_ne_nil hne
      rw [List.length_nil, left]
      omega
    · rintro _ ⟨rfl⟩
      exact hlim
  · refine hgoal.setCall_empty (hs.ne_nil hne) hheld rfl ?_
    rintro _ ⟨rfl⟩
    exact hlim

end Calls

/-! ## Blocks that change hands -/

section Blocks

variable {ino : Inode} {U : Set ℕ} {s : State} {t : ℕ}

theorem at_setCall_self (ino : Inode) (s : State) (t : ℕ) (call : Call) :
    (s.setCall t call).at ino (.call t) = {b | b ∈ call.held} := by
  change {b | b ∈ (if t = t then call else s.calls t).held} = _
  rw [if_pos rfl]

theorem at_setCall_of_ne (ino : Inode) (s : State) {t : ℕ} (call : Call) {i : Place}
    (h : i ≠ .call t) : (s.setCall t call).at ino i = s.at ino i := by
  cases i with
  | call u =>
      change {b | b ∈ (if u = t then call else s.calls u).held} = {b | b ∈ (s.calls u).held}
      rw [if_neg fun hu => h (by rw [hu])]
  | free => rfl
  | other => rfl
  | lost => rfl
  | tree => rfl
  | trunc => rfl

/-- Cells that are written at blocks of one call, or at blocks nobody here holds, are
the same to the tree, to the truncation and to the other calls. -/
structure Quiet (ino : Inode) (s : State) (c' : Cells ℕ) (i : Place) : Prop where
  get : ∀ π, (shape ino.bits).Path π → get c' π = get s.cell π
  owed : ∀ b ∈ s.trunc.owed s.cell (addrPerBlock ino.bits), ∀ k, c' (some b) k = s.cell (some b) k
  held : ∀ u, i ≠ .call u → ∀ b ∈ (s.calls u).held, ∀ k, c' (some b) k = s.cell (some b) k

theorem Inv.quiet (h : Inv ino U s) {c' : Cells ℕ} {i : Place} (ht : i ≠ .tree)
    (hr : i ≠ .trunc)
    (hc : ∀ m k, (∀ b ∈ s.at ino i, m ≠ some b) → c' m k = s.cell m k) : Quiet ino s c' i where
  get π hπ := by
    refine get_congr (fun k => hc none k fun b _ => nofun) (fun b hb k => ?_) hπ
    refine hc (some b) k fun b' hb' heq => ?_
    exact h.parts.notMem (i := .tree) hb (Ne.symm ht) (Option.some.inj heq ▸ hb')
  owed b hb k := by
    refine hc (some b) k fun b' hb' heq => ?_
    exact h.parts.notMem (i := .trunc) hb (Ne.symm hr) (Option.some.inj heq ▸ hb')
  held u hu b hb k := by
    refine hc (some b) k fun b' hb' heq => ?_
    exact h.parts.notMem (i := .call u) hb (Ne.symm hu) (Option.some.inj heq ▸ hb')

theorem Quiet.trunc {c' : Cells ℕ} {i : Place} (hq : Quiet ino s c' i)
    (h : TruncOk ino s.cell s.trunc) : TruncOk ino c' s.trunc :=
  h.mono (fun π hπ _ => hq.get π hπ) (fun _ _ π hπ _ => hq.get π hπ) hq.owed

theorem Quiet.owed_eq {c' : Cells ℕ} {i : Place} (hq : Quiet ino s c' i) :
    s.trunc.owed c' (addrPerBlock ino.bits) = s.trunc.owed s.cell (addrPerBlock ino.bits) := by
  have ho := hq.owed
  cases hs : s.trunc with
  | free iblock stack =>
      rw [hs] at ho
      exact owed_congr ho
  | idle => rfl
  | findShared iblock chain => rfl
  | detach iblock chain => rfl
  | done iblock => rfl

/-! ### `ext2_alloc_branch` -/

theorem linkLast_of_ne (c : Cells ℕ) {branch : List ℕ} {m : Option ℕ} (off nr k : ℕ)
    (h : ∀ b ∈ branch, m ≠ some b) : linkLast c branch off nr m k = c m k := by
  rw [linkLast]
  cases hl : branch.getLast? with
  | none => rfl
  | some parent => exact if_neg (h parent (List.mem_of_getLast? hl))

theorem linked_linkLast {c : Cells ℕ} {branch : List ℕ} {os : List ℕ} (hnd : branch.Nodup)
    (h : Linked c branch os) (off nr : ℕ) :
    Linked (linkLast c branch off nr) (branch ++ [nr]) (os ++ [off]) := by
  refine h.concat ?_ ?_
  · intro x hx k
    rw [linkLast]
    cases hl : branch.getLast? with
    | none => rfl
    | some parent =>
        refine if_neg fun heq => ?_
        have hsplit := List.dropLast_append_getLast? parent hl
        rw [← hsplit, List.nodup_append] at hnd
        exact hnd.2.2 x hx parent (List.mem_singleton.mpr rfl) (Option.some.inj heq)
  · intro x hx k
    rw [linkLast, hx]
    exact if_pos rfl

/-- The branch with one more block is linked by one more offset. -/
theorem linked_alloc (c : Cells ℕ) (nr : ℕ) {P : List ℕ} {chain : List Indirect} {branch : List ℕ}
    (hne : chain ≠ []) (hlen : branch.length < left P.length chain) (hnd : branch.Nodup)
    (h : branch = [] ∨ Linked c branch ((P.drop chain.length).take (branch.length - 1))) :
    Linked (linkLast c branch (P.getD (chain.length - 1 + branch.length) 0) nr) (branch ++ [nr])
      ((P.drop chain.length).take branch.length) := by
  by_cases h0 : branch = []
  · rw [h0]
    exact trivial
  · have hpos := List.length_pos_of_ne_nil h0
    have hcpos := List.length_pos_of_ne_nil hne
    rw [left] at hlen
    have htake : (P.drop chain.length).take branch.length =
        (P.drop chain.length).take (branch.length - 1) ++
          [P.getD (chain.length - 1 + branch.length) 0] := by
      have hlt : branch.length - 1 < (P.drop chain.length).length := by
        rw [List.length_drop]
        omega
      have := take_succ_getD (P := P.drop chain.length) hlt
      rw [Nat.sub_add_cancel hpos] at this
      rw [this, List.getD_eq_getElem _ _ hlt, List.getElem_drop,
        List.getD_eq_getElem _ _ (by omega)]
      congr 3
      omega
    rw [htake]
    exact linked_linkLast hnd (h.resolve_left h0) _ _

theorem Inv.alloc_quiet (h : Inv ino U s) {block : ℤ} {chain : List Indirect} {goal : ℕ}
    {branch : List ℕ} (hc : s.calls t = .allocBranch block chain goal branch) (off nr : ℕ) :
    Quiet ino s (linkLast s.cell branch off nr) (.call t) := by
  refine h.quiet nofun nofun fun m k hm => linkLast_of_ne _ _ _ _ fun b hb => hm b ?_
  change b ∈ (s.calls t).held
  rw [hc]
  exact hb

theorem Inv.alloc (h : Inv ino U s) {nr : ℕ} {block : ℤ} {chain : List Indirect} {goal : ℕ}
    {branch : List ℕ} (hc : s.calls t = .allocBranch block chain goal branch) (hnr : nr ∈ s.free) :
    Inv ino U (s.alloc ino t nr block chain goal branch) := by
  have hok := h.calls t
  have hnd := h.nodup t
  have hlim := h.limit t
  rw [hc] at hok hnd hlim
  obtain ⟨hs, hne, hlen, hlink⟩ := hok
  have hheld : s.at ino (.call t) = {b | b ∈ branch} := by
    change {b | b ∈ (s.calls t).held} = _
    rw [hc]
    rfl
  have hfresh : nr ∉ branch := fun hmem =>
    h.parts.notMem (i := .free) (j := .call t) hnr (by nofun) (hheld ▸ hmem)
  have hq := h.alloc_quiet hc
    ((blockPath ino.bits block).getD (chain.length - 1 + branch.length) 0) nr
  have hlinked := linked_alloc s.cell nr hne hlen hnd hlink
  -- the call, with one more block
  obtain ⟨call, hcall, hcok, hch, hcr⟩ : ∃ call : Call,
      call = (if branch.length + 1 = left (blockPath ino.bits block).length chain then
        .spliceBranch block chain (branch ++ [nr])
        else .allocBranch block chain goal (branch ++ [nr])) ∧
      CallOk ino.bits (linkLast s.cell branch
        ((blockPath ino.bits block).getD (chain.length - 1 + branch.length) 0) nr) call ∧
      call.held = branch ++ [nr] ∧ call.creating = some block := by
    refine ⟨_, rfl, ?_⟩
    split_ifs with hfull
    · refine ⟨⟨hs, hne, ?_⟩, rfl, rfl⟩
      have hall : (blockPath ino.bits block).drop chain.length =
          ((blockPath ino.bits block).drop chain.length).take branch.length := by
        rw [List.take_of_length_le]
        rw [List.length_drop]
        rw [left] at hfull
        have := List.length_pos_of_ne_nil hne
        omega
      rw [hall]
      exact hlinked
    · refine ⟨⟨hs, hne, ?_, Or.inr ?_⟩, rfl, rfl⟩
      · rw [List.length_append, List.length_singleton]
        omega
      · rw [List.length_append, List.length_singleton, Nat.add_sub_cancel]
        exact hlinked
  rw [State.alloc, ← hcall]
  refine ⟨h.tree.congr hq.get, ?_, h.zero, ?_, ?_, hq.trunc h.trunc, ?_⟩
  · refine h.parts.move (i := .free) (j := .call t) (X := {nr}) ⟨nofun, ?_, ?_, ?_, ?_⟩
    · rintro b rfl
      exact hnr
    · ext b
      change b ∈ s.free.erase nr ↔ b ∈ s.free ∧ b ∉ ({nr} : Set ℕ)
      rw [Finset.mem_erase, Set.mem_singleton_iff]
      exact And.comm
    · rw [at_setCall_self, hch, hheld]
      ext b
      change b ∈ branch ++ [nr] ↔ b ∈ branch ∨ b = nr
      rw [List.mem_append, List.mem_singleton]
    · intro i hi hj
      rw [at_setCall_of_ne _ _ _ hj]
      cases i with
      | free => exact absurd rfl hi
      | tree => exact blocks_congr hq.get
      | trunc =>
          change {b | b ∈ s.trunc.owed _ _} = {b | b ∈ s.trunc.owed _ _}
          rw [hq.owed_eq]
      | other => rfl
      | lost => rfl
      | call u => rfl
  · intro u
    change CallOk ino.bits _ (if u = t then call else s.calls u)
    split_ifs with hu
    · exact hcok
    · exact (h.calls u).congr (hq.held u fun hi => hu (Place.call.inj hi).symm)
  · intro u
    change (if u = t then call else s.calls u).held.Nodup
    split_ifs with hu
    · rw [hch]
      exact List.nodup_append.mpr ⟨hnd, List.nodup_singleton _, fun a ha b hb hab =>
        hfresh (List.mem_singleton.mp hb ▸ hab ▸ ha)⟩
    · exact h.nodup u
  · intro u b iblock
    change (if u = t then call else s.calls u).creating = some b → _
    split_ifs with hu
    · intro hb hl
      rw [hcr] at hb
      exact hlim b iblock hb hl
    · exact h.limit u b iblock

/-! ### Giving a branch back -/

theorem held_freeNext (block : ℤ) (blocks : List ℕ) (err : Option ℤ) :
    (freeNext block blocks err).held = blocks := by
  cases blocks with
  | nil => cases err <;> rfl
  | cons b bs => rfl

theorem creating_freeNext {block : ℤ} {blocks : List ℕ} {err : Option ℤ} {b : ℤ}
    (h : (freeNext block blocks err).creating = some b) : err = none ∧ b = block := by
  cases blocks with
  | nil =>
      cases err with
      | none => exact ⟨rfl, (Option.some.inj h).symm⟩
      | some e => cases h
  | cons x xs =>
      cases err with
      | none => exact ⟨rfl, (Option.some.inj h).symm⟩
      | some e => cases h

theorem callOk_freeNext {bits : ℕ} {c : Cells ℕ} {block : ℤ} (hP : blockPath bits block ≠ [])
    (blocks : List ℕ) (err : Option ℤ) : CallOk bits c (freeNext block blocks err) := by
  cases blocks with
  | nil =>
      cases err with
      | none => exact hP
      | some e => trivial
  | cons b bs => exact ⟨hP, List.cons_ne_nil _ _⟩

theorem Inv.allocFails (h : Inv ino U s) {block : ℤ} {chain : List Indirect} {goal : ℕ}
    {branch : List ℕ} {err : ℤ} (hc : s.calls t = .allocBranch block chain goal branch) :
    Inv ino U (s.setCall t (freeNext block branch (some err))) := by
  have hok := h.calls t
  have hnd := h.nodup t
  rw [hc] at hok hnd
  refine h.setCall (callOk_freeNext (hok.1.ne_nil hok.2.1) _ _) ?_ ?_ ?_
  · rw [held_freeNext, hc]
    exact fun _ => Iff.rfl
  · rw [held_freeNext]
    exact hnd
  · intro b hb
    cases (creating_freeNext hb).1

theorem Inv.freeBranch (h : Inv ino U s) {block : ℤ} {b : ℕ} {bs : List ℕ} {err : Option ℤ}
    (hc : s.calls t = .freeBranch block (b :: bs) err) :
    Inv ino U ({ s with free := insert b s.free }.setCall t (freeNext block bs err)) := by
  have hok := h.calls t
  have hnd := h.nodup t
  have hlim := h.limit t
  rw [hc] at hok hnd hlim
  have hnd' : (b :: bs).Nodup := hnd
  have hheld : s.at ino (.call t) = {x | x ∈ b :: bs} := by
    change {x | x ∈ (s.calls t).held} = _
    rw [hc]
    rfl
  refine ⟨h.tree, ?_, h.zero, ?_, ?_, h.trunc, ?_⟩
  · refine h.parts.move (i := .call t) (j := .free) (X := {b}) ⟨nofun, ?_, ?_, ?_, ?_⟩
    · rintro x rfl
      rw [hheld]
      exact List.mem_cons_self
    · rw [at_setCall_self, held_freeNext, hheld]
      ext x
      change x ∈ bs ↔ x ∈ b :: bs ∧ x ∉ ({b} : Set ℕ)
      rw [List.mem_cons, Set.mem_singleton_iff]
      constructor
      · intro hx
        refine ⟨Or.inr hx, ?_⟩
        rintro rfl
        exact (List.nodup_cons.mp hnd').1 hx
      · rintro ⟨hx, hne⟩
        exact hx.resolve_left hne
    · ext x
      change x ∈ insert b s.free ↔ x ∈ s.free ∨ x = b
      rw [Finset.mem_insert]
      exact or_comm
    · intro i hi hj
      rw [at_setCall_of_ne _ _ _ hi]
      cases i with
      | free => exact absurd rfl hj
      | other => rfl
      | lost => rfl
      | tree => rfl
      | trunc => rfl
      | call u => rfl
  · intro u
    change CallOk ino.bits s.cell (if u = t then _ else s.calls u)
    split_ifs with hu
    · exact callOk_freeNext hok.1 _ _
    · exact h.calls u
  · intro u
    change (if u = t then freeNext block bs err else s.calls u).held.Nodup
    split_ifs with hu
    · rw [held_freeNext]
      exact (List.nodup_cons.mp hnd').2
    · exact h.nodup u
  · intro u b' iblock
    change (if u = t then freeNext block bs err else s.calls u).creating = some b' → _
    split_ifs with hu
    · intro hb hl
      obtain ⟨rfl, rfl⟩ := creating_freeNext hb
      exact hlim b' iblock rfl hl
    · exact h.limit u b' iblock

/-! ### `ext2_splice_branch` -/

theorem blockPath_leaf_of_ne {bits : ℕ} {i : ℤ} (h : blockPath bits i ≠ []) :
    (shape bits).Leaf (blockPath bits i) ∧ 0 ≤ i ∧ i < (capacity bits : ℤ) := by
  have hin : ¬ (i < 0 ∨ (capacity bits : ℤ) ≤ i) := fun ho => h ((blockPath_eq_nil_iff bits i).mpr ho)
  rw [not_or, not_lt, not_le] at hin
  obtain ⟨n, rfl⟩ := Int.eq_ofNat_of_zero_le hin.1
  exact ⟨blockPath_leaf bits (Int.ofNat_lt.mp hin.2), hin⟩

/-- The path of a block before the limit is not beyond the cut, nor is any part of it. -/
theorem not_doomed {i iblock : ℤ} (hi : blockPath ino.bits i ≠ []) (hlt : i < iblock) {ρ : List ℕ}
    (hpre : ρ <+: blockPath ino.bits i) : ¬ Doomed ino iblock ρ := by
  rintro ⟨hne, hb⟩
  have hbefore := before_blockPath ino.bits (blockPath_leaf_of_ne hi).2.1 hlt
    (blockPath_leaf_of_ne hne).2.2
  exact (before_cut hbefore).prefix_not_beyond hpre hb

/-- The place of the missing link, when the chain up to it is still there. -/
theorem Inv.graft (h : Inv ino U s) {block : ℤ} {pre : List Indirect} {place : Indirect}
    {branch : List ℕ} (hc : s.calls t = .spliceBranch block (pre ++ [place]) branch)
    (hv : verifyChain s.cell pre = true) (h0 : s.cell place.p.bh place.p.off = 0) :
    Graft (shape ino.bits) s.cell ((blockPath ino.bits block).take pre.length) place.p.off
        ((blockPath ino.bits block).drop (pre.length + 1)) branch ∧
      (blockPath ino.bits block).take pre.length ++ [place.p.off] ++
          (blockPath ino.bits block).drop (pre.length + 1) = blockPath ino.bits block ∧
      node s.cell ((blockPath ino.bits block).take pre.length) = place.p.bh := by
  have hok := h.calls t
  have hnd := h.nodup t
  rw [hc] at hok hnd
  obtain ⟨hs, hne, hlink⟩ := hok
  obtain ⟨hleaf, -⟩ := blockPath_leaf_of_ne (hs.ne_nil hne)
  have hl := (verifyChain_iff (hs.of_prefix (List.prefix_append _ _))).mp hv
  obtain ⟨ha, hn, htake⟩ := hs.above hl
  have hall : (blockPath ino.bits block).take pre.length ++ [place.p.off] ++
      (blockPath ino.bits block).drop (pre.length + 1) = blockPath ino.bits block := by
    rw [← htake, List.take_append_drop]
  have hheld : ∀ b ∈ branch, b ∈ s.at ino (.call t) := by
    intro b hb
    change b ∈ (s.calls t).held
    rw [hc]
    exact hb
  rw [List.length_append, List.length_singleton] at hlink
  refine ⟨⟨by rw [hall]; exact hleaf, ha, ?_, hlink, hnd, ?_, ?_⟩, hall, hn⟩
  · rw [← htake, hs.get_slot hl, h0]
  · rintro b hb rfl
    exact h.zero (h.parts.mem (hheld 0 hb))
  · exact fun b hb => h.parts.notMem (i := .call t) (j := .tree) (hheld b hb) nofun

/-- The two ways through `ext2_splice_branch`. -/
theorem Inv.splice_cases (h : Inv ino U s) {block : ℤ} {chain : List Indirect} {branch : List ℕ}
    (hc : s.calls t = .spliceBranch block chain branch) :
    (∃ π o os, π ++ [o] ++ os = blockPath ino.bits block ∧
      Graft (shape ino.bits) s.cell π o os branch ∧
      s.splice ino t block chain branch = { s with
        cell := PointerTree.graft s.cell π o branch
        iNextAllocBlock := block
        iNextAllocGoal := branch.getLastD 0 }.setCall t
          (gotIt ino block (branch.getLastD 0) true)) ∨
      s.splice ino t block chain branch = s.setCall t (freeNext block branch none) := by
  have hok := h.calls t
  rw [hc] at hok
  obtain ⟨hs, hne, -⟩ := hok
  obtain ⟨pre, place, rfl⟩ : ∃ pre place, chain = pre ++ [place] := by
    rcases List.eq_nil_or_concat chain with h0 | ⟨pre, place, rfl⟩
    · exact absurd h0 hne
    · exact ⟨pre, place, List.concat_eq_append⟩
  rw [State.splice, List.getLast?_concat, List.dropLast_concat]
  dsimp only
  split_ifs with hcond
  · rw [Bool.and_eq_true, beq_iff_eq] at hcond
    obtain ⟨hg, hall, hn⟩ := h.graft hc hcond.1 hcond.2
    exact Or.inl ⟨_, _, _, hall, hg, by rw [PointerTree.graft, hn]⟩
  · exact Or.inr rfl

theorem Inv.splice (h : Inv ino U s) {block : ℤ} {chain : List Indirect} {branch : List ℕ}
    (hc : s.calls t = .spliceBranch block chain branch) :
    Inv ino U (s.splice ino t block chain branch) := by
  have hok := h.calls t
  have hnd := h.nodup t
  have hlim := h.limit t
  rw [hc] at hok hnd hlim
  obtain ⟨hs, hne, hlink⟩ := hok
  rcases h.splice_cases hc with ⟨π, o, os, hall, hg, heq⟩ | heq
  · rw [heq]
    -- the node that is written is of the tree
    have hother : ∀ i, i ≠ .tree → ∀ b ∈ s.at ino i, ∀ k,
        PointerTree.graft s.cell π o branch (some b) k = s.cell (some b) k := by
      intro i hi b hb k
      refine put_node_ne s.cell (fun heq => ?_) _ _ _
      by_cases hz : π = []
      · rw [hz] at heq
        cases heq
      · rw [node_of_ne hz, Option.some.injEq] at heq
        refine h.parts.notMem (j := .tree) hb hi ?_
        rw [heq]
        exact Shape.mem_blocks ((path_dropLast hg.slot).resolve_left hz) (hg.alive.resolve_left hz)
    refine ⟨h.tree.graft hg, ?_, h.zero, ?_, ?_, ?_, ?_⟩
    · refine h.parts.move (i := .call t) (j := .tree) (X := {b | b ∈ branch}) ⟨nofun, ?_, ?_, ?_, ?_⟩
      · intro b hb
        change b ∈ (s.calls t).held
        rw [hc]
        exact hb
      · rw [at_setCall_self]
        ext b
        change b ∈ ([] : List ℕ) ↔ b ∈ (s.calls t).held ∧ b ∉ {b | b ∈ branch}
        rw [hc]
        exact ⟨fun hb => absurd hb List.not_mem_nil, fun hb => absurd hb.1 hb.2⟩
      · exact blocks_graft h.tree hg
      · intro i hi hj
        rw [at_setCall_of_ne _ _ _ hi]
        cases i with
        | free => rfl
        | other => rfl
        | lost => rfl
        | tree => exact absurd rfl hj
        | trunc =>
            change {b | b ∈ s.trunc.owed _ _} = {b | b ∈ s.trunc.owed _ _}
            have ho := hother .trunc nofun
            cases htr : s.trunc with
            | free iblock stack =>
                have : ∀ b ∈ owed s.cell (addrPerBlock ino.bits) stack, b ∈ s.at ino .trunc := by
                  intro b hb
                  change b ∈ s.trunc.owed _ _
                  rw [htr]
                  exact hb
                exact congrArg (fun l : List ℕ => {b | b ∈ l})
                  (owed_congr fun b hb => ho b (this b hb))
            | idle => rfl
            | findShared iblock chain => rfl
            | detach iblock chain => rfl
            | done iblock => rfl
        | call u => rfl
    · intro u
      change CallOk ino.bits _ (if u = t then _ else s.calls u)
      split_ifs with hu
      · trivial
      · exact (h.calls u).congr fun b hb => hother (.call u) nofun b hb
    · intro u
      change (if u = t then gotIt ino block (branch.getLastD 0) true else s.calls u).held.Nodup
      split_ifs with hu
      · exact List.nodup_nil
      · exact h.nodup u
    · refine h.trunc.mono (fun π hπ hne => get_graft_of_ne h.tree hg hπ hne) ?_
        (hother .trunc nofun)
      intro iblock hl ρ hρ hd
      refine (get_graft h.tree hg hρ).trans (if_neg ?_)
      rintro ⟨-, hpre⟩
      rw [hall] at hpre
      exact not_doomed (hs.ne_nil hne) (hlim block iblock rfl hl) hpre hd
    · intro u b iblock
      change (if u = t then gotIt ino block (branch.getLastD 0) true else s.calls u).creating =
        some b → _
      split_ifs with hu
      · intro hb
        cases hb
      · exact h.limit u b iblock
  · rw [heq]
    refine h.setCall (callOk_freeNext (hs.ne_nil hne) _ _) ?_ ?_ ?_
    · rw [held_freeNext, hc]
      exact fun _ => Iff.rfl
    · rw [held_freeNext]
      exact hnd
    · intro b hb iblock hl
      obtain ⟨-, rfl⟩ := creating_freeNext hb
      exact hlim b iblock rfl hl

end Blocks

end LinuxHacks.Ext2
