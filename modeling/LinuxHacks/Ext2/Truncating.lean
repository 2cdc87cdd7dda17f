import LinuxHacks.Ext2.Invariant

/-!
# The steps of a truncation keep the invariant

`ext2_truncate` reads the shared path, detaches the top of the branch under the
lock, and then frees, slot by slot, what is beyond the cut. All the while other
tasks may add blocks before the cut.
-/

namespace LinuxHacks.Ext2

open Lib.PointerTree LinuxHacks.Lib

section Trunc

variable {ino : Inode} {U : Set ℕ} {s : State}

/-- Reading on along the shared path. -/
theorem truncOk_next {c : Cells ℕ} {iblock : ℤ} {chain : List Indirect}
    (hleaf : (shape ino.bits).Leaf (blockPath ino.bits iblock))
    (h2 : 2 ≤ (blockPath ino.bits iblock).length)
    (hs : Spine (sharedPath ino iblock) chain) (hne : chain ≠ [])
    (hl : Live c (sharedPath ino iblock) chain) :
    TruncOk ino c (afterShared iblock (branchNext (sharedPath ino iblock).length chain)) := by
  have hR : Reached (shape ino.bits) c (sharedPath ino iblock) chain := by
    refine ⟨hs, hne, hl.of_prefix (List.dropLast_prefix _), fun _ => hl, ?_⟩
    rintro hkey π - - ⟨os, rfl⟩
    rw [get_append c (take_ne_nil (fun h0 => hne (List.length_eq_zero_iff.mp h0)) hs.length),
      hl.last hne, hkey, follow_zero]
  rcases branchNext_cases (sharedPath ino iblock).length chain with
    ⟨-, heq⟩ | ⟨-, -, heq⟩ | ⟨hkey, hlen, heq⟩
  · rw [heq]
    exact ⟨hleaf, h2, hR⟩
  · rw [heq]
    exact ⟨hleaf, h2, hR⟩
  · rw [heq]
    exact ⟨hleaf, h2, hs, hne, hkey, lt_of_le_of_ne hs.length hlen, hl⟩

theorem owed_afterShared (c : Cells ℕ) (w : ℕ) (iblock : ℤ) (r : Branch) :
    (afterShared iblock r).owed c w = [] := by
  cases r <;> rfl

theorem limit_afterShared (iblock : ℤ) (r : Branch) :
    (afterShared iblock r).limit = some iblock := by
  cases r <;> rfl

/-- Truncating to a block that `i_data` points to. -/
theorem freeOk_direct {c : Cells ℕ} {o : ℕ} (ho : o < ndirBlocks) :
    FreeOk (shape ino.bits) c [o]
      [.freeData none o ndirBlocks 0 0, .doIndirects (indirectsFrom o)] := by
  have hfrom : indirectsFrom o = indBlock := by
    have h1 : indBlock = ndirBlocks := rfl
    have h2 : dindBlock = indBlock + 1 := rfl
    have h3 : tindBlock = dindBlock + 1 := rfl
    rw [indirectsFrom, if_neg (by omega), if_neg (by omega), if_neg (by omega)]
  have hnd : ndirBlocks < nBlocks := by decide
  refine ⟨?_, ⟨Or.inr ?_, ?_, trivial⟩, ?_⟩
  · rw [owed_cons, own_freeData_shared _ _ _ _ _ _ (not_owned_none _)]
    exact List.nodup_nil
  · refine ⟨[], List.nil_prefix, Nat.zero_lt_one, Or.inl rfl, rfl, ?_⟩
    intro o' hge hlt
    refine ⟨⟨lt_trans hlt hnd, Nat.zero_le _, fun x hx => absurd hx List.not_mem_nil⟩, ?_, ?_⟩
    · have : o' + 1 - ndirBlocks = 0 := Nat.sub_eq_zero_of_le hlt
      exact this
    · rcases Nat.lt_or_eq_of_le hge with hlt' | rfl
      · exact Or.inl hlt'
      · exact Or.inr ⟨rfl, trivial⟩
  · rw [hfrom]
    exact ends_indirects le_rfl (List.cons_ne_nil _ _) ho
  · intro π hπ hb
    right
    cases π with
    | nil => exact absurd hπ id
    | cons x π =>
        have hox : o ≤ x := by
          rcases hb with hlt | ⟨rfl, -⟩
          · exact le_of_lt hlt
          · exact le_rfl
        rcases Nat.lt_or_ge x ndirBlocks with hx | hx
        · exact ⟨_, List.mem_cons_self, none, o, ndirBlocks, rfl, [], x, List.nil_prefix,
            Nat.zero_lt_one, Or.inl rfl, rfl, hox, hx, ⟨π, rfl⟩⟩
        · exact ⟨_, List.mem_cons_of_mem _ List.mem_cons_self, none, indirectsFrom o, nBlocks, rfl,
            [], x, List.nil_prefix, Nat.zero_lt_one, Or.inl rfl, rfl, by rw [hfrom]; exact hx, hπ.1,
            ⟨π, rfl⟩⟩

/-- What `ext2_truncate` starts with. -/
theorem truncate_ok (ino : Inode) (c : Cells ℕ) (iSize : ℕ) :
    TruncOk ino c (truncate ino c iSize) ∧
      (truncate ino c iSize).owed c (addrPerBlock ino.bits) = [] ∧
      (truncate ino c iSize).limit = some (truncateBlock ino iSize) := by
  rw [truncate]
  cases hpath : blockPath ino.bits (truncateBlock ino iSize) with
  | nil => exact ⟨fun π _ hd => absurd hpath hd.1, rfl, rfl⟩
  | cons o os =>
      have hne : blockPath ino.bits (truncateBlock ino iSize) ≠ [] := by
        rw [hpath]
        exact List.cons_ne_nil _ _
      have hleaf := (blockPath_leaf_of_ne hne).1
      cases os with
      | nil =>
          have ho : o < ndirBlocks := by
            rw [hpath] at hleaf
            have : 0 = o + 1 - ndirBlocks := hleaf.2.1
            omega
          have hshared : sharedPath ino (truncateBlock ino iSize) = [o] := by
            rw [sharedPath, hpath]
            rfl
          refine ⟨⟨hleaf, hshared ▸ freeOk_direct ho⟩, ?_, rfl⟩
          rw [Trunc.owed, owed_cons, own_freeData_shared _ _ _ _ _ _ (not_owned_none _)]
          rfl
      | cons o' os =>
          have h2 : 2 ≤ (blockPath ino.bits (truncateBlock ino iSize)).length := by
            rw [hpath]
            exact Nat.le_add_left 2 _
          have hP : sharedPath ino (truncateBlock ino iSize) ≠ [] := cut_ne_nil hleaf.path.ne_nil
          obtain ⟨q, hq, hs, hl⟩ := getBranch_cases c hP
          refine ⟨?_, owed_afterShared _ _ _ _, limit_afterShared _ _⟩
          dsimp only
          rw [hq]
          exact truncOk_next hleaf h2 hs (List.cons_ne_nil _ _) hl

/-- The truncation moves on and owes what it owed. -/
theorem Inv.setTrunc (h : Inv ino U s) {tr : Trunc} (hok : TruncOk ino s.cell tr)
    (howed : tr.owed s.cell (addrPerBlock ino.bits) = s.trunc.owed s.cell (addrPerBlock ino.bits))
    (hlim : ∀ t block iblock, (s.calls t).creating = some block → tr.limit = some iblock →
      block < iblock) :
    Inv ino U { s with trunc := tr } where
  tree := h.tree
  parts := by
    have hat : State.at ino { s with trunc := tr } = s.at ino := by
      funext i
      cases i with
      | trunc =>
          change {b | b ∈ tr.owed s.cell (addrPerBlock ino.bits)} =
            {b | b ∈ s.trunc.owed s.cell (addrPerBlock ino.bits)}
          rw [howed]
      | free => rfl
      | other => rfl
      | lost => rfl
      | tree => rfl
      | call u => rfl
    rw [hat]
    exact h.parts
  zero := h.zero
  calls := h.calls
  nodup := h.nodup
  trunc := hok
  limit := hlim

theorem Inv.truncate (h : Inv ino U s) (hidle : s.trunc = .idle) {iSize : ℕ}
    (hlim : ∀ t block, (s.calls t).creating = some block → block < truncateBlock ino iSize) :
    Inv ino U { s with trunc := truncate ino s.cell iSize } := by
  obtain ⟨hok, howed, hl⟩ := truncate_ok ino s.cell iSize
  refine h.setTrunc hok (by rw [howed, hidle]; rfl) ?_
  intro t block iblock hc hl'
  rw [hl, Option.some.injEq] at hl'
  exact hl' ▸ hlim t block hc

theorem Inv.truncRead (h : Inv ino U s) {iblock : ℤ} {chain : List Indirect}
    (htr : s.trunc = .findShared iblock chain) (io : Bool) :
    Inv ino U { s with
      trunc := afterShared iblock (getBranchLoop s.cell (sharedPath ino iblock) chain io) } := by
  have hok := h.trunc
  rw [htr] at hok
  obtain ⟨hleaf, h2, hs, hne, hkey, hlen, hl⟩ := hok
  refine h.setTrunc ?_ (by rw [owed_afterShared, htr]; rfl) ?_
  · rcases getBranchLoop_cases (c := s.cell) io hs hne hkey hlen with
      ⟨-, heq⟩ | ⟨-, hn, -⟩ | ⟨-, -, q, heq, hs', hl'⟩
    · rw [heq]
      exact ⟨hleaf, h2, hs, hne, hl.of_prefix (List.dropLast_prefix _), fun _ => hl,
        fun h0 => absurd h0 hkey⟩
    · exact absurd hl hn
    · rw [heq]
      exact truncOk_next hleaf h2 hs' (by simp) hl'
  · intro t block b hc hlim
    rw [limit_afterShared] at hlim
    exact h.limit t block b hc (by rw [htr]; exact hlim)

/-- A call does not notice a write to the tree. -/
theorem Inv.calls_put (h : Inv ino U s) {π : List ℕ} {o v : ℕ}
    (hslot : (shape ino.bits).Path (π ++ [o])) (ha : Alive s.cell π) (t : ℕ) :
    CallOk ino.bits (put s.cell (node s.cell π) o v) (s.calls t) := by
  refine (h.calls t).congr fun b hb k => put_node_ne s.cell (fun heq => ?_) _ _ _
  by_cases hz : π = []
  · rw [hz] at heq
    cases heq
  · rw [node_of_ne hz, Option.some.injEq] at heq
    refine h.parts.notMem (i := .call t) (j := .tree) hb nofun ?_
    rw [heq]
    exact Shape.mem_blocks ((path_dropLast hslot).resolve_left hz) (ha.resolve_left hz)

/-- What is detached is moved to the truncation. -/
theorem Inv.parts_detach (h : Inv ino U s) {π : List ℕ} {o : ℕ}
    (hslot : (shape ino.bits).Path (π ++ [o])) (ha : Alive s.cell π) {s' : State} {iblock : ℤ}
    {stack : List Frame} (hs' : s' = { s with
      cell := put s.cell (node s.cell π) o 0
      trunc := .free iblock stack })
    (howed : ∀ b, b ∈ owed s'.cell (addrPerBlock ino.bits) stack ↔
      b ∈ sub s.cell (shape ino.bits).width ((shape ino.bits).below (π ++ [o]))
        (get s.cell (π ++ [o])) ∨ b ∈ s.trunc.owed s.cell (addrPerBlock ino.bits)) :
    Parts U (s'.at ino) := by
  subst hs'
  refine h.parts.move (i := .tree) (j := .trunc) (X := (shape ino.bits).under s.cell (π ++ [o]))
    ⟨nofun, ?_, ?_, ?_, ?_⟩
  · exact Shape.under_subset _ _ _
  · exact blocks_clear h.tree hslot ha
  · ext b
    change b ∈ owed _ _ stack ↔ b ∈ s.trunc.owed _ _ ∨ b ∈ (shape ino.bits).under s.cell (π ++ [o])
    rw [howed, mem_sub_get hslot]
    exact or_comm
  · intro i hi hj
    cases i with
    | tree => exact absurd rfl hi
    | trunc => exact absurd rfl hj
    | free => rfl
    | other => rfl
    | lost => rfl
    | call u => rfl

theorem Inv.detach (h : Inv ino U s) {iblock : ℤ} {chain : List Indirect}
    (htr : s.trunc = .detach iblock chain) {c' : Cells ℕ} {stack : List Frame}
    (hc' : c' = (findShared s.cell (sharedPath ino iblock).length chain).1)
    (hstack : stack = afterDetach ino iblock
      (findShared s.cell (sharedPath ino iblock).length chain).2.1
      (findShared s.cell (sharedPath ino iblock).length chain).2.2) :
    Inv ino U { s with cell := c', trunc := .free iblock stack } := by
  have hok := h.trunc
  rw [htr] at hok
  obtain ⟨hleaf, h2, hR⟩ := hok
  obtain ⟨hstep, hfree⟩ := detach_step h.tree hleaf h2 hR hc' hstack
  have hnone : s.trunc.owed s.cell (addrPerBlock ino.bits) = [] := by
    rw [htr]
    rfl
  have hlim : ∀ t block b, (s.calls t).creating = some block →
      (Trunc.free iblock stack).limit = some b → block < b := fun t block b hc hl =>
    h.limit t block b hc (by rw [htr]; exact hl)
  cases hstep with
  | kept hcell howed =>
      subst hcell
      exact h.setTrunc ⟨hleaf, hfree⟩ (howed.trans hnone.symm) hlim
  | cleared π o hslot ha _ hcell howed =>
      subst hcell
      refine ⟨h.tree.clear hslot ha, h.parts_detach hslot ha rfl ?_, h.zero, h.calls_put hslot ha,
        h.nodup, ⟨hleaf, hfree⟩, hlim⟩
      · intro b
        rw [hnone]
        change b ∈ owed _ (shape ino.bits).width stack ↔ _
        rw [howed]
        simp

/-- The innermost call does not touch the rest of the state. -/
theorem truncFree_eq (ino : Inode) (s : State) (io : Bool) (f : Frame) :
    (s.truncFree ino io f).1 = { s with
      cell := (s.truncFree ino io f).1.cell
      free := (s.truncFree ino io f).1.free
      lost := (s.truncFree ino io f).1.lost } := by
  cases f with
  | freeData n p q b k =>
      rw [State.truncFree, State.freeDataStep]
      dsimp only
      split_ifs <;> rfl
  | freeBranches n p q d =>
      rw [State.truncFree, State.freeBranchesStep]
      dsimp only
      split_ifs <;> rfl
  | readBranch nr d =>
      rw [State.truncFree, State.readBranchStep]
      split_ifs <;> rfl
  | freeBlocks b k => rfl
  | doIndirects o =>
      rw [State.truncFree, State.doIndirectsStep]
      dsimp only
      split_ifs <;> rfl

/-- What a truncation has detached is not in the tree. -/
theorem Inv.apart (h : Inv ino U s) {iblock : ℤ} {stack : List Frame}
    (htr : s.trunc = .free iblock stack) : Apart (shape ino.bits) s.cell stack := by
  intro b hb
  refine h.parts.notMem (i := .trunc) (j := .tree) ?_ nofun
  change b ∈ s.trunc.owed _ _
  rw [htr]
  exact hb

theorem Inv.truncFree (h : Inv ino U s) {iblock : ℤ} {f : Frame} {stack : List Frame}
    (htr : s.trunc = .free iblock (f :: stack)) (io : Bool) :
    Inv ino U { (s.truncFree ino io f).1 with
      trunc := .free iblock ((s.truncFree ino io f).2 ++ stack) } := by
  have hok := h.trunc
  rw [htr] at hok
  obtain ⟨hleaf, hF⟩ := hok
  have hat : s.at ino .trunc = {b | b ∈ owed s.cell (addrPerBlock ino.bits) (f :: stack)} := by
    change {b | b ∈ s.trunc.owed _ _} = _
    rw [htr]
    rfl
  have hout := h.apart htr
  obtain ⟨hfree, hstep⟩ := hF.step io (rfl : (shape ino.bits).width = _) h.tree (sharedPath_path hleaf) hout
  have htree := hstep.tree h.tree hout
  have heq := truncFree_eq ino s io f
  have hnd := hF.nodup
  generalize (s.truncFree ino io f).1 = s' at heq hstep hfree htree
  generalize (s.truncFree ino io f).2 ++ stack = stack' at hstep hfree
  obtain ⟨c', fr, lo, rfl⟩ : ∃ c' fr lo, s' = { s with cell := c', free := fr, lost := lo } :=
    ⟨_, _, _, heq⟩
  have hlim : ∀ t block b, (s.calls t).creating = some block →
      (Trunc.free iblock stack').limit = some b → block < b := fun t block b hc hl =>
    h.limit t block b hc (by rw [htr]; exact hl)
  -- what leaves the truncation for another place
  have hleave : ∀ {X : List ℕ} {i : Place} {s' : State},
      (owed s.cell (addrPerBlock ino.bits) (f :: stack)).Perm
        (X ++ owed s.cell (addrPerBlock ino.bits) stack') →
      i ≠ .trunc → s'.at ino .trunc = {b | b ∈ owed s.cell (addrPerBlock ino.bits) stack'} →
      s'.at ino i = s.at ino i ∪ {b | b ∈ X} →
      (∀ j, j ≠ .trunc → j ≠ i → s'.at ino j = s.at ino j) → Parts U (s'.at ino) := by
    intro X i s' howed hi htrunc htarget hrest
    refine h.parts.move ⟨hi.symm, ?_, ?_, htarget, hrest⟩
    · intro b hb
      rw [hat]
      exact howed.mem_iff.mpr (List.mem_append_left _ hb)
    · rw [htrunc, hat]
      obtain ⟨-, -, hdis⟩ := List.nodup_append.mp (howed.nodup_iff.mp hnd)
      ext b
      change b ∈ owed _ _ stack' ↔ b ∈ owed _ _ (f :: stack) ∧ b ∉ X
      rw [howed.mem_iff, List.mem_append]
      exact ⟨fun hb => ⟨Or.inr hb, fun hX => hdis b hX b hb rfl⟩,
        fun hb => hb.1.resolve_left hb.2⟩
  cases hstep with
  | within hfr hlo hcell howed =>
      dsimp only at hfr hlo hcell howed
      subst hfr hlo
      have hother : ∀ i, i ≠ .trunc → ∀ b ∈ s.at ino i, ∀ k, c' (some b) k = s.cell (some b) k := by
        intro i hi b hb k
        refine hcell (some b) k fun x hx heq => ?_
        refine h.parts.notMem (i := i) (j := .trunc) hb hi ?_
        rw [hat, Option.some.inj heq]
        exact hx
      have hget : ∀ π, (shape ino.bits).Path π → get c' π = get s.cell π := fun π hπ =>
        get_congr (fun k => hcell none k fun b _ => nofun) (hother .tree nofun) hπ
      refine ⟨htree, ?_, h.zero, fun t => (h.calls t).congr (hother (.call t) nofun), h.nodup,
        ⟨hleaf, hfree⟩, hlim⟩
      have hsame : State.at ino { s with cell := c', trunc := .free iblock stack' } = s.at ino := by
        funext i
        cases i with
        | trunc =>
            rw [hat]
            ext b
            exact howed.mem_iff
        | tree => exact blocks_congr hget
        | free => rfl
        | other => rfl
        | lost => rfl
        | call u => rfl
      exact hsame ▸ h.parts
  | detached hfr hlo π o hslot ha hb hcell howed =>
      dsimp only at hfr hlo hcell howed
      subst hfr hlo hcell
      refine ⟨htree, h.parts_detach hslot ha rfl fun b => ?_, h.zero, h.calls_put hslot ha, h.nodup,
        ⟨hleaf, hfree⟩, hlim⟩
      rw [htr]
      exact howed.mem_iff.trans List.mem_append
  | freed X hcell hlo hfr howed =>
      dsimp only at hfr hlo hcell howed
      subst hfr hlo hcell
      refine ⟨htree, hleave (i := .free) howed nofun rfl ?_ ?_, h.zero, h.calls, h.nodup,
        ⟨hleaf, hfree⟩, hlim⟩
      · ext b
        change b ∈ s.free ∪ X.toFinset ↔ b ∈ s.free ∨ b ∈ X
        rw [Finset.mem_union, List.mem_toFinset]
      · intro j hj hj'
        cases j with
        | trunc => exact absurd rfl hj
        | free => exact absurd rfl hj'
        | other => rfl
        | lost => rfl
        | tree => rfl
        | call u => rfl
  | dropped X hcell hfr hlo howed =>
      dsimp only at hfr hlo hcell howed
      subst hfr hlo hcell
      refine ⟨htree, hleave (i := .lost) howed nofun rfl ?_ ?_, h.zero, h.calls, h.nodup,
        ⟨hleaf, hfree⟩, hlim⟩
      · ext b
        change b ∈ s.lost ∪ X.toFinset ↔ b ∈ s.lost ∨ b ∈ X
        rw [Finset.mem_union, List.mem_toFinset]
      · intro j hj hj'
        cases j with
        | trunc => exact absurd rfl hj
        | lost => exact absurd rfl hj'
        | other => rfl
        | free => rfl
        | tree => rfl
        | call u => rfl

theorem Inv.truncFinish (h : Inv ino U s) {iblock : ℤ} (htr : s.trunc = .free iblock []) :
    Inv ino U { s with trunc := .done iblock } := by
  have hok := h.trunc
  rw [htr] at hok
  obtain ⟨-, hF⟩ := hok
  refine h.setTrunc ?_ (by rw [htr]; rfl) ?_
  · intro π hπ hd
    refine (hF.swept π hπ hd.2).resolve_right ?_
    rintro ⟨f, hf, -⟩
    exact absurd hf List.not_mem_nil
  · intro t block b hc hl
    exact h.limit t block b hc (by rw [htr]; exact hl)

end Trunc

/-! ## Other users of the file system -/

section Others

variable {ino : Inode} {U : Set ℕ} {s : State}

theorem Inv.take (h : Inv ino U s) {b : ℕ} (hb : b ∈ s.free) :
    Inv ino U { s with free := s.free.erase b, other := insert b s.other } := by
  refine ⟨h.tree, h.parts.move (i := .free) (j := .other) (X := {b}) ⟨nofun, ?_, ?_, ?_, ?_⟩, h.zero,
    h.calls, h.nodup, h.trunc, h.limit⟩
  · rintro x rfl
    exact hb
  · ext x
    change x ∈ s.free.erase b ↔ x ∈ s.free ∧ x ∉ ({b} : Set ℕ)
    rw [Finset.mem_erase, Set.mem_singleton_iff]
    exact And.comm
  · ext x
    change x ∈ insert b s.other ↔ x ∈ s.other ∨ x = b
    rw [Finset.mem_insert]
    exact or_comm
  · intro i hi hj
    cases i with
    | free => exact absurd rfl hi
    | other => exact absurd rfl hj
    | lost => rfl
    | tree => rfl
    | trunc => rfl
    | call u => rfl

theorem Inv.give (h : Inv ino U s) {b : ℕ} (hb : b ∈ s.other) :
    Inv ino U { s with other := s.other.erase b, free := insert b s.free } := by
  refine ⟨h.tree, h.parts.move (i := .other) (j := .free) (X := {b}) ⟨nofun, ?_, ?_, ?_, ?_⟩, h.zero,
    h.calls, h.nodup, h.trunc, h.limit⟩
  · rintro x rfl
    exact hb
  · ext x
    change x ∈ s.other.erase b ↔ x ∈ s.other ∧ x ∉ ({b} : Set ℕ)
    rw [Finset.mem_erase, Set.mem_singleton_iff]
    exact And.comm
  · ext x
    change x ∈ insert b s.free ↔ x ∈ s.free ∨ x = b
    rw [Finset.mem_insert]
    exact or_comm
  · intro i hi hj
    cases i with
    | other => exact absurd rfl hi
    | free => exact absurd rfl hj
    | lost => rfl
    | tree => rfl
    | trunc => rfl
    | call u => rfl

theorem Inv.write (h : Inv ino U s) {b : ℕ} (hb : b ∈ s.free ∨ b ∈ s.other) (data : ℕ → ℕ) :
    Inv ino U { s with cell := fun m k => if m = some b then data k else s.cell m k } := by
  obtain ⟨i, hi, hit, hir, hic⟩ : ∃ i, b ∈ s.at ino i ∧ i ≠ .tree ∧ i ≠ .trunc ∧
      ∀ u, i ≠ .call u := by
    rcases hb with hb | hb
    · exact ⟨.free, hb, nofun, nofun, fun _ => nofun⟩
    · exact ⟨.other, hb, nofun, nofun, fun _ => nofun⟩
  have hq : Quiet ino s (fun m k => if m = some b then data k else s.cell m k) i :=
    h.quiet hit hir fun m k hm => if_neg (hm b hi)
  refine ⟨h.tree.congr hq.get, ?_, h.zero, fun u => (h.calls u).congr (hq.held u (hic u)), h.nodup,
    hq.trunc h.trunc, h.limit⟩
  have hsame : State.at ino
      { s with cell := fun m k => if m = some b then data k else s.cell m k } = s.at ino := by
    funext j
    cases j with
    | tree => exact blocks_congr hq.get
    | trunc =>
        change {x | x ∈ s.trunc.owed _ _} = {x | x ∈ s.trunc.owed _ _}
        rw [hq.owed_eq]
    | free => rfl
    | other => rfl
    | lost => rfl
    | call u => rfl
  exact hsame ▸ h.parts

end Others

end LinuxHacks.Ext2
