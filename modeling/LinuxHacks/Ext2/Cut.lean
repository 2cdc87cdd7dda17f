import LinuxHacks.Ext2.Owed

/-!
# Where a file is cut

`ext2_find_shared` goes down the path of the first block to remove, without the
zeroes it ends with (`sharedPath`); the pointers beyond that path are those of the
blocks from there on. Under the lock it detaches the highest block on the path
that holds nothing to the left of it (`findShared_free`), and then the rest of the
truncation has all that is left beyond the cut still to visit.
-/

namespace LinuxHacks.Ext2

open Lib.PointerTree

/-! ## The shared path -/

section SharedDepth

variable {offsets : List ℕ}

theorem sharedDepth_le (offsets : List ℕ) (k : ℕ) : sharedDepth offsets k ≤ k := by
  induction k using sharedDepth.induct offsets with
  | case1 k h ih =>
      rw [sharedDepth, if_pos h]
      exact le_trans ih (Nat.le_succ _)
  | case2 k h => rw [sharedDepth, if_neg h]
  | case3 k h =>
      rw [sharedDepth]
      exact h

theorem one_le_sharedDepth (offsets : List ℕ) {k : ℕ} (hk : 1 ≤ k) :
    1 ≤ sharedDepth offsets k := by
  induction k using sharedDepth.induct offsets with
  | case1 k h ih =>
      rw [sharedDepth, if_pos h]
      exact ih (Nat.le_add_left 1 k)
  | case2 k h => rw [sharedDepth, if_neg h]; exact hk
  | case3 k h =>
      rw [sharedDepth]
      · exact hk
      · exact h

/-- What is left out are zeroes. -/
theorem getD_of_sharedDepth_le {k j : ℕ} (hj : sharedDepth offsets k ≤ j) (hjk : j < k) :
    offsets.getD j 0 = 0 := by
  induction k using sharedDepth.induct offsets with
  | case1 k h ih =>
      rw [sharedDepth, if_pos h] at hj
      rcases Nat.lt_or_ge j (k + 1) with hlt | hge
      · exact ih hj hlt
      · rw [show j = k + 1 by omega]
        exact h
  | case2 k h =>
      rw [sharedDepth, if_neg h] at hj
      omega
  | case3 k h =>
      rw [sharedDepth] at hj
      · omega
      · exact h

/-- What is kept, below the inode, does not end with a zero. -/
theorem getD_sharedDepth {k : ℕ} (h2 : 2 ≤ sharedDepth offsets k) :
    offsets.getD (sharedDepth offsets k - 1) 0 ≠ 0 := by
  induction k using sharedDepth.induct offsets with
  | case1 k h ih =>
      rw [sharedDepth, if_pos h] at h2 ⊢
      exact ih h2
  | case2 k h =>
      rw [sharedDepth, if_neg h]
      exact h
  | case3 k h =>
      match k, h with
      | 0, _ => exact absurd h2 (by rw [sharedDepth]; omega; exact nofun)
      | 1, _ => exact absurd h2 (by rw [sharedDepth]; omega; exact nofun)
      | k + 2, h => exact absurd rfl (h k)

end SharedDepth

/-- The path cut off, without the zeroes it ends with. -/
def cut (offsets : List ℕ) : List ℕ := offsets.take (sharedDepth offsets offsets.length)

section Cut

variable {offsets : List ℕ}

theorem cut_isPrefix (offsets : List ℕ) : cut offsets <+: offsets := List.take_prefix _ _

theorem length_cut (offsets : List ℕ) :
    (cut offsets).length = sharedDepth offsets offsets.length := by
  rw [cut, List.length_take]
  exact Nat.min_eq_left (sharedDepth_le _ _)

theorem cut_ne_nil (h : offsets ≠ []) : cut offsets ≠ [] := by
  intro hnil
  have hlen := length_cut offsets
  have := one_le_sharedDepth offsets (List.length_pos_of_ne_nil h)
  rw [hnil, List.length_nil] at hlen
  omega

theorem getD_cut {j : ℕ} (hj : j < (cut offsets).length) :
    (cut offsets).getD j 0 = offsets.getD j 0 := by
  obtain ⟨os, hos⟩ := cut_isPrefix offsets
  conv_rhs => rw [← hos]
  rw [List.getD_append _ _ _ _ hj]

theorem cut_last (h : 2 ≤ (cut offsets).length) :
    (cut offsets).getD ((cut offsets).length - 1) 0 ≠ 0 := by
  rw [getD_cut (by omega), length_cut]
  rw [length_cut] at h
  exact getD_sharedDepth h

/-- What leaves the whole path to the left leaves the cut to the left: at a zero
nothing can. -/
theorem before_cut {π : List ℕ} (h : Before offsets π) : Before (cut offsets) π := by
  obtain ⟨ρ, o, o', hP, hπ, hlt⟩ := before_iff.mp h
  refine before_iff.mpr ⟨ρ, o, o', ?_, hπ, hlt⟩
  refine List.prefix_of_prefix_length_le hP (cut_isPrefix offsets) ?_
  rw [List.length_append, List.length_singleton]
  by_contra hlen
  have hρ : ρ.length < offsets.length := by
    have := hP.length_le
    rwa [List.length_append, List.length_singleton] at this
  have hcut : sharedDepth offsets offsets.length ≤ ρ.length := by
    rw [← length_cut]
    omega
  have hzero := getD_of_sharedDepth_le hcut hρ
  obtain ⟨os, hos⟩ := hP
  rw [← hos, List.append_assoc, List.getD_append_right _ _ _ _ le_rfl, Nat.sub_self] at hzero
  have : o = 0 := hzero
  omega

/-- What the whole path leaves to its left is beyond the cut. -/
theorem beyond_cut {π : List ℕ} (h : Before π offsets) : Beyond (cut offsets) π := by
  obtain ⟨ρ, o, o', hπ, hP, hlt⟩ := before_iff.mp h
  rcases List.prefix_or_prefix_of_prefix hP (cut_isPrefix offsets) with hpre | hpre
  · exact beyond_iff.mpr (Or.inr ⟨ρ, o', o, hpre, hπ, hlt⟩)
  · rcases List.prefix_concat_iff.mp hpre with heq | hpre
    · exact beyond_iff.mpr (Or.inr ⟨ρ, o', o, heq ▸ List.prefix_rfl, hπ, hlt⟩)
    · exact beyond_of_prefix (hpre.trans ((List.prefix_append ρ [o]).trans hπ))

end Cut

/-! ## The section of `ext2_find_shared` under the lock -/

section FindShared

variable {c : Cells ℕ}

/-- The blocks given up on the way back have nothing to the left of the path. -/
theorem backUp_spec (l : List Indirect) (hl : l ≠ []) :
    ∃ removed p rest, l = removed ++ p :: rest ∧ backUp c l = p :: rest ∧
      ∀ r ∈ removed, allZeroes c r.p = true := by
  induction l with
  | nil => exact absurd rfl hl
  | cons q l ih =>
      cases l with
      | nil => exact ⟨[], q, [], rfl, rfl, fun r hr => absurd hr List.not_mem_nil⟩
      | cons q' l =>
          rw [backUp]
          by_cases hz : allZeroes c q.p = true
          · obtain ⟨removed, p, rest, hl, hb, hr⟩ := ih (List.cons_ne_nil _ _)
            refine ⟨q :: removed, p, rest, by rw [hl]; rfl, by rw [if_pos hz, hb], ?_⟩
            intro r hr'
            rcases List.mem_cons.mp hr' with rfl | hr'
            · exact hz
            · exact hr r hr'
          · exact ⟨[], q, q' :: l, rfl, if_neg hz, fun r hr => absurd hr List.not_mem_nil⟩

theorem allZeroes_iff {p : Slot} :
    allZeroes c p = true ↔ ∀ o, o < p.off → c p.bh o = 0 := by
  rw [allZeroes, List.all_eq_true]
  constructor
  · intro h o ho
    exact beq_iff_eq.mp (h o (List.mem_range.mpr ho))
  · intro h o ho
    exact beq_iff_eq.mpr (h o (List.mem_range.mp ho))

end FindShared

/-! ## The ends of the shared blocks -/

section Ends

variable {ino : Inode} {c : Cells ℕ} {P : List ℕ} {n : ℕ}

/-- The last triple kept points at its place on the cut, or just before it; the
others are those of a chain the tree has. -/
structure Shared (c : Cells ℕ) (P : List ℕ) (q : Indirect) (l : List Indirect) : Prop where
  spine : Spine P l.reverse
  live : Live c P l.reverse
  key : l = [] ∨ lastKey l.reverse ≠ 0
  length : l.length < P.length
  bh : q.p.bh = bhOf l.reverse
  off : P.getD l.length 0 ≤ q.p.off + 1
  decr : P.getD l.length 0 = q.p.off + 1 → l.length + 1 = P.length

theorem Shared.tail {q q' : Indirect} {l : List Indirect} (h : Shared c P q (q' :: l)) :
    Shared c P q' l := by
  have hrev : (q' :: l).reverse = l.reverse ++ [q'] := List.reverse_cons
  have hs := h.spine
  rw [hrev] at hs
  have hslot := hs.slot l.reverse q' List.prefix_rfl
  refine ⟨hs.of_prefix (List.prefix_append _ _), ?_, ?_, ?_, ?_, ?_, ?_⟩
  · exact h.live.of_prefix (hrev ▸ List.prefix_append _ _)
  · exact hs.before.imp (fun h0 => List.reverse_eq_nil_iff.mp h0) id
  · exact lt_trans (Nat.lt_succ_self _) h.length
  · rw [hslot]
  · rw [hslot, List.length_reverse]
    exact Nat.le_succ _
  · rw [hslot, List.length_reverse]
    exact fun heq => absurd heq.symm (Nat.succ_ne_self _)

theorem Shared.node_eq {q : Indirect} {l : List Indirect} (h : Shared c P q l) :
    Alive c (P.take l.length) ∧ node c (P.take l.length) = q.p.bh := by
  have hn := h.live.node_eq (h.key.imp (fun h0 => by rw [h0]; rfl) id)
    (by rw [List.length_reverse]; exact le_of_lt h.length)
  rw [List.length_reverse] at hn
  exact ⟨hn.1, hn.2.trans h.bh.symm⟩

theorem shape_below {x : ℕ} {os : List ℕ} (h : (shape ino.bits).Leaf (x :: os)) (m : ℕ)
    (hm : m ≤ os.length) (o : ℕ) :
    (shape ino.bits).below (x :: (os.take m ++ [o])) = os.length - (m + 1) := by
  rw [Shape.below, ← h.2.1, List.length_append, List.length_singleton, List.length_take,
    Nat.min_eq_left hm]

/-- The slots of a shared block after its place on the cut are beyond the cut. -/
theorem Shared.ends {offsets : List ℕ} (hleaf : (shape ino.bits).Leaf offsets)
    (hP : P <+: offsets) {q q' : Indirect} {l : List Indirect}
    (h : Shared c P q (q' :: l)) :
    Ends (shape ino.bits) c P q.p.bh (q.p.off + 1) (addrPerBlock ino.bits)
      fun _ => offsets.length - 1 - (l.length + 1) := by
  obtain ⟨ha, hn⟩ := h.node_eq
  have hlen : l.length + 1 < P.length := h.length
  refine ⟨P.take (l.length + 1), List.take_prefix _ _, ?_, ha, hn, ?_⟩
  · rw [List.length_take]
    omega
  · intro o ho hw
    have hPlen := hP.length_le
    -- the cut at this block
    have hat : P.take (l.length + 1 + 1) = P.take (l.length + 1) ++ [P.getD (l.length + 1) 0] :=
      take_succ_getD hlen
    have hpath : (shape ino.bits).Path (P.take (l.length + 1)) :=
      hleaf.path.of_prefix ((List.take_prefix _ _).trans hP)
        (take_ne_nil (Nat.succ_ne_zero _) (le_of_lt hlen))
    have htake : P.take (l.length + 1) = offsets.take (l.length + 1) := by
      obtain ⟨os, rfl⟩ := hP
      rw [List.take_append_of_le_length (le_of_lt hlen)]
    have hbelow : (shape ino.bits).below (P.take (l.length + 1) ++ [o]) =
        offsets.length - 1 - (l.length + 1) := by
      rw [htake]
      cases offsets with
      | nil => exact absurd hleaf id
      | cons x os =>
          rw [List.length_cons] at hPlen
          rw [List.take_succ_cons, List.cons_append, shape_below hleaf _ (by omega),
            List.length_cons, Nat.add_sub_cancel]
    refine ⟨?_, hbelow, ?_⟩
    · refine (Shape.path_append hpath).mpr ⟨?_, ?_⟩
      · have hin : (shape ino.bits).Path (P.take (l.length + 1) ++ [P.getD (l.length + 1) 0]) :=
          hat ▸ hleaf.path.of_prefix ((List.take_prefix _ _).trans hP)
            (take_ne_nil (Nat.succ_ne_zero _) hlen)
        exact ((Shape.path_append hpath).mp hin).1
      · intro x hx
        rw [List.mem_singleton.mp hx]
        exact hw
    · rw [beyond_iff]
      rcases Nat.lt_or_ge (P.getD (l.length + 1) 0) o with hlt | hge
      · exact Or.inr ⟨P.take (l.length + 1), P.getD (l.length + 1) 0, o,
          hat ▸ List.take_prefix _ _, List.prefix_rfl, hlt⟩
      · -- the place of a triple that was moved back: the end of the cut
        have hoff : P.getD (l.length + 1) 0 ≤ q.p.off + 1 := h.off
        have heq : o = P.getD (l.length + 1) 0 := by omega
        have hend : l.length + 1 + 1 = P.length := h.decr (by rw [List.length_cons]; omega)
        rw [heq, ← hat, hend, List.take_length]
        exact Or.inl List.prefix_rfl

/-- The frames `ext2_truncate` is left with below `*top`. -/
def endFrames (ino : Inode) (n o : ℕ) (l : List Indirect) : List Frame :=
  clearEnds ino n l ++ [.doIndirects o]

theorem endFrames_cons (n o : ℕ) (q q' : Indirect) (l : List Indirect) :
    endFrames ino n o (q :: q' :: l) =
      freeBranches q.p.bh (q.p.off + 1) (addrPerBlock ino.bits) (n - 1 - (l.length + 1)) ::
        endFrames ino n o (q' :: l) := rfl

/-- They own nothing. -/
theorem endFrames_not_owned (ino : Inode) (n o : ℕ) (l : List Indirect) (m : Option ℕ) :
    ¬ Owned m (endFrames ino n o l) := by
  intro ho
  obtain ⟨b, rest, -, heq⟩ := ho.cases
  match l with
  | [] => cases (List.cons.inj heq).1
  | [q] => cases (List.cons.inj heq).1
  | q :: q' :: l =>
      rw [endFrames_cons] at heq
      generalize n - 1 - (l.length + 1) = d at heq
      cases d <;> cases (List.cons.inj heq).1

theorem owed_endFrames (w o : ℕ) (l : List Indirect) :
    owed c w (endFrames ino n o l) = [] := by
  induction l with
  | nil => rfl
  | cons q l ih =>
      cases l with
      | nil => rfl
      | cons q' l =>
          rw [endFrames_cons, owed_cons, ih, List.append_nil]
          have hn := endFrames_not_owned ino n o (q' :: l) q.p.bh
          generalize n - 1 - (l.length + 1) = d
          cases d with
          | zero => rw [freeBranches, own, if_neg hn]; rfl
          | succ d => rw [freeBranches, own, if_neg hn]

/-- The slots of `i_data` from `o` on are beyond the cut. -/
theorem ends_indirects {o : ℕ} (ho : indBlock ≤ o) (hP : P ≠ []) (hlt : P.headD 0 < o) :
    Ends (shape ino.bits) c P none o nBlocks fun o => o - indBlock + 1 := by
  refine ⟨[], List.nil_prefix, List.length_pos_of_ne_nil hP, Or.inl rfl, rfl, ?_⟩
  intro o' hge hnb
  refine ⟨⟨hnb, Nat.zero_le _, fun x hx => absurd hx List.not_mem_nil⟩, ?_, ?_⟩
  · have : o' + 1 - ndirBlocks = o' - indBlock + 1 := by
      rw [indBlock] at *
      omega
    exact this
  · cases P with
    | nil => exact absurd rfl hP
    | cons x P => exact Or.inl (lt_of_lt_of_le hlt hge)

theorem indirectsFrom_spec {o : ℕ} (ho : o < nBlocks) :
    indBlock ≤ indirectsFrom o ∧ o < indirectsFrom o ∧
      ∀ o', o < o' → indBlock ≤ o' → indirectsFrom o ≤ o' := by
  have hd : dindBlock = indBlock + 1 := rfl
  have ht : tindBlock = dindBlock + 1 := rfl
  have hn : nBlocks = tindBlock + 1 := rfl
  rw [indirectsFrom]
  split_ifs with h1 h2 h3
  · exact ⟨by omega, by omega, fun o' _ _ => by omega⟩
  · exact ⟨by omega, by omega, fun o' _ _ => by omega⟩
  · exact ⟨by omega, by omega, fun o' _ _ => by omega⟩
  · exact ⟨by omega, by omega, fun o' _ _ => by omega⟩

theorem stackOk_endFrames {offsets : List ℕ} (hleaf : (shape ino.bits).Leaf offsets)
    (hP : P <+: offsets) (hne : P ≠ []) {q : Indirect} {l : List Indirect}
    (h : Shared c P q l) {o : ℕ} (ho : indBlock ≤ o) (hlt : P.headD 0 < o) :
    StackOk (shape ino.bits) c P (endFrames ino offsets.length o (q :: l)) := by
  induction l generalizing q with
  | nil => exact ⟨ends_indirects ho hne hlt, trivial⟩
  | cons q' l ih =>
      rw [endFrames_cons]
      refine ⟨?_, ih h.tail⟩
      have hends := h.ends hleaf hP
      revert hends
      generalize offsets.length - 1 - (l.length + 1) = d
      intro hends
      cases d with
      | zero => exact Or.inr hends
      | succ d => exact Or.inr hends

theorem visits_freeBranches (n : Option ℕ) (p q d : ℕ) :
    (freeBranches n p q d).visits = some (n, p, q) := by
  cases d <;> rfl

/-- A path that leaves the cut to the right, on a block that was kept, is pending. -/
theorem pending_endFrames {q : Indirect} {l : List Indirect} (h : Shared c P q l) {o m : ℕ}
    (h1 : 1 ≤ m) (hm : m ≤ l.length) {o' : ℕ} {π : List ℕ}
    (hoff : (if m = l.length then q.p.off else P.getD m 0) < o')
    (hw : o' < addrPerBlock ino.bits) (hπ : P.take m ++ [o'] <+: π) :
    Pending c P (endFrames ino n o (q :: l)) π := by
  induction l generalizing q with
  | nil => exact absurd (le_trans h1 hm) (by decide)
  | cons q' l ih =>
      rw [endFrames_cons]
      by_cases hml : m = (q' :: l).length
      · rw [if_pos hml] at hoff
        obtain ⟨ha, hn⟩ := h.node_eq
        refine ⟨_, List.mem_cons_self, q.p.bh, q.p.off + 1, addrPerBlock ino.bits,
          visits_freeBranches _ _ _ _, P.take m, o', List.take_prefix _ _, ?_, hml ▸ ha, hml ▸ hn,
          hoff, hw, hπ⟩
        have := h.length
        rw [List.length_take]
        omega
      · rw [if_neg hml] at hoff
        rw [List.length_cons] at hm hml
        refine Pending.of_subset (List.subset_cons_self _ _) (ih h.tail (by omega) ?_)
        by_cases hl : m = l.length
        · rw [if_pos hl]
          have hs := h.spine
          rw [List.reverse_cons] at hs
          rw [hs.slot l.reverse q' List.prefix_rfl, List.length_reverse, ← hl]
          exact hoff
        · rw [if_neg hl]
          exact hoff

/-- So is one that leaves it in `i_data`. -/
theorem pending_indirects {o o' : ℕ} {l : List Indirect} (hP : P ≠ []) (ho : o ≤ o')
    (hnb : o' < nBlocks) {π : List ℕ} (hπ : [o'] <+: π) :
    Pending c P (endFrames ino n o l) π :=
  ⟨.doIndirects o, List.mem_append_right _ (List.mem_singleton.mpr rfl), none, o, nBlocks, rfl, [],
    o', List.nil_prefix, List.length_pos_of_ne_nil hP, Or.inl rfl, rfl, ho, hnb, hπ⟩

end Ends

/-! ## Detaching the top -/

section Detach

variable {ino : Inode} {c : Cells ℕ} {P : List ℕ} {chain : List Indirect}

/-- What `ext2_find_shared` knows of the chain it read: the tree has it up to the
last triple, and below an absent block there is nothing beyond the cut. -/
structure Reached (S : Shape) (c : Cells ℕ) (P : List ℕ) (chain : List Indirect) : Prop where
  spine : Spine P chain
  ne_nil : chain ≠ []
  live : Live c P chain.dropLast
  last : lastKey chain ≠ 0 → Live c P chain
  absent : lastKey chain = 0 → ∀ π, S.Path π → Beyond P π → P.take chain.length <+: π →
    get c π = 0

/-- The three ways through the section. -/
inductive Detached (c : Cells ℕ) (k : ℕ) (chain : List Indirect) : Prop
  /-- The branch has got a continuation. -/
  | noTop (key : lastKey chain = 0) (result : findShared c k chain = (c, 0, chain.reverse))
  /-- The last block of the whole path stays: its place is freed with the rest. -/
  | decr (pre : List Indirect) (q : Indirect) (eq : chain = pre ++ [q]) (ne : pre ≠ [])
      (length : chain.length = k) (result : findShared c k chain = (c, 0, q.decr :: pre.reverse))
  /-- The branch is detached at `q`. -/
  | top (pre : List Indirect) (q : Indirect) (post : List Indirect)
      (eq : chain = pre ++ q :: post) (zeroes : ∀ r ∈ post, allZeroes c r.p = true)
      (vacant : lastKey chain = 0 → ∃ pre' r, chain = pre' ++ [r] ∧ c r.p.bh r.p.off = 0)
      (result : findShared c k chain =
        (put c q.p.bh q.p.off 0, c q.p.bh q.p.off, q :: pre.reverse))

theorem findShared_cases {k : ℕ} (hne : chain ≠ []) (hlen : chain.length ≤ k) :
    Detached c k chain := by
  obtain ⟨before, part, rfl⟩ : ∃ before part, chain = before ++ [part] := by
    rcases List.eq_nil_or_concat chain with h0 | ⟨before, part, rfl⟩
    · exact absurd h0 hne
    · exact ⟨before, part, List.concat_eq_append⟩
  have hrev : (before ++ [part]).reverse = part :: before.reverse := by
    rw [List.reverse_append, List.reverse_singleton, List.singleton_append]
  by_cases hcont : part.key = 0 ∧ c part.p.bh part.p.off ≠ 0
  · refine .noTop (by rw [lastKey_concat, hcont.1]) ?_
    rw [findShared, hrev]
    exact if_pos hcont
  · obtain ⟨removed, p, rest, hl, hb, hz⟩ :=
      backUp_spec (c := c) (part :: before.reverse) (List.cons_ne_nil _ _)
    have hchain : before ++ [part] = rest.reverse ++ p :: removed.reverse := by
      rw [← List.reverse_inj, hrev, hl]
      simp
    by_cases hd : (p :: rest).length = k ∧ rest ≠ []
    · have hnil : removed.reverse = [] := by
        have h1 := congrArg List.length hchain
        have h2 := hd.1
        simp only [List.length_append, List.length_cons, List.length_reverse] at h1 h2 hlen
        exact List.reverse_eq_nil_iff.mpr (List.eq_nil_of_length_eq_zero (by omega))
      rw [hnil] at hchain
      refine .decr rest.reverse p hchain (fun h0 => hd.2 (List.reverse_eq_nil_iff.mp h0)) ?_ ?_
      · rw [hchain, List.length_append, List.length_reverse]
        exact hd.1
      · rw [findShared, hrev]
        dsimp only
        rw [if_neg hcont, hb]
        dsimp only
        rw [if_pos hd, List.reverse_reverse]
    · refine .top rest.reverse p removed.reverse hchain
        (fun r hr => hz r (List.mem_reverse.mp hr)) ?_ ?_
      · intro hkey
        rw [lastKey_concat] at hkey
        exact ⟨before, part, rfl, by_contra fun h => hcont ⟨hkey, h⟩⟩
      · rw [findShared, hrev]
        dsimp only
        rw [if_neg hcont, hb]
        dsimp only
        rw [if_neg hd, List.reverse_reverse]

/-- The part of the chain that is kept. -/
theorem Reached.shared {S : Shape} (h : Reached S c P chain) {pre post : List Indirect}
    {q : Indirect} (heq : chain = pre ++ q :: post) :
    Shared c P q pre.reverse ∧ Live c P pre ∧ Spine P (pre ++ [q]) := by
  have hpre : pre ++ [q] <+: chain := by
    rw [heq]
    exact (List.prefix_append_right_inj pre).mpr ⟨post, rfl⟩
  have hs := h.spine.of_prefix hpre
  have hl : Live c P pre := by
    refine h.live.of_prefix (List.prefix_of_prefix_length_le
      ((List.prefix_append pre [q]).trans hpre) (List.dropLast_prefix chain) ?_)
    have := hpre.length_le
    rw [List.length_append, List.length_singleton] at this
    rw [List.length_dropLast]
    omega
  have hslot := hs.slot pre q List.prefix_rfl
  refine ⟨⟨?_, ?_, ?_, ?_, ?_, ?_, ?_⟩, hl, hs⟩
  · rw [List.reverse_reverse]
    exact hs.of_prefix (List.prefix_append _ _)
  · rwa [List.reverse_reverse]
  · rw [List.reverse_reverse]
    exact hs.before.imp (fun h0 => by rw [h0]; rfl) id
  · rw [List.length_reverse]
    exact hs.lt_length
  · rw [List.reverse_reverse, hslot]
  · rw [List.length_reverse, hslot]
    exact Nat.le_succ _
  · rw [List.length_reverse, hslot]
    exact fun heq => absurd heq.symm (Nat.succ_ne_self _)

theorem Shared.congr {c' : Cells ℕ} {q : Indirect} {l : List Indirect} (h : Shared c P q l)
    (hget : ∀ m, 1 ≤ m → m ≤ l.length → get c' (P.take m) = get c (P.take m)) :
    Shared c' P q l where
  spine := h.spine
  live := h.live.congr (by rwa [List.length_reverse])
  key := h.key
  length := h.length
  bh := h.bh
  off := h.off
  decr := h.decr

/-- Everything beyond the cut is pending, but for what is below the end of the
kept part. -/
theorem pending_of_beyond (n : ℕ) (hP : P ≠ []) (hhead : P.headD 0 < nBlocks)
    (hind : indBlock ≤ P.headD 0) {q : Indirect} {l : List Indirect} (h : Shared c P q l)
    (hoff : q.p.off ≤ P.getD l.length 0) {π : List ℕ} (hπ : (shape ino.bits).Path π)
    (hb : Beyond P π) :
    P.take (l.length + 1) <+: π ∨
      Pending c P (endFrames ino n (indirectsFrom (P.headD 0)) (q :: l)) π := by
  rcases beyond_iff.mp hb with hpre | ⟨ρ, o, o', hρP, hρπ, hlt⟩
  · exact Or.inl ((List.take_prefix _ _).trans hpre)
  · have hm : ρ.length < P.length := by
      have := hρP.length_le
      rwa [List.length_append, List.length_singleton] at this
    have hρ : ρ = P.take ρ.length := by
      obtain ⟨os, rfl⟩ := hρP
      rw [List.append_assoc, List.take_left]
    have hat : P.getD ρ.length 0 = o := by
      obtain ⟨os, rfl⟩ := hρP
      rw [List.append_assoc, List.getD_append_right _ _ _ _ le_rfl, Nat.sub_self]
      rfl
    rcases Nat.lt_or_ge l.length ρ.length with hgt | hle
    · -- it leaves the cut below the end of the kept part
      left
      have h1 : P.take (l.length + 1) <+: ρ := by
        refine List.prefix_of_prefix_length_le (List.take_prefix _ _)
          ((List.prefix_append ρ [o]).trans hρP) ?_
        rw [List.length_take]
        omega
      exact h1.trans ((List.prefix_append ρ [o']).trans hρπ)
    · right
      by_cases h0 : ρ = []
      · -- in `i_data`
        rw [h0, List.nil_append] at hρπ
        rw [h0, List.length_nil] at hat
        have hhd : P.headD 0 = o := by
          cases P with
          | nil => exact absurd rfl hP
          | cons x P => exact hat
        have hnb : o' < nBlocks := by
          obtain ⟨os, rfl⟩ := hρπ
          exact hπ.1
        rw [hhd] at hind hhead ⊢
        exact pending_indirects hP ((indirectsFrom_spec hhead).2.2 o' hlt (by omega)) hnb hρπ
      · -- on a block that is kept
        have h1 : 1 ≤ ρ.length := List.length_pos_of_ne_nil h0
        have hw : o' < addrPerBlock ino.bits := by
          obtain ⟨os, rfl⟩ := hρπ
          cases ρ with
          | nil => exact absurd rfl h0
          | cons x ρ => exact hπ.2.2 o' (by simp)
        refine pending_endFrames h h1 hle ?_ hw (hρ ▸ hρπ)
        split
        · rename_i heq
          rw [← heq, hat] at hoff
          omega
        · omega

/-- What the section does with the tree, and what is owed after it. -/
inductive DetachStep (S : Shape) (P : List ℕ) (c c' : Cells ℕ) (stack : List Frame) : Prop
  | kept (cell : c' = c) (owed : owed c' S.width stack = [])
  | cleared (π : List ℕ) (o : ℕ) (slot : S.Path (π ++ [o])) (alive : Alive c π)
      (cut : π ++ [o] <+: P) (cell : c' = put c (node c π) o 0)
      (owed : owed c' S.width stack =
        sub c S.width (S.below (π ++ [o])) (get c (π ++ [o])))

theorem DetachStep.tree {S : Shape} {c' : Cells ℕ} {stack : List Frame}
    (h : DetachStep S P c c' stack) (hT : S.Tree c) : S.Tree c' := by
  cases h with
  | kept hcell _ => rwa [hcell]
  | cleared π o hslot ha _ hcell _ =>
      rw [hcell]
      exact hT.clear hslot ha

theorem headD_cut {offsets : List ℕ} (h : offsets ≠ []) :
    (cut offsets).headD 0 = offsets.headD 0 := by
  obtain ⟨os, hos⟩ := cut_isPrefix offsets
  have hne := cut_ne_nil h
  conv_rhs => rw [← hos]
  cases hc : cut offsets with
  | nil => exact absurd hc hne
  | cons x xs => rfl

/-- A path that goes below the inode starts at one of the last three slots. -/
theorem headD_of_two_le {offsets : List ℕ} (hleaf : (shape ino.bits).Leaf offsets)
    (h2 : 2 ≤ offsets.length) : indBlock ≤ offsets.headD 0 ∧ offsets.headD 0 < nBlocks := by
  cases offsets with
  | nil => exact absurd hleaf id
  | cons x os =>
      have hh : os.length = x + 1 - ndirBlocks := hleaf.2.1
      rw [List.length_cons] at h2
      exact ⟨by rw [indBlock, List.headD_cons]; omega, hleaf.1⟩

theorem below_take {offsets : List ℕ} (hleaf : (shape ino.bits).Leaf offsets) {m : ℕ}
    (h1 : 1 ≤ m) (hm : m ≤ offsets.length) :
    (shape ino.bits).below (offsets.take m) = offsets.length - m := by
  cases offsets with
  | nil => exact absurd hleaf id
  | cons x os =>
      obtain ⟨m, rfl⟩ := Nat.exists_eq_succ_of_ne_zero (Nat.ne_of_gt h1)
      rw [List.length_cons] at hm
      rw [List.take_succ_cons, Shape.below, ← hleaf.2.1, List.length_take,
        Nat.min_eq_left (by omega), List.length_cons]
      omega

variable {iblock : ℤ}

/-- What is left to do after the section, when it returns the chain up to `q`. -/
theorem afterDetach_eq (top : ℕ) (q : Indirect) (l : List Indirect) :
    afterDetach ino iblock top (q :: l) =
      (if top ≠ 0 then
        [freeBranchesOf top ((blockPath ino.bits iblock).length - 1 - l.length)] else []) ++
        endFrames ino (blockPath ino.bits iblock).length
          (indirectsFrom ((blockPath ino.bits iblock).headD 0)) (q :: l) := by
  rw [afterDetach, endFrames, List.append_assoc]
  rfl

theorem owed_afterDetach (c : Cells ℕ) (w top : ℕ) (q : Indirect) (l : List Indirect) :
    owed c w (afterDetach ino iblock top (q :: l)) =
      sub c w ((blockPath ino.bits iblock).length - 1 - l.length) top := by
  rw [afterDetach_eq]
  by_cases htop : top = 0
  · rw [if_neg (not_not.mpr htop), List.nil_append, owed_endFrames, htop, sub_null]
  · rw [if_pos htop, List.singleton_append, owed_cons, own_freeBranchesOf _ _ htop,
      owed_endFrames, List.append_nil]

theorem stackOk_afterDetach {S : Shape} {top : ℕ} {q : Indirect} {l : List Indirect}
    (h : StackOk S c P (endFrames ino (blockPath ino.bits iblock).length
      (indirectsFrom ((blockPath ino.bits iblock).headD 0)) (q :: l))) :
    StackOk S c P (afterDetach ino iblock top (q :: l)) := by
  rw [afterDetach_eq]
  by_cases htop : top = 0
  · rw [if_neg (not_not.mpr htop)]
    exact h
  · rw [if_pos htop]
    refine ⟨?_, h⟩
    generalize (blockPath ino.bits iblock).length - 1 - l.length = d
    cases d with
    | zero => trivial
    | succ d => exact htop

section Section

variable {S : Shape} {d : Cells ℕ} {q : Indirect} {l pre post : List Indirect} {π : List ℕ}

/-- The frames the section leaves are in order. -/
theorem stackOk_detach (hleaf : (shape ino.bits).Leaf (blockPath ino.bits iblock))
    (h2 : 2 ≤ (blockPath ino.bits iblock).length) (hs : Shared d (sharedPath ino iblock) q l)
    (top : ℕ) :
    StackOk (shape ino.bits) d (sharedPath ino iblock) (afterDetach ino iblock top (q :: l)) := by
  have hne := hleaf.path.ne_nil
  have hhead : (sharedPath ino iblock).headD 0 = (blockPath ino.bits iblock).headD 0 := headD_cut hne
  have hfrom := indirectsFrom_spec (headD_of_two_le hleaf h2).2
  exact stackOk_afterDetach (stackOk_endFrames hleaf (cut_isPrefix _) (cut_ne_nil hne) hs hfrom.1
    (hhead ▸ hfrom.2.1))

/-- What they visit is all there is beyond the cut, but for what is below the end of
the kept part. -/
theorem pending_detach (hleaf : (shape ino.bits).Leaf (blockPath ino.bits iblock))
    (h2 : 2 ≤ (blockPath ino.bits iblock).length) (hs : Shared d (sharedPath ino iblock) q l)
    (hoff : q.p.off ≤ (sharedPath ino iblock).getD l.length 0) (top : ℕ)
    (hπ : (shape ino.bits).Path π) (hb : Beyond (sharedPath ino iblock) π) :
    (sharedPath ino iblock).take (l.length + 1) <+: π ∨
      Pending d (sharedPath ino iblock) (afterDetach ino iblock top (q :: l)) π := by
  have hne := hleaf.path.ne_nil
  have hP : sharedPath ino iblock ≠ [] := cut_ne_nil hne
  have hhead : (sharedPath ino iblock).headD 0 = (blockPath ino.bits iblock).headD 0 := headD_cut hne
  obtain ⟨hind, hnb⟩ := headD_of_two_le hleaf h2
  rw [← hhead] at hind hnb
  refine (pending_of_beyond (blockPath ino.bits iblock).length hP hnb hind hs hoff hπ hb).imp id
    fun hp => ?_
  rw [hhead] at hp
  rw [afterDetach_eq]
  exact hp.of_subset (List.subset_append_right _ _)

/-- The place at the end of the whole path, one slot back: a cut path does not end
with a zero. -/
theorem Reached.decr (hR : Reached S c (sharedPath ino iblock) (pre ++ [q])) (hne : pre ≠ [])
    (hlen : (pre ++ [q]).length = (sharedPath ino iblock).length) :
    Shared c (sharedPath ino iblock) q.decr pre.reverse ∧
      q.decr.p.off + 1 = (sharedPath ino iblock).getD pre.length 0 := by
  obtain ⟨hs, -, hsp⟩ := hR.shared rfl
  have hslot := hsp.slot pre q List.prefix_rfl
  rw [List.length_append, List.length_singleton] at hlen
  have hlast : (cut (blockPath ino.bits iblock)).getD
      ((cut (blockPath ino.bits iblock)).length - 1) 0 ≠ 0 := by
    have hpos := List.length_pos_of_ne_nil hne
    refine cut_last ?_
    rw [show (cut (blockPath ino.bits iblock)).length = pre.length + 1 from hlen.symm]
    exact Nat.succ_le_succ hpos
  have hat : (sharedPath ino iblock).getD pre.length 0 ≠ 0 := by
    rwa [show cut (blockPath ino.bits iblock) = sharedPath ino iblock from rfl, ← hlen,
      Nat.add_sub_cancel] at hlast
  have hoff : q.decr.p.off + 1 = (sharedPath ino iblock).getD pre.length 0 := by
    rw [Indirect.decr, hslot]
    exact Nat.sub_add_cancel (Nat.pos_of_ne_zero hat)
  refine ⟨⟨hs.spine, hs.live, hs.key, hs.length, hs.bh, ?_, ?_⟩, hoff⟩
  · rw [List.length_reverse, ← hoff]
  · rw [List.length_reverse]
    exact fun _ => hlen

/-- An offset of the cut after the first is within a block of pointers. -/
theorem getD_sharedPath_lt (hleaf : (shape ino.bits).Leaf (blockPath ino.bits iblock)) {m : ℕ}
    (h1 : 1 ≤ m) (hm : m < (sharedPath ino iblock).length) :
    (sharedPath ino iblock).getD m 0 < addrPerBlock ino.bits := by
  have hP : sharedPath ino iblock ≠ [] := cut_ne_nil hleaf.path.ne_nil
  have hpath : (shape ino.bits).Path (sharedPath ino iblock) :=
    hleaf.path.of_prefix (cut_isPrefix _) hP
  cases hPc : sharedPath ino iblock with
  | nil => exact absurd hPc hP
  | cons x xs =>
      rw [hPc] at hpath hm
      obtain ⟨m, rfl⟩ := Nat.exists_eq_succ_of_ne_zero (Nat.ne_of_gt h1)
      rw [List.getD_cons_succ, List.getD_eq_getElem _ _ (Nat.lt_of_succ_lt_succ hm)]
      exact hpath.2.2 _ (List.getElem_mem _)

/-- After `p->p--` the end of the cut itself is the first place to be visited. -/
theorem pending_decr (hleaf : (shape ino.bits).Leaf (blockPath ino.bits iblock))
    (hR : Reached S c (sharedPath ino iblock) (pre ++ [q])) (hne : pre ≠ [])
    (hlen : (pre ++ [q]).length = (sharedPath ino iblock).length) (top : ℕ)
    (hπ : (sharedPath ino iblock).take (pre.length + 1) <+: π) :
    Pending c (sharedPath ino iblock) (afterDetach ino iblock top (q.decr :: pre.reverse)) π := by
  obtain ⟨hs, hoff⟩ := hR.decr hne hlen
  have hpos := List.length_pos_of_ne_nil hne
  rw [List.length_append, List.length_singleton] at hlen
  have hlt : pre.length < (sharedPath ino iblock).length := by omega
  rw [take_succ_getD hlt] at hπ
  rw [afterDetach_eq]
  refine Pending.of_subset (List.subset_append_right _ _) (pending_endFrames hs hpos
    (le_of_eq List.length_reverse.symm) ?_ (getD_sharedPath_lt hleaf hpos hlt) hπ)
  rw [List.length_reverse, if_pos rfl, ← hoff]
  exact Nat.lt_succ_self _

/-- The slot a triple of the chain is about. -/
theorem Reached.slot (hleaf : (shape ino.bits).Leaf (blockPath ino.bits iblock))
    (hR : Reached S c (sharedPath ino iblock) chain) (heq : chain = pre ++ q :: post) :
    (shape ino.bits).Path ((sharedPath ino iblock).take pre.length ++ [q.p.off]) ∧
      Alive c ((sharedPath ino iblock).take pre.length) ∧
      node c ((sharedPath ino iblock).take pre.length) = q.p.bh ∧
      (sharedPath ino iblock).take (pre.length + 1) =
        (sharedPath ino iblock).take pre.length ++ [q.p.off] := by
  obtain ⟨-, hl, hsp⟩ := hR.shared heq
  obtain ⟨ha, hn, htake⟩ := hsp.above hl
  refine ⟨?_, ha, hn, htake⟩
  rw [← htake]
  exact hleaf.path.of_prefix ((List.take_prefix _ _).trans (cut_isPrefix _))
    (take_ne_nil (Nat.succ_ne_zero _) hsp.lt_length)

/-- The slot of the top of the branch: the kept part is above it, and `*top` is
what is below it. -/
theorem Reached.top (hT : (shape ino.bits).Tree c)
    (hleaf : (shape ino.bits).Leaf (blockPath ino.bits iblock))
    (hR : Reached S c (sharedPath ino iblock) chain) (heq : chain = pre ++ q :: post) :
    Shared (put c q.p.bh q.p.off 0) (sharedPath ino iblock) q pre.reverse ∧
      owed (put c q.p.bh q.p.off 0) (shape ino.bits).width
          (afterDetach ino iblock (c q.p.bh q.p.off) (q :: pre.reverse)) =
        sub c (shape ino.bits).width
          ((shape ino.bits).below ((sharedPath ino iblock).take pre.length ++ [q.p.off]))
          (get c ((sharedPath ino iblock).take pre.length ++ [q.p.off])) := by
  obtain ⟨hslot, ha, hn, htake⟩ := hR.slot hleaf heq
  obtain ⟨hs, hl, hsp⟩ := hR.shared heq
  have hlt := hsp.lt_length
  have hPpre : sharedPath ino iblock <+: blockPath ino.bits iblock := cut_isPrefix _
  constructor
  · refine hs.congr fun m h1 hm => ?_
    rw [List.length_reverse] at hm
    have hm' : (shape ino.bits).Path ((sharedPath ino iblock).take m) :=
      hleaf.path.of_prefix ((List.take_prefix _ _).trans hPpre) (take_ne_nil (by omega) (by omega))
    rw [← hn, get_clear hT hslot ha hm', if_neg]
    intro hpre
    have := hpre.length_le
    rw [← htake, List.length_take, List.length_take] at this
    omega
  · have hbelow : (shape ino.bits).below
        ((sharedPath ino iblock).take pre.length ++ [q.p.off]) =
        (blockPath ino.bits iblock).length - 1 - pre.length := by
      have hlen := hPpre.length_le
      have htk : (sharedPath ino iblock).take (pre.length + 1) =
          (blockPath ino.bits iblock).take (pre.length + 1) := by
        obtain ⟨os, hos⟩ := hPpre
        rw [← hos, List.take_append_of_le_length hlt]
      rw [← htake, htk, below_take hleaf (Nat.le_add_left 1 _) (by omega)]
      omega
    have hget : get c ((sharedPath ino iblock).take pre.length ++ [q.p.off]) = c q.p.bh q.p.off := by
      rw [get_concat c ha, hn]
    rw [owed_afterDetach, List.length_reverse, ← hbelow, ← hget, ← hn]
    exact sub_put_slot hT hslot 0

end Section

/-- **The section under the lock**: the top of the branch is detached, or nothing,
and all that is left beyond the cut is still to be visited. -/
theorem detach_step (hT : (shape ino.bits).Tree c)
    (hleaf : (shape ino.bits).Leaf (blockPath ino.bits iblock))
    (h2 : 2 ≤ (blockPath ino.bits iblock).length)
    (hR : Reached (shape ino.bits) c (sharedPath ino iblock) chain) {c' : Cells ℕ}
    {stack : List Frame}
    (hc' : c' = (findShared c (sharedPath ino iblock).length chain).1)
    (hstack : stack = afterDetach ino iblock
      (findShared c (sharedPath ino iblock).length chain).2.1
      (findShared c (sharedPath ino iblock).length chain).2.2) :
    DetachStep (shape ino.bits) (sharedPath ino iblock) c c' stack ∧
      FreeOk (shape ino.bits) c' (sharedPath ino iblock) stack := by
  cases findShared_cases (c := c) hR.ne_nil hR.spine.length with
  | noTop hkey hres =>
      rw [hres] at hc' hstack
      obtain ⟨pre, q, rfl⟩ : ∃ pre q, chain = pre ++ [q] := by
        rcases List.eq_nil_or_concat chain with h0 | ⟨pre, q, rfl⟩
        · exact absurd h0 hR.ne_nil
        · exact ⟨pre, q, List.concat_eq_append⟩
      rw [List.reverse_append, List.reverse_singleton, List.singleton_append] at hstack
      cases hc'
      subst hstack
      obtain ⟨hs, -, hsp⟩ := hR.shared rfl
      have howed : owed c (shape ino.bits).width (afterDetach ino iblock 0 (q :: pre.reverse)) =
          [] := by
        rw [owed_afterDetach, sub_null]
      refine ⟨.kept rfl howed, ⟨?_, stackOk_detach hleaf h2 hs 0, ?_⟩⟩
      · rw [howed]
        exact List.nodup_nil
      · intro π hπ hb
        have hoff : q.p.off ≤ (sharedPath ino iblock).getD pre.reverse.length 0 := by
          rw [List.length_reverse, hsp.slot pre q List.prefix_rfl]
        refine (pending_detach hleaf h2 hs hoff 0 hπ hb).imp (fun hpre => ?_) id
        rw [List.length_reverse] at hpre
        refine hR.absent hkey π hπ hb ?_
        rwa [List.length_append, List.length_singleton]
  | decr pre q heq hne hlen hres =>
      rw [hres] at hc' hstack
      cases hc'
      subst heq hstack
      obtain ⟨hs, hoff⟩ := hR.decr hne hlen
      have howed : owed c (shape ino.bits).width (afterDetach ino iblock 0 (q.decr :: pre.reverse)) =
          [] := by
        rw [owed_afterDetach, sub_null]
      refine ⟨.kept rfl howed, ⟨?_, stackOk_detach hleaf h2 hs 0, ?_⟩⟩
      · rw [howed]
        exact List.nodup_nil
      · intro π hπ hb
        rw [← List.length_reverse] at hoff
        refine Or.inr ((pending_detach hleaf h2 hs (hoff ▸ Nat.le_succ _) 0 hπ hb).elim
          (fun hpre => ?_) id)
        rw [List.length_reverse] at hpre
        exact pending_decr hleaf hR hne hlen 0 hpre
  | top pre q post heq hz hvac hres =>
      rw [hres] at hc' hstack
      subst hc' hstack
      obtain ⟨hslot, ha, hn, htake⟩ := hR.slot hleaf heq
      obtain ⟨hs, howed⟩ := hR.top hT hleaf heq
      obtain ⟨-, -, hsp⟩ := hR.shared heq
      refine ⟨.cleared _ _ hslot ha (htake ▸ List.take_prefix _ _) (by rw [hn]) howed,
        ⟨?_, stackOk_detach hleaf h2 hs _, ?_⟩⟩
      · rw [howed]
        exact nodup_sub_get hT hslot
      · intro π hπ hb
        have hoff : q.p.off ≤ (sharedPath ino iblock).getD pre.reverse.length 0 := by
          rw [List.length_reverse, hsp.slot pre q List.prefix_rfl]
        refine (pending_detach hleaf h2 hs hoff _ hπ hb).imp (fun hpre => ?_) id
        rw [List.length_reverse, htake] at hpre
        rw [← hn, get_clear hT hslot ha hπ, if_pos hpre]

/-- **Nothing to the left is lost.** When the chain was read to its end, a block to
the left of the cut keeps its place: the blocks that are given up have nothing
there. -/
theorem detach_before (hT : (shape ino.bits).Tree c)
    (hleaf : (shape ino.bits).Leaf (blockPath ino.bits iblock))
    (hR : Reached (shape ino.bits) c (sharedPath ino iblock) chain)
    (hend : chain.length = (sharedPath ino iblock).length ∨ lastKey chain = 0)
    {ρ : List ℕ} (hρ : (shape ino.bits).Path ρ) (hb : Before (sharedPath ino iblock) ρ)
    (hne : get c ρ ≠ 0) :
    get (findShared c (sharedPath ino iblock).length chain).1 ρ = get c ρ := by
  have hPpre : sharedPath ino iblock <+: blockPath ino.bits iblock := cut_isPrefix _
  cases findShared_cases (c := c) hR.ne_nil hR.spine.length with
  | noTop _ hres => rw [hres]
  | decr _ _ _ _ _ hres => rw [hres]
  | top pre q post heq hz hvac hres =>
      obtain ⟨hslot, ha, hn, htake⟩ := hR.slot hleaf heq
      obtain ⟨-, -, hsp⟩ := hR.shared heq
      rw [hres]
      dsimp only
      rw [← hn, get_clear hT hslot ha hρ, if_neg]
      intro hthrough
      -- `ρ` leaves the cut below the slot that is cleared
      obtain ⟨τ, o, o', hτP, hτρ, hlt⟩ := before_iff.mp hb
      have hτ : τ = (sharedPath ino iblock).take τ.length := by
        obtain ⟨os, hos⟩ := hτP
        rw [← hos, List.append_assoc, List.take_left]
      have hat : (sharedPath ino iblock).getD τ.length 0 = o := by
        obtain ⟨os, hos⟩ := hτP
        rw [← hos, List.append_assoc, List.getD_append_right _ _ _ _ le_rfl, Nat.sub_self]
        rfl
      have hτlen : τ.length < (sharedPath ino iblock).length := by
        have := hτP.length_le
        rwa [List.length_append, List.length_singleton] at this
      have hbelow : pre.length + 1 ≤ τ.length := by
        by_contra hge
        have h1 : τ ++ [o'] <+: (sharedPath ino iblock) := by
          refine (List.prefix_of_prefix_length_le hτρ hthrough ?_).trans
            (htake ▸ List.take_prefix _ _)
          have := hsp.lt_length
          rw [List.length_append, List.length_append, List.length_take, List.length_singleton,
            List.length_singleton]
          omega
        have h2 : τ ++ [o'] = τ ++ [o] :=
          (List.prefix_of_prefix_length_le h1 hτP (by simp)).eq_of_length (by simp)
        have h3 := (List.cons.inj (List.append_cancel_left h2)).1
        omega
      rcases Nat.lt_or_ge τ.length chain.length with hin | hout
      · -- at a block given up on the way back: the slot is before the place, so empty
        obtain ⟨pre', r, post', heq', hlen'⟩ : ∃ pre' r post', chain = pre' ++ r :: post' ∧
            pre'.length = τ.length := by
          refine ⟨chain.take τ.length, chain[τ.length], chain.drop (τ.length + 1), ?_, ?_⟩
          · rw [List.cons_getElem_drop_succ, List.take_append_drop]
          · rw [List.length_take]
            omega
        obtain ⟨-, hl', hsp'⟩ := hR.shared heq'
        obtain ⟨ha', hn', -⟩ := hsp'.above hl'
        have hslot' := hsp'.slot pre' r List.prefix_rfl
        have hmem : r ∈ post := by
          have h1 := congrArg (List.drop (pre.length + 1)) (heq.symm.trans heq')
          rw [List.drop_append, List.drop_of_length_le (Nat.le_succ _), List.nil_append,
            Nat.add_sub_cancel_left, List.drop_one, List.tail_cons, List.drop_append,
            show pre.length + 1 - pre'.length = 0 by omega, List.drop_zero] at h1
          rw [h1]
          exact List.mem_append_right _ List.mem_cons_self
        have hzero : c r.p.bh o' = 0 := by
          refine allZeroes_iff.mp (hz r hmem) o' ?_
          rw [hslot', hlen', hat]
          exact hlt
        obtain ⟨os, rfl⟩ := hτρ
        refine hne ?_
        rw [get_append c (by simp), hτ, ← hlen', get_concat c ha', hn', hzero, follow_zero]
      · -- below the end of the chain: there is nothing
        have hkey := hend.resolve_left (by omega)
        obtain ⟨pre', r, heq', hvacant⟩ := hvac hkey
        obtain ⟨-, hl', hsp'⟩ := hR.shared heq'
        have hgone : get c ((sharedPath ino iblock).take chain.length) = 0 := by
          rw [heq', List.length_append, List.length_singleton, hsp'.get_slot hl', hvacant]
        have hpre2 : (sharedPath ino iblock).take chain.length <+: ρ := by
          refine List.IsPrefix.trans ?_ ((List.prefix_append τ [o']).trans hτρ)
          refine List.prefix_of_prefix_length_le (List.take_prefix _ _)
            ((List.prefix_append τ [o]).trans hτP) ?_
          rw [List.length_take]
          omega
        exact get_ne_zero_of_prefix hpre2 (take_ne_nil
          (fun h0 => hR.ne_nil (List.length_eq_zero_iff.mp h0)) hR.spine.length) hne hgone

end Detach

end LinuxHacks.Ext2
