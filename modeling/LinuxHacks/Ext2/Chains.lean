import LinuxHacks.Ext2.Model

/-!
# Chains of pointers that were read

A chain read by `ext2_get_branch` is a `Spine` of the offsets: each triple points
into the block the one before it holds. That stays so whatever happens to the
tree; what `verify_chain` says is that the tree still has the chain
(`verifyChain_iff`).
-/

namespace LinuxHacks.Ext2

open Lib.PointerTree

/-- The buffer the next triple of a chain points into. -/
def bhOf (chain : List Indirect) : Option ℕ := chain.getLast?.map Indirect.key

@[simp] theorem bhOf_concat (chain : List Indirect) (q : Indirect) :
    bhOf (chain ++ [q]) = some q.key := by
  rw [bhOf, List.getLast?_concat, Option.map_some]

@[simp] theorem lastKey_concat (chain : List Indirect) (q : Indirect) :
    lastKey (chain ++ [q]) = q.key := by
  rw [lastKey, List.getLast?_concat, Option.map_some, Option.getD_some]

theorem bhOf_eq {chain : List Indirect} (h : chain ≠ []) : bhOf chain = some (lastKey chain) := by
  rcases List.eq_nil_or_concat chain with h0 | ⟨pre, q, rfl⟩
  · exact absurd h0 h
  · rw [List.concat_eq_append, bhOf_concat, lastKey_concat]

theorem verifyChain_concat (c : Cells ℕ) (chain : List Indirect) (q : Indirect) :
    verifyChain c (chain ++ [q]) = true ↔
      verifyChain c chain = true ∧ q.key = c q.p.bh q.p.off := by
  rw [verifyChain, verifyChain, List.all_append, Bool.and_eq_true, List.all_cons, List.all_nil,
    Bool.and_true, beq_iff_eq]

/-- The triples follow the offsets, through pointers that are not null. -/
structure Spine (P : List ℕ) (chain : List Indirect) : Prop where
  slot : ∀ pre q, pre ++ [q] <+: chain → q.p = ⟨bhOf pre, P.getD pre.length 0⟩
  key : ∀ pre, pre <+: chain → pre ≠ [] → pre ≠ chain → lastKey pre ≠ 0
  length : chain.length ≤ P.length

/-- The tree has the chain. -/
def Live (c : Cells ℕ) (P : List ℕ) (chain : List Indirect) : Prop :=
  ∀ pre q, pre ++ [q] <+: chain → get c (P.take (pre.length + 1)) = q.key

section Spine

variable {P : List ℕ} {chain pre : List Indirect} {q : Indirect} {c : Cells ℕ}

theorem Spine.nil (P : List ℕ) : Spine P [] where
  slot pre q h := absurd (List.prefix_nil.mp h) (by simp)
  key pre h hne _ := absurd (List.prefix_nil.mp h) hne
  length := Nat.zero_le _

theorem Spine.of_prefix (h : Spine P chain) (hpre : pre <+: chain) : Spine P pre where
  slot pre' q h' := h.slot pre' q (h'.trans hpre)
  key pre' h' hne hne' := by
    refine h.key pre' (h'.trans hpre) hne ?_
    rintro rfl
    exact hne' (h'.eq_of_length_le hpre.length_le)
  length := le_trans hpre.length_le h.length

theorem Spine.concat (h : Spine P chain) (hkey : chain = [] ∨ lastKey chain ≠ 0)
    (hlen : chain.length < P.length) (hq : q.p = ⟨bhOf chain, P.getD chain.length 0⟩) :
    Spine P (chain ++ [q]) where
  slot pre r hpre := by
    rcases List.prefix_concat_iff.mp hpre with heq | hpre
    · obtain ⟨rfl, hr⟩ := List.append_inj' heq rfl
      rw [(List.cons.inj hr).1]
      exact hq
    · exact h.slot pre r hpre
  key pre hpre hne hne' := by
    rcases List.prefix_concat_iff.mp hpre with heq | hpre
    · exact absurd heq hne'
    · by_cases hch : pre = chain
      · rw [hch] at hne ⊢
        exact hkey.resolve_left hne
      · exact h.key pre hpre hne hch
  length := by
    rw [List.length_append, List.length_singleton]
    exact hlen

/-- All keys of a chain but the last are pointers. -/
theorem Spine.before (h : Spine P (chain ++ [q])) : chain = [] ∨ lastKey chain ≠ 0 := by
  by_cases hne : chain = []
  · exact Or.inl hne
  · exact Or.inr (h.key chain (List.prefix_append _ _) hne (by simp))

theorem live_concat :
    Live c P (chain ++ [q]) ↔
      Live c P chain ∧ get c (P.take (chain.length + 1)) = q.key := by
  constructor
  · intro h
    exact ⟨fun pre r hpre => h pre r (hpre.trans (List.prefix_append _ _)),
      h chain q List.prefix_rfl⟩
  · rintro ⟨h, hq⟩ pre r hpre
    rcases List.prefix_concat_iff.mp hpre with heq | hpre
    · obtain ⟨rfl, hr⟩ := List.append_inj' heq rfl
      rw [(List.cons.inj hr).1]
      exact hq
    · exact h pre r hpre

theorem Live.last (h : Live c P chain) (hne : chain ≠ []) :
    get c (P.take chain.length) = lastKey chain := by
  rcases List.eq_nil_or_concat chain with h0 | ⟨pre, r, rfl⟩
  · exact absurd h0 hne
  · rw [List.concat_eq_append] at h ⊢
    rw [lastKey_concat, List.length_append, List.length_singleton]
    exact h pre r List.prefix_rfl

theorem Live.of_prefix (h : Live c P chain) (hpre : pre <+: chain) : Live c P pre :=
  fun pre' r h' => h pre' r (h'.trans hpre)

theorem Live.congr {c' : Cells ℕ} (h : Live c P chain)
    (hget : ∀ m, 1 ≤ m → m ≤ chain.length → get c' (P.take m) = get c (P.take m)) :
    Live c' P chain := by
  intro pre r hpre
  have hlen := hpre.length_le
  rw [List.length_append, List.length_singleton] at hlen
  rw [hget _ (Nat.le_add_left 1 _) hlen]
  exact h pre r hpre

theorem take_ne_nil {n : ℕ} (h0 : n ≠ 0) (hn : n ≤ P.length) : P.take n ≠ [] := by
  intro h
  have hlen := congrArg List.length h
  rw [List.length_take, List.length_nil] at hlen
  omega

/-- The node the next triple points into, while the tree has the chain. -/
theorem Live.node_eq (h : Live c P chain) (hkey : chain = [] ∨ lastKey chain ≠ 0)
    (hlen : chain.length ≤ P.length) :
    Alive c (P.take chain.length) ∧ node c (P.take chain.length) = bhOf chain := by
  by_cases h0 : chain = []
  · rw [h0]
    exact ⟨Or.inl rfl, rfl⟩
  · have hne : P.take chain.length ≠ [] :=
      take_ne_nil (fun hz => h0 (List.length_eq_zero_iff.mp hz)) hlen
    refine ⟨Or.inr ?_, ?_⟩
    · rw [h.last h0]
      exact hkey.resolve_left h0
    · rw [node_of_ne hne, h.last h0, bhOf_eq h0]

theorem take_succ_getD {n : ℕ} (hn : n < P.length) : P.take (n + 1) = P.take n ++ [P.getD n 0] := by
  rw [List.take_succ_eq_append_getElem hn, List.getD_eq_getElem _ _ hn]

theorem Spine.lt_length (h : Spine P (chain ++ [q])) : chain.length < P.length := by
  have := h.length
  rwa [List.length_append, List.length_singleton] at this

/-- Where the last triple of a chain points, while the tree has the others. -/
theorem Spine.above (h : Spine P (chain ++ [q])) (hl : Live c P chain) :
    Alive c (P.take chain.length) ∧ node c (P.take chain.length) = q.p.bh ∧
      P.take (chain.length + 1) = P.take chain.length ++ [q.p.off] := by
  obtain ⟨ha, hn⟩ := hl.node_eq h.before (le_of_lt h.lt_length)
  have hslot := h.slot chain q List.prefix_rfl
  refine ⟨ha, ?_, ?_⟩
  · rw [hn, hslot]
  · rw [hslot, take_succ_getD h.lt_length]

/-- **`verify_chain`** says that the tree has the chain. -/
theorem verifyChain_iff (h : Spine P chain) : verifyChain c chain = true ↔ Live c P chain := by
  induction chain using List.reverseRecOn with
  | nil =>
      refine ⟨fun _ pre q hpre => absurd (List.prefix_nil.mp hpre) (by simp), fun _ => rfl⟩
  | append_singleton chain q ih =>
      rw [verifyChain_concat, live_concat, ih (h.of_prefix (List.prefix_append _ _))]
      refine and_congr_right fun hl => ?_
      obtain ⟨ha, hn, ht⟩ := h.above hl
      rw [ht, get_concat c ha, hn, eq_comm]

/-- The slot of the last triple, in a tree that has the others. -/
theorem Spine.get_slot (h : Spine P (chain ++ [q])) (hl : Live c P chain) :
    get c (P.take (chain.length + 1)) = c q.p.bh q.p.off := by
  obtain ⟨ha, hn, ht⟩ := h.above hl
  rw [ht, get_concat c ha, hn]

/-! ## `ext2_get_branch` -/

theorem branchNext_cases (depth : ℕ) (chain : List Indirect) :
    (lastKey chain = 0 ∧ branchNext depth chain = .part chain 0) ∨
      (lastKey chain ≠ 0 ∧ chain.length = depth ∧ branchNext depth chain = .found chain) ∨
      (lastKey chain ≠ 0 ∧ chain.length ≠ depth ∧ branchNext depth chain = .more chain) := by
  rw [branchNext]
  by_cases hk : lastKey chain = 0
  · exact Or.inl ⟨hk, if_pos hk⟩
  · rw [if_neg hk]
    by_cases hd : chain.length = depth
    · exact Or.inr (Or.inl ⟨hk, hd, if_pos hd⟩)
    · exact Or.inr (Or.inr ⟨hk, hd, if_neg hd⟩)

theorem Spine.addChain (h : Spine P chain) (hl : Live c P chain)
    (hkey : chain = [] ∨ lastKey chain ≠ 0) (hlen : chain.length < P.length) :
    ∃ q, addChain c chain ⟨bhOf chain, P.getD chain.length 0⟩ = chain ++ [q] ∧
      Spine P (chain ++ [q]) ∧ Live c P (chain ++ [q]) := by
  obtain ⟨q, hp, hk, hadd⟩ : ∃ q : Indirect, q.p = ⟨bhOf chain, P.getD chain.length 0⟩ ∧
      q.key = c q.p.bh q.p.off ∧
      Ext2.addChain c chain ⟨bhOf chain, P.getD chain.length 0⟩ = chain ++ [q] :=
    ⟨⟨⟨bhOf chain, P.getD chain.length 0⟩, _⟩, rfl, rfl, rfl⟩
  have hs := h.concat hkey hlen hp
  exact ⟨q, hadd, hs, live_concat.mpr ⟨hl, (hs.get_slot hl).trans hk.symm⟩⟩

theorem getBranch_cases (c : Cells ℕ) (hP : P ≠ []) :
    ∃ q, getBranch c P = branchNext P.length [q] ∧ Spine P [q] ∧ Live c P [q] := by
  obtain ⟨q, hadd, hs, hl⟩ := (Spine.nil P).addChain (c := c)
    (fun pre q hpre => absurd (List.prefix_nil.mp hpre) (by simp)) (Or.inl rfl)
    (List.length_pos_of_ne_nil hP)
  refine ⟨q, ?_, hs, hl⟩
  cases P with
  | nil => exact absurd rfl hP
  | cons o os => exact congrArg (branchNext (o :: os).length) hadd

theorem getBranchLoop_cases (io : Bool) (h : Spine P chain) (hne : chain ≠ [])
    (hkey : lastKey chain ≠ 0) (hlen : chain.length < P.length) :
    (io = false ∧ getBranchLoop c P chain io = .part chain (- EIO)) ∨
      (io = true ∧ ¬ Live c P chain ∧ getBranchLoop c P chain io = .part chain (-EAGAIN)) ∨
      (io = true ∧ Live c P chain ∧
        ∃ q, getBranchLoop c P chain io = branchNext P.length (chain ++ [q]) ∧
          Spine P (chain ++ [q]) ∧ Live c P (chain ++ [q])) := by
  rw [getBranchLoop]
  cases io with
  | false => exact Or.inl ⟨rfl, rfl⟩
  | true =>
      rw [if_neg (by decide)]
      by_cases hv : verifyChain c chain = true
      · have hl := (verifyChain_iff h).mp hv
        obtain ⟨q, hadd, hs, hl'⟩ := h.addChain hl (Or.inr hkey) hlen
        rw [if_pos hv, ← bhOf_eq hne, hadd]
        exact Or.inr (Or.inr ⟨rfl, hl, q, rfl, hs, hl'⟩)
      · rw [if_neg hv]
        exact Or.inr (Or.inl ⟨rfl, fun hl => hv ((verifyChain_iff h).mpr hl), rfl⟩)

end Spine

end LinuxHacks.Ext2
