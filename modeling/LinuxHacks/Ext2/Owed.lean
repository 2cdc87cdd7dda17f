import Mathlib.Data.List.Perm.Basic
import LinuxHacks.Ext2.Chains

/-!
# What a truncation still has to free

The frames of `ext2_truncate` own the blocks that are detached and not yet freed
(`owed`): the run `ext2_free_data` collects, and what hangs on the slots that are
left of a detached block. A frame over a block that stays in the file owns
nothing; the slots it has to visit lie beyond the path where the file is cut
(`Ends`).

A step of the innermost call (`truncFree_owed`) works on what is owed, or detaches
what is at one more slot beyond the cut, or gives blocks back.
-/

namespace LinuxHacks.Ext2

open Lib.PointerTree

/-! ## Owned blocks -/

/-- The node is detached: `ext2_free_branches` frees it next. -/
def Owned (n : Option ℕ) (rest : List Frame) : Prop :=
  n ≠ none ∧ rest.head? = n.map fun b => Frame.freeBlocks b 1

instance (n : Option ℕ) (rest : List Frame) : Decidable (Owned n rest) :=
  inferInstanceAs (Decidable (_ ∧ _))

theorem Owned.cases {n : Option ℕ} {rest : List Frame} (h : Owned n rest) :
    ∃ b rest', n = some b ∧ rest = .freeBlocks b 1 :: rest' := by
  obtain ⟨hn, hhead⟩ := h
  cases n with
  | none => exact absurd rfl hn
  | some b =>
      cases rest with
      | nil => cases hhead
      | cons f rest =>
          rw [List.head?_cons, Option.map_some, Option.some.injEq] at hhead
          exact ⟨b, rest, rfl, by rw [hhead]⟩

theorem not_owned_none (rest : List Frame) : ¬ Owned none rest := fun h => h.1 rfl

/-- What a frame owns, above the frames `rest`. -/
def own (c : Cells ℕ) (w : ℕ) : Frame → List Frame → List ℕ
  | .freeData n p q b k, rest =>
      List.range' b k ++ if Owned n rest then slots c (sub c w 0) n p q else []
  | .freeBranches n p q d, rest => if Owned n rest then slots c (sub c w (d + 1)) n p q else []
  | .readBranch nr d, _ => sub c w (d + 1) nr
  | .freeBlocks b k, _ => List.range' b k
  | .doIndirects _, _ => []

def owed (c : Cells ℕ) (w : ℕ) : List Frame → List ℕ
  | [] => []
  | f :: rest => own c w f rest ++ owed c w rest

theorem owed_cons (c : Cells ℕ) (w : ℕ) (f : Frame) (rest : List Frame) :
    owed c w (f :: rest) = own c w f rest ++ owed c w rest := rfl

theorem owed_freeBlocks (c : Cells ℕ) (w b k : ℕ) (rest : List Frame) :
    owed c w (.freeBlocks b k :: rest) = List.range' b k ++ owed c w rest := rfl

theorem Owned.mem {c : Cells ℕ} {w : ℕ} {n : Option ℕ} {rest : List Frame} (h : Owned n rest) :
    ∃ b, n = some b ∧ b ∈ owed c w rest := by
  obtain ⟨b, rest', hn, rfl⟩ := h.cases
  exact ⟨b, hn, by simp [owed_freeBlocks]⟩

section Congr

variable {c c' : Cells ℕ} {w : ℕ}

theorem slots_sub_congr {d : ℕ} {n : Option ℕ} {p q : ℕ}
    (hn : ∀ k, p ≤ k → k < q → c' n k = c n k)
    (h : ∀ b ∈ slots c (sub c w d) n p q, ∀ k, c' (some b) k = c (some b) k) :
    slots c' (sub c' w d) n p q = slots c (sub c w d) n p q := by
  refine slots_congr fun o hp hq => ?_
  rw [hn o hp hq]
  exact sub_congr fun b hb => h b (mem_slots.mpr ⟨o, hp, hq, hb⟩)

theorem own_congr {f : Frame} {rest : List Frame}
    (h : ∀ b ∈ owed c w (f :: rest), ∀ k, c' (some b) k = c (some b) k) :
    own c' w f rest = own c w f rest := by
  have hown : ∀ b ∈ own c w f rest, ∀ k, c' (some b) k = c (some b) k :=
    fun b hb => h b (List.mem_append_left _ hb)
  -- the node of an owned frame is owed
  have hnode : ∀ n, Owned n rest → ∀ k, c' n k = c n k := by
    intro n ho k
    obtain ⟨b, rfl, hb⟩ := ho.mem (c := c) (w := w)
    exact h b (List.mem_append_right _ hb) k
  cases f with
  | freeData n p q b k =>
      rw [own] at hown
      rw [own, own]
      by_cases ho : Owned n rest
      · rw [if_pos ho] at hown
        rw [if_pos ho, if_pos ho, slots_sub_congr (fun o _ _ => hnode n ho o)
          fun b hb => hown b (List.mem_append_right _ hb)]
      · rw [if_neg ho, if_neg ho]
  | freeBranches n p q d =>
      rw [own] at hown
      rw [own, own]
      by_cases ho : Owned n rest
      · rw [if_pos ho] at hown
        rw [if_pos ho, if_pos ho, slots_sub_congr (fun o _ _ => hnode n ho o) hown]
      · rw [if_neg ho, if_neg ho]
  | readBranch nr d => exact sub_congr hown
  | freeBlocks b k => rfl
  | doIndirects o => rfl

/-- Only the blocks that are owed say what is owed. -/
theorem owed_congr {stack : List Frame}
    (h : ∀ b ∈ owed c w stack, ∀ k, c' (some b) k = c (some b) k) :
    owed c' w stack = owed c w stack := by
  induction stack with
  | nil => rfl
  | cons f rest ih =>
      rw [owed_cons, owed_cons, own_congr h, ih fun b hb => h b (List.mem_append_right _ hb)]

end Congr

/-! ## Frames over blocks that stay -/

/-- The slots `p .. q` of node `n` lie beyond the cut `P`, on a node of the tree
at which the cut goes on; `levels` are below them. -/
def Ends (S : Shape) (c : Cells ℕ) (P : List ℕ) (n : Option ℕ) (p q : ℕ) (levels : ℕ → ℕ) :
    Prop :=
  ∃ π, π <+: P ∧ π.length < P.length ∧ Alive c π ∧ node c π = n ∧
    ∀ o, p ≤ o → o < q →
      S.Path (π ++ [o]) ∧ S.below (π ++ [o]) = levels o ∧ Beyond P (π ++ [o])

def FrameOk (S : Shape) (c : Cells ℕ) (P : List ℕ) : Frame → List Frame → Prop
  | .freeData n p q _ _, rest => Owned n rest ∨ Ends S c P n p q fun _ => 0
  | .freeBranches n p q d, rest => Owned n rest ∨ Ends S c P n p q fun _ => d + 1
  | .readBranch nr _, _ => nr ≠ 0
  | .freeBlocks _ _, _ => True
  | .doIndirects o, _ => Ends S c P none o nBlocks fun o => o - indBlock + 1

def StackOk (S : Shape) (c : Cells ℕ) (P : List ℕ) : List Frame → Prop
  | [] => True
  | f :: rest => FrameOk S c P f rest ∧ StackOk S c P rest

/-- The slots a frame has to visit. -/
def Frame.visits : Frame → Option (Option ℕ × ℕ × ℕ)
  | .freeData n p q _ _ => some (n, p, q)
  | .freeBranches n p q _ => some (n, p, q)
  | .readBranch _ _ => none
  | .freeBlocks _ _ => none
  | .doIndirects o => some (none, o, nBlocks)

/-- A frame still has to visit a slot the path goes through, on a node at which the
cut goes on. -/
def Pending (c : Cells ℕ) (P : List ℕ) (stack : List Frame) (π : List ℕ) : Prop :=
  ∃ f ∈ stack, ∃ n p q, f.visits = some (n, p, q) ∧
    ∃ ρ o, ρ <+: P ∧ ρ.length < P.length ∧ Alive c ρ ∧ node c ρ = n ∧ p ≤ o ∧ o < q ∧
      ρ ++ [o] <+: π

/-- The tree keeps the nodes at which the cut goes on. -/
def Keeps (c c' : Cells ℕ) (P : List ℕ) : Prop :=
  ∀ π, π <+: P → π.length < P.length → Alive c π → π = [] ∨ get c' π = get c π

section Keeps

variable {S : Shape} {c c' : Cells ℕ} {P : List ℕ}

theorem Ends.mono (hk : Keeps c c' P) {n : Option ℕ} {p q : ℕ} {levels : ℕ → ℕ}
    (h : Ends S c P n p q levels) : Ends S c' P n p q levels := by
  obtain ⟨π, hpre, hlen, ha, hn, hslots⟩ := h
  have hget := hk π hpre hlen ha
  exact ⟨π, hpre, hlen, (alive_congr hget).mpr ha, (node_congr hget).trans hn, hslots⟩

theorem Ends.next {n : Option ℕ} {p q : ℕ} {levels : ℕ → ℕ} (h : Ends S c P n p q levels) :
    Ends S c P n (p + 1) q levels := by
  obtain ⟨π, hpre, hlen, ha, hn, hslots⟩ := h
  exact ⟨π, hpre, hlen, ha, hn, fun o hp hq => hslots o (Nat.le_of_succ_le hp) hq⟩

theorem FrameOk.mono (hk : Keeps c c' P) {f : Frame} {rest : List Frame}
    (h : FrameOk S c P f rest) : FrameOk S c' P f rest := by
  cases f with
  | freeData n p q b k => exact Or.imp id (Ends.mono hk) h
  | freeBranches n p q d => exact Or.imp id (Ends.mono hk) h
  | readBranch nr d => exact h
  | freeBlocks b k => trivial
  | doIndirects o => exact Ends.mono hk h

theorem StackOk.mono (hk : Keeps c c' P) {stack : List Frame} (h : StackOk S c P stack) :
    StackOk S c' P stack := by
  induction stack with
  | nil => trivial
  | cons f rest ih => exact ⟨h.1.mono hk, ih h.2⟩

theorem Pending.mono (hk : Keeps c c' P) {stack : List Frame} {π : List ℕ}
    (h : Pending c P stack π) : Pending c' P stack π := by
  obtain ⟨f, hf, n, p, q, hv, ρ, o, hpre, hlen, ha, hn, hp, hq, hπ⟩ := h
  have hget := hk ρ hpre hlen ha
  exact ⟨f, hf, n, p, q, hv, ρ, o, hpre, hlen, (alive_congr hget).mpr ha,
    (node_congr hget).trans hn, hp, hq, hπ⟩

theorem Pending.of_subset {stack stack' : List Frame} {π : List ℕ} (hsub : stack ⊆ stack')
    (h : Pending c P stack π) : Pending c P stack' π := by
  obtain ⟨f, hf, hrest⟩ := h
  exact ⟨f, hsub hf, hrest⟩

end Keeps

/-! ## One step of the innermost call -/

/-- What a step of the innermost call does with what is owed. -/
inductive FreeStep (S : Shape) (P : List ℕ) (s s' : State) (stack stack' : List Frame) : Prop
  /-- It works on detached blocks. -/
  | within (free : s'.free = s.free) (lost : s'.lost = s.lost)
      (cell : ∀ m k, (∀ b ∈ owed s.cell S.width stack, m ≠ some b) → s'.cell m k = s.cell m k)
      (owed : (owed s'.cell S.width stack').Perm (owed s.cell S.width stack))
  /-- It detaches what one more slot beyond the cut holds. -/
  | detached (free : s'.free = s.free) (lost : s'.lost = s.lost) (π : List ℕ) (o : ℕ)
      (slot : S.Path (π ++ [o])) (alive : Alive s.cell π) (beyond : Beyond P (π ++ [o]))
      (cell : s'.cell = put s.cell (node s.cell π) o 0)
      (owed : (owed s'.cell S.width stack').Perm
        (sub s.cell S.width (S.below (π ++ [o])) (get s.cell (π ++ [o])) ++
          owed s.cell S.width stack))
  /-- It gives blocks back. -/
  | freed (X : List ℕ) (cell : s'.cell = s.cell) (lost : s'.lost = s.lost)
      (free : s'.free = s.free ∪ X.toFinset)
      (owed : (owed s.cell S.width stack).Perm (X ++ Ext2.owed s.cell S.width stack'))
  /-- It gives blocks up. -/
  | dropped (X : List ℕ) (cell : s'.cell = s.cell) (free : s'.free = s.free)
      (lost : s'.lost = s.lost ∪ X.toFinset)
      (owed : (owed s.cell S.width stack).Perm (X ++ Ext2.owed s.cell S.width stack'))

section Put

variable {c : Cells ℕ} {w d p q v : ℕ} {n : Option ℕ} {rest : List Frame}

/-- Writing a detached node does not change what the frames below own. -/
theorem owed_put (ho : Owned n rest) (hnd : (owed c w rest).Nodup) :
    owed (put c n p v) w rest = owed c w rest := by
  obtain ⟨b, rest', rfl, rfl⟩ := ho.cases
  rw [owed_freeBlocks, List.nodup_append] at hnd
  rw [owed_freeBlocks, owed_freeBlocks]
  congr 1
  refine owed_congr fun b' hb' k => put_node_ne c ?_ _ _ _
  intro h
  exact hnd.2.2 b (by simp) b' hb' (Option.some.inj h).symm

theorem sub_put (ho : Owned n rest) {u : ℕ} (hdis : ∀ b ∈ sub c w d u, b ∉ owed c w rest) :
    sub (put c n p v) w d u = sub c w d u := by
  obtain ⟨b, rfl, hb⟩ := ho.mem (c := c) (w := w)
  refine sub_congr fun b' hb' k => put_node_ne c ?_ _ _ _
  intro h
  exact hdis b' hb' (Option.some.inj h ▸ hb)

theorem slots_put (ho : Owned n rest)
    (hdis : ∀ b ∈ slots c (sub c w d) n (p + 1) q, b ∉ owed c w rest) :
    slots (put c n p v) (sub (put c n p v) w d) n (p + 1) q = slots c (sub c w d) n (p + 1) q := by
  obtain ⟨b, rfl, hb⟩ := ho.mem (c := c) (w := w)
  refine slots_sub_congr (fun k hk _ => put_slot_ne c (by omega) _ _ _) ?_
  intro b' hb' k
  refine put_node_ne c ?_ _ _ _
  intro h
  exact hdis b' hb' (Option.some.inj h ▸ hb)

end Put

section Step

variable {S : Shape} {P : List ℕ} {s : State} {n : Option ℕ} {p q b k d : ℕ} {rest : List Frame}

/-- Blocks of the tree are not owed. -/
def Apart (S : Shape) (c : Cells ℕ) (stack : List Frame) : Prop :=
  ∀ b ∈ owed c S.width stack, b ∉ S.blocks c

/-- Writing a node of the tree does not change what is owed. -/
theorem owed_put_tree {c : Cells ℕ} {stack : List Frame} {π : List ℕ} {o v : ℕ}
    (hslot : S.Path (π ++ [o])) (ha : Alive c π) (hout : Apart S c stack) :
    owed (put c (node c π) o v) S.width stack = owed c S.width stack := by
  refine owed_congr fun b hb k => put_node_ne c ?_ _ _ _
  intro h
  by_cases h0 : π = []
  · rw [h0] at h
    cases h
  · rw [node_of_ne h0, Option.some.injEq] at h
    exact hout b hb (h ▸ Shape.mem_blocks ((path_dropLast hslot).resolve_left h0)
      (ha.resolve_left h0))

theorem own_freeData_owned (c : Cells ℕ) (w p q b k : ℕ) (ho : Owned n rest) :
    own c w (.freeData n p q b k) rest = List.range' b k ++ slots c (sub c w 0) n p q := by
  rw [own, if_pos ho]

theorem own_freeData_shared (c : Cells ℕ) (w p q b k : ℕ) (ho : ¬ Owned n rest) :
    own c w (.freeData n p q b k) rest = List.range' b k := by
  rw [own, if_neg ho, List.append_nil]

theorem sub_leaf (c : Cells ℕ) (w : ℕ) {v : ℕ} (hv : v ≠ 0) : sub c w 0 v = [v] := if_neg hv

/-- One turn of `ext2_free_data`. -/
theorem freeDataStep_owed (hf : FrameOk S s.cell P (.freeData n p q b k) rest)
    (hnd : (owed s.cell S.width (.freeData n p q b k :: rest)).Nodup)
    (hout : Apart S s.cell (.freeData n p q b k :: rest)) :
    FreeStep S P s (s.freeDataStep n p q b k).1 (.freeData n p q b k :: rest)
      ((s.freeDataStep n p q b k).2 ++ rest) := by
  rw [State.freeDataStep]
  by_cases hpq : p < q
  · rw [if_pos hpq]
    dsimp only
    by_cases hnr : s.cell n p = 0
    · -- an empty slot
      rw [if_pos hnr]
      refine .within rfl rfl (fun _ _ _ => rfl) (List.Perm.of_eq ?_)
      rw [List.singleton_append, owed_cons, owed_cons, own, own, slots_of_lt _ _ _ hpq, hnr,
        sub_null, List.nil_append]
    · rw [if_neg hnr]
      by_cases ho : Owned n rest
      · -- the block is detached already
        rw [owed_cons, own_freeData_owned _ _ _ _ _ _ ho, slots_of_lt _ _ _ hpq, sub_leaf _ _ hnr]
          at hnd
        obtain ⟨hown, hrest, hdis⟩ := List.nodup_append.mp hnd
        have hslots : slots (put s.cell n p 0) (sub (put s.cell n p 0) S.width 0) n (p + 1) q =
            slots s.cell (sub s.cell S.width 0) n (p + 1) q :=
          slots_put ho fun x hx hx' => hdis x (List.mem_append_right _ (List.mem_append_right _ hx))
            x hx' rfl
        have hput : ∀ m i, (∀ x ∈ owed s.cell S.width (.freeData n p q b k :: rest), m ≠ some x) →
            put s.cell n p 0 m i = s.cell m i := by
          intro m i hm
          obtain ⟨x, rfl, hx⟩ := ho.mem (c := s.cell) (w := S.width)
          exact put_node_ne s.cell (hm x (List.mem_append_right _ hx)) _ _ _
        by_cases hk : k = 0
        · rw [if_pos hk]
          refine .within rfl rfl hput (List.Perm.of_eq ?_)
          rw [List.singleton_append, owed_cons, owed_cons, own_freeData_owned _ _ _ _ _ _ ho,
            own_freeData_owned _ _ _ _ _ _ ho, hslots, owed_put ho hrest, slots_of_lt _ _ _ hpq,
            sub_leaf _ _ hnr, hk]
          rfl
        · rw [if_neg hk]
          by_cases hc : b + k = s.cell n p
          · rw [if_pos hc]
            refine .within rfl rfl hput (List.Perm.of_eq ?_)
            rw [List.singleton_append, owed_cons, owed_cons, own_freeData_owned _ _ _ _ _ _ ho,
              own_freeData_owned _ _ _ _ _ _ ho, hslots, owed_put ho hrest, slots_of_lt _ _ _ hpq,
              sub_leaf _ _ hnr, List.range'_1_concat, hc]
            simp only [List.append_assoc]
          · rw [if_neg hc]
            refine .within rfl rfl hput (List.Perm.of_eq ?_)
            rw [List.cons_append, List.singleton_append, owed_freeBlocks, owed_cons, owed_cons,
              own_freeData_owned _ _ _ _ _ _ ho, own_freeData_owned _ _ _ _ _ _ ho, hslots,
              owed_put ho hrest, slots_of_lt _ _ _ hpq, sub_leaf _ _ hnr]
            simp only [List.append_assoc, List.range'_one]
      · -- the block stays in the file: its slot is beyond the cut
        obtain ⟨π, -, -, ha, rfl, hslots⟩ := hf.resolve_left ho
        obtain ⟨hslot, hbelow, hbeyond⟩ := hslots p le_rfl hpq
        have hget : get s.cell (π ++ [p]) = s.cell (node s.cell π) p := get_concat _ ha p
        have hrest : owed (put s.cell (node s.cell π) p 0) S.width rest =
            owed s.cell S.width rest :=
          owed_put_tree hslot ha fun x hx => hout x (List.mem_append_right _ hx)
        by_cases hk : k = 0
        · rw [if_pos hk]
          refine .detached rfl rfl π p hslot ha hbeyond rfl (List.Perm.of_eq ?_)
          rw [List.singleton_append, owed_cons, owed_cons, own_freeData_shared _ _ _ _ _ _ ho,
            own_freeData_shared _ _ _ _ _ _ ho, hrest, hbelow, hget, sub_leaf _ _ hnr, hk]
          rfl
        · rw [if_neg hk]
          by_cases hc : b + k = s.cell (node s.cell π) p
          · rw [if_pos hc]
            refine .detached rfl rfl π p hslot ha hbeyond rfl ?_
            rw [List.singleton_append, owed_cons, owed_cons, own_freeData_shared _ _ _ _ _ _ ho,
              own_freeData_shared _ _ _ _ _ _ ho, hrest, hbelow, hget, sub_leaf _ _ hnr,
              List.range'_1_concat, hc, ← List.append_assoc]
            exact (List.perm_append_comm).append_right _
          · rw [if_neg hc]
            refine .detached rfl rfl π p hslot ha hbeyond rfl ?_
            rw [List.cons_append, List.singleton_append, owed_freeBlocks, owed_cons, owed_cons,
              own_freeData_shared _ _ _ _ _ _ ho, own_freeData_shared _ _ _ _ _ _ ho, hrest, hbelow,
              hget, sub_leaf _ _ hnr, List.range'_one, ← List.append_assoc, ← List.append_assoc]
            exact (List.perm_append_comm).append_right _
  · rw [if_neg hpq]
    have hnil : slots s.cell (sub s.cell S.width 0) n p q = [] :=
      slots_of_le _ _ _ (Nat.not_lt.mp hpq)
    have hown : own s.cell S.width (.freeData n p q b k) rest = List.range' b k := by
      rw [own, hnil, ite_self, List.append_nil]
    by_cases hk : 0 < k
    · rw [if_pos hk]
      refine .within rfl rfl (fun _ _ _ => rfl) (List.Perm.of_eq ?_)
      rw [List.singleton_append, owed_freeBlocks, owed_cons, hown]
    · rw [if_neg hk]
      refine .within rfl rfl (fun _ _ _ => rfl) (List.Perm.of_eq ?_)
      rw [List.nil_append, owed_cons, hown, Nat.eq_zero_of_not_pos hk]
      rfl

/-- One turn of `ext2_free_branches`. -/
theorem freeBranchesStep_owed (hT : S.Tree s.cell)
    (hf : FrameOk S s.cell P (.freeBranches n p q d) rest)
    (hnd : (owed s.cell S.width (.freeBranches n p q d :: rest)).Nodup)
    (hout : Apart S s.cell (.freeBranches n p q d :: rest)) :
    FreeStep S P s (s.freeBranchesStep n p q d).1 (.freeBranches n p q d :: rest)
      ((s.freeBranchesStep n p q d).2 ++ rest) := by
  rw [State.freeBranchesStep]
  by_cases hpq : p < q
  · rw [if_pos hpq]
    dsimp only
    by_cases hnr : s.cell n p = 0
    · rw [if_pos hnr]
      refine .within rfl rfl (fun _ _ _ => rfl) (List.Perm.of_eq ?_)
      rw [List.singleton_append, owed_cons, owed_cons, own, own, slots_of_lt _ _ _ hpq, hnr,
        sub_null, List.nil_append]
    · rw [if_neg hnr]
      by_cases ho : Owned n rest
      · rw [owed_cons, own, if_pos ho, slots_of_lt _ _ _ hpq] at hnd
        obtain ⟨hown, hrest, hdis⟩ := List.nodup_append.mp hnd
        have hslots : slots (put s.cell n p 0) (sub (put s.cell n p 0) S.width (d + 1)) n (p + 1) q =
            slots s.cell (sub s.cell S.width (d + 1)) n (p + 1) q :=
          slots_put ho fun x hx hx' => hdis x (List.mem_append_right _ hx) x hx' rfl
        have hsub : sub (put s.cell n p 0) S.width (d + 1) (s.cell n p) =
            sub s.cell S.width (d + 1) (s.cell n p) :=
          sub_put ho fun x hx hx' => hdis x (List.mem_append_left _ hx) x hx' rfl
        refine .within rfl rfl ?_ (List.Perm.of_eq ?_)
        · intro m i hm
          obtain ⟨x, rfl, hx⟩ := ho.mem (c := s.cell) (w := S.width)
          exact put_node_ne s.cell (hm x (List.mem_append_right _ hx)) _ _ _
        · rw [List.cons_append, List.singleton_append, owed_cons, owed_cons, owed_cons, own, own,
            own, if_pos ho, if_pos ho, hslots, hsub, owed_put ho hrest, slots_of_lt _ _ _ hpq,
            List.append_assoc]
      · obtain ⟨π, -, -, ha, rfl, hslots⟩ := hf.resolve_left ho
        obtain ⟨hslot, hbelow, hbeyond⟩ := hslots p le_rfl hpq
        have hget : get s.cell (π ++ [p]) = s.cell (node s.cell π) p := get_concat _ ha p
        have hrest : owed (put s.cell (node s.cell π) p 0) S.width rest =
            owed s.cell S.width rest :=
          owed_put_tree hslot ha fun x hx => hout x (List.mem_append_right _ hx)
        refine .detached rfl rfl π p hslot ha hbeyond rfl (List.Perm.of_eq ?_)
        have hsub : sub (put s.cell (node s.cell π) p 0) S.width (d + 1) (s.cell (node s.cell π) p) =
            sub s.cell S.width (d + 1) (s.cell (node s.cell π) p) := by
          have := sub_put_slot hT hslot 0
          rwa [hbelow, hget] at this
        rw [List.cons_append, List.singleton_append, owed_cons, owed_cons, owed_cons, own, own, own,
          if_neg ho, if_neg ho, hsub, hrest, hbelow, hget]
  · rw [if_neg hpq]
    refine .within rfl rfl (fun _ _ _ => rfl) (List.Perm.of_eq ?_)
    rw [List.nil_append, owed_cons, own, slots_of_le _ _ _ (Nat.not_lt.mp hpq), ite_self,
      List.nil_append]

/-- A block that is read is freed after what hangs on it. -/
theorem own_freeBranches (c : Cells ℕ) (w nr d : ℕ) :
    own c w (freeBranches (some nr) 0 w d) (.freeBlocks nr 1 :: rest) =
      slots c (sub c w d) (some nr) 0 w := by
  have ho : Owned (some nr) (.freeBlocks nr 1 :: rest) := ⟨by simp, rfl⟩
  cases d with
  | zero => rw [freeBranches, own, if_pos ho]; rfl
  | succ d => rw [freeBranches, own, if_pos ho]

theorem readBranchStep_owed {ino : Inode} {nr : ℕ} (io : Bool) (hnr : nr ≠ 0)
    (hw : S.width = addrPerBlock ino.bits) :
    FreeStep S P s (s.readBranchStep ino nr d io).1 (.readBranch nr d :: rest)
      ((s.readBranchStep ino nr d io).2 ++ rest) := by
  rw [State.readBranchStep, ← hw]
  cases io with
  | true =>
      rw [if_pos rfl]
      refine .within rfl rfl (fun _ _ _ => rfl) ?_
      rw [List.cons_append, List.singleton_append, owed_cons, owed_freeBlocks, owed_cons,
        own_freeBranches, own, List.range'_one, ← List.append_assoc]
      rw [sub, if_neg hnr]
      exact List.Perm.append_right _ List.perm_append_comm
  | false =>
      rw [if_neg (by decide)]
      exact .dropped _ rfl rfl rfl (List.Perm.of_eq rfl)

theorem own_freeBranchesOf (c : Cells ℕ) (w : ℕ) {nr : ℕ} (hnr : nr ≠ 0) (d : ℕ) :
    own c w (freeBranchesOf nr d) rest = sub c w d nr := by
  cases d with
  | zero => rw [freeBranchesOf, own, sub_leaf c w hnr]; rfl
  | succ d => rw [freeBranchesOf, own]

/-- One case of `do_indirects`. -/
theorem doIndirectsStep_owed {o : ℕ} (hT : S.Tree s.cell)
    (hf : FrameOk S s.cell P (.doIndirects o) rest)
    (hout : Apart S s.cell (.doIndirects o :: rest)) :
    FreeStep S P s (s.doIndirectsStep o).1 (.doIndirects o :: rest)
      ((s.doIndirectsStep o).2 ++ rest) := by
  rw [State.doIndirectsStep]
  by_cases ho : o < nBlocks
  · rw [if_pos ho]
    dsimp only
    by_cases hnr : s.cell none o = 0
    · rw [if_pos hnr]
      exact .within rfl rfl (fun _ _ _ => rfl) (List.Perm.of_eq rfl)
    · rw [if_neg hnr]
      obtain ⟨π, hpre, -, ha, hn, hslots⟩ := hf
      obtain ⟨hslot, hbelow, hbeyond⟩ := hslots o le_rfl ho
      have hget : get s.cell (π ++ [o]) = s.cell none o := hn ▸ get_concat _ ha o
      have hsub := sub_put_slot hT hslot 0
      have hrest : owed (put s.cell (node s.cell π) o 0) S.width rest =
          owed s.cell S.width rest :=
        owed_put_tree hslot ha fun x hx => hout x (List.mem_append_right _ hx)
      refine .detached rfl rfl π o hslot ha hbeyond (by rw [hn]) (List.Perm.of_eq ?_)
      rw [hn, hbelow, hget] at hsub
      rw [hn] at hrest
      rw [List.cons_append, List.singleton_append, owed_cons, owed_cons, owed_cons,
        own_freeBranchesOf _ _ hnr, own, own, hsub, hrest, hbelow, hget]
  · rw [if_neg ho]
    exact .within rfl rfl (fun _ _ _ => rfl) (List.Perm.of_eq rfl)

/-- **One step of the innermost call.** -/
theorem truncFree_owed {ino : Inode} {f : Frame} (io : Bool) (hw : S.width = addrPerBlock ino.bits)
    (hT : S.Tree s.cell) (hf : FrameOk S s.cell P f rest)
    (hnd : (owed s.cell S.width (f :: rest)).Nodup) (hout : Apart S s.cell (f :: rest)) :
    FreeStep S P s (s.truncFree ino io f).1 (f :: rest) ((s.truncFree ino io f).2 ++ rest) := by
  cases f with
  | freeData n p q b k => exact freeDataStep_owed hf hnd hout
  | freeBranches n p q d => exact freeBranchesStep_owed hT hf hnd hout
  | readBranch nr d => exact readBranchStep_owed io hf hw
  | freeBlocks b k => exact .freed (List.range' b k) rfl rfl rfl (List.Perm.of_eq rfl)
  | doIndirects o => exact doIndirectsStep_owed hT hf hout

/-- A step clears a path beyond the cut, or leaves it alone. -/
theorem FreeStep.get {s' : State} {stack stack' : List Frame} (h : FreeStep S P s s' stack stack')
    (hT : S.Tree s.cell) (hout : Apart S s.cell stack) {ρ : List ℕ} (hρ : S.Path ρ) :
    get s'.cell ρ = get s.cell ρ ∨ get s'.cell ρ = 0 ∧ Beyond P ρ := by
  cases h with
  | within _ _ hcell _ =>
      refine Or.inl (get_congr (fun k => hcell none k fun b _ => nofun) ?_ hρ)
      intro b hb k
      exact hcell (some b) k fun x hx heq => hout x hx (Option.some.inj heq ▸ hb)
  | detached _ _ π o hslot ha hbeyond hcell _ =>
      rw [hcell, get_clear hT hslot ha hρ]
      by_cases hpre : π ++ [o] <+: ρ
      · obtain ⟨os, rfl⟩ := hpre
        exact Or.inr ⟨if_pos (List.prefix_append _ _), hbeyond.append os⟩
      · exact Or.inl (if_neg hpre)
  | freed X hcell _ _ _ => exact Or.inl (by rw [hcell])
  | dropped X hcell _ _ _ => exact Or.inl (by rw [hcell])

theorem FreeStep.keeps {s' : State} {stack stack' : List Frame}
    (h : FreeStep S P s s' stack stack') (hT : S.Tree s.cell) (hout : Apart S s.cell stack)
    (hP : ∀ π, π <+: P → π ≠ [] → S.Path π) : Keeps s.cell s'.cell P := by
  intro π hpre hlen _
  by_cases h0 : π = []
  · exact Or.inl h0
  · refine Or.inr ((h.get hT hout (hP π hpre h0)).resolve_right ?_)
    rintro ⟨-, hb⟩
    exact absurd (congrArg List.length (hb.eq_of_prefix hpre)) (Nat.ne_of_lt hlen)

theorem FreeStep.tree {s' : State} {stack stack' : List Frame}
    (h : FreeStep S P s s' stack stack') (hT : S.Tree s.cell) (hout : Apart S s.cell stack) :
    S.Tree s'.cell := by
  intro ρ ρ' hρ hρ' hne heq
  have hget := (h.get hT hout hρ).resolve_right fun h0 => hne h0.1
  have hget' := (h.get hT hout hρ').resolve_right fun h0 => hne (heq.trans h0.1)
  rw [hget] at hne heq
  rw [hget'] at heq
  exact hT ρ ρ' hρ hρ' hne heq

/-- The frames a step leaves. -/
theorem truncFree_frames {ino : Inode} {f : Frame} (io : Bool) {c : Cells ℕ}
    (hf : FrameOk S c P f rest) (hrest : StackOk S c P rest) :
    StackOk S c P ((s.truncFree ino io f).2 ++ rest) := by
  cases f with
  | freeData n p q b k =>
      have hnext : ∀ b' k', FrameOk S c P (.freeData n (p + 1) q b' k') rest :=
        fun _ _ => Or.imp id Ends.next hf
      rw [State.truncFree, State.freeDataStep]
      dsimp only
      split_ifs
      · exact ⟨hnext _ _, hrest⟩
      · exact ⟨hnext _ _, hrest⟩
      · exact ⟨hnext _ _, hrest⟩
      · exact ⟨trivial, hnext _ _, hrest⟩
      · exact ⟨trivial, hrest⟩
      · exact hrest
  | freeBranches n p q d =>
      have hnext : FrameOk S c P (.freeBranches n (p + 1) q d) rest := Or.imp id Ends.next hf
      rw [State.truncFree, State.freeBranchesStep]
      dsimp only
      split_ifs with hpq hnr
      · exact ⟨hnext, hrest⟩
      · exact ⟨hnr, hnext, hrest⟩
      · exact hrest
  | readBranch nr d =>
      rw [State.truncFree, State.readBranchStep]
      split_ifs
      · refine ⟨?_, trivial, hrest⟩
        have ho : Owned (some nr) (.freeBlocks nr 1 :: rest) := ⟨by simp, rfl⟩
        cases d with
        | zero => exact Or.inl ho
        | succ d => exact Or.inl ho
      · exact hrest
  | freeBlocks b k => exact hrest
  | doIndirects o =>
      rw [State.truncFree, State.doIndirectsStep]
      dsimp only
      split_ifs with ho hnr
      · exact ⟨Ends.next hf, hrest⟩
      · exact ⟨hnr, Ends.next hf, hrest⟩
      · exact hrest

/-- A step that visits a slot leaves it empty, and goes on at the next. -/
theorem truncFree_visits (s : State) (ino : Inode) {f : Frame} (io : Bool)
    (hv : f.visits = some (n, p, q)) (hpq : p < q) :
    (s.cell n p = 0 ∧ (s.truncFree ino io f).1.cell = s.cell ∨
      (s.truncFree ino io f).1.cell = put s.cell n p 0) ∧
      ∃ f' ∈ (s.truncFree ino io f).2, f'.visits = some (n, p + 1, q) := by
  cases f with
  | freeData n' p' q' b k =>
      obtain ⟨rfl, rfl, rfl⟩ : n' = n ∧ p' = p ∧ q' = q := by simpa [Frame.visits] using hv
      rw [State.truncFree, State.freeDataStep, if_pos hpq]
      dsimp only
      split_ifs with hnr
      · exact ⟨Or.inl ⟨hnr, rfl⟩, _, List.mem_singleton.mpr rfl, rfl⟩
      · exact ⟨Or.inr rfl, _, List.mem_singleton.mpr rfl, rfl⟩
      · exact ⟨Or.inr rfl, _, List.mem_singleton.mpr rfl, rfl⟩
      · exact ⟨Or.inr rfl, _, List.mem_cons_of_mem _ (List.mem_singleton.mpr rfl), rfl⟩
  | freeBranches n' p' q' d =>
      obtain ⟨rfl, rfl, rfl⟩ : n' = n ∧ p' = p ∧ q' = q := by simpa [Frame.visits] using hv
      rw [State.truncFree, State.freeBranchesStep, if_pos hpq]
      dsimp only
      split_ifs with hnr
      · exact ⟨Or.inl ⟨hnr, rfl⟩, _, List.mem_singleton.mpr rfl, rfl⟩
      · exact ⟨Or.inr rfl, _, List.mem_cons_of_mem _ (List.mem_singleton.mpr rfl), rfl⟩
  | readBranch nr d => cases hv
  | freeBlocks b k => cases hv
  | doIndirects o =>
      obtain ⟨rfl, rfl, rfl⟩ : none = n ∧ o = p ∧ nBlocks = q := by
        simpa [Frame.visits] using hv
      rw [State.truncFree, State.doIndirectsStep, if_pos hpq]
      dsimp only
      split_ifs with hnr
      · exact ⟨Or.inl ⟨hnr, rfl⟩, _, List.mem_singleton.mpr rfl, rfl⟩
      · exact ⟨Or.inr rfl, _, List.mem_cons_of_mem _ (List.mem_singleton.mpr rfl), rfl⟩

/-- What was pending is gone or still pending. -/
theorem truncFree_pending {ino : Inode} {f : Frame} (io : Bool) (hT : S.Tree s.cell)
    {π : List ℕ} (hπ : S.Path π) (h : Pending s.cell P (f :: rest) π) :
    get (s.truncFree ino io f).1.cell π = 0 ∨
      Pending s.cell P ((s.truncFree ino io f).2 ++ rest) π := by
  obtain ⟨g, hg, n, p, q, hv, ρ, o, hpre, hlen, ha, hn, hp, hq, ho⟩ := h
  rcases List.mem_cons.mp hg with rfl | hg
  · obtain ⟨hcell, f', hf', hv'⟩ := truncFree_visits s ino io hv (lt_of_le_of_lt hp hq)
    by_cases hop : o = p
    · subst hop
      have hslot : S.Path (ρ ++ [o]) := hπ.of_prefix ho (by simp)
      left
      rcases hcell with ⟨h0, hcell⟩ | hcell
      · obtain ⟨os, rfl⟩ := ho
        rw [hcell, get_append _ (by simp), get_concat _ ha, hn, h0, follow_zero]
      · rw [hcell, ← hn, get_clear hT hslot ha hπ, if_pos ho]
    · exact Or.inr ⟨f', List.mem_append_left _ hf', n, p + 1, q, hv', ρ, o, hpre, hlen, ha, hn,
        by omega, hq, ho⟩
  · exact Or.inr ⟨g, List.mem_append_right _ hg, n, p, q, hv, ρ, o, hpre, hlen, ha, hn, hp, hq, ho⟩

/-- What holds while a truncation frees: each block is owed once, every frame is in
order, and what is still there beyond the cut is pending. -/
structure FreeOk (S : Shape) (c : Cells ℕ) (P : List ℕ) (stack : List Frame) : Prop where
  nodup : (owed c S.width stack).Nodup
  frames : StackOk S c P stack
  swept : ∀ π, S.Path π → Beyond P π → get c π = 0 ∨ Pending c P stack π

theorem FreeOk.step {ino : Inode} {f : Frame} (io : Bool) (hw : S.width = addrPerBlock ino.bits)
    (hT : S.Tree s.cell) (hP : ∀ π, π <+: P → π ≠ [] → S.Path π)
    (h : FreeOk S s.cell P (f :: rest)) (hout : Apart S s.cell (f :: rest)) :
    FreeOk S (s.truncFree ino io f).1.cell P ((s.truncFree ino io f).2 ++ rest) ∧
      FreeStep S P s (s.truncFree ino io f).1 (f :: rest) ((s.truncFree ino io f).2 ++ rest) := by
  have hstep := truncFree_owed io hw hT h.frames.1 h.nodup hout
  have hkeeps := hstep.keeps hT hout hP
  refine ⟨⟨?_, (truncFree_frames io h.frames.1 h.frames.2).mono hkeeps, ?_⟩, hstep⟩
  · cases hstep with
    | within _ _ _ howed => exact howed.nodup_iff.mpr h.nodup
    | detached _ _ π o hslot ha _ _ howed =>
        refine howed.nodup_iff.mpr (List.nodup_append.mpr ⟨nodup_sub_get hT hslot, h.nodup, ?_⟩)
        rintro b hb b' hb' rfl
        exact hout b hb' (S.under_subset _ _ ((mem_sub_get hslot).mp hb))
    | freed X hcell _ _ howed =>
        rw [hcell]
        exact (List.nodup_append.mp (howed.nodup_iff.mp h.nodup)).2.1
    | dropped X hcell _ _ howed =>
        rw [hcell]
        exact (List.nodup_append.mp (howed.nodup_iff.mp h.nodup)).2.1
  · intro π hπ hb
    rcases h.swept π hπ hb with h0 | hpend
    · rcases hstep.get hT hout hπ with hget | hget
      · exact Or.inl (hget.trans h0)
      · exact Or.inl hget.1
    · exact (truncFree_pending io hT hπ hpend).imp id fun hp => hp.mono hkeeps

end Step

end LinuxHacks.Ext2
