import Mathlib.Data.List.GetD
import Mathlib.Data.List.Induction
import Mathlib.Data.List.Nodup
import Mathlib.Data.Set.Basic

/-!
# Trees of pointers

A tree kept in cells: the root (`none`) and every node (`some b`) have slots,
and a slot holds a node or the null pointer `0`. A node is named by its *path*,
the offsets of the slots that lead to it from the root (`get`). The shape of the
tree (how many slots the root has, how deep each of them goes, how many slots a
node has) says which paths exist.

The cells are a tree when no node is at two paths (`Shape.Tree`). Then writing
one slot changes what is at the paths through that slot and nothing else
(`get_put`), which gives the two operations their effect on the paths:

* `get_clear`, `Tree.clear`, `blocks_clear`: detaching what a slot holds;
* `get_graft`, `Tree.graft`, `blocks_graft`: attaching a prepared branch.

`sub` lists the nodes below a pointer (`mem_sub`, `nodup_sub`), for what has been
detached.
-/

namespace LinuxHacks.Lib.PointerTree

universe u

/-- The slots of the root and of every node. -/
abbrev Cells (β : Type u) := Option β → ℕ → β

section Slots

variable {β : Type u}

/-- What the slots from `p` to `q` of a node hold, with `f` for what is below. -/
def slots (c : Cells β) (f : β → List β) (n : Option β) (p q : ℕ) : List β :=
  (List.range' p (q - p)).flatMap fun o => f (c n o)

theorem slots_of_le (c : Cells β) (f : β → List β) (n : Option β) {p q : ℕ} (h : q ≤ p) :
    slots c f n p q = [] := by
  rw [slots, Nat.sub_eq_zero_of_le h]
  rfl

theorem slots_of_lt (c : Cells β) (f : β → List β) (n : Option β) {p q : ℕ} (h : p < q) :
    slots c f n p q = f (c n p) ++ slots c f n (p + 1) q := by
  rw [slots, slots, ← Nat.sub_add_cancel (Nat.sub_pos_of_lt h), List.range'_succ,
    List.flatMap_cons, Nat.sub_add_eq]

theorem mem_slots {f : β → List β} {n : Option β} {p q : ℕ} {b : β} :
    b ∈ slots c f n p q ↔ ∃ o, p ≤ o ∧ o < q ∧ b ∈ f (c n o) := by
  rw [slots, List.mem_flatMap]
  constructor
  · rintro ⟨o, ho, hb⟩
    rw [List.mem_range'_1] at ho
    exact ⟨o, ho.1, by omega, hb⟩
  · rintro ⟨o, hp, hq, hb⟩
    exact ⟨o, List.mem_range'_1.mpr ⟨hp, by omega⟩, hb⟩

theorem slots_congr {c' : Cells β} {f g : β → List β} {n : Option β} {p q : ℕ}
    (h : ∀ o, p ≤ o → o < q → f (c n o) = g (c' n o)) : slots c f n p q = slots c' g n p q := by
  rw [slots, slots]
  refine List.flatMap_congr fun o ho => ?_
  rw [List.mem_range'_1] at ho
  exact h o ho.1 (by omega)

variable [DecidableEq β]

/-- The cells after slot `o` of node `n` is set to `v`. -/
def put (c : Cells β) (n : Option β) (o : ℕ) (v : β) : Cells β :=
  fun m k => if m = n ∧ k = o then v else c m k

theorem put_self (c : Cells β) (n : Option β) (o : ℕ) (v : β) : put c n o v n o = v :=
  if_pos ⟨rfl, rfl⟩

theorem put_node_ne (c : Cells β) {m n : Option β} (h : m ≠ n) (o k : ℕ) (v : β) :
    put c n o v m k = c m k :=
  if_neg fun hm => h hm.1

theorem put_slot_ne (c : Cells β) {o k : ℕ} (h : k ≠ o) (m n : Option β) (v : β) :
    put c n o v m k = c m k :=
  if_neg fun hk => h hk.2

end Slots

variable {β : Type u} [Zero β] [DecidableEq β]

/-- What the offsets lead to from a pointer. The null pointer leads nowhere. -/
def follow (c : Cells β) : β → List ℕ → β
  | v, [] => v
  | v, o :: os => if v = 0 then 0 else follow c (c (some v) o) os

/-- What the offsets lead to from the root. -/
def get (c : Cells β) : List ℕ → β
  | [] => 0
  | o :: os => follow c (c none o) os

/-- The node a path leads to; the empty path leads to the root. -/
def node (c : Cells β) (π : List ℕ) : Option β := if π = [] then none else some (get c π)

/-- The path leads to a node that is there. -/
def Alive (c : Cells β) (π : List ℕ) : Prop := π = [] ∨ get c π ≠ 0

/-! ## Following a path -/

theorem follow_zero (c : Cells β) (os : List ℕ) : follow c 0 os = 0 := by
  cases os with
  | nil => rfl
  | cons o os => exact if_pos rfl

theorem follow_append (c : Cells β) (v : β) (os os' : List ℕ) :
    follow c v (os ++ os') = follow c (follow c v os) os' := by
  induction os generalizing v with
  | nil => rfl
  | cons o os ih =>
      rw [List.cons_append, follow, follow]
      by_cases hv : v = 0
      · rw [if_pos hv, if_pos hv, follow_zero]
      · rw [if_neg hv, if_neg hv, ih]

theorem get_append (c : Cells β) {π : List ℕ} (hπ : π ≠ []) (os : List ℕ) :
    get c (π ++ os) = follow c (get c π) os := by
  cases π with
  | nil => exact absurd rfl hπ
  | cons o π => exact follow_append c (c none o) π os

theorem get_concat (c : Cells β) {π : List ℕ} (h : Alive c π) (o : ℕ) :
    get c (π ++ [o]) = c (node c π) o := by
  by_cases hπ : π = []
  · rw [hπ]
    rfl
  · rw [get_append c hπ, follow, if_neg (h.resolve_left hπ), node, if_neg hπ, follow]

theorem get_of_not_alive (c : Cells β) {π : List ℕ} (h : ¬ Alive c π) (os : List ℕ) :
    get c (π ++ os) = 0 := by
  rw [Alive, not_or, not_not] at h
  rw [get_append c h.1, h.2, follow_zero]

theorem alive_of_isPrefix {c : Cells β} {π π' : List ℕ} (hpre : π <+: π') (h : get c π' ≠ 0) :
    Alive c π := by
  by_contra hna
  obtain ⟨os, rfl⟩ := hpre
  exact h (get_of_not_alive c hna os)

theorem get_ne_zero_of_prefix {c : Cells β} {π π' : List ℕ} (hpre : π <+: π') (hne : π ≠ [])
    (h : get c π' ≠ 0) : get c π ≠ 0 :=
  (alive_of_isPrefix hpre h).resolve_left hne

theorem alive_congr {c c' : Cells β} {π : List ℕ} (h : π = [] ∨ get c' π = get c π) :
    Alive c' π ↔ Alive c π := by
  rcases h with rfl | h
  · exact ⟨fun _ => Or.inl rfl, fun _ => Or.inl rfl⟩
  · rw [Alive, Alive, h]

theorem node_congr {c c' : Cells β} {π : List ℕ} (h : π = [] ∨ get c' π = get c π) :
    node c' π = node c π := by
  rcases h with rfl | h
  · rfl
  · rw [node, node, h]

theorem node_of_ne {c : Cells β} {π : List ℕ} (h : π ≠ []) : node c π = some (get c π) :=
  if_neg h

/-! ## Shapes -/

/-- How many slots the root has, how many levels of nodes are below the node in
each of them, and how many slots a node has. -/
structure Shape where
  slots : ℕ
  height : ℕ → ℕ
  width : ℕ

namespace Shape

variable (S : Shape)

/-- The paths of the shape. -/
def Path : List ℕ → Prop
  | [] => False
  | o :: os => o < S.slots ∧ os.length ≤ S.height o ∧ ∀ x ∈ os, x < S.width

/-- A path that no path prolongs. -/
def Leaf : List ℕ → Prop
  | [] => False
  | o :: os => o < S.slots ∧ os.length = S.height o ∧ ∀ x ∈ os, x < S.width

instance (π : List ℕ) : Decidable (S.Path π) := by
  cases π <;> rw [Path] <;> infer_instance

variable {S}

theorem Path.ne_nil {π : List ℕ} (h : S.Path π) : π ≠ [] := by
  rintro rfl
  exact h

theorem Leaf.path {π : List ℕ} (h : S.Leaf π) : S.Path π := by
  cases π with
  | nil => exact h
  | cons o os => exact ⟨h.1, le_of_eq h.2.1, h.2.2⟩

theorem Path.of_prefix {π π' : List ℕ} (h : S.Path π') (hpre : π <+: π') (hne : π ≠ []) :
    S.Path π := by
  cases π with
  | nil => exact absurd rfl hne
  | cons o os =>
      obtain ⟨os', rfl⟩ := hpre
      obtain ⟨ho, hlen, hw⟩ := h
      change (os ++ os').length ≤ S.height o at hlen
      rw [List.length_append] at hlen
      exact ⟨ho, le_trans (Nat.le_add_right _ _) hlen,
        fun x hx => hw x (List.mem_append_left os' hx)⟩

/-- The levels below the last slot of a path. -/
def below (S : Shape) : List ℕ → ℕ
  | [] => 0
  | o :: os => S.height o - os.length

/-- What can follow a path. -/
theorem path_append {π os : List ℕ} (h : S.Path π) :
    S.Path (π ++ os) ↔ os.length ≤ S.below π ∧ ∀ x ∈ os, x < S.width := by
  cases π with
  | nil => exact absurd h id
  | cons o π =>
      obtain ⟨ho, hlen, hw⟩ := h
      rw [List.cons_append, Path, List.length_append, below]
      constructor
      · rintro ⟨-, hlen', hw'⟩
        exact ⟨by omega, fun x hx => hw' x (List.mem_append_right π hx)⟩
      · rintro ⟨hlen', hw'⟩
        exact ⟨ho, by omega, fun x hx => (List.mem_append.mp hx).elim (hw x) (hw' x)⟩

/-- The cells form a tree: no node is at two paths. -/
def Tree (S : Shape) (c : Cells β) : Prop :=
  ∀ π π', S.Path π → S.Path π' → get c π ≠ 0 → get c π = get c π' → π = π'

/-- The nodes of the tree. -/
def blocks (S : Shape) (c : Cells β) : Set β := {b | b ≠ 0 ∧ ∃ π, S.Path π ∧ get c π = b}

theorem mem_blocks {c : Cells β} {π : List ℕ} (hπ : S.Path π) (h : get c π ≠ 0) :
    get c π ∈ S.blocks c := ⟨h, π, hπ, rfl⟩

/-- Two live nodes that are the same are at the same path. -/
theorem Tree.node_inj {c : Cells β} (hT : S.Tree c) {π π' : List ℕ}
    (hπ : π = [] ∨ S.Path π) (hπ' : π' = [] ∨ S.Path π') (ha : Alive c π)
    (h : node c π = node c π') : π = π' := by
  by_cases h0 : π = []
  · by_cases h0' : π' = []
    · rw [h0, h0']
    · rw [h0, node_of_ne h0'] at h
      cases h
  · by_cases h0' : π' = []
    · rw [h0', node_of_ne h0] at h
      cases h
    · rw [node_of_ne h0, node_of_ne h0', Option.some.injEq] at h
      exact hT π π' (hπ.resolve_left h0) (hπ'.resolve_left h0') (ha.resolve_left h0) h

end Shape

/-! ## Paths from left to right -/

/-- The path leaves `P` to the left. -/
def Before : List ℕ → List ℕ → Prop
  | p :: P, x :: π => x < p ∨ (x = p ∧ Before P π)
  | _, _ => False

/-- The path goes through the end of `P`, or leaves `P` to the right. -/
def Beyond : List ℕ → List ℕ → Prop
  | [], _ => True
  | _ :: _, [] => False
  | p :: P, x :: π => p < x ∨ (p = x ∧ Beyond P π)

theorem beyond_of_prefix {P π : List ℕ} (h : P <+: π) : Beyond P π := by
  induction P generalizing π with
  | nil => trivial
  | cons p P ih =>
      obtain ⟨os, rfl⟩ := h
      exact Or.inr ⟨rfl, ih (List.prefix_append P os)⟩

theorem Beyond.append {P π : List ℕ} (h : Beyond P π) (os : List ℕ) : Beyond P (π ++ os) := by
  induction P generalizing π with
  | nil => trivial
  | cons p P ih =>
      cases π with
      | nil => exact absurd h id
      | cons x π => exact h.imp id fun h => ⟨h.1, ih h.2⟩

theorem Beyond.not_before {P π : List ℕ} (h : Beyond P π) : ¬ Before P π := by
  induction P generalizing π with
  | nil => exact id
  | cons p P ih =>
      cases π with
      | nil => exact id
      | cons x π =>
          rintro (hlt | ⟨rfl, hb⟩)
          · rcases h with h | ⟨rfl, -⟩ <;> omega
          · rcases h with h | ⟨-, h⟩
            · omega
            · exact ih h hb

/-- No part of a path to the left of `P` is beyond `P`. -/
theorem Before.prefix_not_beyond {P π ρ : List ℕ} (h : Before P π) (hpre : ρ <+: π) :
    ¬ Beyond P ρ := by
  obtain ⟨os, rfl⟩ := hpre
  exact fun hb => (hb.append os).not_before h

/-- The way a path leaves `P` to the left: together up to some node, then at a
smaller offset. -/
theorem before_iff {P π : List ℕ} :
    Before P π ↔ ∃ ρ o o', ρ ++ [o] <+: P ∧ ρ ++ [o'] <+: π ∧ o' < o := by
  constructor
  · intro h
    induction P generalizing π with
    | nil => exact absurd h id
    | cons p P ih =>
        cases π with
        | nil => exact absurd h id
        | cons x π =>
            rcases h with h | ⟨rfl, h⟩
            · exact ⟨[], p, x, ⟨P, rfl⟩, ⟨π, rfl⟩, h⟩
            · obtain ⟨ρ, o, o', hP, hπ, hlt⟩ := ih h
              exact ⟨x :: ρ, o, o', List.cons_prefix_cons.mpr ⟨rfl, hP⟩,
                List.cons_prefix_cons.mpr ⟨rfl, hπ⟩, hlt⟩
  · rintro ⟨ρ, o, o', ⟨r, rfl⟩, ⟨r', rfl⟩, hlt⟩
    induction ρ with
    | nil => exact Or.inl hlt
    | cons x ρ ih => exact Or.inr ⟨rfl, ih⟩

/-- The same on the right, for a path that does not go through the end of `P`. -/
theorem beyond_iff {P π : List ℕ} :
    Beyond P π ↔ P <+: π ∨ ∃ ρ o o', ρ ++ [o] <+: P ∧ ρ ++ [o'] <+: π ∧ o < o' := by
  constructor
  · intro h
    induction P generalizing π with
    | nil => exact Or.inl List.nil_prefix
    | cons p P ih =>
        cases π with
        | nil => exact absurd h id
        | cons x π =>
            rcases h with h | ⟨rfl, h⟩
            · exact Or.inr ⟨[], p, x, ⟨P, rfl⟩, ⟨π, rfl⟩, h⟩
            · rcases ih h with h | ⟨ρ, o, o', hP, hπ, hlt⟩
              · exact Or.inl (List.cons_prefix_cons.mpr ⟨rfl, h⟩)
              · exact Or.inr ⟨p :: ρ, o, o', List.cons_prefix_cons.mpr ⟨rfl, hP⟩,
                  List.cons_prefix_cons.mpr ⟨rfl, hπ⟩, hlt⟩
  · rintro (h | ⟨ρ, o, o', ⟨r, rfl⟩, ⟨r', rfl⟩, hlt⟩)
    · exact beyond_of_prefix h
    · induction ρ with
      | nil => exact Or.inl hlt
      | cons x ρ ih => exact Or.inr ⟨rfl, ih⟩

/-- A path that goes on with `P` is not beyond it. -/
theorem Beyond.eq_of_prefix {P π : List ℕ} (h : Beyond P π) (hpre : π <+: P) : π = P := by
  rcases beyond_iff.mp h with hP | ⟨ρ, o, o', hP, hπ, hlt⟩
  · exact hpre.eq_of_length_le hP.length_le
  · have h1 : ρ ++ [o'] = ρ ++ [o] :=
      (List.prefix_of_prefix_length_le (hπ.trans hpre) hP (by simp)).eq_of_length (by simp)
    have h2 := (List.cons.inj (List.append_cancel_left h1)).1
    omega

/-! ## Writing one slot -/

section Put

variable {S : Shape} {c : Cells β} {π : List ℕ} {o : ℕ}

theorem path_dropLast (h : S.Path (π ++ [o])) : π = [] ∨ S.Path π := by
  by_cases hπ : π = []
  · exact Or.inl hπ
  · exact Or.inr (h.of_prefix ⟨[o], rfl⟩ hπ)

/-- **Writing a slot.** The paths through the slot lead where the new pointer
leads; the others lead where they did. -/
theorem get_put (hT : S.Tree c) (hslot : S.Path (π ++ [o])) (ha : Alive c π) (v : β)
    {ρ : List ℕ} (hρ : S.Path ρ) :
    get (put c (node c π) o v) ρ =
      if π ++ [o] <+: ρ then follow (put c (node c π) o v) v (ρ.drop (π.length + 1))
      else get c ρ := by
  induction ρ using List.reverseRecOn with
  | nil => exact absurd hρ id
  | append_singleton ρ x ih =>
      -- the node above: what the claim says of its path, or the root
      have habove : ¬ π ++ [o] <+: ρ → ρ = [] ∨
          get (put c (node c π) o v) ρ = get c ρ := by
        intro hn
        refine (path_dropLast hρ).imp id fun hp => ?_
        rw [ih hp, if_neg hn]
      by_cases hin : π ++ [o] <+: ρ
      · have hne : ρ ≠ [] := by
          rintro rfl
          exact absurd (List.prefix_nil.mp hin) (by simp)
        have hlen : π.length + 1 ≤ ρ.length := by simpa using hin.length_le
        rw [get_append _ hne, ih ((path_dropLast hρ).resolve_left hne), if_pos hin,
          if_pos (hin.trans (List.prefix_append ρ [x])), List.drop_append_of_le_length hlen,
          follow_append]
      · by_cases hal : Alive c ρ
        · rw [get_concat _ ((alive_congr (habove hin)).mpr hal), node_congr (habove hin)]
          by_cases heq : ρ = π ∧ x = o
          · obtain ⟨rfl, rfl⟩ := heq
            rw [put_self, if_pos List.prefix_rfl,
              List.drop_of_length_le (by rw [List.length_append, List.length_singleton])]
            rfl
          · have hpre : ¬ π ++ [o] <+: ρ ++ [x] := by
              rw [List.prefix_concat_iff]
              rintro (h | h)
              · obtain ⟨h1, h2⟩ := List.append_inj' h rfl
                exact heq ⟨h1.symm, (List.cons.inj h2).1.symm⟩
              · exact hin h
            rw [if_neg hpre, get_concat c hal]
            refine if_neg fun hcell => heq ⟨?_, hcell.2⟩
            exact hT.node_inj (path_dropLast hρ) (path_dropLast hslot) hal hcell.1
        · rw [get_of_not_alive _ (fun h => hal ((alive_congr (habove hin)).mp h)),
            get_of_not_alive _ hal]
          split
          · rename_i hpre
            rcases List.prefix_concat_iff.mp hpre with h | h
            · obtain ⟨h1, -⟩ := List.append_inj' h rfl
              exact absurd (h1 ▸ ha) hal
            · exact absurd h hin
          · rfl

theorem get_clear (hT : S.Tree c) (hslot : S.Path (π ++ [o])) (ha : Alive c π)
    {ρ : List ℕ} (hρ : S.Path ρ) :
    get (put c (node c π) o 0) ρ = if π ++ [o] <+: ρ then 0 else get c ρ := by
  rw [get_put hT hslot ha 0 hρ, follow_zero]

theorem Shape.Tree.clear (hT : S.Tree c) (hslot : S.Path (π ++ [o])) (ha : Alive c π) :
    S.Tree (put c (node c π) o 0) := by
  intro ρ ρ' hρ hρ' hne heq
  rw [get_clear hT hslot ha hρ] at hne heq
  rw [get_clear hT hslot ha hρ'] at heq
  by_cases hpre : π ++ [o] <+: ρ
  · rw [if_pos hpre] at hne
    exact absurd rfl hne
  · rw [if_neg hpre] at hne heq
    by_cases hpre' : π ++ [o] <+: ρ'
    · rw [if_pos hpre'] at heq
      exact absurd heq hne
    · rw [if_neg hpre'] at heq
      exact hT ρ ρ' hρ hρ' hne heq

/-- The nodes below a path. -/
def Shape.under (S : Shape) (c : Cells β) (π : List ℕ) : Set β :=
  {b | b ≠ 0 ∧ ∃ ρ, S.Path ρ ∧ π <+: ρ ∧ get c ρ = b}

theorem Shape.under_subset (S : Shape) (c : Cells β) (π : List ℕ) : S.under c π ⊆ S.blocks c :=
  fun _ ⟨hb, ρ, hρ, _, hget⟩ => ⟨hb, ρ, hρ, hget⟩

theorem blocks_clear (hT : S.Tree c) (hslot : S.Path (π ++ [o])) (ha : Alive c π) :
    S.blocks (put c (node c π) o 0) = S.blocks c \ S.under c (π ++ [o]) := by
  ext b
  constructor
  · rintro ⟨hb, ρ, hρ, hget⟩
    rw [get_clear hT hslot ha hρ] at hget
    by_cases hpre : π ++ [o] <+: ρ
    · rw [if_pos hpre] at hget
      exact absurd hget.symm hb
    · rw [if_neg hpre] at hget
      refine ⟨⟨hb, ρ, hρ, hget⟩, ?_⟩
      rintro ⟨-, ρ', hρ', hpre', hget'⟩
      have heq := hT ρ ρ' hρ hρ' (hget ▸ hb) (hget.trans hget'.symm)
      exact hpre (heq ▸ hpre')
  · rintro ⟨⟨hb, ρ, hρ, hget⟩, hout⟩
    refine ⟨hb, ρ, hρ, ?_⟩
    rw [get_clear hT hslot ha hρ, if_neg, hget]
    exact fun hpre => hout ⟨hb, ρ, hρ, hpre, hget⟩

/-- What is not a node of the tree can be rewritten. -/
theorem get_congr {c' : Cells β} (hroot : ∀ k, c' none k = c none k)
    (hnode : ∀ b ∈ S.blocks c, ∀ k, c' (some b) k = c (some b) k)
    {ρ : List ℕ} (hρ : S.Path ρ) : get c' ρ = get c ρ := by
  induction ρ using List.reverseRecOn with
  | nil => exact absurd hρ id
  | append_singleton ρ x ih =>
      have habove : ρ = [] ∨ get c' ρ = get c ρ := (path_dropLast hρ).imp id ih
      by_cases hal : Alive c ρ
      · rw [get_concat _ ((alive_congr habove).mpr hal), get_concat _ hal, node_congr habove]
        by_cases hne : ρ = []
        · rw [hne]
          exact hroot x
        · rw [node_of_ne hne]
          exact hnode _ (Shape.mem_blocks ((path_dropLast hρ).resolve_left hne)
            (hal.resolve_left hne)) x
      · rw [get_of_not_alive _ (fun h => hal ((alive_congr habove).mp h)),
          get_of_not_alive _ hal]

theorem Shape.Tree.congr {c' : Cells β} (hT : S.Tree c)
    (hget : ∀ ρ, S.Path ρ → get c' ρ = get c ρ) : S.Tree c' := by
  intro ρ ρ' hρ hρ' hne heq
  rw [hget ρ hρ] at hne heq
  rw [hget ρ' hρ'] at heq
  exact hT ρ ρ' hρ hρ' hne heq

theorem blocks_congr {c' : Cells β} (hget : ∀ ρ, S.Path ρ → get c' ρ = get c ρ) :
    S.blocks c' = S.blocks c := by
  ext b
  constructor
  · rintro ⟨hb, ρ, hρ, h⟩
    exact ⟨hb, ρ, hρ, (hget ρ hρ).symm.trans h⟩
  · rintro ⟨hb, ρ, hρ, h⟩
    exact ⟨hb, ρ, hρ, (hget ρ hρ).trans h⟩

end Put

/-! ## Attaching a branch -/

section Graft

variable {S : Shape} {c : Cells β}

/-- The nodes `bs` are linked by the offsets, and have no other pointers. What
the last one holds does not matter. -/
def Linked (c : Cells β) : List β → List ℕ → Prop
  | [_], [] => True
  | b :: b' :: bs, o :: os =>
      (∀ k, c (some b) k = if k = o then b' else 0) ∧ Linked c (b' :: bs) os
  | _, _ => False

omit [DecidableEq β] in
theorem Linked.length {bs : List β} {os : List ℕ} (h : Linked c bs os) :
    bs.length = os.length + 1 := by
  induction bs, os using Linked.induct with
  | case1 b => rfl
  | case2 b b' bs o os ih =>
      rw [List.length_cons, ih h.2, List.length_cons]
  | case3 bs os h1 h2 =>
      rw [Linked.eq_3 _ _ _ h1 h2] at h
      exact absurd h id

omit [DecidableEq β] in
theorem Linked.congr {c' : Cells β} {bs : List β} {os : List ℕ} (h : Linked c bs os)
    (hc : ∀ b ∈ bs, ∀ k, c' (some b) k = c (some b) k) : Linked c' bs os := by
  induction bs, os using Linked.induct with
  | case1 b => trivial
  | case2 b b' bs o os ih =>
      refine ⟨fun k => ?_, ih h.2 fun b hb => hc b (List.mem_cons_of_mem _ hb)⟩
      rw [hc b List.mem_cons_self k]
      exact h.1 k
  | case3 bs os h1 h2 =>
      rw [Linked.eq_3 _ _ _ h1 h2] at h
      exact absurd h id

omit [DecidableEq β] in
/-- One more node at the end of a branch. -/
theorem Linked.concat {c' : Cells β} {bs : List β} {os : List ℕ} {b : β} {o : ℕ}
    (h : Linked c bs os) (hc : ∀ x ∈ bs.dropLast, ∀ k, c' (some x) k = c (some x) k)
    (hlast : ∀ x, bs.getLast? = some x → ∀ k, c' (some x) k = if k = o then b else 0) :
    Linked c' (bs ++ [b]) (os ++ [o]) := by
  induction bs, os using Linked.induct with
  | case1 x => exact ⟨hlast x rfl, trivial⟩
  | case2 x x' bs y os ih =>
      refine ⟨fun k => ?_, ih h.2 ?_ ?_⟩
      · rw [hc x List.mem_cons_self k]
        exact h.1 k
      · exact fun z hz => hc z (List.mem_cons_of_mem _ hz)
      · intro z hz
        rw [List.getLast?_cons_cons] at hlast
        exact hlast z hz
  | case3 bs os h1 h2 =>
      rw [Linked.eq_3 _ _ _ h1 h2] at h
      exact absurd h id

/-- Offsets no longer than those of the branch lead along it or nowhere. -/
theorem Linked.follow {b : β} {bs : List β} {os : List ℕ} (h : Linked c (b :: bs) os)
    (hne : ∀ x ∈ b :: bs, x ≠ 0) {os' : List ℕ} (hlen : os'.length ≤ os.length) :
    follow c b os' = if os' <+: os then (b :: bs).getD os'.length 0 else 0 := by
  induction os' generalizing b bs os with
  | nil => rw [if_pos List.nil_prefix]; rfl
  | cons x xs ih =>
      cases os with
      | nil => exact absurd hlen (Nat.not_succ_le_zero _)
      | cons o os =>
          cases bs with
          | nil => exact absurd h id
          | cons b' bs =>
              rw [PointerTree.follow, if_neg (hne b List.mem_cons_self), h.1 x]
              by_cases hx : x = o
              · rw [if_pos hx, ih h.2 (fun y hy => hne y (List.mem_cons_of_mem _ hy))
                  (Nat.le_of_succ_le_succ hlen), hx]
                simp only [List.cons_prefix_cons, true_and, List.length_cons, List.getD_cons_succ]
              · rw [if_neg hx, follow_zero, if_neg]
                exact fun hpre => hx (List.cons_prefix_cons.mp hpre).1

variable {π : List ℕ} {o : ℕ} {os : List ℕ} {bs : List β}

/-- A branch fit to be attached at slot `o` of the node at `π`: it goes as deep
as paths go, the slot is empty, and its nodes are new. -/
structure Graft (S : Shape) (c : Cells β) (π : List ℕ) (o : ℕ) (os : List ℕ) (bs : List β) :
    Prop where
  leaf : S.Leaf (π ++ [o] ++ os)
  alive : Alive c π
  vacant : get c (π ++ [o]) = 0
  linked : Linked c bs os
  nodup : bs.Nodup
  ne_zero : ∀ b ∈ bs, b ≠ 0
  fresh : ∀ b ∈ bs, b ∉ S.blocks c

/-- The cells with the branch attached. -/
def graft (c : Cells β) (π : List ℕ) (o : ℕ) (bs : List β) : Cells β :=
  put c (node c π) o (bs.headD 0)

theorem Graft.slot (h : Graft S c π o os bs) : S.Path (π ++ [o]) :=
  h.leaf.path.of_prefix (List.prefix_append _ _) (by simp)

/-- **Attaching a branch.** The paths that end within the branch lead to its
nodes; the others lead where they did. -/
theorem get_graft (hT : S.Tree c) (h : Graft S c π o os bs) {ρ : List ℕ} (hρ : S.Path ρ) :
    get (graft c π o bs) ρ =
      if π ++ [o] <+: ρ ∧ ρ <+: π ++ [o] ++ os then bs.getD (ρ.length - (π.length + 1)) 0
      else get c ρ := by
  rw [graft, get_put hT h.slot h.alive _ hρ]
  by_cases hpre : π ++ [o] <+: ρ
  · rw [if_pos hpre]
    obtain ⟨os', rfl⟩ := hpre
    have hlen : os'.length ≤ os.length := by
      have h1 := ((Shape.path_append h.slot).mp hρ).1
      have h2 : S.below (π ++ [o]) = os.length := by
        have hleaf := h.leaf
        cases π with
        | nil => rw [List.nil_append, Shape.below]; exact (hleaf.2.1.symm.trans (by simp))
        | cons x xs =>
            have h3 : (xs ++ [o] ++ os).length = S.height x := hleaf.2.1
            rw [List.cons_append, Shape.below, ← h3, List.length_append]
            omega
      exact h2 ▸ h1
    have hdrop : (π ++ [o] ++ os').drop (π.length + 1) = os' := by
      rw [← List.length_singleton, ← List.length_append, List.drop_left]
    have hlink : Linked (put c (node c π) o (bs.headD 0)) bs os := by
      refine h.linked.congr fun b hb k => put_node_ne c ?_ _ _ _
      intro hcell
      by_cases h0 : π = []
      · rw [h0] at hcell
        cases hcell
      · rw [node_of_ne h0, Option.some.injEq] at hcell
        exact h.fresh b hb (hcell ▸ Shape.mem_blocks
          ((path_dropLast h.slot).resolve_left h0) (h.alive.resolve_left h0))
    cases bs with
    | nil => exact absurd h.linked.length (by simp)
    | cons b bs =>
        rw [hdrop, List.headD_cons] at *
        rw [hlink.follow h.ne_zero hlen]
        by_cases hos : os' <+: os
        · rw [if_pos hos, if_pos ⟨List.prefix_append _ _, (List.prefix_append_right_inj _).mpr hos⟩]
          simp only [List.length_append, List.length_singleton, Nat.add_sub_cancel_left]
        · rw [if_neg hos, if_neg fun hp => hos ((List.prefix_append_right_inj _).mp hp.2),
            get_append c (by simp), h.vacant, follow_zero]
  · rw [if_neg hpre, if_neg fun hp => hpre hp.1]

/-- The paths that end within the branch. -/
theorem Graft.inside (h : Graft S c π o os bs) {ρ : List ℕ}
    (hin : π ++ [o] <+: ρ ∧ ρ <+: π ++ [o] ++ os) :
    ρ.length - (π.length + 1) < bs.length := by
  have h1 := hin.1.length_le
  have h2 := hin.2.length_le
  have h3 := h.linked.length
  simp only [List.length_append, List.length_singleton] at h1 h2
  omega

/-- What was there before the branch is outside it. -/
theorem Graft.outside (h : Graft S c π o os bs) {ρ : List ℕ} (hne : get c ρ ≠ 0) :
    ¬ π ++ [o] <+: ρ := by
  rintro ⟨os', rfl⟩
  rw [get_append c (by simp), h.vacant, follow_zero] at hne
  exact hne rfl

theorem get_graft_of_ne (hT : S.Tree c) (h : Graft S c π o os bs) {ρ : List ℕ}
    (hρ : S.Path ρ) (hne : get c ρ ≠ 0) : get (graft c π o bs) ρ = get c ρ := by
  rw [get_graft hT h hρ, if_neg fun hin => h.outside hne hin.1]

theorem Shape.Tree.graft (hT : S.Tree c) (h : Graft S c π o os bs) :
    S.Tree (graft c π o bs) := by
  intro ρ ρ' hρ hρ' hne heq
  rw [get_graft hT h hρ] at hne heq
  rw [get_graft hT h hρ'] at heq
  by_cases hin : π ++ [o] <+: ρ ∧ ρ <+: π ++ [o] ++ os
  · have hlt := h.inside hin
    rw [if_pos hin, List.getD_eq_getElem _ _ hlt] at hne heq
    by_cases hin' : π ++ [o] <+: ρ' ∧ ρ' <+: π ++ [o] ++ os
    · -- both end within the branch, at nodes of the same depth
      have hlt' := h.inside hin'
      rw [if_pos hin', List.getD_eq_getElem _ _ hlt'] at heq
      have hidx := (h.nodup.getElem_inj_iff).mp heq
      have hlen : ρ.length = ρ'.length := by
        have h1 := hin.1.length_le
        have h2 := hin'.1.length_le
        simp only [List.length_append, List.length_singleton] at h1 h2
        omega
      exact (List.prefix_of_prefix_length_le hin.2 hin'.2 (le_of_eq hlen)).eq_of_length hlen
    · rw [if_neg hin'] at heq
      exact absurd (heq ▸ Shape.mem_blocks hρ' (heq ▸ hne)) (h.fresh _ (List.getElem_mem hlt))
  · rw [if_neg hin] at hne heq
    by_cases hin' : π ++ [o] <+: ρ' ∧ ρ' <+: π ++ [o] ++ os
    · have hlt' := h.inside hin'
      rw [if_pos hin', List.getD_eq_getElem _ _ hlt'] at heq
      exact absurd (heq ▸ Shape.mem_blocks hρ hne) (h.fresh _ (List.getElem_mem hlt'))
    · rw [if_neg hin'] at heq
      exact hT ρ ρ' hρ hρ' hne heq

theorem blocks_graft (hT : S.Tree c) (h : Graft S c π o os bs) :
    S.blocks (graft c π o bs) = S.blocks c ∪ {b | b ∈ bs} := by
  ext b
  constructor
  · rintro ⟨hb, ρ, hρ, hget⟩
    rw [get_graft hT h hρ] at hget
    by_cases hin : π ++ [o] <+: ρ ∧ ρ <+: π ++ [o] ++ os
    · rw [if_pos hin, List.getD_eq_getElem _ _ (h.inside hin)] at hget
      exact Or.inr (hget ▸ List.getElem_mem _)
    · rw [if_neg hin] at hget
      exact Or.inl ⟨hb, ρ, hρ, hget⟩
  · rintro (⟨hb, ρ, hρ, hget⟩ | hmem)
    · exact ⟨hb, ρ, hρ, (get_graft_of_ne hT h hρ (hget ▸ hb)).trans hget⟩
    · obtain ⟨j, hj, rfl⟩ := List.getElem_of_mem hmem
      have hlen := h.linked.length
      have hpre : π ++ [o] ++ os.take j <+: π ++ [o] ++ os :=
        (List.prefix_append_right_inj _).mpr (List.take_prefix j os)
      have hρ : S.Path (π ++ [o] ++ os.take j) := h.leaf.path.of_prefix hpre (by simp)
      refine ⟨h.ne_zero _ hmem, _, hρ, ?_⟩
      have hj' : (π ++ [o] ++ os.take j).length - (π.length + 1) = j := by
        simp only [List.length_append, List.length_singleton, List.length_take]
        omega
      rw [get_graft hT h hρ, if_pos ⟨List.prefix_append _ _, hpre⟩, hj',
        List.getD_eq_getElem _ _ hj]

end Graft

/-! ## The nodes below a pointer -/

section Sub

variable {S : Shape} {c : Cells β} {w : ℕ}

/-- The nodes reached from a pointer in at most `d` levels of `w` slots. -/
def sub (c : Cells β) (w : ℕ) : ℕ → β → List β
  | 0, v => if v = 0 then [] else [v]
  | d + 1, v => if v = 0 then [] else v :: slots c (sub c w d) (some v) 0 w

theorem sub_null (c : Cells β) (w d : ℕ) : sub c w d (0 : β) = [] := by
  cases d <;> exact if_pos rfl

theorem mem_sub {d : ℕ} {v b : β} :
    b ∈ sub c w d v ↔
      b ≠ 0 ∧ ∃ os : List ℕ, os.length ≤ d ∧ (∀ x ∈ os, x < w) ∧ follow c v os = b := by
  induction d generalizing v with
  | zero =>
      rw [sub]
      constructor
      · intro h
        by_cases hv : v = 0
        · rw [if_pos hv] at h
          exact absurd h List.not_mem_nil
        · rw [if_neg hv, List.mem_singleton] at h
          exact ⟨h ▸ hv, [], le_rfl, fun x hx => absurd hx List.not_mem_nil, h.symm⟩
      · rintro ⟨hb, os, hlen, -, hf⟩
        have hv : v = b := by rwa [List.eq_nil_of_length_eq_zero (Nat.le_zero.mp hlen)] at hf
        rw [hv, if_neg hb]
        exact List.mem_singleton.mpr rfl
  | succ d ih =>
      rw [sub]
      by_cases hv : v = 0
      · rw [if_pos hv, hv]
        refine ⟨fun h => absurd h List.not_mem_nil, ?_⟩
        rintro ⟨hb, os, -, -, hf⟩
        exact absurd (hf.symm.trans (follow_zero c os)) hb
      · rw [if_neg hv, List.mem_cons, mem_slots]
        constructor
        · rintro (rfl | ⟨o, -, ho, h⟩)
          · exact ⟨hv, [], Nat.zero_le _, fun x hx => absurd hx List.not_mem_nil, rfl⟩
          · obtain ⟨hb, os, hlen, hos, hf⟩ := ih.mp h
            refine ⟨hb, o :: os, Nat.succ_le_succ hlen, ?_, ?_⟩
            · intro x hx
              rcases List.mem_cons.mp hx with rfl | hx
              · exact ho
              · exact hos x hx
            · rw [follow, if_neg hv, hf]
        · rintro ⟨hb, os, hlen, hos, hf⟩
          cases os with
          | nil => exact Or.inl hf.symm
          | cons o os =>
              rw [follow, if_neg hv] at hf
              exact Or.inr ⟨o, Nat.zero_le _, hos o List.mem_cons_self, ih.mpr
                ⟨hb, os, Nat.le_of_succ_le_succ hlen,
                  fun x hx => hos x (List.mem_cons_of_mem _ hx), hf⟩⟩

/-- What is below a pointer has each node once, when the offsets tell the nodes
apart. -/
theorem nodup_sub {d : ℕ} {v : β}
    (h : ∀ os os' : List ℕ, os.length ≤ d → os'.length ≤ d → (∀ x ∈ os, x < w) →
      (∀ x ∈ os', x < w) → follow c v os ≠ 0 → follow c v os = follow c v os' → os = os') :
    (sub c w d v).Nodup := by
  induction d generalizing v with
  | zero =>
      rw [sub]
      split
      · exact List.nodup_nil
      · exact List.nodup_singleton v
  | succ d ih =>
      rw [sub]
      by_cases hv : v = 0
      · rw [if_pos hv]
        exact List.nodup_nil
      have hstep : ∀ o os, follow c v (o :: os) = follow c (c (some v) o) os := by
        intro o os
        rw [follow, if_neg hv]
      have hlt : ∀ {o : ℕ} {os : List ℕ}, o < w → (∀ x ∈ os, x < w) → ∀ x ∈ o :: os, x < w := by
        intro o os ho hos x hx
        rcases List.mem_cons.mp hx with rfl | hx
        · exact ho
        · exact hos x hx
      rw [if_neg hv, List.nodup_cons]
      refine ⟨?_, ?_⟩
      · rw [mem_slots]
        rintro ⟨o, -, ho, hmem⟩
        obtain ⟨-, os, hlen, hos, hf⟩ := mem_sub.mp hmem
        have := h [] (o :: os) (Nat.zero_le _) (Nat.succ_le_succ hlen) (by simp) (hlt ho hos) hv
          ((hstep o os).trans hf).symm
        exact absurd this (List.cons_ne_nil _ _).symm
      · rw [slots, List.nodup_flatMap]
        refine ⟨?_, ?_⟩
        · intro o ho
          have ho : o < w := by
            rw [List.mem_range'_1] at ho
            omega
          refine ih fun os os' hlen hlen' hos hos' hne heq => ?_
          have := h (o :: os) (o :: os') (Nat.succ_le_succ hlen) (Nat.succ_le_succ hlen')
            (hlt ho hos) (hlt ho hos') (by rwa [hstep]) (by rwa [hstep, hstep])
          exact (List.cons.inj this).2
        · refine List.Pairwise.imp_of_mem ?_ (List.nodup_range' (s := 0) (n := w - 0))
          intro o o' ho ho' hne b hb hb'
          obtain ⟨hb0, os, hlen, hos, hf⟩ := mem_sub.mp hb
          obtain ⟨-, os', hlen', hos', hf'⟩ := mem_sub.mp hb'
          rw [List.mem_range'_1] at ho ho'
          have := h (o :: os) (o' :: os') (Nat.succ_le_succ hlen) (Nat.succ_le_succ hlen')
            (hlt (by omega) hos) (hlt (by omega) hos') (by rw [hstep, hf]; exact hb0)
            (by rw [hstep, hstep, hf, hf'])
          exact hne (List.cons.inj this).1

/-- What is not below a pointer can be rewritten. -/
theorem sub_congr {c' : Cells β} {d : ℕ} {v : β}
    (h : ∀ b ∈ sub c w d v, ∀ k, c' (some b) k = c (some b) k) :
    sub c' w d v = sub c w d v := by
  induction d generalizing v with
  | zero => rfl
  | succ d ih =>
      rw [sub] at h
      rw [sub, sub]
      by_cases hv : v = 0
      · rw [if_pos hv, if_pos hv]
      · rw [if_neg hv] at h
        rw [if_neg hv, if_neg hv]
        congr 1
        refine slots_congr fun o hp hq => ?_
        rw [h v List.mem_cons_self o]
        refine ih fun b hb k => h b (List.mem_cons_of_mem _ ?_) k
        exact mem_slots.mpr ⟨o, hp, hq, hb⟩

/-- The nodes below a path of a tree, each listed once. -/
theorem mem_sub_get {π : List ℕ} (hπ : S.Path π) {b : β} :
    b ∈ sub c S.width (S.below π) (get c π) ↔ b ∈ S.under c π := by
  rw [mem_sub, Shape.under]
  constructor
  · rintro ⟨hb, os, hlen, hos, hf⟩
    refine ⟨hb, π ++ os, (Shape.path_append hπ).mpr ⟨hlen, hos⟩, List.prefix_append _ _, ?_⟩
    rw [get_append c hπ.ne_nil, hf]
  · rintro ⟨hb, ρ, hρ, ⟨os, rfl⟩, hget⟩
    obtain ⟨hlen, hos⟩ := (Shape.path_append hπ).mp hρ
    exact ⟨hb, os, hlen, hos, by rw [← get_append c hπ.ne_nil, hget]⟩

theorem nodup_sub_get (hT : S.Tree c) {π : List ℕ} (hπ : S.Path π) :
    (sub c S.width (S.below π) (get c π)).Nodup := by
  refine nodup_sub fun os os' hlen hlen' hos hos' hne heq => ?_
  rw [← get_append c hπ.ne_nil] at hne heq
  rw [← get_append c hπ.ne_nil] at heq
  exact List.append_cancel_left (hT _ _ ((Shape.path_append hπ).mpr ⟨hlen, hos⟩)
    ((Shape.path_append hπ).mpr ⟨hlen', hos'⟩) hne heq)

/-- Writing the slot a path ends with does not change what is below the path. -/
theorem sub_put_slot (hT : S.Tree c) {π : List ℕ} {o : ℕ} (hslot : S.Path (π ++ [o])) (v : β) :
    sub (put c (node c π) o v) S.width (S.below (π ++ [o])) (get c (π ++ [o])) =
      sub c S.width (S.below (π ++ [o])) (get c (π ++ [o])) := by
  refine sub_congr fun b hb k => put_node_ne c ?_ _ _ _
  obtain ⟨hb0, ρ, hρ, hpre, hget⟩ := (mem_sub_get hslot).mp hb
  intro h
  by_cases h0 : π = []
  · rw [h0] at h
    cases h
  · rw [node_of_ne h0, Option.some.injEq] at h
    have heq : ρ = π := by
      refine hT ρ π hρ ((path_dropLast hslot).resolve_left h0) (hget ▸ hb0) ?_
      rw [hget, h]
    have hlen := hpre.length_le
    rw [heq, List.length_append, List.length_singleton] at hlen
    omega

end Sub

end LinuxHacks.Lib.PointerTree
