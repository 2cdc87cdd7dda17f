import Mathlib.Data.Set.Card
import Mathlib.Algebra.BigOperators.Finprod
import Mathlib.Tactic

/-!
# Counting items by their place

Items of a type `α` are placed (`f a = some b`) or not (`f a = none`), and only
finitely many are. `count f P` is the number of items at places that satisfy
`P`. The rules: placing and removing one item (`count_put`, `count_remove`),
disjoint places add up (`count_or`), and a family of places adds up to their sum
(`count_eq_finsum`).
-/

namespace LinuxHacks.Lib.Placement

universe u v w x

variable {α : Type u} {β : Type v}

/-- The items at places that satisfy `P`. -/
def items (f : α → Option β) (P : β → Prop) : Set α := {a | ∃ b, f a = some b ∧ P b}

/-- Finitely many items are placed. -/
def Finitary (f : α → Option β) : Prop := {a | f a ≠ none}.Finite

noncomputable def count (f : α → Option β) (P : β → Prop) : ℕ := (items f P).ncard

theorem mem_items {f : α → Option β} {P : β → Prop} {a : α} :
    a ∈ items f P ↔ ∃ b, f a = some b ∧ P b := Iff.rfl

theorem Finitary.items {f : α → Option β} (hf : Finitary f) (P : β → Prop) :
    (items f P).Finite := by
  refine Set.Finite.subset hf ?_
  rintro a ⟨b, hb, _⟩
  show f a ≠ none
  rw [hb]
  simp

theorem count_pos_iff {f : α → Option β} (hf : Finitary f) {P : β → Prop} :
    0 < count f P ↔ ∃ a b, f a = some b ∧ P b := by
  rw [count, Set.ncard_pos (hf.items P)]
  rfl

section Update

variable [DecidableEq α]

theorem Finitary.update {f : α → Option β} (hf : Finitary f) (a : α) (o : Option β) :
    Finitary (Function.update f a o) := by
  refine Set.Finite.subset (Set.Finite.insert a hf) ?_
  intro x hx
  by_cases hxa : x = a
  · exact Or.inl hxa
  · refine Or.inr ?_
    have hx' : Function.update f a o x ≠ none := hx
    rwa [Function.update_of_ne hxa] at hx'

/-- Placing an item. -/
theorem count_put {f : α → Option β} (hf : Finitary f) {a : α} {b : β} (ha : f a = none)
    (P : β → Prop) [Decidable (P b)] :
    count (Function.update f a (some b)) P = count f P + if P b then 1 else 0 := by
  have hnot : a ∉ items f P := by
    rintro ⟨c, hc, _⟩
    rw [ha] at hc
    cases hc
  have hother : ∀ x, x ≠ a → (x ∈ items (Function.update f a (some b)) P ↔ x ∈ items f P) := by
    intro x hx
    rw [mem_items, mem_items, Function.update_of_ne hx]
  by_cases hP : P b
  · rw [if_pos hP]
    have hset : items (Function.update f a (some b)) P = insert a (items f P) := by
      ext x
      by_cases hx : x = a
      · rw [hx]
        exact ⟨fun _ => Or.inl rfl, fun _ => ⟨b, Function.update_self .., hP⟩⟩
      · rw [hother x hx]
        exact ⟨Or.inr, fun h => h.resolve_left hx⟩
    rw [count, hset, Set.ncard_insert_of_notMem hnot (hf.items P), count]
  · rw [if_neg hP, Nat.add_zero, count, count]
    congr 1
    ext x
    by_cases hx : x = a
    · rw [hx]
      refine ⟨?_, fun h => absurd h hnot⟩
      rintro ⟨c, hc, hPc⟩
      rw [Function.update_self] at hc
      cases hc
      exact absurd hPc hP
    · exact hother x hx

/-- Removing an item. -/
theorem count_remove {f : α → Option β} (hf : Finitary f) {a : α} {b : β} (ha : f a = some b)
    (P : β → Prop) [Decidable (P b)] :
    count f P = count (Function.update f a none) P + if P b then 1 else 0 := by
  have hput := count_put (hf.update a none) (Function.update_self a none f) (b := b) P
  rw [Function.update_idem, ← ha, Function.update_eq_self] at hput
  exact hput

end Update

/-- Disjoint places. -/
theorem count_or {f : α → Option β} (hf : Finitary f) {P Q : β → Prop}
    (hdisj : ∀ b, P b → ¬ Q b) : count f (fun b => P b ∨ Q b) = count f P + count f Q := by
  have hunion : items f (fun b => P b ∨ Q b) = items f P ∪ items f Q := by
    ext a
    constructor
    · rintro ⟨b, hb, hP | hQ⟩
      · exact Or.inl ⟨b, hb, hP⟩
      · exact Or.inr ⟨b, hb, hQ⟩
    · rintro (⟨b, hb, hP⟩ | ⟨b, hb, hQ⟩)
      · exact ⟨b, hb, Or.inl hP⟩
      · exact ⟨b, hb, Or.inr hQ⟩
  have hd : Disjoint (items f P) (items f Q) := by
    rw [Set.disjoint_left]
    rintro a ⟨b, hb, hP⟩ ⟨c, hc, hQ⟩
    rw [hb] at hc
    cases hc
    exact hdisj b hP hQ
  rw [count, hunion, Set.ncard_union_eq hd (hf.items P) (hf.items Q), count, count]

theorem count_congr {f : α → Option β} {P Q : β → Prop} (h : ∀ b, P b ↔ Q b) :
    count f P = count f Q := by
  have hPQ : P = Q := funext fun b => propext (h b)
  rw [hPQ]

/-- A family of different kinds of places; `kind` says of which kind one is. -/
theorem count_eq_finsum {ι : Type w} {γ : Type x} {f : α → Option β} (hf : Finitary f)
    (kind : β → γ) {g : ι → γ} (hg : Function.Injective g) :
    (count f (fun b => ∃ i, kind b = g i) : ℤ) =
      ∑ᶠ i, (count f (fun b => kind b = g i) : ℤ) := by
  classical
  have hfin := hf.items (fun b => ∃ i, kind b = g i)
  -- the index of each item
  have hchoose : ∀ a : items f (fun b => ∃ i, kind b = g i),
      ∃ i, ∃ b, f a = some b ∧ kind b = g i := by
    rintro ⟨a, b, hb, i, hi⟩
    exact ⟨i, b, hb, hi⟩
  choose index hindex using hchoose
  let F : Finset (items f (fun b => ∃ i, kind b = g i)) := hfin.fintype.elems
  have hF : ∀ a, a ∈ F := hfin.fintype.complete
  have hcard : count f (fun b => ∃ i, kind b = g i) = F.card := by
    rw [count, ← Nat.card_coe_set_eq]
    let _ := hfin.fintype
    rw [Nat.card_eq_fintype_card]
    rfl
  have hfiber : ∀ i, count f (fun b => kind b = g i) =
      (F.filter (fun a => index a = i)).card := by
    intro i
    rw [← Finset.card_map ⟨Subtype.val, Subtype.val_injective⟩, count, ← Set.ncard_coe_finset]
    congr 1
    ext a
    simp only [Finset.coe_map, Function.Embedding.coeFn_mk, Set.mem_image, Finset.mem_coe,
      Finset.mem_filter]
    constructor
    · rintro ⟨b, hb, hi⟩
      refine ⟨⟨a, b, hb, i, hi⟩, ⟨hF _, ?_⟩, rfl⟩
      obtain ⟨c, hc, hci⟩ := hindex ⟨a, b, hb, i, hi⟩
      have hbc : b = c := Option.some.inj (hb.symm.trans hc)
      exact (hg (hi.symm.trans ((congrArg kind hbc).trans hci))).symm
    · rintro ⟨x, ⟨_, hx⟩, rfl⟩
      obtain ⟨c, hc, hci⟩ := hindex x
      exact ⟨c, hc, hx ▸ hci⟩
  rw [hcard, Finset.card_eq_sum_card_image index F]
  rw [finsum_eq_sum_of_support_subset (s := F.image index)]
  · push_cast
    exact Finset.sum_congr rfl fun i _ => by rw [hfiber i]
  · intro i hi
    rw [Function.mem_support, Nat.cast_ne_zero, hfiber i, Finset.card_ne_zero] at hi
    obtain ⟨a, ha⟩ := hi
    exact Finset.mem_coe.mpr
      (Finset.mem_image.mpr ⟨a, (Finset.mem_filter.mp ha).1, (Finset.mem_filter.mp ha).2⟩)

end LinuxHacks.Lib.Placement
