import Mathlib.Data.Set.Card
import Mathlib.Tactic

/-!
# Buddy systems

The units `0, 1, 2, ...` of a store are handed out in blocks of `2 ^ order`
consecutive units that start at a multiple of their size. Two blocks share a
unit only when one lies inside the other. A block and its buddy make up their
parent.

A set of blocks *tiles* the set of free units when the blocks are disjoint and
cover it, and is *coalesced* when no block stands beside its free buddy. There is
only one coalesced tiling of a set of units, its maximal blocks
(`Tiles.eq_maximal`): however blocks were split and merged before, what is free
decides which blocks are free.
-/

namespace LinuxHacks.Lib.Buddy

/-- The block of `2 ^ order` units with the given number among those of its order. -/
@[ext] structure Block where
  order : ℕ
  index : ℕ
deriving DecidableEq, Repr

namespace Block

def start (b : Block) : ℕ := b.index * 2 ^ b.order

def units (b : Block) : Set ℕ := {p | p / 2 ^ b.order = b.index}

/-- The block of an order that a unit lies in. -/
def around (order p : ℕ) : Block := ⟨order, p / 2 ^ order⟩

def buddy (b : Block) : Block := ⟨b.order, b.index + 1 - 2 * (b.index % 2)⟩

def parent (b : Block) : Block := ⟨b.order + 1, b.index / 2⟩

/-- The two halves of a block of order `order + 1`. -/
def low (order : ℕ) (b : Block) : Block := ⟨order, 2 * b.index⟩

def high (order : ℕ) (b : Block) : Block := ⟨order, 2 * b.index + 1⟩

variable {a b : Block} {p q : ℕ}

theorem mem_units : p ∈ b.units ↔ p / 2 ^ b.order = b.index := Iff.rfl

theorem mem_units_iff : p ∈ b.units ↔ b.start ≤ p ∧ p < b.start + 2 ^ b.order := by
  have hpos : 0 < 2 ^ b.order := Nat.two_pow_pos _
  rw [mem_units, Nat.div_eq_iff hpos, start]
  omega

theorem start_mem (b : Block) : b.start ∈ b.units := by
  rw [mem_units, start, Nat.mul_div_cancel _ (Nat.two_pow_pos _)]

theorem start_dvd (b : Block) : 2 ^ b.order ∣ b.start := Dvd.intro_left _ rfl

theorem mem_around (order p : ℕ) : p ∈ (around order p).units := rfl

theorem around_eq (h : p ∈ b.units) : around b.order p = b := by
  ext
  · rfl
  · exact h

/-- Blocks of one order that share a unit are one block. -/
theorem eq_of_mem (ho : a.order = b.order) (ha : p ∈ a.units) (hb : p ∈ b.units) : a = b := by
  rw [← around_eq ha, ← around_eq hb, ho]

theorem around_start (h : 2 ^ q ∣ p) : (around q p).start = p := Nat.div_mul_cancel h

theorem eq_of_start (ho : a.order = b.order) (hs : a.start = b.start) : a = b :=
  eq_of_mem ho a.start_mem (hs ▸ b.start_mem)

/-- Of two blocks that share a unit, the one of smaller order lies in the other. -/
theorem units_subset (ho : a.order ≤ b.order) (ha : p ∈ a.units) (hb : p ∈ b.units) :
    a.units ⊆ b.units := by
  intro q hq
  obtain ⟨k, hk⟩ := Nat.exists_eq_add_of_le ho
  rw [mem_units] at ha hb hq ⊢
  rw [hk, pow_add, ← Nat.div_div_eq_div_mul] at hb ⊢
  rw [hq, ← ha, hb]

theorem finite_units (b : Block) : b.units.Finite :=
  (Set.finite_Iio (b.start + 2 ^ b.order)).subset fun _ h => (mem_units_iff.mp h).2

theorem ncard_units (b : Block) : b.units.ncard = 2 ^ b.order := by
  have h : b.units = ↑(Finset.Ico b.start (b.start + 2 ^ b.order)) := by
    ext p
    rw [mem_units_iff, Finset.coe_Ico, Set.mem_Ico]
  rw [h, Set.ncard_coe_finset, Nat.card_Ico, Nat.add_sub_cancel_left]

/-! ## Buddies -/

@[simp] theorem parent_order (b : Block) : b.parent.order = b.order + 1 := rfl

theorem buddy_buddy (b : Block) : b.buddy.buddy = b := by
  ext
  · rfl
  · show b.index + 1 - 2 * (b.index % 2) + 1 -
      2 * ((b.index + 1 - 2 * (b.index % 2)) % 2) = b.index
    omega

theorem buddy_ne (b : Block) : b.buddy ≠ b := by
  intro h
  have hi : b.index + 1 - 2 * (b.index % 2) = b.index := congrArg index h
  omega

theorem mem_parent : p ∈ b.parent.units ↔ p ∈ b.units ∨ p ∈ b.buddy.units := by
  rw [mem_units, mem_units, mem_units, parent, buddy]
  show p / 2 ^ (b.order + 1) = b.index / 2 ↔
    p / 2 ^ b.order = b.index ∨ p / 2 ^ b.order = b.index + 1 - 2 * (b.index % 2)
  rw [pow_succ, ← Nat.div_div_eq_div_mul]
  omega

theorem units_subset_parent (b : Block) : b.units ⊆ b.parent.units :=
  fun _ h => mem_parent.mpr (Or.inl h)

theorem notMem_buddy (h : p ∈ b.units) : p ∉ b.buddy.units :=
  fun h' => b.buddy_ne (eq_of_mem rfl h' h)

/-! ## Halves -/

variable {k : ℕ}

theorem mem_halves (h : b.order = k + 1) :
    p ∈ b.units ↔ p ∈ (low k b).units ∨ p ∈ (high k b).units := by
  rw [mem_units, mem_units, mem_units, h, low, high]
  show p / 2 ^ (k + 1) = b.index ↔ p / 2 ^ k = 2 * b.index ∨ p / 2 ^ k = 2 * b.index + 1
  rw [pow_succ, ← Nat.div_div_eq_div_mul]
  omega

theorem high_buddy (k : ℕ) (b : Block) : (high k b).buddy = low k b := by
  ext
  · rfl
  · show 2 * b.index + 1 + 1 - 2 * ((2 * b.index + 1) % 2) = 2 * b.index
    omega

theorem notMem_high (h : p ∈ (low k b).units) : p ∉ (high k b).units := by
  intro h'
  have hlow := high_buddy k b ▸ notMem_buddy h'
  exact hlow h

theorem low_start (h : b.order = k + 1) : (low k b).start = b.start := by
  show 2 * b.index * 2 ^ k = b.index * 2 ^ b.order
  rw [h, pow_succ]
  ring

theorem high_start (h : b.order = k + 1) : (high k b).start = b.start + 2 ^ k := by
  show (2 * b.index + 1) * 2 ^ k = b.index * 2 ^ b.order + 2 ^ k
  rw [h, pow_succ]
  ring

/-! ## Addresses of buddies, by bits -/

theorem xor_one (n : ℕ) : n ^^^ 1 = n + 1 - 2 * (n % 2) := by
  have hdiv : (n ^^^ 1) / 2 = n / 2 := by
    rw [Nat.xor_div_two]
    exact Nat.xor_zero _
  have hmod : (n ^^^ 1) % 2 = 1 ↔ ¬ (n % 2 = 1 ↔ 1 % 2 = 1) := Nat.xor_mod_two_eq_one
  omega

theorem and_xor_one (n : ℕ) : n &&& (n ^^^ 1) = 2 * (n / 2) := by
  have hdiv : (n &&& (n ^^^ 1)) / 2 = n / 2 := by
    rw [Nat.and_div_two, Nat.xor_div_two]
    simp
  have hmod : (n &&& (n ^^^ 1)) % 2 = 0 := by
    rw [← pow_one 2, Nat.and_mod_two_pow, pow_one, xor_one]
    rcases Nat.mod_two_eq_zero_or_one n with h | h
    · rw [h, Nat.zero_and]
    · have h' : (n + 1 - 2 * (n % 2)) % 2 = 0 := by omega
      rw [h', Nat.and_zero]
  omega

theorem start_eq_shiftLeft (b : Block) : b.start = b.index <<< b.order :=
  (Nat.shiftLeft_eq _ _).symm

/-- The buddy's first unit differs in one bit. -/
theorem start_xor (b : Block) : b.start ^^^ (1 <<< b.order) = b.buddy.start := by
  rw [start_eq_shiftLeft, start_eq_shiftLeft, ← Nat.shiftLeft_xor_distrib, xor_one]
  rfl

theorem start_and (b : Block) : b.start &&& b.buddy.start = b.parent.start := by
  rw [← start_xor, start_eq_shiftLeft, ← Nat.shiftLeft_xor_distrib, ← Nat.shiftLeft_and_distrib,
    and_xor_one, Nat.shiftLeft_eq, start, parent]
  show 2 * (b.index / 2) * 2 ^ b.order = b.index / 2 * 2 ^ (b.order + 1)
  rw [pow_succ]
  ring

theorem and_eq_zero_iff (p order : ℕ) : p &&& ((1 <<< order) - 1) = 0 ↔ 2 ^ order ∣ p := by
  rw [Nat.one_shiftLeft, Nat.and_two_pow_sub_one_eq_mod, Nat.dvd_iff_mod_eq_zero]

end Block

open Block

/-! ## Tilings -/

/-- Disjoint blocks up to order `top` that make up the units `F`. -/
structure Tiles (top : ℕ) (B : Set Block) (F : Set ℕ) : Prop where
  order_le : ∀ b ∈ B, b.order ≤ top
  disjoint : ∀ a ∈ B, ∀ b ∈ B, ∀ p, p ∈ a.units → p ∈ b.units → a = b
  cover : ∀ p, p ∈ F ↔ ∃ b ∈ B, p ∈ b.units

/-- No block below the largest order stands beside its buddy. -/
def Coalesced (top : ℕ) (B : Set Block) : Prop := ∀ b ∈ B, b.order < top → b.buddy ∉ B

/-- The blocks of free units that cannot be enlarged. -/
def maximal (top : ℕ) (F : Set ℕ) : Set Block :=
  {b | b.order ≤ top ∧ b.units ⊆ F ∧ (b.order < top → ¬ b.parent.units ⊆ F)}

variable {top : ℕ} {B : Set Block} {F : Set ℕ} {b : Block}

theorem tiles_empty (top : ℕ) : Tiles top ∅ ∅ where
  order_le := fun _ h => h.elim
  disjoint := fun _ h => h.elim
  cover := fun _ => ⟨fun h => h.elim, fun ⟨_, h, _⟩ => h.elim⟩

theorem coalesced_empty (top : ℕ) : Coalesced top ∅ := fun _ h => h.elim

namespace Tiles

theorem units_subset (h : Tiles top B F) (hb : b ∈ B) : b.units ⊆ F :=
  fun p hp => (h.cover p).mpr ⟨b, hb, hp⟩

/-- Taking a block away. -/
theorem erase (h : Tiles top B F) (hb : b ∈ B) : Tiles top (B \ {b}) (F \ b.units) where
  order_le := fun a ha => h.order_le a ha.1
  disjoint := fun a ha c hc => h.disjoint a ha.1 c hc.1
  cover := by
    intro p
    constructor
    · rintro ⟨hp, hnb⟩
      obtain ⟨c, hc, hpc⟩ := (h.cover p).mp hp
      refine ⟨c, ⟨hc, ?_⟩, hpc⟩
      intro hcb
      rw [Set.mem_singleton_iff] at hcb
      exact hnb (hcb ▸ hpc)
    · rintro ⟨c, ⟨hc, hcb⟩, hpc⟩
      refine ⟨(h.cover p).mpr ⟨c, hc, hpc⟩, ?_⟩
      intro hpb
      exact hcb (h.disjoint c hc b hb p hpc hpb)

/-- Adding a block none of whose units is covered. -/
theorem insert (h : Tiles top B F) (ho : b.order ≤ top) (hb : ∀ p ∈ b.units, p ∉ F) :
    Tiles top (insert b B) (F ∪ b.units) where
  order_le := by
    rintro a (rfl | ha)
    · exact ho
    · exact h.order_le a ha
  disjoint := by
    rintro a (rfl | ha) c (rfl | hc) p hpa hpc
    · rfl
    · exact absurd ((h.cover p).mpr ⟨c, hc, hpc⟩) (hb p hpa)
    · exact absurd ((h.cover p).mpr ⟨a, ha, hpa⟩) (hb p hpc)
    · exact h.disjoint a ha c hc p hpa hpc
  cover := by
    intro p
    constructor
    · rintro (hp | hp)
      · obtain ⟨c, hc, hpc⟩ := (h.cover p).mp hp
        exact ⟨c, Or.inr hc, hpc⟩
      · exact ⟨b, Or.inl rfl, hp⟩
    · rintro ⟨c, rfl | hc, hpc⟩
      · exact Or.inr hpc
      · exact Or.inl ((h.cover p).mpr ⟨c, hc, hpc⟩)

/-- In a coalesced tiling, free units that form a block lie in one free block. -/
theorem exists_block (h : Tiles top B F) (hc : Coalesced top B) :
    ∀ (k : ℕ) (a : Block), a.order = k → k ≤ top → a.units ⊆ F →
      ∃ b ∈ B, k ≤ b.order ∧ a.units ⊆ b.units := by
  intro k
  induction k with
  | zero =>
      intro a ha _ hF
      obtain ⟨b, hb, hpb⟩ := (h.cover a.start).mp (hF a.start_mem)
      exact ⟨b, hb, Nat.zero_le _, Block.units_subset (ha ▸ Nat.zero_le _) a.start_mem hpb⟩
  | succ k ih =>
      intro a ha hk hF
      have hhalf : ∀ c : Block, c.order = k → c.units ⊆ a.units →
          (∃ b ∈ B, k + 1 ≤ b.order ∧ a.units ⊆ b.units) ∨ c ∈ B := by
        intro c hck hca
        obtain ⟨b, hb, hkb, hcb⟩ := ih c hck (by omega) (hca.trans hF)
        by_cases hlt : k < b.order
        · exact Or.inl ⟨b, hb, hlt, Block.units_subset (by omega) (hca c.start_mem)
            (hcb c.start_mem)⟩
        · have hbc : b = c := eq_of_mem (by omega) (hcb c.start_mem) c.start_mem
          exact Or.inr (hbc ▸ hb)
      rcases hhalf (low k a) rfl fun p hp => (mem_halves ha).mpr (Or.inl hp) with hl | hl
      · exact hl
      rcases hhalf (high k a) rfl fun p hp => (mem_halves ha).mpr (Or.inr hp) with hr | hr
      · exact hr
      -- both halves are free blocks beside each other
      have hnot := hc _ hr (show k < top by omega)
      rw [high_buddy] at hnot
      exact absurd hl hnot

/-- **Canonical form.** What is free decides which blocks are free. -/
theorem eq_maximal (h : Tiles top B F) (hc : Coalesced top B) : B = maximal top F := by
  ext b
  constructor
  · intro hb
    refine ⟨h.order_le b hb, h.units_subset hb, ?_⟩
    intro hlt hparent
    obtain ⟨c, hcB, hkc, hsub⟩ := h.exists_block hc (b.order + 1) b.parent rfl hlt hparent
    have hbc := h.disjoint b hb c hcB b.start b.start_mem
      (hsub (b.units_subset_parent b.start_mem))
    rw [hbc] at hkc
    omega
  · rintro ⟨hle, hF, hmax⟩
    obtain ⟨c, hcB, hkc, hsub⟩ := h.exists_block hc b.order b rfl hle hF
    by_cases heq : b.order = c.order
    · have hbc : b = c := eq_of_mem heq b.start_mem (hsub b.start_mem)
      exact hbc ▸ hcB
    · have hlt : b.order < c.order := by omega
      have hctop := h.order_le c hcB
      refine absurd ?_ (hmax (by omega))
      have hpc : b.parent.units ⊆ c.units :=
        Block.units_subset hlt (b.units_subset_parent b.start_mem) (hsub b.start_mem)
      exact hpc.trans (h.units_subset hcB)

/-- The number of units the blocks cover. -/
theorem ncard_eq {S : Finset Block} (h : Tiles top ↑S F) :
    F.ncard = ∑ b ∈ S, 2 ^ b.order := by
  classical
  have hF : F = ↑(S.biUnion fun b => b.finite_units.toFinset) := by
    ext p
    rw [h.cover, Finset.mem_coe, Finset.mem_biUnion]
    refine exists_congr fun b => and_congr Iff.rfl ?_
    rw [Set.Finite.mem_toFinset]
  rw [hF, Set.ncard_coe_finset, Finset.card_biUnion]
  · refine Finset.sum_congr rfl fun b _ => ?_
    rw [← Set.ncard_eq_toFinset_card _ b.finite_units, ncard_units]
  · intro a ha c hc hne
    refine Finset.disjoint_left.mpr ?_
    intro p hpa hpc
    rw [Set.Finite.mem_toFinset] at hpa hpc
    exact hne (h.disjoint a ha c hc p hpa hpc)

end Tiles

namespace Coalesced

theorem erase (h : Coalesced top B) (b : Block) : Coalesced top (B \ {b}) :=
  fun a ha hlt hbuddy => h a ha.1 hlt hbuddy.1

theorem insert (h : Coalesced top B) (hb : b.order < top → b.buddy ∉ B) :
    Coalesced top (insert b B) := by
  rintro a (rfl | ha) hlt (heq | hbuddy)
  · exact a.buddy_ne heq
  · exact hb hlt hbuddy
  · have hab : a = b.buddy := by rw [← heq, buddy_buddy]
    exact hb (heq ▸ hlt) (hab ▸ ha)
  · exact h a ha hlt hbuddy

end Coalesced

end LinuxHacks.Lib.Buddy
