import Mathlib.Algebra.Order.Group.Int
import Mathlib.Tactic.Ring
import LinuxHacks.Lib.PointerTree

/-!
# Where ext2 keeps the pointer to a block of a file

`ext2_block_to_path`: the offsets that lead from the inode's `i_data` to the
pointer of a block of the file. A block of the file system holds `2 ^ bits`
pointers; `i_data` holds twelve pointers to data, then one to a block of
pointers, one to a tree of depth two and one to a tree of depth three.

The paths of the blocks of a file are exactly the leaf paths of that shape, each
for one block (`blockPath_leaf`, `blockPath_fileIndex`), and they stand from left
to right as the blocks do (`blockPath_before`).
-/

namespace LinuxHacks.Ext2

open Lib.PointerTree

/-! ## The code -/

/-- `EXT2_NDIR_BLOCKS` -/
def ndirBlocks : ℕ := 12

/-- `EXT2_IND_BLOCK` -/
def indBlock : ℕ := ndirBlocks

/-- `EXT2_DIND_BLOCK` -/
def dindBlock : ℕ := indBlock + 1

/-- `EXT2_TIND_BLOCK` -/
def tindBlock : ℕ := dindBlock + 1

/-- `EXT2_N_BLOCKS` -/
def nBlocks : ℕ := tindBlock + 1

/-- `EXT2_ADDR_PER_BLOCK` -/
def addrPerBlock (bits : ℕ) : ℕ := 1 <<< bits

/-- The last comparison of the boundary: `(i_block & (ptrs - 1)) == (final - 1)`. -/
def isFinal (bits i final : ℕ) : Bool := (i &&& (addrPerBlock bits - 1)) + 1 == final

/-- `ext2_block_to_path`: the offsets (none when the block is out of range) and
`*boundary`. -/
def blockToPath (bits : ℕ) (iBlock : ℤ) : List ℕ × Bool :=
  let ptrs := addrPerBlock bits
  let doubleBlocks := 1 <<< (bits * 2)
  if iBlock < 0 then ([], false)        -- "block < 0"
  else
    let i := iBlock.toNat
    if i < ndirBlocks then ([i], isFinal bits i ndirBlocks)
    else
      let i := i - ndirBlocks
      if i < ptrs then ([indBlock, i], isFinal bits i ptrs)
      else
        let i := i - ptrs
        if i < doubleBlocks then
          ([dindBlock, i >>> bits, i &&& (ptrs - 1)], isFinal bits i ptrs)
        else
          let i := i - doubleBlocks
          if i >>> (bits * 2) < ptrs then
            ([tindBlock, i >>> (bits * 2), (i >>> bits) &&& (ptrs - 1), i &&& (ptrs - 1)],
              isFinal bits i ptrs)
          else ([], false)              -- "block > big"

/-- The offsets of `ext2_block_to_path`. -/
def blockPath (bits : ℕ) (iBlock : ℤ) : List ℕ := (blockToPath bits iBlock).1

/-! ## The shape of the tree -/

/-- Slots of the inode, levels of pointers below each, pointers in a block. -/
def shape (bits : ℕ) : Shape where
  slots := nBlocks
  height := fun o => o + 1 - ndirBlocks
  width := addrPerBlock bits

theorem addrPerBlock_eq (bits : ℕ) : addrPerBlock bits = 2 ^ bits := Nat.one_shiftLeft bits

theorem addrPerBlock_pos (bits : ℕ) : 0 < addrPerBlock bits := by
  rw [addrPerBlock_eq]
  exact Nat.two_pow_pos bits

theorem and_addr (bits n : ℕ) : n &&& (addrPerBlock bits - 1) = n % addrPerBlock bits := by
  rw [addrPerBlock_eq, Nat.and_two_pow_sub_one_eq_mod]

theorem shiftRight_addr (bits n : ℕ) : n >>> bits = n / addrPerBlock bits := by
  rw [addrPerBlock_eq, Nat.shiftRight_eq_div_pow]

theorem double_eq (bits : ℕ) : 1 <<< (bits * 2) = addrPerBlock bits * addrPerBlock bits := by
  rw [Nat.one_shiftLeft, addrPerBlock_eq, ← pow_add, Nat.mul_two]

theorem shiftRight_double (bits n : ℕ) :
    n >>> (bits * 2) = n / addrPerBlock bits / addrPerBlock bits := by
  rw [Nat.shiftRight_eq_div_pow, ← Nat.one_shiftLeft, double_eq, Nat.div_div_eq_div_mul]

/-- How many blocks a file can have. -/
def capacity (bits : ℕ) : ℕ :=
  ndirBlocks + addrPerBlock bits + addrPerBlock bits * addrPerBlock bits +
    addrPerBlock bits * addrPerBlock bits * addrPerBlock bits

section Paths

variable (bits : ℕ)

theorem blockPath_neg {i : ℤ} (h : i < 0) : blockPath bits i = [] := by
  rw [blockPath, blockToPath, if_pos h]

/-- The four kinds of blocks, counted from the first block of their kind. -/
theorem blockPath_direct {n : ℕ} (h : n < ndirBlocks) : blockPath bits n = [n] := by
  rw [blockPath, blockToPath, if_neg (by omega), Int.toNat_natCast, if_pos h]

theorem blockPath_ind {n : ℕ} (h : n < addrPerBlock bits) :
    blockPath bits (ndirBlocks + n : ℕ) = [indBlock, n] := by
  rw [blockPath, blockToPath, if_neg (by omega), Int.toNat_natCast,
    if_neg (Nat.not_lt.mpr (Nat.le_add_right _ _)), Nat.add_sub_cancel_left, if_pos h]

theorem blockPath_dind {n : ℕ} (h : n < addrPerBlock bits * addrPerBlock bits) :
    blockPath bits (ndirBlocks + (addrPerBlock bits + n) : ℕ) =
      [dindBlock, n / addrPerBlock bits, n % addrPerBlock bits] := by
  rw [blockPath, blockToPath, if_neg (by omega), Int.toNat_natCast,
    if_neg (Nat.not_lt.mpr (Nat.le_add_right _ _)), Nat.add_sub_cancel_left,
    if_neg (Nat.not_lt.mpr (Nat.le_add_right _ _)), Nat.add_sub_cancel_left,
    if_pos (double_eq bits ▸ h), and_addr, shiftRight_addr]

/-- The path of a block that is not in the first three kinds. -/
theorem blockPath_rest (n : ℕ) :
    blockPath bits
        (ndirBlocks + (addrPerBlock bits + (addrPerBlock bits * addrPerBlock bits + n)) : ℕ) =
      if n / addrPerBlock bits / addrPerBlock bits < addrPerBlock bits then
        [tindBlock, n / addrPerBlock bits / addrPerBlock bits,
          n / addrPerBlock bits % addrPerBlock bits, n % addrPerBlock bits]
      else [] := by
  rw [blockPath, blockToPath, if_neg (by omega), Int.toNat_natCast,
    if_neg (Nat.not_lt.mpr (Nat.le_add_right _ _)), Nat.add_sub_cancel_left,
    if_neg (Nat.not_lt.mpr (Nat.le_add_right _ _)), Nat.add_sub_cancel_left, double_eq,
    if_neg (Nat.not_lt.mpr (Nat.le_add_right _ _)), Nat.add_sub_cancel_left]
  dsimp only
  rw [shiftRight_double, and_addr, and_addr, shiftRight_addr]
  split <;> rfl

theorem triple_lt (n : ℕ) :
    n / addrPerBlock bits / addrPerBlock bits < addrPerBlock bits ↔
      n < addrPerBlock bits * addrPerBlock bits * addrPerBlock bits := by
  have hp := addrPerBlock_pos bits
  rw [Nat.div_lt_iff_lt_mul hp, Nat.div_lt_iff_lt_mul hp]

/-- The kind of a block number. -/
inductive Kind : ℕ → Prop
  | direct (n : ℕ) : n < ndirBlocks → Kind n
  | ind (n : ℕ) : n < addrPerBlock bits → Kind (ndirBlocks + n)
  | dind (n : ℕ) : n < addrPerBlock bits * addrPerBlock bits →
      Kind (ndirBlocks + (addrPerBlock bits + n))
  | rest (n : ℕ) :
      Kind (ndirBlocks + (addrPerBlock bits + (addrPerBlock bits * addrPerBlock bits + n)))

theorem kind (n : ℕ) : Kind bits n := by
  by_cases h1 : n < ndirBlocks
  · exact .direct n h1
  obtain ⟨n, rfl⟩ := Nat.exists_eq_add_of_le (Nat.not_lt.mp h1)
  by_cases h2 : n < addrPerBlock bits
  · exact .ind n h2
  obtain ⟨n, rfl⟩ := Nat.exists_eq_add_of_le (Nat.not_lt.mp h2)
  by_cases h3 : n < addrPerBlock bits * addrPerBlock bits
  · exact .dind n h3
  obtain ⟨n, rfl⟩ := Nat.exists_eq_add_of_le (Nat.not_lt.mp h3)
  exact .rest n

/-- A block in range has a leaf path. -/
theorem blockPath_leaf {n : ℕ} (h : n < capacity bits) :
    (shape bits).Leaf (blockPath bits n) := by
  have hp := addrPerBlock_pos bits
  rcases kind bits n with ⟨n, hn⟩ | ⟨n, hn⟩ | ⟨n, hn⟩ | ⟨n⟩
  · rw [blockPath_direct bits hn]
    refine ⟨?_, ?_, by simp⟩
    · exact lt_trans hn (by decide : ndirBlocks < nBlocks)
    · exact (Nat.sub_eq_zero_of_le hn).symm
  · rw [blockPath_ind bits hn]
    exact ⟨(by decide : indBlock < nBlocks), rfl, by simpa [shape] using hn⟩
  · rw [blockPath_dind bits hn]
    refine ⟨(by decide : dindBlock < nBlocks), rfl, ?_⟩
    have h1 : n / addrPerBlock bits < addrPerBlock bits := (Nat.div_lt_iff_lt_mul hp).mpr hn
    have h2 : n % addrPerBlock bits < addrPerBlock bits := Nat.mod_lt _ hp
    simpa [shape] using And.intro h1 h2
  · have hn : n < addrPerBlock bits * addrPerBlock bits * addrPerBlock bits := by
      rw [capacity] at h
      omega
    rw [blockPath_rest, if_pos ((triple_lt bits n).mpr hn)]
    refine ⟨(by decide : tindBlock < nBlocks), rfl, ?_⟩
    have h1 := (triple_lt bits n).mpr hn
    have h2 : n / addrPerBlock bits % addrPerBlock bits < addrPerBlock bits := Nat.mod_lt _ hp
    have h3 : n % addrPerBlock bits < addrPerBlock bits := Nat.mod_lt _ hp
    simpa [shape] using And.intro h1 (And.intro h2 h3)

/-- A block out of range has no path. -/
theorem blockPath_of_capacity_le {n : ℕ} (h : capacity bits ≤ n) : blockPath bits n = [] := by
  rcases kind bits n with ⟨n, hn⟩ | ⟨n, hn⟩ | ⟨n, hn⟩ | ⟨n⟩
  all_goals rw [capacity] at h
  · omega
  · omega
  · omega
  · rw [blockPath_rest, if_neg]
    rw [triple_lt]
    omega

/-- The block of the file a leaf path is for. -/
def fileIndex : List ℕ → ℕ
  | [o] => o
  | [_, a] => ndirBlocks + a
  | [_, a, b] => ndirBlocks + (addrPerBlock bits + (a * addrPerBlock bits + b))
  | [_, a, b, c] => ndirBlocks + (addrPerBlock bits +
      (addrPerBlock bits * addrPerBlock bits + ((a * addrPerBlock bits + b) * addrPerBlock bits + c)))
  | _ => 0

theorem fileIndex_blockPath {n : ℕ} (h : n < capacity bits) :
    fileIndex bits (blockPath bits n) = n := by
  have hdiv : ∀ m, m / addrPerBlock bits * addrPerBlock bits + m % addrPerBlock bits = m :=
    fun m => Nat.div_add_mod' m _
  rcases kind bits n with ⟨n, hn⟩ | ⟨n, hn⟩ | ⟨n, hn⟩ | ⟨n⟩
  · rw [blockPath_direct bits hn, fileIndex]
  · rw [blockPath_ind bits hn, fileIndex]
  · rw [blockPath_dind bits hn, fileIndex, hdiv]
  · have hn : n < addrPerBlock bits * addrPerBlock bits * addrPerBlock bits := by
      rw [capacity] at h
      omega
    rw [blockPath_rest, if_pos ((triple_lt bits n).mpr hn), fileIndex, hdiv, hdiv]

/-- Two digits below `p` are a number below `p * p`, of which they are the
quotient and the remainder. -/
theorem digits {p a b : ℕ} (hb : b < p) : (a * p + b) / p = a ∧ (a * p + b) % p = b := by
  have hp : 0 < p := Nat.zero_lt_of_lt hb
  constructor
  · rw [Nat.add_comm, Nat.add_mul_div_right _ _ hp, Nat.div_eq_of_lt hb, Nat.zero_add]
  · rw [Nat.add_comm, Nat.add_mul_mod_self_right, Nat.mod_eq_of_lt hb]

theorem digits_lt {p q a b : ℕ} (ha : a < q) (hb : b < p) : a * p + b < q * p :=
  calc a * p + b < a * p + p := Nat.add_lt_add_left hb _
    _ = (a + 1) * p := (Nat.succ_mul a p).symm
    _ ≤ q * p := Nat.mul_le_mul_right p ha

/-- Every leaf path is the path of its block. -/
theorem blockPath_fileIndex {π : List ℕ} (h : (shape bits).Leaf π) :
    fileIndex bits π < capacity bits ∧ blockPath bits (fileIndex bits π : ℕ) = π := by
  rw [capacity]
  match π, h with
  | [o], ⟨_, hlen, _⟩ =>
      have ho : o < ndirBlocks := by
        have : 0 = o + 1 - ndirBlocks := hlen
        omega
      rw [fileIndex]
      exact ⟨by omega, blockPath_direct bits ho⟩
  | [o, a], ⟨_, hlen, hw⟩ =>
      have hi : o = indBlock := by
        have : 1 = o + 1 - ndirBlocks := hlen
        rw [indBlock]
        omega
      have ha : a < addrPerBlock bits := hw a (by simp)
      rw [fileIndex, blockPath_ind bits ha, hi]
      exact ⟨by omega, rfl⟩
  | [o, a, b], ⟨_, hlen, hw⟩ =>
      have hi : o = dindBlock := by
        have : 2 = o + 1 - ndirBlocks := hlen
        rw [dindBlock, indBlock]
        omega
      have ha : a < addrPerBlock bits := hw a (by simp)
      have hb : b < addrPerBlock bits := hw b (by simp)
      have hab := digits_lt ha hb
      rw [fileIndex, blockPath_dind bits hab, hi, (digits hb).1, (digits hb).2]
      exact ⟨by omega, rfl⟩
  | [o, a, b, c], ⟨_, hlen, hw⟩ =>
      have hi : o = tindBlock := by
        have : 3 = o + 1 - ndirBlocks := hlen
        rw [tindBlock, dindBlock, indBlock]
        omega
      have ha : a < addrPerBlock bits := hw a (by simp)
      have hb : b < addrPerBlock bits := hw b (by simp)
      have hc : c < addrPerBlock bits := hw c (by simp)
      have habc := digits_lt (digits_lt ha hb) hc
      rw [fileIndex, blockPath_rest, if_pos ((triple_lt bits _).mpr habc), hi, (digits hc).1,
        (digits hc).2, (digits hb).1, (digits hb).2]
      exact ⟨by omega, rfl⟩
  | o :: _ :: _ :: _ :: _ :: os, ⟨hs, hlen, _⟩ =>
      exfalso
      have h1 : o < nBlocks := hs
      have h2 : os.length + 4 = o + 1 - ndirBlocks := hlen
      rw [nBlocks, tindBlock, dindBlock, indBlock] at h1
      omega

/-- Comparing by quotient, then by remainder. -/
theorem div_lt_or {m n : ℕ} (p : ℕ) (h : m < n) : m / p < n / p ∨ m / p = n / p ∧ m % p < n % p := by
  rcases Nat.lt_or_ge (m / p) (n / p) with hlt | hge
  · exact Or.inl hlt
  · have heq : m / p = n / p := le_antisymm (Nat.div_le_div_right (le_of_lt h)) hge
    refine Or.inr ⟨heq, ?_⟩
    have hm := Nat.div_add_mod m p
    have hn := Nat.div_add_mod n p
    rw [heq] at hm
    omega

/-- The paths stand from left to right as the blocks do. -/
theorem blockPath_before {m n : ℕ} (h : m < n) (hn : n < capacity bits) :
    Before (blockPath bits n) (blockPath bits m) := by
  have hcap : ∀ k, ndirBlocks + (addrPerBlock bits + (addrPerBlock bits * addrPerBlock bits + k)) <
      capacity bits → k / addrPerBlock bits / addrPerBlock bits < addrPerBlock bits := by
    intro k hk
    rw [triple_lt]
    rw [capacity] at hk
    omega
  rcases kind bits m with ⟨m, hm⟩ | ⟨m, hm⟩ | ⟨m, hm⟩ | ⟨m⟩ <;>
    rcases kind bits n with ⟨n, hn'⟩ | ⟨n, hn'⟩ | ⟨n, hn'⟩ | ⟨n⟩
  -- of one kind: by the digits; of different kinds: at the first offset
  · rw [blockPath_direct bits hm, blockPath_direct bits hn']
    exact Or.inl h
  · rw [blockPath_direct bits hm, blockPath_ind bits hn']
    exact Or.inl hm
  · rw [blockPath_direct bits hm, blockPath_dind bits hn']
    exact Or.inl (Nat.lt_succ_of_lt hm)
  · rw [blockPath_direct bits hm, blockPath_rest, if_pos (hcap n hn)]
    exact Or.inl (Nat.lt_succ_of_lt (Nat.lt_succ_of_lt hm))
  · omega
  · rw [blockPath_ind bits hm, blockPath_ind bits hn']
    exact Or.inr ⟨rfl, Or.inl (by omega)⟩
  · rw [blockPath_ind bits hm, blockPath_dind bits hn']
    exact Or.inl (by decide)
  · rw [blockPath_ind bits hm, blockPath_rest, if_pos (hcap n hn)]
    exact Or.inl (by decide)
  · omega
  · omega
  · rw [blockPath_dind bits hm, blockPath_dind bits hn']
    refine Or.inr ⟨rfl, ?_⟩
    exact (div_lt_or (addrPerBlock bits) (by omega : m < n)).imp id
      fun hd => ⟨hd.1, Or.inl hd.2⟩
  · rw [blockPath_dind bits hm, blockPath_rest, if_pos (hcap n hn)]
    exact Or.inl (by decide)
  · omega
  · omega
  · omega
  · rw [blockPath_rest, blockPath_rest, if_pos (hcap n hn), if_pos (hcap m (lt_trans h hn))]
    refine Or.inr ⟨rfl, ?_⟩
    rcases div_lt_or (addrPerBlock bits) (by omega : m < n) with hlt | ⟨heq, hlt⟩
    · exact (div_lt_or (addrPerBlock bits) hlt).imp id fun hd => ⟨hd.1, Or.inl hd.2⟩
    · rw [heq]
      exact Or.inr ⟨rfl, Or.inr ⟨rfl, Or.inl hlt⟩⟩

/-- The boundary flag of the blocks of each kind. -/
theorem boundary_direct {n : ℕ} (h : n < ndirBlocks) :
    (blockToPath bits n).2 = isFinal bits n ndirBlocks := by
  rw [blockToPath, if_neg (by omega), Int.toNat_natCast, if_pos h]

theorem boundary_ind {n : ℕ} (h : n < addrPerBlock bits) :
    (blockToPath bits (ndirBlocks + n : ℕ)).2 = isFinal bits n (addrPerBlock bits) := by
  rw [blockToPath, if_neg (by omega), Int.toNat_natCast,
    if_neg (Nat.not_lt.mpr (Nat.le_add_right _ _)), Nat.add_sub_cancel_left, if_pos h]

theorem boundary_dind {n : ℕ} (h : n < addrPerBlock bits * addrPerBlock bits) :
    (blockToPath bits (ndirBlocks + (addrPerBlock bits + n) : ℕ)).2 =
      isFinal bits n (addrPerBlock bits) := by
  rw [blockToPath, if_neg (by omega), Int.toNat_natCast,
    if_neg (Nat.not_lt.mpr (Nat.le_add_right _ _)), Nat.add_sub_cancel_left,
    if_neg (Nat.not_lt.mpr (Nat.le_add_right _ _)), Nat.add_sub_cancel_left,
    if_pos (double_eq bits ▸ h)]

theorem boundary_rest {n : ℕ}
    (h : n / addrPerBlock bits / addrPerBlock bits < addrPerBlock bits) :
    (blockToPath bits (ndirBlocks + (addrPerBlock bits +
      (addrPerBlock bits * addrPerBlock bits + n)) : ℕ)).2 =
      isFinal bits n (addrPerBlock bits) := by
  rw [blockToPath, if_neg (by omega), Int.toNat_natCast,
    if_neg (Nat.not_lt.mpr (Nat.le_add_right _ _)), Nat.add_sub_cancel_left,
    if_neg (Nat.not_lt.mpr (Nat.le_add_right _ _)), Nat.add_sub_cancel_left, double_eq,
    if_neg (Nat.not_lt.mpr (Nat.le_add_right _ _)), Nat.add_sub_cancel_left]
  dsimp only
  rw [if_pos (shiftRight_double bits n ▸ h)]

theorem isFinal_iff {n : ℕ} :
    isFinal bits n (addrPerBlock bits) = true ↔ n % addrPerBlock bits + 1 = addrPerBlock bits := by
  rw [isFinal, and_addr, beq_iff_eq]

/-- The next number, by its digits. -/
theorem succ_digits {p : ℕ} (hp : 0 < p) (n : ℕ) :
    (n % p + 1 = p ∧ (n + 1) / p = n / p + 1) ∨ (n % p + 1 < p ∧ (n + 1) / p = n / p) := by
  have hmod := Nat.mod_lt n hp
  have hn := Nat.div_add_mod' n p
  rcases Nat.lt_or_ge (n % p + 1) p with hlt | hge
  · refine Or.inr ⟨hlt, ?_⟩
    calc (n + 1) / p = (n / p * p + (n % p + 1)) / p := by rw [← Nat.add_assoc, hn]
      _ = n / p := (digits hlt).1
  · have heq : n % p + 1 = p := by omega
    refine Or.inl ⟨heq, ?_⟩
    calc (n + 1) / p = (n / p * p + (n % p + 1)) / p := by rw [← Nat.add_assoc, hn]
      _ = ((n / p + 1) * p + 0) / p := by rw [heq, Nat.succ_mul, Nat.add_zero]
      _ = n / p + 1 := (digits hp).1

theorem blockPath_eq_nil_iff (i : ℤ) : blockPath bits i = [] ↔ i < 0 ∨ (capacity bits : ℤ) ≤ i := by
  constructor
  · intro h
    by_contra hin
    rw [not_or, not_lt, not_le] at hin
    obtain ⟨n, rfl⟩ := Int.eq_ofNat_of_zero_le hin.1
    exact (blockPath_leaf bits (Int.ofNat_lt.mp hin.2)).path.ne_nil h
  · rintro (h | h)
    · exact blockPath_neg bits h
    · obtain ⟨n, rfl⟩ := Int.eq_ofNat_of_zero_le (le_trans (Int.natCast_nonneg _) h)
      exact blockPath_of_capacity_le bits (Int.ofNat_le.mp h)

theorem existsUnique_blockPath {π : List ℕ} (hπ : (shape bits).Leaf π) :
    ∃! i, blockPath bits i = π := by
  obtain ⟨-, hpath⟩ := blockPath_fileIndex bits hπ
  refine ⟨fileIndex bits π, hpath, ?_⟩
  rintro i rfl
  have hin : ¬ (i < 0 ∨ (capacity bits : ℤ) ≤ i) :=
    fun ho => hπ.path.ne_nil ((blockPath_eq_nil_iff bits i).mpr ho)
  rw [not_or, not_lt, not_le] at hin
  obtain ⟨n, rfl⟩ := Int.eq_ofNat_of_zero_le hin.1
  rw [fileIndex_blockPath bits (Int.ofNat_lt.mp hin.2)]

theorem before_blockPath {i j : ℤ} (hi : 0 ≤ i) (hij : i < j) (hj : j < (capacity bits : ℤ)) :
    Before (blockPath bits j) (blockPath bits i) := by
  obtain ⟨m, rfl⟩ := Int.eq_ofNat_of_zero_le hi
  obtain ⟨n, rfl⟩ := Int.eq_ofNat_of_zero_le (le_trans hi (le_of_lt hij))
  exact blockPath_before bits (Int.ofNat_lt.mp hij) (Int.ofNat_lt.mp hj)

end Paths

/-! ## Results -/

/-- Blocks in range are known by their paths: all the leaf paths, once each, in
the order of the blocks. -/
theorem blockPath_order (bits : ℕ) :
    (∀ i, blockPath bits i = [] ↔ i < 0 ∨ (capacity bits : ℤ) ≤ i) ∧
      (∀ i, 0 ≤ i → i < (capacity bits : ℤ) → (shape bits).Leaf (blockPath bits i)) ∧
      (∀ π, (shape bits).Leaf π → ∃! i, blockPath bits i = π) ∧
      ∀ i j, 0 ≤ i → i < j → j < (capacity bits : ℤ) →
        Before (blockPath bits j) (blockPath bits i) := by
  refine ⟨blockPath_eq_nil_iff bits, ?_, fun _ hπ => existsUnique_blockPath bits hπ,
    fun _ _ hi hij hj => before_blockPath bits hi hij hj⟩
  intro i h0 hi
  obtain ⟨n, rfl⟩ := Int.eq_ofNat_of_zero_le h0
  exact blockPath_leaf bits (Int.ofNat_lt.mp hi)

/-- The boundary flag of a block in range is set exactly when the pointer of the
next block is not in the same node. -/
theorem boundary_iff (bits : ℕ) (hbits : 4 ≤ bits) (i : ℤ) (h0 : 0 ≤ i)
    (h : i < (capacity bits : ℤ)) :
    (blockToPath bits i).2 = true ↔
      (blockPath bits (i + 1)).dropLast ≠ (blockPath bits i).dropLast := by
  obtain ⟨n, rfl⟩ := Int.eq_ofNat_of_zero_le h0
  have hn : n < capacity bits := Int.ofNat_lt.mp h
  have hp := addrPerBlock_pos bits
  rw [show ((n : ℤ) + 1) = ((n + 1 : ℕ) : ℤ) by rw [Nat.cast_add, Nat.cast_one]]
  rcases kind bits n with ⟨n, hk⟩ | ⟨n, hk⟩ | ⟨n, hk⟩ | ⟨n⟩
  · rw [boundary_direct bits hk, blockPath_direct bits hk, isFinal, and_addr, beq_iff_eq,
      Nat.mod_eq_of_lt]
    · rcases Nat.lt_or_ge (n + 1) ndirBlocks with hlt | hge
      · rw [blockPath_direct bits hlt]
        exact ⟨fun he => absurd he (Nat.ne_of_lt hlt), fun hne => absurd rfl hne⟩
      · have he : n + 1 = ndirBlocks + 0 := by omega
        rw [he, blockPath_ind bits hp]
        exact ⟨fun _ => by simp, fun _ => rfl⟩
    · have h16 : 2 ^ 4 ≤ 2 ^ bits := Nat.pow_le_pow_right (by decide) hbits
      rw [addrPerBlock_eq]
      exact lt_of_lt_of_le (lt_trans hk (by decide)) h16
  · rw [boundary_ind bits hk, blockPath_ind bits hk, isFinal_iff, Nat.mod_eq_of_lt hk, Nat.add_assoc]
    rcases Nat.lt_or_ge (n + 1) (addrPerBlock bits) with hlt | hge
    · rw [blockPath_ind bits hlt]
      exact ⟨fun he => absurd he (Nat.ne_of_lt hlt), fun hne => absurd rfl hne⟩
    · have he : n + 1 = addrPerBlock bits := by omega
      have hz : n + 1 = addrPerBlock bits + 0 := by omega
      rw [hz, blockPath_dind bits (Nat.mul_pos hp hp)]
      exact ⟨fun _ => by simp, fun _ => rfl⟩
  · rw [boundary_dind bits hk, blockPath_dind bits hk, isFinal_iff, Nat.add_assoc, Nat.add_assoc]
    rcases succ_digits hp n with ⟨he, hq⟩ | ⟨hlt, hq⟩
    · refine ⟨fun _ => ?_, fun _ => he⟩
      rcases Nat.lt_or_ge (n + 1) (addrPerBlock bits * addrPerBlock bits) with hin | hout
      · rw [blockPath_dind bits hin, hq]
        simp
      · have hz : n + 1 = addrPerBlock bits * addrPerBlock bits + 0 := by omega
        rw [hz, blockPath_rest, Nat.zero_div, Nat.zero_div, if_pos hp]
        simp
    · have hin : n + 1 < addrPerBlock bits * addrPerBlock bits := by
        have hd : n / addrPerBlock bits < addrPerBlock bits := (Nat.div_lt_iff_lt_mul hp).mpr hk
        rw [← Nat.div_lt_iff_lt_mul hp, hq]
        exact hd
      rw [blockPath_dind bits hin, hq]
      exact ⟨fun he => absurd he (Nat.ne_of_lt hlt), fun hne => absurd rfl hne⟩
  · have hin : n / addrPerBlock bits / addrPerBlock bits < addrPerBlock bits := by
      rw [triple_lt]
      rw [capacity] at hn
      omega
    rw [boundary_rest bits hin, blockPath_rest, if_pos hin, isFinal_iff, Nat.add_assoc,
      Nat.add_assoc, Nat.add_assoc, blockPath_rest]
    rcases succ_digits hp n with ⟨he, hq⟩ | ⟨hlt, hq⟩
    · refine ⟨fun _ => ?_, fun _ => he⟩
      rw [hq]
      split
      · -- the same two digits would be the same number
        simp only [List.dropLast, ne_eq, List.cons.injEq, and_true, true_and, not_and]
        intro h1 h2
        have e1 := Nat.div_add_mod (n / addrPerBlock bits + 1) (addrPerBlock bits)
        have e2 := Nat.div_add_mod (n / addrPerBlock bits) (addrPerBlock bits)
        rw [h1, h2] at e1
        omega
      · simp
    · rw [hq, if_pos hin]
      exact ⟨fun he => absurd he (Nat.ne_of_lt hlt), fun hne => absurd rfl hne⟩

theorem boundary_last_direct : (blockToPath 8 11).2 = true ∧ blockPath 8 11 = [11] ∧
    blockPath 8 12 = [12, 0] ∧
    ((blockToPath 8 11).2 = true ↔ (blockPath 8 12).dropLast ≠ (blockPath 8 11).dropLast) :=
  ⟨by decide, by decide, by decide, boundary_iff 8 (by decide) 11 (by decide) (by decide)⟩

end LinuxHacks.Ext2
