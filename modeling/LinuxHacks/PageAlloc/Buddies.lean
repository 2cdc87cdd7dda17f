import LinuxHacks.Lib.Buddy
import LinuxHacks.PageAlloc.Model

/-!
# The free lists as a buddy system

`Buddies z`: the lists of `free_area` hold the blocks of a coalesced tiling, the
heads of these blocks are exactly the pages that `page_is_buddy` accepts, and
`nr_free` counts them. Splitting and merging are made of two moves, taking a
block from its list and putting one on a list (`Buddies.take`, `Buddies.put`);
`__free_pages_bulk` and `__rmqueue` are chains of these.
-/

namespace LinuxHacks.PageAlloc

open LinuxHacks.Lib.Buddy LinuxHacks.Lib.Buddy.Block

/-- The same page but for `PG_private` and `page->private`. -/
structure Page.Same (p q : Page) : Prop where
  zone : q.zone = p.zone
  count : q.count = p.count
  mapcount : q.mapcount = p.mapcount
  mapping : q.mapping = p.mapping
  flags : ∀ f, f ≠ PageFlag.priv → q.flags f = p.flags f

namespace Page.Same

theorem refl (p : Page) : p.Same p := ⟨rfl, rfl, rfl, rfl, fun _ _ => rfl⟩

theorem trans {p q r : Page} (h : p.Same q) (h' : q.Same r) : p.Same r where
  zone := h'.zone.trans h.zone
  count := h'.count.trans h.count
  mapcount := h'.mapcount.trans h.mapcount
  mapping := h'.mapping.trans h.mapping
  flags := fun f hf => (h'.flags f hf).trans (h.flags f hf)

end Page.Same

namespace Zone

/-- The blocks whose first pages are on the free lists. -/
def blocks (z : Zone) : Set Block :=
  {b | b.order < maxOrder ∧ b.start ∈ (z.freeArea b.order).freeList}

/-- The pages of free blocks. -/
def free (z : Zone) : Set ℕ := {p | ∃ b ∈ z.blocks, p ∈ b.units}

/-- A page that may be part of a free block. -/
structure Clean (z : Zone) (p : ℕ) : Prop where
  range : z.badRange p = false
  count : (z.memMap p).count = 0
  reserved : (z.memMap p).flags .reserved = false

structure Buddies (z : Zone) : Prop where
  aligned : ∀ o p, p ∈ (z.freeArea o).freeList → o < maxOrder ∧ 2 ^ o ∣ p
  nodup : ∀ o, (z.freeArea o).freeList.Nodup
  nrFree : ∀ o, (z.freeArea o).nrFree = (z.freeArea o).freeList.length
  tiles : Tiles (maxOrder - 1) z.blocks z.free
  coalesced : Coalesced (maxOrder - 1) z.blocks
  clean : ∀ p ∈ z.free, z.Clean p
  buddy : ∀ p o, z.badRange p = false →
    (z.pageIsBuddy p o = true ↔ p ∈ (z.freeArea o).freeList)

/-! ## What the buddy system leaves alone -/

/-- `z'` is `z` but for its free lists and `zone->free_pages`, the marks that a
freeing resets, and how the pages `S` are marked as heads of blocks. -/
structure Frame (S : Set ℕ) (z z' : Zone) : Prop where
  rest : z' = { z with
    freePages := z'.freePages, freeArea := z'.freeArea, pagesScanned := z'.pagesScanned,
    allUnreclaimable := z'.allUnreclaimable, memMap := z'.memMap }
  same : ∀ p, (z.memMap p).Same (z'.memMap p)
  outside : ∀ p, p ∉ S → z'.memMap p = z.memMap p

namespace Frame

variable {S T : Set ℕ} {z z' z'' : Zone}

theorem refl (z : Zone) : Frame S z z := ⟨rfl, fun _ => Page.Same.refl _, fun _ _ => rfl⟩

theorem trans (h : Frame S z z') (h' : Frame S z' z'') : Frame S z z'' where
  rest := by
    rw [h'.rest, h.rest]
  same := fun p => (h.same p).trans (h'.same p)
  outside := fun p hp => (h'.outside p hp).trans (h.outside p hp)

theorem mono (h : Frame S z z') (hST : S ⊆ T) : Frame T z z' :=
  ⟨h.rest, h.same, fun p hp => h.outside p fun hS => hp (hST hS)⟩

theorem badRange (h : Frame S z z') (p : ℕ) : z'.badRange p = z.badRange p := by
  have hstart : z'.zoneStartPfn = z.zoneStartPfn := by rw [h.rest]
  have hspan : z'.spannedPages = z.spannedPages := by rw [h.rest]
  have hid : z'.nodezone = z.nodezone := by rw [h.rest]
  rw [Zone.badRange, Zone.badRange, pageToPfn, pageToPfn, hstart, hspan, hid, (h.same p).zone]

theorem clean (h : Frame S z z') {p : ℕ} : z'.Clean p ↔ z.Clean p := by
  have hres := (h.same p).flags .reserved (by decide)
  constructor
  · rintro ⟨h₁, h₂, h₃⟩
    exact ⟨h.badRange p ▸ h₁, (h.same p).count ▸ h₂, hres ▸ h₃⟩
  · rintro ⟨h₁, h₂, h₃⟩
    exact ⟨(h.badRange p).trans h₁, (h.same p).count.trans h₂, hres.trans h₃⟩

theorem pageset (h : Frame S z z') : z'.pageset = z.pageset := by rw [h.rest]

end Frame

/-! ## Taking a block from its list -/

theorem pageIsBuddy_iff {z : Zone} {p o : ℕ} : z.pageIsBuddy p o = true ↔
    (z.memMap p).flags .priv = true ∧ (z.memMap p).priv = o ∧
      (z.memMap p).flags .reserved = false ∧ (z.memMap p).count = 0 := by
  rw [pageIsBuddy, pageOrder]
  simp only [Bool.and_eq_true, decide_eq_true_eq, Bool.not_eq_true', and_assoc]

theorem mem_free {z : Zone} {p : ℕ} : p ∈ z.free ↔ ∃ b ∈ z.blocks, p ∈ b.units := Iff.rfl

/-- `list_del`, `rmv_page_order` and `nr_free--` of a free block. -/
def takeBlock (z : Zone) (b : Block) : Zone :=
  ((z.listDel b.start).rmvPageOrder b.start).addNrFree b.order (-1)

/-- `set_page_order`, `list_add` and `nr_free++` of a block. -/
def putBlock (z : Zone) (b : Block) : Zone :=
  ((z.setPageOrder b.start b.order).listAdd b.order b.start).addNrFree b.order 1

section TakePut

variable {z : Zone} {b : Block}

theorem setFreeArea_freeArea (z : Zone) (o o' : ℕ) (area : FreeArea) :
    (z.setFreeArea o area).freeArea o' = if o' = o then area else z.freeArea o' :=
  Function.update_apply ..

@[simp] theorem addNrFree_freeList (z : Zone) (o o' : ℕ) (d : Int) :
    ((z.addNrFree o d).freeArea o').freeList = (z.freeArea o').freeList := by
  rw [addNrFree, setFreeArea_freeArea]
  by_cases ho : o' = o
  · rw [if_pos ho, ho]
  · rw [if_neg ho]

@[simp] theorem addNrFree_nrFree (z : Zone) (o o' : ℕ) (d : Int) :
    ((z.addNrFree o d).freeArea o').nrFree =
      (z.freeArea o').nrFree + if o' = o then d else 0 := by
  rw [addNrFree, setFreeArea_freeArea]
  by_cases ho : o' = o
  · rw [if_pos ho, if_pos ho, ho]
  · rw [if_neg ho, if_neg ho, add_zero]

@[simp] theorem listAdd_freeList (z : Zone) (o o' i : ℕ) :
    ((z.listAdd o i).freeArea o').freeList =
      if o' = o then i :: (z.freeArea o').freeList else (z.freeArea o').freeList := by
  rw [listAdd, setFreeArea_freeArea]
  by_cases ho : o' = o
  · rw [if_pos ho, if_pos ho, ho]
  · rw [if_neg ho, if_neg ho]

@[simp] theorem listAdd_nrFree (z : Zone) (o o' i : ℕ) :
    ((z.listAdd o i).freeArea o').nrFree = (z.freeArea o').nrFree := by
  rw [listAdd, setFreeArea_freeArea]
  by_cases ho : o' = o
  · rw [if_pos ho, ho]
  · rw [if_neg ho]

@[simp] theorem takeBlock_freeList (z : Zone) (b : Block) (o : ℕ) :
    ((z.takeBlock b).freeArea o).freeList = (z.freeArea o).freeList.erase b.start := by
  rw [takeBlock, addNrFree_freeList]
  rfl

theorem takeBlock_nrFree (z : Zone) (b : Block) (o : ℕ) :
    ((z.takeBlock b).freeArea o).nrFree =
      (z.freeArea o).nrFree + if o = b.order then -1 else 0 := by
  rw [takeBlock, addNrFree_nrFree]
  rfl

theorem putBlock_freeList (z : Zone) (b : Block) (o : ℕ) :
    ((z.putBlock b).freeArea o).freeList =
      if o = b.order then b.start :: (z.freeArea o).freeList else (z.freeArea o).freeList := by
  rw [putBlock, addNrFree_freeList, listAdd_freeList]
  rfl

theorem putBlock_nrFree (z : Zone) (b : Block) (o : ℕ) :
    ((z.putBlock b).freeArea o).nrFree =
      (z.freeArea o).nrFree + if o = b.order then 1 else 0 := by
  rw [putBlock, addNrFree_nrFree, listAdd_nrFree]
  rfl

theorem takeBlock_memMap (z : Zone) (b : Block) : (z.takeBlock b).memMap =
    Function.update z.memMap b.start
      { (z.memMap b.start).clearFlags [.priv] with priv := 0 } := rfl

theorem putBlock_memMap (z : Zone) (b : Block) : (z.putBlock b).memMap =
    Function.update z.memMap b.start
      { (z.memMap b.start).setFlag .priv with priv := b.order } := rfl

/-- The head of a block changes, and only in its marks. -/
theorem frame_of_update {z' : Zone} {q : Page}
    (hrest : z' = { z with
      freePages := z'.freePages, freeArea := z'.freeArea, pagesScanned := z'.pagesScanned,
      allUnreclaimable := z'.allUnreclaimable, memMap := z'.memMap })
    (hmap : z'.memMap = Function.update z.memMap b.start q) (hq : (z.memMap b.start).Same q) :
    Frame b.units z z' where
  rest := hrest
  same := by
    intro p
    rw [hmap]
    by_cases hp : p = b.start
    · rw [hp, Function.update_self]
      exact hq
    · rw [Function.update_of_ne hp]
      exact Page.Same.refl _
  outside := by
    intro p hp
    rw [hmap, Function.update_of_ne]
    intro heq
    exact hp (heq ▸ b.start_mem)

theorem takeBlock_frame (z : Zone) (b : Block) : Frame b.units z (z.takeBlock b) := by
  refine frame_of_update rfl (takeBlock_memMap z b) ⟨rfl, rfl, rfl, rfl, ?_⟩
  intro f hf
  show ((z.memMap b.start).flags f && decide (f ∉ [PageFlag.priv])) = _
  rw [decide_eq_true (by simpa using hf), Bool.and_true]

theorem putBlock_frame (z : Zone) (b : Block) : Frame b.units z (z.putBlock b) := by
  refine frame_of_update rfl (putBlock_memMap z b) ⟨rfl, rfl, rfl, rfl, ?_⟩
  intro f hf
  show Function.update (z.memMap b.start).flags .priv true f = _
  rw [Function.update_of_ne hf]

/-- Other pages are accepted as buddies as before. -/
theorem pageIsBuddy_congr {z z' : Zone} {p : ℕ} (h : z'.memMap p = z.memMap p) (o : ℕ) :
    z'.pageIsBuddy p o = z.pageIsBuddy p o := by
  rw [pageIsBuddy, pageIsBuddy, pageOrder, pageOrder, h]

namespace Buddies

/-- Every entry of a free list is a block. -/
theorem around_mem (h : z.Buddies) {o p : ℕ} (hp : p ∈ (z.freeArea o).freeList) :
    around o p ∈ z.blocks := by
  obtain ⟨ho, hdvd⟩ := h.aligned o p hp
  refine ⟨ho, ?_⟩
  rw [around_start hdvd]
  exact hp

theorem mem_free_of_mem (h : z.Buddies) {o p : ℕ} (hp : p ∈ (z.freeArea o).freeList) :
    p ∈ z.free := ⟨around o p, h.around_mem hp, mem_around o p⟩

/-- A page heads at most one free block. -/
theorem order_unique (h : z.Buddies) {o o' p : ℕ} (hp : p ∈ (z.freeArea o).freeList)
    (hp' : p ∈ (z.freeArea o').freeList) : o = o' :=
  congrArg Block.order (h.tiles.disjoint _ (h.around_mem hp) _ (h.around_mem hp') p
    (mem_around o p) (mem_around o' p))

theorem blocks_take (h : z.Buddies) (hb : b ∈ z.blocks) :
    (z.takeBlock b).blocks = z.blocks \ {b} := by
  ext c
  show (c.order < maxOrder ∧ c.start ∈ ((z.takeBlock b).freeArea c.order).freeList) ↔
    (c.order < maxOrder ∧ c.start ∈ (z.freeArea c.order).freeList) ∧ c ≠ b
  rw [takeBlock_freeList, (h.nodup _).mem_erase_iff, and_assoc]
  refine and_congr Iff.rfl ⟨?_, ?_⟩
  · rintro ⟨hne, hmem⟩
    exact ⟨hmem, fun hcb => hne (hcb ▸ rfl)⟩
  · rintro ⟨hmem, hne⟩
    refine ⟨fun heq => hne ?_, hmem⟩
    exact eq_of_start (h.order_unique hmem (heq ▸ hb.2)) heq

theorem free_of_blocks {B : Set Block} {F : Set ℕ} {z' : Zone} (hB : z'.blocks = B)
    (hF : ∀ p, p ∈ F ↔ ∃ b ∈ B, p ∈ b.units) : z'.free = F := by
  ext p
  rw [hF, mem_free, hB]

theorem free_take (h : z.Buddies) (hb : b ∈ z.blocks) :
    (z.takeBlock b).free = z.free \ b.units :=
  free_of_blocks (h.blocks_take hb) (h.tiles.erase hb).cover

/-- **Taking a block.** -/
theorem take (h : z.Buddies) (hb : b ∈ z.blocks) : (z.takeBlock b).Buddies := by
  have hframe := takeBlock_frame z b
  have hblocks := h.blocks_take hb
  have hfree := h.free_take hb
  have hstart : b.start ∈ z.free := h.mem_free_of_mem hb.2
  refine ⟨?_, ?_, ?_, ?_, ?_, ?_, ?_⟩
  · intro o p hp
    rw [takeBlock_freeList] at hp
    exact h.aligned o p (List.mem_of_mem_erase hp)
  · intro o
    rw [takeBlock_freeList]
    exact (h.nodup o).erase _
  · intro o
    rw [takeBlock_freeList, takeBlock_nrFree, h.nrFree]
    by_cases ho : o = b.order
    · rw [if_pos ho, ho, List.length_erase_of_mem hb.2]
      have hpos := List.length_pos_of_mem hb.2
      omega
    · rw [if_neg ho, List.erase_of_not_mem, add_zero]
      intro hmem
      exact ho (h.order_unique hmem hb.2)
  · rw [hblocks, hfree]
    exact h.tiles.erase hb
  · rw [hblocks]
    exact h.coalesced.erase b
  · intro p hp
    rw [hfree] at hp
    exact hframe.clean.mpr (h.clean p hp.1)
  · intro p o hp
    rw [hframe.badRange] at hp
    rw [takeBlock_freeList, (h.nodup o).mem_erase_iff]
    by_cases heq : p = b.start
    · refine ⟨fun hbuddy => ?_, fun hmem => absurd heq hmem.1⟩
      have hpriv := (pageIsBuddy_iff.mp hbuddy).1
      rw [heq, takeBlock_memMap, Function.update_self] at hpriv
      simp [Page.clearFlags] at hpriv
    · have hmap : (z.takeBlock b).memMap p = z.memMap p := by
        rw [takeBlock_memMap, Function.update_of_ne heq]
      rw [pageIsBuddy_congr hmap, h.buddy p o hp]
      exact ⟨fun hmem => ⟨heq, hmem⟩, fun hmem => hmem.2⟩

/-! ## Putting a block on a list -/

theorem blocks_put (ho : b.order < maxOrder) :
    (z.putBlock b).blocks = insert b z.blocks := by
  ext c
  show (c.order < maxOrder ∧ c.start ∈ ((z.putBlock b).freeArea c.order).freeList) ↔
    c = b ∨ (c.order < maxOrder ∧ c.start ∈ (z.freeArea c.order).freeList)
  rw [putBlock_freeList]
  by_cases hcb : c = b
  · rw [if_pos (congrArg Block.order hcb), hcb]
    exact ⟨fun _ => Or.inl rfl, fun _ => ⟨ho, List.mem_cons_self⟩⟩
  · by_cases hco : c.order = b.order
    · rw [if_pos hco, List.mem_cons]
      constructor
      · rintro ⟨hlt, heq | hmem⟩
        · exact absurd (eq_of_start hco heq) hcb
        · exact Or.inr ⟨hlt, hmem⟩
      · rintro (heq | ⟨hlt, hmem⟩)
        · exact absurd heq hcb
        · exact ⟨hlt, Or.inr hmem⟩
    · rw [if_neg hco]
      exact ⟨Or.inr, fun h => h.resolve_left hcb⟩

theorem free_put (h : z.Buddies) (ho : b.order < maxOrder) (hb : ∀ p ∈ b.units, p ∉ z.free) :
    (z.putBlock b).free = z.free ∪ b.units :=
  free_of_blocks (blocks_put ho) (h.tiles.insert (Nat.le_sub_one_of_lt ho) hb).cover

/-- **Putting a block.** -/
theorem put (h : z.Buddies) (ho : b.order < maxOrder) (hb : ∀ p ∈ b.units, p ∉ z.free)
    (hclean : ∀ p ∈ b.units, z.Clean p) (hbuddy : b.order < maxOrder - 1 → b.buddy ∉ z.blocks) :
    (z.putBlock b).Buddies := by
  have hframe := putBlock_frame z b
  have hblocks : (z.putBlock b).blocks = insert b z.blocks := blocks_put ho
  have hfree := h.free_put ho hb
  have hstart : ∀ o, b.start ∉ (z.freeArea o).freeList :=
    fun o hmem => hb _ b.start_mem (h.mem_free_of_mem hmem)
  refine ⟨?_, ?_, ?_, ?_, ?_, ?_, ?_⟩
  · intro o p hp
    rw [putBlock_freeList] at hp
    by_cases hob : o = b.order
    · rw [if_pos hob, List.mem_cons] at hp
      rcases hp with rfl | hp
      · exact hob ▸ ⟨ho, b.start_dvd⟩
      · exact h.aligned o p hp
    · rw [if_neg hob] at hp
      exact h.aligned o p hp
  · intro o
    rw [putBlock_freeList]
    by_cases hob : o = b.order
    · rw [if_pos hob]
      exact List.nodup_cons.mpr ⟨hstart o, h.nodup o⟩
    · rw [if_neg hob]
      exact h.nodup o
  · intro o
    rw [putBlock_freeList, putBlock_nrFree, h.nrFree]
    by_cases hob : o = b.order
    · rw [if_pos hob, if_pos hob, List.length_cons, Nat.cast_add, Nat.cast_one]
    · rw [if_neg hob, if_neg hob, add_zero]
  · rw [hblocks, hfree]
    exact h.tiles.insert (Nat.le_sub_one_of_lt ho) hb
  · rw [hblocks]
    exact h.coalesced.insert hbuddy
  · intro p hp
    rw [hfree] at hp
    rcases hp with hp | hp
    · exact hframe.clean.mpr (h.clean p hp)
    · exact hframe.clean.mpr (hclean p hp)
  · intro p o hp
    rw [hframe.badRange] at hp
    rw [putBlock_freeList]
    by_cases heq : p = b.start
    · have hpage := hclean _ b.start_mem
      have hcount := (hframe.same b.start).count.trans hpage.count
      have hres := ((hframe.same b.start).flags .reserved (by decide)).trans hpage.reserved
      rw [heq, pageIsBuddy_iff]
      constructor
      · rintro ⟨_, horder, _⟩
        rw [putBlock_memMap, Function.update_self] at horder
        rw [if_pos horder.symm]
        exact List.mem_cons_self
      · intro hmem
        by_cases hob : o = b.order
        · refine ⟨?_, ?_, hres, hcount⟩
          · rw [putBlock_memMap, Function.update_self]
            show Function.update (z.memMap b.start).flags .priv true .priv = true
            rw [Function.update_self]
          · rw [putBlock_memMap, Function.update_self]
            exact hob.symm
        · rw [if_neg hob] at hmem
          exact absurd hmem (hstart o)
    · have hmap : (z.putBlock b).memMap p = z.memMap p := by
        rw [putBlock_memMap, Function.update_of_ne heq]
      rw [pageIsBuddy_congr hmap, h.buddy p o hp]
      by_cases hob : o = b.order
      · rw [if_pos hob, List.mem_cons]
        exact ⟨Or.inr, fun hor => hor.resolve_left heq⟩
      · rw [if_neg hob]

end Buddies

end TakePut

end Zone

end LinuxHacks.PageAlloc
