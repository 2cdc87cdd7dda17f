import LinuxHacks.PageAlloc.Buddies

/-!
# Freeing and allocating blocks

What `__free_pages_bulk` and `__rmqueue` do to the free lists, one theorem each:
the freed block joins the free pages (`freePagesBulkOne_spec`); an allocation
takes an aligned block of free pages, and fails only when the free pages hold no
such block (`rmqueue_spec`, `rmqueue_none_iff`). `zone_watermark_ok` promises
that the allocation succeeds (`rmqueue_of_watermarkOk`).
-/

namespace LinuxHacks.PageAlloc

open LinuxHacks.Lib.Buddy LinuxHacks.Lib.Buddy.Block

namespace Zone

/-! ## `__free_pages_bulk` -/

/-- Pages that may become the free block `b`. -/
structure Freeable (z : Zone) (b : Block) : Prop where
  order_lt : b.order < maxOrder
  clean : ∀ p ∈ b.units, z.Clean p
  notFree : ∀ p ∈ b.units, p ∉ z.free

theorem coalesce_succ (n : ℕ) (z : Zone) (b : Block) :
    coalesce (n + 1) z b.start b.order =
      if z.badRange b.buddy.start then (z, b.start, b.order)
      else if !z.pageIsBuddy b.buddy.start b.order then (z, b.start, b.order)
      else coalesce n (z.takeBlock b.buddy) b.parent.start b.parent.order := by
  rw [coalesce, start_xor, start_and]
  rfl

/-- The block that the loop ends with takes in all buddies that are free. -/
structure Coalesces (z : Zone) (b : Block) (z' : Zone) (c : Block) : Prop where
  buddies : z'.Buddies
  freeable : z'.Freeable c
  last : c.order < maxOrder - 1 → c.buddy ∉ z'.blocks
  free : z'.free ∪ c.units = z.free ∪ b.units
  frame : Frame z.free z z'
  freePages : z'.freePages = z.freePages

theorem coalesce_spec : ∀ (n : ℕ) (z : Zone) (b : Block), n = maxOrder - 1 - b.order →
    z.Buddies → z.Freeable b → ∃ z' c,
      coalesce n z b.start b.order = (z', c.start, c.order) ∧ Coalesces z b z' c := by
  intro n
  induction n with
  | zero =>
      intro z b hn hz hb
      exact ⟨z, b, rfl, hz, hb, fun hlt => by omega, rfl, Frame.refl z, rfl⟩
  | succ n ih =>
      intro z b hn hz hb
      rw [coalesce_succ]
      by_cases hbad : z.badRange b.buddy.start = true
      · rw [if_pos hbad]
        refine ⟨z, b, rfl, hz, hb, fun _ hmem => ?_, rfl, Frame.refl z, rfl⟩
        rw [(hz.clean _ (hz.tiles.units_subset hmem b.buddy.start_mem)).range] at hbad
        cases hbad
      have hrange : z.badRange b.buddy.start = false := Bool.eq_false_iff.mpr hbad
      rw [if_neg hbad]
      by_cases hbuddy : z.pageIsBuddy b.buddy.start b.order = true
      · rw [hbuddy]
        have hmem : b.buddy ∈ z.blocks := ⟨hb.order_lt, (hz.buddy _ _ hrange).mp hbuddy⟩
        have htake := hz.take hmem
        have hfree := hz.free_take hmem
        have hframe := (takeBlock_frame z b.buddy).mono (hz.tiles.units_subset hmem)
        have hparent : (z.takeBlock b.buddy).Freeable b.parent := by
          refine ⟨?_, ?_, ?_⟩
          · rw [parent_order]
            omega
          · intro p hp
            rw [hframe.clean]
            rcases mem_parent.mp hp with hp | hp
            · exact hb.clean p hp
            · exact hz.clean p (hz.tiles.units_subset hmem hp)
          · intro p hp hpf
            rw [hfree] at hpf
            rcases mem_parent.mp hp with hp | hp
            · exact hb.notFree p hp hpf.1
            · exact hpf.2 hp
        obtain ⟨z', c, heq, hc⟩ := ih _ _ (by rw [parent_order]; omega) htake hparent
        refine ⟨z', c, heq, hc.buddies, hc.freeable, hc.last, ?_, ?_, hc.freePages⟩
        · rw [hc.free, hfree]
          ext p
          have hsub := @Tiles.units_subset _ _ _ _ hz.tiles hmem p
          rw [Set.mem_union, Set.mem_union, Set.mem_sdiff, mem_parent]
          tauto
        · refine hframe.trans (hc.frame.mono ?_)
          rw [hfree]
          exact Set.sdiff_subset
      · rw [Bool.eq_false_iff.mpr hbuddy]
        refine ⟨z, b, rfl, hz, hb, fun _ hmem => ?_, rfl, Frame.refl z, rfl⟩
        exact hbuddy ((hz.buddy _ _ hrange).mpr hmem.2)

/-- The zone does not look at `zone->free_pages` to find its blocks. -/
theorem Buddies.of_eq {z z' : Zone} (h : z.Buddies) (hf : z'.freeArea = z.freeArea)
    (hframe : Frame ∅ z z') : z'.Buddies := by
  have hblocks : z'.blocks = z.blocks := by
    ext b
    show _ ∧ b.start ∈ (z'.freeArea b.order).freeList ↔ _
    rw [hf]
    rfl
  have hfree : z'.free = z.free := free_of_blocks hblocks fun p => mem_free
  have hmap : ∀ p, z'.memMap p = z.memMap p := fun p => hframe.outside p (Set.notMem_empty p)
  refine ⟨hf ▸ h.aligned, hf ▸ h.nodup, hf ▸ h.nrFree, ?_, ?_, ?_, ?_⟩
  · rw [hblocks, hfree]
    exact h.tiles
  · rw [hblocks]
    exact h.coalesced
  · intro p hp
    rw [hfree] at hp
    exact hframe.clean.mpr (h.clean p hp)
  · intro p o hp
    rw [hframe.badRange] at hp
    rw [pageIsBuddy_congr (hmap p), hf]
    exact h.buddy p o hp

/-- What freeing the block `b` does. -/
structure Freed (z : Zone) (b : Block) (z' : Zone) : Prop where
  buddies : z'.Buddies
  free : z'.free = z.free ∪ b.units
  freePages : z'.freePages = z.freePages + 2 ^ b.order
  frame : Frame (z.free ∪ b.units) z z'

theorem freePagesBulkOne_spec {z : Zone} {b : Block} (hz : z.Buddies) (hb : z.Freeable b) :
    ∃ z', z.freePagesBulkOne b.start b.order = some z' ∧ Freed z b z' := by
  let z₁ : Zone := { z with freePages := z.freePages + 2 ^ b.order }
  have hframe₁ : Frame ∅ z z₁ := ⟨rfl, fun _ => Page.Same.refl _, fun _ _ => rfl⟩
  have hz₁ : z₁.Buddies := hz.of_eq rfl hframe₁
  have hb₁ : z₁.Freeable b :=
    ⟨hb.order_lt, fun p hp => hframe₁.clean.mpr (hb.clean p hp), hb.notFree⟩
  obtain ⟨z₂, c, heq, hc⟩ := coalesce_spec _ z₁ b rfl hz₁ hb₁
  refine ⟨z₂.putBlock c, ?_, ?_, ?_, ?_, ?_⟩
  · have halign : b.start &&& ((1 <<< b.order) - 1) = 0 := (and_eq_zero_iff _ _).mpr b.start_dvd
    rw [freePagesBulkOne, if_neg (not_not.mpr halign),
      if_neg (by rw [(hb.clean _ b.start_mem).range]; exact Bool.false_ne_true), heq]
    rfl
  · exact hc.buddies.put hc.freeable.order_lt hc.freeable.notFree hc.freeable.clean hc.last
  · rw [hc.buddies.free_put hc.freeable.order_lt hc.freeable.notFree, hc.free]
    rfl
  · show z₂.freePages = _
    rw [hc.freePages]
  · have hsub : c.units ⊆ z.free ∪ b.units := by
      intro p hp
      have hp' : p ∈ z₂.free ∪ c.units := Or.inr hp
      rwa [hc.free] at hp'
    have hput := (putBlock_frame z₂ c).mono hsub
    have hloop := hc.frame.mono (T := z.free ∪ b.units) Set.subset_union_left
    exact (hframe₁.mono (Set.empty_subset _)).trans (hloop.trans hput)

/-! ## `expand` -/

theorem expand_succ (n : ℕ) (z : Zone) {b : Block} {k : ℕ} (hk : b.order = k + 1) :
    expand b.start (n + 1) b.order z =
      if z.badRange (high k b).start then none
      else expand (low k b).start n (low k b).order (z.putBlock (high k b)) := by
  rw [expand, hk, Nat.add_sub_cancel, ← high_start hk, low_start hk]
  rfl

/-- The block `b` is what is left of `c`; the rest of it is free. -/
structure Expands (z : Zone) (c : Block) (low : ℕ) (z' : Zone) : Prop where
  buddies : z'.Buddies
  notFree : ∀ p ∈ (around low c.start).units, p ∉ z'.free
  free : z'.free ∪ (around low c.start).units = z.free ∪ c.units
  frame : Frame c.units z z'
  freePages : z'.freePages = z.freePages

theorem expand_spec : ∀ (n : ℕ) (z : Zone) (c : Block), n ≤ c.order →
    z.Buddies → z.Freeable c →
    ∃ z', expand c.start n c.order z = some z' ∧ Expands z c (c.order - n) z' := by
  intro n
  induction n with
  | zero =>
      intro z c _ hz hc
      have haround : around c.order c.start = c := around_eq c.start_mem
      refine ⟨z, rfl, hz, ?_, ?_, Frame.refl z, rfl⟩
      · rw [Nat.sub_zero, haround]
        exact hc.notFree
      · rw [Nat.sub_zero, haround]
  | succ n ih =>
      intro z c hn hz hc
      obtain ⟨k, hk⟩ := Nat.exists_eq_succ_of_ne_zero (show c.order ≠ 0 by omega)
      have hhigh : (high k c).units ⊆ c.units := fun p hp => (mem_halves hk).mpr (Or.inr hp)
      have hlow : (low k c).units ⊆ c.units := fun p hp => (mem_halves hk).mpr (Or.inl hp)
      have hlt : k < maxOrder := by
        have := hc.order_lt
        omega
      have hframe := (putBlock_frame z (high k c)).mono hhigh
      have hnot : ∀ p ∈ (high k c).units, p ∉ z.free := fun p hp => hc.notFree p (hhigh hp)
      have hput : (z.putBlock (high k c)).Buddies := by
        refine hz.put hlt hnot (fun p hp => hc.clean p (hhigh hp)) ?_
        intro _ hmem
        rw [high_buddy] at hmem
        exact hc.notFree _ (hlow (low k c).start_mem)
          (hz.tiles.units_subset hmem (low k c).start_mem)
      have hfree := hz.free_put (b := high k c) hlt hnot
      have hrest : (z.putBlock (high k c)).Freeable (low k c) := by
        refine ⟨hlt, fun p hp => hframe.clean.mpr (hc.clean p (hlow hp)), ?_⟩
        intro p hp hpf
        rw [hfree] at hpf
        rcases hpf with hpf | hpf
        · exact hc.notFree p (hlow hp) hpf
        · exact notMem_high hp hpf
      obtain ⟨z', heq, he⟩ := ih _ (low k c) (by show n ≤ k; omega) hput hrest
      have hrange := (hc.clean _ (hhigh (high k c).start_mem)).range
      refine ⟨z', ?_, ?_⟩
      · rw [expand_succ n z hk, hrange, if_neg Bool.false_ne_true, heq]
      · have hsame : around (c.order - (n + 1)) c.start =
            around ((low k c).order - n) (low k c).start := by
          rw [low_start hk, hk, Nat.succ_sub_succ]
          rfl
        refine ⟨he.buddies, hsame ▸ he.notFree, ?_, hframe.trans (he.frame.mono hlow),
          he.freePages⟩
        rw [hsame, he.free, hfree]
        ext p
        rw [Set.mem_union, Set.mem_union, Set.mem_union, mem_halves hk]
        tauto

/-! ## `__rmqueue` -/

/-- What allocating the block `b` does: it was free and the rest stays free. It comes
from the head of the first list of order `order` and above that is not empty. -/
structure Taken (z : Zone) (order : ℕ) (b : Block) (z' : Zone) : Prop where
  order_eq : b.order = order
  buddies : z'.Buddies
  subset : b.units ⊆ z.free
  free : z'.free = z.free \ b.units
  freePages : z'.freePages = z.freePages - 2 ^ order
  frame : Frame z.free z z'
  first : ∃ o, order ≤ o ∧ (z.freeArea o).freeList.head? = some b.start ∧
    ∀ o', order ≤ o' → o' < o → (z.freeArea o').freeList = []

/-- Taking the block `c` from its list and splitting it down to `order`. -/
theorem split_spec {z : Zone} {c : Block} {order : ℕ} (hz : z.Buddies) (hc : c ∈ z.blocks)
    (hle : order ≤ c.order) (hhead : (z.freeArea c.order).freeList.head? = some c.start)
    (hfirst : ∀ o, order ≤ o → o < c.order → (z.freeArea o).freeList = []) :
    ∃ z', expand c.start (c.order - order) c.order
        { z.takeBlock c with freePages := z.freePages - 2 ^ order } = some z' ∧
      Taken z order (around order c.start) z' := by
  let z₁ : Zone := { z.takeBlock c with freePages := z.freePages - 2 ^ order }
  have hsub : c.units ⊆ z.free := hz.tiles.units_subset hc
  have hframe₁ : Frame ∅ (z.takeBlock c) z₁ := ⟨rfl, fun _ => Page.Same.refl _, fun _ _ => rfl⟩
  have hframe := ((takeBlock_frame z c).mono hsub).trans (hframe₁.mono (Set.empty_subset _))
  have hfreeable : z₁.Freeable c := by
    refine ⟨hc.1, fun p hp => hframe.clean.mpr (hz.clean p (hsub hp)), ?_⟩
    intro p hp hpf
    have hpf' : p ∈ (z.takeBlock c).free := hpf
    rw [hz.free_take hc] at hpf'
    exact hpf'.2 hp
  obtain ⟨z', heq, he⟩ := expand_spec (c.order - order) z₁ c (Nat.sub_le _ _)
    ((hz.take hc).of_eq rfl hframe₁) hfreeable
  have hnot := he.notFree
  have hfree : z'.free ∪ (around (c.order - (c.order - order)) c.start).units =
      z.free \ c.units ∪ c.units := he.free.trans (congrArg (· ∪ _) (hz.free_take hc))
  rw [Nat.sub_sub_self hle] at hnot hfree
  have hb : (around order c.start).units ⊆ c.units :=
    Block.units_subset hle (mem_around order c.start) c.start_mem
  have hstart : (around order c.start).start = c.start :=
    around_start ((Nat.pow_dvd_pow 2 hle).trans c.start_dvd)
  refine ⟨z', heq, rfl, he.buddies, hb.trans hsub, ?_, he.freePages, hframe.trans
    (he.frame.mono hsub), c.order, hle, ?_, hfirst⟩
  · ext p
    have hp := Set.ext_iff.mp hfree p
    rw [Set.mem_union, Set.mem_union, Set.mem_sdiff] at hp
    rw [Set.mem_sdiff]
    have hnotp := hnot p
    have hsubp := @hsub p
    have hbp := @hb p
    tauto
  · rw [hhead, hstart]

theorem rmqueueFrom_cons {z : Zone} {order current page : ℕ} {rest : List ℕ} (n : ℕ)
    (hlist : (z.freeArea current).freeList = page :: rest)
    (hstart : (around current page).start = page) :
    z.rmqueueFrom order (n + 1) current =
      (expand page (current - order) current
        { z.takeBlock (around current page) with freePages := z.freePages - 2 ^ order }).map
        fun z' => (z', some page) := by
  rw [rmqueueFrom, hlist, takeBlock, hstart]
  show (expand page (current - order) current _).bind _ = _
  rw [Option.map_eq_bind]
  rfl

theorem rmqueueFrom_spec {z : Zone} (hz : z.Buddies) (order : ℕ) :
    ∀ n current, n = maxOrder - current → order ≤ current →
      (∀ o, order ≤ o → o < current → (z.freeArea o).freeList = []) →
      (z.rmqueueFrom order n current = some (z, none) ∧
        ∀ o, order ≤ o → (z.freeArea o).freeList = []) ∨
      ∃ z' b, z.rmqueueFrom order n current = some (z', some b.start) ∧ Taken z order b z' := by
  intro n
  induction n with
  | zero =>
      intro current hn _ hempty
      refine Or.inl ⟨rfl, fun o ho => ?_⟩
      by_cases hlt : o < current
      · exact hempty o ho hlt
      · refine List.eq_nil_iff_forall_not_mem.mpr fun p hp => ?_
        have := (hz.aligned o p hp).1
        omega
  | succ n ih =>
      intro current hn hle hempty
      cases hlist : (z.freeArea current).freeList with
      | nil =>
          have hstep : z.rmqueueFrom order (n + 1) current =
              z.rmqueueFrom order n (current + 1) := by
            rw [rmqueueFrom, hlist]
          rw [hstep]
          refine ih (current + 1) (by omega) (by omega) fun o ho hlt => ?_
          by_cases heq : o = current
          · rw [heq, hlist]
          · exact hempty o ho (by omega)
      | cons page rest =>
          have hpage : page ∈ (z.freeArea current).freeList := by
            rw [hlist]
            exact List.mem_cons_self
          have hstart := around_start (hz.aligned current page hpage).2
          have hhead : (z.freeArea current).freeList.head? =
              some (around current page).start := by
            rw [hlist, hstart]
            rfl
          obtain ⟨z', heq, htaken⟩ :=
            split_spec hz (hz.around_mem hpage) hle hhead hempty
          refine Or.inr ⟨z', around order (around current page).start, ?_, htaken⟩
          have hbstart : (around order (around current page).start).start = page := by
            rw [hstart]
            exact around_start ((Nat.pow_dvd_pow 2 hle).trans (hz.aligned current page hpage).2)
          rw [hstart] at heq
          rw [rmqueueFrom_cons n hlist hstart, hbstart, show expand page (current - order) current
            { z.takeBlock (around current page) with freePages := z.freePages - 2 ^ order } =
              some z' from heq]
          rfl

theorem rmqueue_spec {z : Zone} (hz : z.Buddies) (order : ℕ) :
    (z.rmqueue order = some (z, none) ∧ ∀ o, order ≤ o → (z.freeArea o).freeList = []) ∨
      ∃ z' b, z.rmqueue order = some (z', some b.start) ∧ Taken z order b z' :=
  rmqueueFrom_spec hz order _ order rfl (le_refl _) fun _ h h' => absurd h' (by omega)

/-- **An allocation fails only when no block can be made**: no aligned run of that
many pages is free. -/
theorem rmqueue_none_iff {z : Zone} (hz : z.Buddies) {order : ℕ} (ho : order < maxOrder) :
    z.rmqueue order = some (z, none) ↔ ∀ a : Block, a.order = order → ¬ a.units ⊆ z.free := by
  rcases rmqueue_spec hz order with ⟨hnone, hempty⟩ | ⟨z', b, hsome, htaken⟩
  · refine ⟨fun _ a ha hsub => ?_, fun _ => hnone⟩
    obtain ⟨b, hb, hle, _⟩ :=
      hz.tiles.exists_block hz.coalesced order a ha (Nat.le_sub_one_of_lt ho) hsub
    have hmem := hb.2
    rw [hempty b.order hle] at hmem
    cases hmem
  · constructor
    · intro hnone
      rw [hsome] at hnone
      cases hnone
    · intro hnot
      exact absurd htaken.subset (hnot b htaken.order_eq)

/-- Two coalesced zones with the same pages free have the same blocks on every list. -/
theorem Buddies.perm {z z' : Zone} (hz : z.Buddies) (hz' : z'.Buddies)
    (hfree : z'.free = z.free) (o : ℕ) :
    (z'.freeArea o).freeList.Perm (z.freeArea o).freeList := by
  have hblocks : z'.blocks = z.blocks := by
    rw [hz.tiles.eq_maximal hz.coalesced, hz'.tiles.eq_maximal hz'.coalesced, hfree]
  have hmem : ∀ (z : Zone) (p : ℕ), z.Buddies →
      (p ∈ (z.freeArea o).freeList ↔ 2 ^ o ∣ p ∧ around o p ∈ z.blocks) := by
    intro z p hz
    refine ⟨fun hp => ⟨(hz.aligned o p hp).2, hz.around_mem hp⟩, fun hp => ?_⟩
    have hstart := hp.2.2
    rwa [around_start hp.1] at hstart
  rw [List.perm_ext_iff_of_nodup (hz'.nodup o) (hz.nodup o)]
  intro p
  rw [hmem z' p hz', hmem z p hz, hblocks]

/-! ## Counting free pages -/

/-- The free blocks, list by list. -/
def blockFinset (z : Zone) : Finset Block :=
  (Finset.range maxOrder).biUnion fun o => (z.freeArea o).freeList.toFinset.image (around o)

namespace Buddies

variable {z : Zone}

theorem coe_blockFinset (h : z.Buddies) : (z.blockFinset : Set Block) = z.blocks := by
  ext b
  rw [Finset.mem_coe, blockFinset, Finset.mem_biUnion]
  constructor
  · rintro ⟨o, _, hb⟩
    obtain ⟨p, hp, rfl⟩ := Finset.mem_image.mp hb
    exact h.around_mem (List.mem_toFinset.mp hp)
  · intro hb
    refine ⟨b.order, Finset.mem_range.mpr hb.1, Finset.mem_image.mpr
      ⟨b.start, List.mem_toFinset.mpr hb.2, around_eq b.start_mem⟩⟩

theorem finite_free (h : z.Buddies) : z.free.Finite := by
  refine Set.Finite.subset
    (Set.Finite.biUnion z.blockFinset.finite_toSet fun b _ => b.finite_units) ?_
  intro p hp
  obtain ⟨b, hb, hpb⟩ := hp
  rw [← h.coe_blockFinset] at hb
  exact Set.mem_biUnion hb hpb

/-- The lists account for every free page. -/
theorem ncard_free (h : z.Buddies) :
    (z.free.ncard : Int) = ∑ o ∈ Finset.range maxOrder, (z.freeArea o).nrFree * 2 ^ o := by
  have htiles := h.tiles
  rw [← h.coe_blockFinset] at htiles
  rw [htiles.ncard_eq, blockFinset, Finset.sum_biUnion]
  · push_cast
    refine Finset.sum_congr rfl fun o _ => ?_
    rw [Finset.sum_image]
    · show ∑ p ∈ (z.freeArea o).freeList.toFinset, (2 : Int) ^ o = _
      rw [Finset.sum_const, List.toFinset_card_of_nodup (h.nodup o), h.nrFree, nsmul_eq_mul]
    · intro p hp q hq heq
      have hp' := around_start (h.aligned o p (List.mem_toFinset.mp hp)).2
      have hq' := around_start (h.aligned o q (List.mem_toFinset.mp hq)).2
      have heq' : around o p = around o q := heq
      rw [← hp', ← hq', heq']
  · intro o _ o' _ hne
    refine Finset.disjoint_left.mpr fun b hb hb' => hne ?_
    obtain ⟨p, _, rfl⟩ := Finset.mem_image.mp hb
    obtain ⟨q, _, hq⟩ := Finset.mem_image.mp hb'
    exact (congrArg Block.order hq).symm

end Buddies

/-- `zone->free_pages` is the number of free pages. -/
def Accounted (z : Zone) : Prop := z.freePages = z.free.ncard

theorem Freed.accounted {z z' : Zone} {b : Block} (h : Freed z b z') (hz : z.Buddies)
    (hb : z.Freeable b) (hacc : z.Accounted) : z'.Accounted := by
  have hdisj : Disjoint z.free b.units :=
    Set.disjoint_left.mpr fun p hp hpb => hb.notFree p hpb hp
  rw [Accounted, h.freePages, h.free, Set.ncard_union_eq hdisj hz.finite_free b.finite_units,
    ncard_units, hacc]
  push_cast
  rfl

theorem Taken.accounted {z z' : Zone} {order : ℕ} {b : Block} (h : Taken z order b z')
    (hz : z.Buddies) (hacc : z.Accounted) : z'.Accounted := by
  have hcard := Set.ncard_sdiff_add_ncard_of_subset h.subset hz.finite_free
  rw [ncard_units, h.order_eq] at hcard
  rw [Accounted, h.freePages, h.free, hacc, ← hcard]
  push_cast
  ring

/-! ## Watermarks -/

/-- The pages of free blocks below order `o`. -/
def below (z : Zone) (o : ℕ) : Int := ∑ j ∈ Finset.range o, (z.freeArea j).nrFree * 2 ^ j

theorem watermarkLoop_iff (z : Zone) : ∀ (n o : ℕ) (freePages min : Int),
    z.watermarkLoop n o freePages min = true ↔
      ∀ k, k < n → min >>> (k + 1) < freePages - (z.below (o + k + 1) - z.below o) := by
  intro n
  induction n with
  | zero => exact fun _ _ _ => ⟨fun _ k hk => absurd hk (Nat.not_lt_zero k), fun _ => rfl⟩
  | succ n ih =>
      intro o freePages min
      have hbelow : z.below (o + 1) = z.below o + (z.freeArea o).nrFree * 2 ^ o :=
        Finset.sum_range_succ ..
      rw [watermarkLoop]
      by_cases hle : freePages - (z.freeArea o).nrFree * 2 ^ o ≤ min >>> (1 : ℕ)
      · simp only [if_pos hle]
        refine ⟨fun h => absurd h Bool.false_ne_true, fun h => ?_⟩
        have h₀ := h 0 (Nat.succ_pos n)
        rw [zero_add, add_zero, hbelow] at h₀
        omega
      · simp only [if_neg hle]
        rw [ih]
        constructor
        · intro h k hk
          cases k with
          | zero =>
              rw [zero_add, add_zero, hbelow]
              omega
          | succ k =>
              have hk' := h k (by omega)
              rw [← Int.shiftRight_add, hbelow] at hk'
              rw [show o + (k + 1) + 1 = o + 1 + k + 1 by omega,
                show k + 1 + 1 = 1 + (k + 1) by omega]
              omega
        · intro h k hk
          have hk' := h (k + 1) (by omega)
          rw [show o + (k + 1) + 1 = o + 1 + k + 1 by omega,
            show k + 1 + 1 = 1 + (k + 1) by omega, Int.shiftRight_add] at hk'
          rw [hbelow]
          omega

/-- **What `zone_watermark_ok` tests.** For every order up to the requested one, the
pages left in blocks of at least that order, the request taken off, are above the
mark halved that many times. -/
theorem watermarkOk_iff (z : Zone) (order mark classzoneIdx : ℕ) (canTryHarder gfpHigh : Bool) :
    z.watermarkOk order mark classzoneIdx canTryHarder gfpHigh = true ↔
      (watermarkMin mark canTryHarder gfpHigh + z.lowmemReserve classzoneIdx) % 2 ^ 32 <
          (z.freePages - 2 ^ order + 1) % 2 ^ 32 ∧
        ∀ k, k < order → watermarkMin mark canTryHarder gfpHigh >>> (k + 1) <
          z.freePages - z.below (k + 1) - 2 ^ order + 1 := by
  have hzero : z.below 0 = 0 := Finset.sum_range_zero _
  rw [watermarkOk]
  by_cases hle : (z.freePages - 2 ^ order + 1) % 2 ^ 32 ≤
      (watermarkMin mark canTryHarder gfpHigh + z.lowmemReserve classzoneIdx) % 2 ^ 32
  · simp only [if_pos hle]
    exact ⟨fun h => absurd h Bool.false_ne_true, fun h => absurd h.1 (not_lt.mpr hle)⟩
  · simp only [if_neg hle]
    rw [watermarkLoop_iff]
    have hlt := lt_of_not_ge hle
    refine ⟨fun h => ⟨hlt, fun k hk => ?_⟩, fun h k hk => ?_⟩
    · have hk' := h k hk
      rw [zero_add, hzero] at hk'
      omega
    · have hk' := h.2 k hk
      rw [zero_add, hzero]
      omega

theorem watermarkMin_nonneg {mark : ℕ} (hmark : mark < 2 ^ 31) (canTryHarder gfpHigh : Bool) :
    0 ≤ watermarkMin mark canTryHarder gfpHigh := by
  have hlong : (mark : Int).bmod (2 ^ 32) = mark := by
    apply Int.bmod_eq_of_le
    · omega
    · omega
  have htwo := Int.tdiv_eq_ediv_of_nonneg (b := 2) (Int.natCast_nonneg mark)
  have hfour := fun (n : Int) (hn : 0 ≤ n) => Int.tdiv_eq_ediv_of_nonneg (b := 4) hn
  rw [watermarkMin, hlong]
  cases gfpHigh <;> cases canTryHarder
  · show 0 ≤ (mark : Int)
    omega
  · show 0 ≤ (mark : Int) - (mark : Int).tdiv 4
    rw [hfour _ (by omega)]
    omega
  · show 0 ≤ (mark : Int) - (mark : Int).tdiv 2
    rw [htwo]
    omega
  · show 0 ≤ (mark : Int) - (mark : Int).tdiv 2 -
      ((mark : Int) - (mark : Int).tdiv 2).tdiv 4
    rw [htwo, hfour _ (by omega)]
    omega

/-- **A zone that passes its watermark test has the block.** -/
theorem rmqueue_of_watermarkOk {z : Zone} (hz : z.Buddies) (hacc : z.Accounted)
    {order mark classzoneIdx : ℕ} {canTryHarder gfpHigh : Bool} (ho : order < maxOrder)
    (hmark : mark < 2 ^ 31)
    (hok : z.watermarkOk order mark classzoneIdx canTryHarder gfpHigh = true) :
    ∃ z' b, z.rmqueue order = some (z', some b.start) ∧ Taken z order b z' := by
  rcases rmqueue_spec hz order with ⟨_, hempty⟩ | hsome
  · exfalso
    rw [watermarkOk_iff] at hok
    have hmin := watermarkMin_nonneg hmark canTryHarder gfpHigh
    have hpow : (1 : Int) ≤ 2 ^ order := by
      have := Nat.one_le_two_pow (n := order)
      exact_mod_cast this
    -- all free pages are in blocks below the requested order
    have htotal : z.freePages = z.below order := by
      rw [hacc, hz.ncard_free, below]
      refine (Finset.sum_subset (Finset.range_mono ho.le) fun o _ hnot => ?_).symm
      have hoo : order ≤ o := by
        rw [Finset.mem_range] at hnot
        omega
      rw [hz.nrFree, hempty o hoo, List.length_nil, Nat.cast_zero, zero_mul]
    cases order with
    | zero =>
        have hzero : z.below 0 = 0 := Finset.sum_range_zero _
        rw [htotal, hzero] at hok
        omega
    | succ k =>
        have hk := hok.2 k (Nat.lt_succ_self k)
        have hshift : 0 ≤ watermarkMin mark canTryHarder gfpHigh >>> (k + 1) := by
          rw [Int.shiftRight_eq_div_pow]
          exact Int.ediv_nonneg hmin (by positivity)
        rw [htotal] at hk
        omega
  · exact hsome

end Zone

end LinuxHacks.PageAlloc
