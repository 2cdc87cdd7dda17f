import LinuxHacks.Lib.Parts
import LinuxHacks.PageAlloc.Blocks

/-!
# Pages over whole runs

CPUs allocate and free pages of one zone in any order; a step is one section
under `zone->lock` or with interrupts off. Between the steps a page is in a free
block, on one of the per-CPU lists, or with whoever got it from the allocator
(`Home`). The holder of a page writes its `struct page` as it likes, except that
the page must not look like the head of a free block.

`Inv` is kept by every step (`Inv.run`), and under it no step runs into a
`BUG_ON`.
-/

namespace LinuxHacks.PageAlloc

open LinuxHacks.Lib LinuxHacks.Lib.Buddy LinuxHacks.Lib.Buddy.Block

namespace Zone

/-! ## `free_pages_bulk` -/

/-- The blocks of `order` at `ps` have become free. -/
structure FreedAll (z : Zone) (order : ℕ) (ps : List ℕ) (z' : Zone) : Prop where
  buddies : z'.Buddies
  free : ∀ q, q ∈ z'.free ↔ q ∈ z.free ∨ ∃ p ∈ ps, q ∈ (around order p).units
  accounted : z.Accounted → z'.Accounted
  frame : Frame z'.free z z'

theorem freePagesBulkLoop_spec (order : ℕ) : ∀ (l : List ℕ) (n : ℕ) (z : Zone), z.Buddies →
    (∀ p ∈ l, 2 ^ order ∣ p ∧ z.Freeable (around order p)) → l.Nodup →
    ∃ z', freePagesBulkLoop order l n z = some (z', l.drop n, ((l.take n).length : Int)) ∧
      FreedAll z order (l.take n) z' := by
  intro l
  induction l with
  | nil =>
      intro n z hz _ _
      rw [List.drop_nil, List.take_nil]
      exact ⟨z, rfl, hz, fun q => by simp, id, Frame.refl z⟩
  | cons p l ih =>
      intro n z hz hl hnodup
      cases n with
      | zero => exact ⟨z, rfl, hz, fun q => by simp, id, Frame.refl z⟩
      | succ n =>
          obtain ⟨hdvd, hp⟩ := hl p List.mem_cons_self
          obtain ⟨z₁, heq, h₁⟩ := freePagesBulkOne_spec hz hp
          rw [around_start hdvd] at heq
          obtain ⟨hpl, hnodup'⟩ := List.nodup_cons.mp hnodup
          have hrest : ∀ q ∈ l, 2 ^ order ∣ q ∧ z₁.Freeable (around order q) := by
            intro q hq
            obtain ⟨hqdvd, hqf⟩ := hl q (List.mem_cons_of_mem p hq)
            refine ⟨hqdvd, hqf.order_lt, fun r hr => h₁.frame.clean.mpr (hqf.clean r hr), ?_⟩
            intro r hr hrf
            rw [h₁.free] at hrf
            rcases hrf with hrf | hrf
            · exact hqf.notFree r hr hrf
            · have hpq := congrArg Block.start (eq_of_mem (a := around order q) (b := around order p) rfl hr hrf)
              rw [around_start hqdvd, around_start hdvd] at hpq
              exact hpl (hpq ▸ hq)
          obtain ⟨z', heq', h'⟩ := ih n z₁ h₁.buddies hrest hnodup'
          refine ⟨z', ?_, h'.buddies, ?_, fun hacc => h'.accounted (h₁.accounted hz hp hacc), ?_⟩
          · rw [freePagesBulkLoop, if_neg (by omega)]
            show (z.freePagesBulkOne p order).bind _ = _
            rw [show z.freePagesBulkOne p order = some z₁ from heq, Option.bind_some,
              Nat.cast_succ, add_sub_cancel_right]
            show (freePagesBulkLoop order l n z₁).bind _ = _
            rw [heq']
            rfl
          · intro q
            rw [h'.free, h₁.free, List.take_succ_cons, Set.mem_union]
            simp only [List.mem_cons, exists_eq_or_imp]
            exact or_assoc
          · refine (h₁.frame.mono ?_).trans h'.frame
            intro q hq
            exact (h'.free q).mpr (Or.inl (h₁.free ▸ hq))

/-- **`free_pages_bulk`** frees blocks from the tail of the list. -/
theorem freePagesBulk_spec {z : Zone} {l : List ℕ} {order : ℕ} (n : ℕ) (hz : z.Buddies)
    (hl : ∀ p ∈ l, 2 ^ order ∣ p ∧ z.Freeable (around order p)) (hnodup : l.Nodup) :
    ∃ z' left freed, z.freePagesBulk n l order = some (z', left, (freed.length : Int)) ∧
      l = left ++ freed ∧ freed.length = min n l.length ∧ FreedAll z order freed z' := by
  let z₁ : Zone := { z with allUnreclaimable := false, pagesScanned := 0 }
  have hframe₁ : Frame ∅ z z₁ := ⟨rfl, fun _ => Page.Same.refl _, fun _ _ => rfl⟩
  have hl₁ : ∀ p ∈ l.reverse, 2 ^ order ∣ p ∧ z₁.Freeable (around order p) := by
    intro p hp
    obtain ⟨hdvd, hf⟩ := hl p (List.mem_reverse.mp hp)
    exact ⟨hdvd, hf.order_lt, fun q hq => hframe₁.clean.mpr (hf.clean q hq), hf.notFree⟩
  obtain ⟨z', heq, h'⟩ := freePagesBulkLoop_spec order l.reverse n z₁ (hz.of_eq rfl hframe₁) hl₁
    (List.nodup_reverse.mpr hnodup)
  refine ⟨z', (l.reverse.drop n).reverse, (l.reverse.take n).reverse, ?_, ?_, ?_, h'.buddies,
    ?_, h'.accounted, (hframe₁.mono (Set.empty_subset _)).trans h'.frame⟩
  · rw [freePagesBulk]
    show (freePagesBulkLoop order l.reverse n z₁).bind _ = _
    rw [heq, List.length_reverse]
    rfl
  · rw [← List.reverse_append, List.take_append_drop, List.reverse_reverse]
  · rw [List.length_reverse, List.length_take, List.length_reverse]
  · intro q
    rw [h'.free]
    simp only [List.mem_reverse]
    exact Iff.rfl

/-! ## `rmqueue_bulk` -/

/-- The pages `ps` have been taken from the free blocks. -/
structure TakenAll (z : Zone) (ps : List ℕ) (z' : Zone) : Prop where
  buddies : z'.Buddies
  nodup : ps.Nodup
  subset : ∀ p ∈ ps, p ∈ z.free
  free : ∀ q, q ∈ z'.free ↔ q ∈ z.free ∧ q ∉ ps
  accounted : z.Accounted → z'.Accounted
  frame : Frame z.free z z'

theorem units_zero {b : Block} (hb : b.order = 0) (q : ℕ) : q ∈ b.units ↔ q = b.start := by
  rw [mem_units_iff, hb]
  omega

theorem rmqueueBulk_spec : ∀ (n : ℕ) (z : Zone) (list : List ℕ), z.Buddies →
    ∃ z' ps, rmqueueBulk 0 n z list = some (z', list ++ ps, (ps.length : Int)) ∧
      ps.length ≤ n ∧ TakenAll z ps z' := by
  intro n
  induction n with
  | zero =>
      intro z list hz
      exact ⟨z, [], by rw [rmqueueBulk, List.append_nil]; rfl, le_refl _, hz, List.nodup_nil,
        fun p hp => absurd hp List.not_mem_nil, fun q => by simp, id, Frame.refl z⟩
  | succ n ih =>
      intro z list hz
      rcases rmqueue_spec hz 0 with ⟨hnone, _⟩ | ⟨z₁, b, hsome, h₁⟩
      · refine ⟨z, [], ?_, Nat.zero_le _, hz, List.nodup_nil,
          fun p hp => absurd hp List.not_mem_nil, fun q => by simp, id, Frame.refl z⟩
        rw [rmqueueBulk, hnone, List.append_nil]
        rfl
      · obtain ⟨z', ps, heq, hlen, h'⟩ := ih z₁ (list ++ [b.start]) h₁.buddies
        have hfree₁ : ∀ q, q ∈ z₁.free ↔ q ∈ z.free ∧ q ≠ b.start := by
          intro q
          rw [h₁.free, Set.mem_sdiff, units_zero h₁.order_eq]
        have hnot : b.start ∉ ps := fun hp => ((hfree₁ _).mp (h'.subset _ hp)).2 rfl
        refine ⟨z', b.start :: ps, ?_, Nat.succ_le_succ hlen, h'.buddies,
          List.nodup_cons.mpr ⟨hnot, h'.nodup⟩, ?_, ?_,
          fun hacc => h'.accounted (h₁.accounted hz hacc), ?_⟩
        · rw [rmqueueBulk, hsome]
          show (rmqueueBulk 0 n z₁ (list ++ [b.start])).bind _ = _
          rw [heq, List.append_assoc, List.length_cons, Nat.cast_succ]
          rfl
        · intro p hp
          rcases List.mem_cons.mp hp with rfl | hp
          · exact h₁.subset b.start_mem
          · exact ((hfree₁ p).mp (h'.subset p hp)).1
        · intro q
          rw [h'.free, hfree₁, List.mem_cons]
          tauto
        · exact h₁.frame.trans (h'.frame.mono fun q hq => ((hfree₁ q).mp hq).1)

/-! ## Where a page is -/

inductive Home where
  | buddy
  | pcp (cpu : ℕ) (cold : Bool)
  | held
deriving DecidableEq

/-- The pages at each place; `held` are the pages given out. -/
def home (z : Zone) (held : Set ℕ) : Home → Set ℕ
  | .buddy => z.free
  | .pcp cpu cold => {p | p ∈ (z.pageset cpu cold).list}
  | .held => held

/-- Every page of the zone is at one place and the counters are right. -/
structure Placed (batch : ℕ) (z : Zone) (held : Set ℕ) : Prop where
  buddies : z.Buddies
  accounted : z.Accounted
  parts : Parts {p | z.badRange p = false} (z.home held)
  clean : ∀ cpu cold, ∀ p ∈ (z.pageset cpu cold).list, z.Clean p
  nodup : ∀ cpu cold, (z.pageset cpu cold).list.Nodup
  count : ∀ cpu cold, (z.pageset cpu cold).count = (z.pageset cpu cold).list.length
  low : ∀ cpu cold, (z.pageset cpu cold).low = (pcpInit batch cold).low
  high : ∀ cpu cold, (z.pageset cpu cold).high = (pcpInit batch cold).high
  batch : ∀ cpu cold, (z.pageset cpu cold).batch = batch

/-- A page that `page_is_buddy` takes for the head of a free block of some order. -/
def LooksFree (p : Page) : Prop :=
  p.flags .priv = true ∧ p.flags .reserved = false ∧ p.count = 0

section Moves

variable {batch cpu : ℕ} {cold : Bool} {z : Zone} {held : Set ℕ}

theorem setPcp_pageset (z : Zone) (cpu cpu' : ℕ) (cold cold' : Bool) (q : PerCpuPages) :
    (z.setPcp cpu cold q).pageset cpu' cold' =
      if cpu' = cpu ∧ cold' = cold then q else z.pageset cpu' cold' := by
  show Function.update z.pageset cpu (Function.update (z.pageset cpu) cold q) cpu' cold' = _
  by_cases hcpu : cpu' = cpu
  · rw [hcpu, Function.update_self, Function.update_apply]
    by_cases hcold : cold' = cold
    · rw [if_pos hcold, if_pos ⟨rfl, hcold⟩]
    · rw [if_neg hcold, if_neg fun h => hcold h.2]
  · rw [Function.update_of_ne hcpu, if_neg fun h => hcpu h.1]

theorem setPcp_setPcp (z : Zone) (cpu : ℕ) (cold : Bool) (q r : PerCpuPages) :
    (z.setPcp cpu cold q).setPcp cpu cold r = z.setPcp cpu cold r := by
  rw [setPcp, setPcp, setPcp]
  simp only [Function.update_self, Function.update_idem]

theorem home_setPcp_self (z : Zone) (held : Set ℕ) (cpu : ℕ) (cold : Bool) (q : PerCpuPages) :
    (z.setPcp cpu cold q).home held (.pcp cpu cold) = {p | p ∈ q.list} := by
  show {p | p ∈ ((z.setPcp cpu cold q).pageset cpu cold).list} = _
  rw [setPcp_pageset, if_pos ⟨rfl, rfl⟩]

/-- The other places stay as they are. -/
theorem home_setPcp_of_ne {z' : Zone} (hpageset : z'.pageset = z.pageset) (held held' : Set ℕ)
    (q : PerCpuPages) {k : Home} (hk : k ≠ .pcp cpu cold) (hb : k ≠ .buddy) (hh : k ≠ .held) :
    (z'.setPcp cpu cold q).home held' k = z.home held k := by
  cases k with
  | buddy => exact absurd rfl hb
  | held => exact absurd rfl hh
  | pcp c d =>
      show {p | p ∈ ((z'.setPcp cpu cold q).pageset c d).list} = _
      rw [setPcp_pageset, if_neg, hpageset]
      · rfl
      · rintro ⟨rfl, rfl⟩
        exact hk rfl

theorem Buddies.setPcp (h : z.Buddies) (cpu : ℕ) (cold : Bool) (q : PerCpuPages) :
    (z.setPcp cpu cold q).Buddies :=
  ⟨h.aligned, h.nodup, h.nrFree, h.tiles, h.coalesced,
    fun p hp => ⟨(h.clean p hp).range, (h.clean p hp).count, (h.clean p hp).reserved⟩, h.buddy⟩

/-- A change of one per-CPU list beside one of the free lists. -/
theorem Placed.of_moved (h : Placed batch z held) {S X : Set ℕ} {held' : Set ℕ} {z₁ : Zone}
    {q : PerCpuPages} {i j : Home} (hframe : Frame S z z₁) (hz₁ : z₁.Buddies)
    (hacc : z₁.Accounted)
    (hq : q.low = (z.pageset cpu cold).low ∧ q.high = (z.pageset cpu cold).high ∧
      q.batch = (z.pageset cpu cold).batch)
    (hcount : q.count = q.list.length) (hnodup : q.list.Nodup) (hclean : ∀ p ∈ q.list, z.Clean p)
    (hm : Moved (z.home held) ((z₁.setPcp cpu cold q).home held') X i j) :
    Placed batch (z₁.setPcp cpu cold q) held' := by
  have hpageset := hframe.pageset
  have hcases : ∀ cpu' cold', ((z₁.setPcp cpu cold q).pageset cpu' cold' = q ∧ cpu' = cpu ∧
      cold' = cold) ∨ (z₁.setPcp cpu cold q).pageset cpu' cold' = z.pageset cpu' cold' := by
    intro cpu' cold'
    rw [setPcp_pageset, hpageset]
    by_cases heq : cpu' = cpu ∧ cold' = cold
    · exact Or.inl ⟨if_pos heq, heq⟩
    · exact Or.inr (if_neg heq)
  refine ⟨hz₁.setPcp cpu cold q, hacc, ?_, ?_, ?_, ?_, ?_, ?_, ?_⟩
  · have hsame : {p | (z₁.setPcp cpu cold q).badRange p = false} =
        {p | z.badRange p = false} := by
      ext p
      show z₁.badRange p = false ↔ z.badRange p = false
      rw [hframe.badRange]
    rw [hsame]
    exact h.parts.move hm
  · intro c d p hp
    have hcl : z.Clean p := by
      rcases hcases c d with ⟨heq, _⟩ | heq <;> rw [heq] at hp
      · exact hclean p hp
      · exact h.clean c d p hp
    have hcl₁ := hframe.clean.mpr hcl
    exact ⟨hcl₁.range, hcl₁.count, hcl₁.reserved⟩
  · intro c d
    rcases hcases c d with ⟨heq, _⟩ | heq <;> rw [heq]
    · exact hnodup
    · exact h.nodup c d
  · intro c d
    rcases hcases c d with ⟨heq, _⟩ | heq <;> rw [heq]
    · exact hcount
    · exact h.count c d
  · intro c d
    rcases hcases c d with ⟨heq, rfl, rfl⟩ | heq <;> rw [heq]
    · exact hq.1.trans (h.low c d)
    · exact h.low c d
  · intro c d
    rcases hcases c d with ⟨heq, rfl, rfl⟩ | heq <;> rw [heq]
    · exact hq.2.1.trans (h.high c d)
    · exact h.high c d
  · intro c d
    rcases hcases c d with ⟨heq, rfl, rfl⟩ | heq <;> rw [heq]
    · exact hq.2.2.trans (h.batch c d)
    · exact h.batch c d

/-! ## Moves between the places -/

/-- `free_pages_bulk` on a per-CPU list. -/
theorem Placed.unpark (h : Placed batch z held) (cpu : ℕ) (cold : Bool) (n : ℕ) :
    ∃ z₁ left freed,
      z.freePagesBulk n (z.pageset cpu cold).list 0 = some (z₁, left, (freed.length : Int)) ∧
      freed.length = min n (z.pageset cpu cold).list.length ∧
      (z.pageset cpu cold).list = left ++ freed ∧ Frame z₁.free z z₁ ∧
      Placed batch (z₁.setPcp cpu cold { z.pageset cpu cold with
        count := (z.pageset cpu cold).count - freed.length, list := left }) held := by
  have hfreeable : ∀ p ∈ (z.pageset cpu cold).list, 2 ^ 0 ∣ p ∧ z.Freeable (around 0 p) := by
    intro p hp
    have hunits : ∀ q ∈ (around 0 p).units, q = p := by
      intro q hq
      rw [units_zero rfl] at hq
      rw [hq, around_start (by rw [pow_zero]; exact one_dvd p)]
    refine ⟨by rw [pow_zero]; exact one_dvd p, Nat.succ_pos 10, ?_, ?_⟩
    · intro q hq
      rw [hunits q hq]
      exact h.clean cpu cold p hp
    · intro q hq
      rw [hunits q hq]
      exact h.parts.notMem (i := .pcp cpu cold) (j := .buddy) hp (by simp)
  obtain ⟨z₁, left, freed, heq, hlist, hlen, hfreed⟩ :=
    freePagesBulk_spec n h.buddies hfreeable (h.nodup cpu cold)
  have hfree : ∀ q, q ∈ z₁.free ↔ q ∈ z.free ∨ q ∈ freed := by
    intro q
    rw [hfreed.free]
    refine or_congr Iff.rfl ⟨?_, fun hq => ⟨q, hq, mem_around 0 q⟩⟩
    rintro ⟨p, hp, hq⟩
    rw [units_zero rfl, around_start (by rw [pow_zero]; exact one_dvd p)] at hq
    exact hq ▸ hp
  have hnodup := h.nodup cpu cold
  have hcount := h.count cpu cold
  rw [hlist] at hnodup hcount
  obtain ⟨hleft, _, hdisj⟩ := List.nodup_append.mp hnodup
  refine ⟨z₁, left, freed, heq, hlen, hlist, hfreed.frame, ?_⟩
  refine h.of_moved hfreed.frame hfreed.buddies (hfreed.accounted h.accounted) ⟨rfl, rfl, rfl⟩
    ?_ hleft ?_ (X := {p | p ∈ freed}) (i := .pcp cpu cold) (j := .buddy) ⟨by simp, ?_, ?_, ?_, ?_⟩
  · show (z.pageset cpu cold).count - (freed.length : Int) = left.length
    rw [hcount, List.length_append]
    push_cast
    ring
  · intro p hp
    exact h.clean cpu cold p (hlist ▸ List.mem_append_left freed hp)
  · intro p hp
    exact (hlist ▸ List.mem_append_right left hp : p ∈ (z.pageset cpu cold).list)
  · rw [home_setPcp_self]
    ext p
    show p ∈ left ↔ p ∈ (z.pageset cpu cold).list ∧ p ∉ freed
    rw [hlist, List.mem_append]
    have hp := fun h₁ h₂ => hdisj p h₁ p h₂ rfl
    tauto
  · ext p
    exact hfree p
  · intro k hi hj
    by_cases hh : k = .held
    · rw [hh]
      rfl
    · exact home_setPcp_of_ne hfreed.frame.pageset held held _ hi hj hh

/-- `rmqueue_bulk` to a per-CPU list. -/
theorem Placed.refill (h : Placed batch z held) (cpu : ℕ) (cold : Bool) (n : ℕ) :
    ∃ z₁ ps, rmqueueBulk 0 n z (z.pageset cpu cold).list =
        some (z₁, (z.pageset cpu cold).list ++ ps, (ps.length : Int)) ∧
      ps.length ≤ n ∧ TakenAll z ps z₁ ∧
      Placed batch (z₁.setPcp cpu cold { z.pageset cpu cold with
        count := (z.pageset cpu cold).count + ps.length,
        list := (z.pageset cpu cold).list ++ ps }) held := by
  obtain ⟨z₁, ps, heq, hlen, htaken⟩ := rmqueueBulk_spec n z (z.pageset cpu cold).list h.buddies
  refine ⟨z₁, ps, heq, hlen, htaken, ?_⟩
  refine h.of_moved htaken.frame htaken.buddies (htaken.accounted h.accounted) ⟨rfl, rfl, rfl⟩
    ?_ ?_ ?_ (X := {p | p ∈ ps}) (i := .buddy) (j := .pcp cpu cold)
    ⟨by simp, htaken.subset, ?_, ?_, ?_⟩
  · show (z.pageset cpu cold).count + (ps.length : Int) = _
    rw [h.count cpu cold, List.length_append]
    push_cast
    rfl
  · refine List.nodup_append.mpr ⟨h.nodup cpu cold, htaken.nodup, ?_⟩
    intro p hp q hq hpq
    exact h.parts.notMem (i := .pcp cpu cold) (j := .buddy) hp (by simp)
      (hpq ▸ htaken.subset q hq)
  · intro p hp
    rcases List.mem_append.mp hp with hp | hp
    · exact h.clean cpu cold p hp
    · exact h.buddies.clean p (htaken.subset p hp)
  · ext p
    exact htaken.free p
  · rw [home_setPcp_self]
    ext p
    exact List.mem_append
  · intro k hi hj
    by_cases hh : k = .held
    · rw [hh]
      rfl
    · exact home_setPcp_of_ne htaken.frame.pageset held held _ hj hi hh

/-- `list_add` of a page with nothing left to clean up. -/
theorem Placed.park (h : Placed batch z held) (cpu : ℕ) (cold : Bool) {page : ℕ}
    (hheld : page ∈ held) (hclean : z.Clean page) :
    Placed batch (z.setPcp cpu cold { z.pageset cpu cold with
      list := page :: (z.pageset cpu cold).list,
      count := (z.pageset cpu cold).count + 1 }) (held \ {page}) := by
  have hnot : page ∉ (z.pageset cpu cold).list :=
    h.parts.notMem (i := .held) (j := .pcp cpu cold) hheld (by simp)
  refine h.of_moved (Frame.refl (S := ∅) z) h.buddies h.accounted ⟨rfl, rfl, rfl⟩ ?_
    (List.nodup_cons.mpr ⟨hnot, h.nodup cpu cold⟩) ?_ (X := {page}) (i := .held)
    (j := .pcp cpu cold) ⟨by simp, Set.singleton_subset_iff.mpr hheld, rfl, ?_, ?_⟩
  · show (z.pageset cpu cold).count + 1 = _
    rw [h.count cpu cold, List.length_cons]
    push_cast
    rfl
  · intro p hp
    rcases List.mem_cons.mp hp with rfl | hp
    · exact hclean
    · exact h.clean cpu cold p hp
  · rw [home_setPcp_self]
    ext p
    show p ∈ page :: _ ↔ p ∈ (z.pageset cpu cold).list ∨ p = page
    rw [List.mem_cons, or_comm]
  · intro k hi hj
    by_cases hb : k = .buddy
    · rw [hb]
      rfl
    · exact home_setPcp_of_ne rfl _ _ _ hj hb hi

/-- The head of a per-CPU list is given out. -/
theorem Placed.giveHead (h : Placed batch z held) (cpu : ℕ) (cold : Bool) {page : ℕ}
    {rest : List ℕ} (hlist : (z.pageset cpu cold).list = page :: rest) :
    Placed batch (z.setPcp cpu cold { z.pageset cpu cold with
      list := rest, count := (z.pageset cpu cold).count - 1 }) (held ∪ {page}) := by
  have hnodup := h.nodup cpu cold
  have hcount := h.count cpu cold
  rw [hlist] at hnodup hcount
  obtain ⟨hnot, hrest⟩ := List.nodup_cons.mp hnodup
  refine h.of_moved (Frame.refl (S := ∅) z) h.buddies h.accounted ⟨rfl, rfl, rfl⟩ ?_ hrest ?_
    (X := {page}) (i := .pcp cpu cold) (j := .held) ⟨by simp, ?_, ?_, rfl, ?_⟩
  · show (z.pageset cpu cold).count - 1 = _
    rw [hcount, List.length_cons]
    push_cast
    ring
  · intro p hp
    exact h.clean cpu cold p (hlist ▸ List.mem_cons_of_mem page hp)
  · rw [Set.singleton_subset_iff]
    exact (hlist ▸ List.mem_cons_self : page ∈ (z.pageset cpu cold).list)
  · rw [home_setPcp_self]
    ext p
    show p ∈ rest ↔ p ∈ (z.pageset cpu cold).list ∧ p ≠ page
    rw [hlist, List.mem_cons]
    refine ⟨fun hp => ⟨Or.inr hp, fun heq => hnot (heq ▸ hp)⟩, fun hp => hp.1.resolve_left hp.2⟩
  · intro k hi hj
    by_cases hb : k = .buddy
    · rw [hb]
      rfl
    · exact home_setPcp_of_ne rfl _ _ _ hi hb hj

theorem setPcp_self (z : Zone) (cpu : ℕ) (cold : Bool) :
    z.setPcp cpu cold (z.pageset cpu cold) = z := by
  rw [setPcp]
  simp only [Function.update_eq_self]

/-- Pages go from the free blocks to their holder or back. -/
theorem Placed.of_frame (h : Placed batch z held) {S X held' : Set ℕ} {z₁ : Zone} {i j : Home}
    (hframe : Frame S z z₁) (hz₁ : z₁.Buddies) (hacc : z₁.Accounted)
    (hm : Moved (z.home held) (z₁.home held') X i j) : Placed batch z₁ held' := by
  have hsame : z₁.setPcp 0 false (z.pageset 0 false) = z₁ := by
    rw [← hframe.pageset]
    exact setPcp_self z₁ 0 false
  rw [← hsame] at hm ⊢
  exact h.of_moved hframe hz₁ hacc ⟨rfl, rfl, rfl⟩ (h.count 0 false) (h.nodup 0 false)
    (h.clean 0 false) hm

theorem home_pcp_eq {z₁ : Zone} (hpageset : z₁.pageset = z.pageset) (held held' : Set ℕ)
    {k : Home} (hb : k ≠ .buddy) (hh : k ≠ .held) : z₁.home held' k = z.home held k := by
  cases k with
  | buddy => exact absurd rfl hb
  | held => exact absurd rfl hh
  | pcp c d =>
      show {p | p ∈ (z₁.pageset c d).list} = _
      rw [hpageset]
      rfl

/-- `__rmqueue` gives a block out. -/
theorem Placed.give (h : Placed batch z held) {order : ℕ} {b : Block} {z₁ : Zone}
    (ht : Taken z order b z₁) : Placed batch z₁ (held ∪ b.units) :=
  h.of_frame ht.frame ht.buddies (ht.accounted h.buddies h.accounted) (X := b.units)
    (i := .buddy) (j := .held)
    ⟨by simp, ht.subset, ht.free, rfl, fun _ hi hj => home_pcp_eq ht.frame.pageset _ _ hi hj⟩

/-- `free_pages_bulk` on one block that is given back. -/
theorem Placed.takeBack (h : Placed batch z held) {b : Block} (ho : b.order < maxOrder)
    (hheld : b.units ⊆ held) (hclean : ∀ p ∈ b.units, z.Clean p) :
    ∃ z₁, z.freePagesBulk 1 [b.start] b.order = some (z₁, [], 1) ∧ Frame z₁.free z z₁ ∧
      Placed batch z₁ (held \ b.units) := by
  have haround : around b.order b.start = b := around_eq b.start_mem
  have hfreeable : ∀ p ∈ [b.start], 2 ^ b.order ∣ p ∧ z.Freeable (around b.order p) := by
    intro p hp
    rw [List.mem_singleton] at hp
    rw [hp, haround]
    exact ⟨b.start_dvd, ho, hclean,
      fun q hq => h.parts.notMem (i := .held) (j := .buddy) (hheld hq) (by simp)⟩
  obtain ⟨z₁, left, freed, heq, hlist, hlen, hfreed⟩ :=
    freePagesBulk_spec 1 h.buddies hfreeable (List.nodup_singleton _)
  have hlen' : freed.length = 1 := hlen
  have hleft : left = [] := by
    have hsum := congrArg List.length hlist
    rw [List.length_append, List.length_singleton] at hsum
    exact List.length_eq_zero_iff.mp (by omega)
  rw [hleft, List.nil_append] at hlist
  rw [hleft, hlen'] at heq
  refine ⟨z₁, heq, hfreed.frame, h.of_frame hfreed.frame hfreed.buddies (hfreed.accounted h.accounted)
    (X := b.units) (i := .held) (j := .buddy)
    ⟨by simp, hheld, rfl, ?_, fun _ hi hj => home_pcp_eq hfreed.frame.pageset _ _ hj hi⟩⟩
  ext q
  show q ∈ z₁.free ↔ q ∈ z.free ∨ q ∈ b.units
  rw [hfreed.free, ← hlist]
  simp only [List.mem_singleton, exists_eq_left, haround]

/-! ## Writes to pages that are given out -/

theorem setPage_memMap (z : Zone) (i j : ℕ) (p : Page) :
    (z.setPage i p).memMap j = if j = i then p else z.memMap j :=
  Function.update_apply ..

theorem badRange_setPage {i : ℕ} {p : Page} (hzone : p.zone = (z.memMap i).zone) (j : ℕ) :
    (z.setPage i p).badRange j = z.badRange j := by
  have hj : ((z.setPage i p).memMap j).zone = (z.memMap j).zone := by
    rw [setPage_memMap]
    by_cases hji : j = i
    · rw [if_pos hji, hzone, hji]
    · rw [if_neg hji]
  rw [badRange, badRange, hj]
  rfl

theorem Clean.setPage {i j : ℕ} {p : Page} (h : z.Clean j) (hzone : p.zone = (z.memMap i).zone)
    (hji : j ≠ i) : (z.setPage i p).Clean j := by
  have hmap : (z.setPage i p).memMap j = z.memMap j := by
    rw [setPage_memMap, if_neg hji]
  exact ⟨(badRange_setPage hzone j).trans h.range, hmap ▸ h.count, hmap ▸ h.reserved⟩

theorem Placed.write (h : Placed batch z held) {i : ℕ} {p : Page} (hi : i ∈ held)
    (hzone : p.zone = (z.memMap i).zone) (hlook : ¬ LooksFree p) :
    Placed batch (z.setPage i p) held := by
  have hne : ∀ k, k ≠ Home.held → ∀ j ∈ z.home held k, j ≠ i := by
    rintro k hk j hj rfl
    exact hk (h.parts.apart k .held j hj hi)
  refine ⟨⟨h.buddies.aligned, h.buddies.nodup, h.buddies.nrFree, h.buddies.tiles,
    h.buddies.coalesced, ?_, ?_⟩, h.accounted, ?_, ?_, h.nodup, h.count, h.low, h.high, h.batch⟩
  · intro j hj
    exact (h.buddies.clean j hj).setPage hzone (hne .buddy (by simp) j hj)
  · intro j o hj
    rw [badRange_setPage hzone] at hj
    by_cases hji : j = i
    · have hnot : j ∉ (z.freeArea o).freeList := fun hmem =>
        hne .buddy (by simp) j (h.buddies.mem_free_of_mem hmem) hji
      refine ⟨fun hbuddy => absurd ?_ hlook, fun hmem => absurd hmem hnot⟩
      rw [pageIsBuddy_iff, setPage_memMap, if_pos hji] at hbuddy
      exact ⟨hbuddy.1, hbuddy.2.2.1, hbuddy.2.2.2⟩
    · have hmap : (z.setPage i p).memMap j = z.memMap j := by
        rw [setPage_memMap, if_neg hji]
      rw [pageIsBuddy_congr hmap]
      exact h.buddies.buddy j o hj
  · have hsame : {j | (z.setPage i p).badRange j = false} = {j | z.badRange j = false} := by
      ext j
      show _ = false ↔ _ = false
      rw [badRange_setPage hzone]
    rw [hsame]
    refine ⟨fun k l a => h.parts.apart k l a, fun a => ?_⟩
    rw [h.parts.cover]
    refine exists_congr fun k => ?_
    cases k <;> exact Iff.rfl
  · intro cpu cold j hj
    exact (h.clean cpu cold j hj).setPage hzone (hne (.pcp cpu cold) (by simp) j hj)

end Moves

end Zone

/-! ## Checked pages -/

namespace Page

theorem clearFlags_apply (p : Page) (fs : List PageFlag) (f : PageFlag) :
    (p.clearFlags fs).flags f = (p.flags f && decide (f ∉ fs)) := rfl

/-- `free_pages_check` leaves a page without users and without `PG_private`. -/
theorem freePagesCheck_spec (p : Page) : p.freePagesCheck.count = 0 ∧
    p.freePagesCheck.flags .priv = false ∧
    p.freePagesCheck.flags .reserved = p.flags .reserved ∧ p.freePagesCheck.zone = p.zone := by
  have hdirty : ∀ q : Page, (if q.flags .dirty then q.clearFlags [.dirty] else q).count = q.count ∧
      (if q.flags .dirty then q.clearFlags [.dirty] else q).flags .priv = q.flags .priv ∧
      (if q.flags .dirty then q.clearFlags [.dirty] else q).flags .reserved = q.flags .reserved ∧
      (if q.flags .dirty then q.clearFlags [.dirty] else q).zone = q.zone := by
    intro q
    by_cases hq : q.flags .dirty = true
    · rw [if_pos hq, clearFlags_apply, clearFlags_apply]
      exact ⟨rfl, Bool.and_true _, Bool.and_true _, rfl⟩
    · rw [if_neg hq]
      exact ⟨rfl, rfl, rfl, rfl⟩
  rw [freePagesCheck]
  by_cases hbad : (p.mapped || decide (p.mapping ≠ 0) || decide (p.count ≠ 0) ||
      p.anyFlag [.lru, .priv, .locked, .active, .reclaim, .slab, .swapcache, .writeback]) = true
  · simp only [if_pos hbad]
    obtain ⟨h₁, h₂, h₃, h₄⟩ := hdirty p.badPage
    refine ⟨h₁, h₂.trans ?_, h₃.trans ?_, h₄⟩
    · exact Bool.and_false _
    · exact Bool.and_true _
  · simp only [if_neg hbad]
    obtain ⟨h₁, h₂, h₃, h₄⟩ := hdirty p
    simp only [Bool.or_eq_true, decide_eq_true_eq, not_or, not_not, anyFlag, List.any_cons,
      List.any_nil, Bool.not_eq_true] at hbad
    obtain ⟨⟨⟨_, _⟩, hcount⟩, _, hpriv, _⟩ := hbad
    exact ⟨h₁.trans hcount, h₂.trans hpriv, h₃, h₄⟩

end Page

end LinuxHacks.PageAlloc
