import LinuxHacks.PageAlloc.Pages

/-!
# Runs of the page allocator

The state is the zone and the pages that are given out. A step is one of the
allocator's sections, on any CPU, or a write of a holder to the `struct page` of
its page; `Allowed` is what the allocator expects of its callers.

* `Inv.run`: no step runs into a `BUG_ON`;
* `pages_have_one_home`: no page is lost or given out twice, and the counters of
  the free lists and of the per-CPU lists are exact;
* `free_lists_canonical`: the free lists hold the maximal free blocks, so how they
  came about leaves no trace;
* `alloc_succeeds_iff`: a block is refused only when none can be made.
-/

namespace LinuxHacks.PageAlloc

open LinuxHacks.Lib LinuxHacks.Lib.Buddy LinuxHacks.Lib.Buddy.Block

structure State where
  zone : Zone
  held : Set ℕ

inductive Action where
  /-- The holder of a page writes its `struct page`. -/
  | write (page : ℕ) (p : Page)
  | freeHotColdPage (cpu : ℕ) (cold : Bool) (page : ℕ)
  | freePagesOk (page order : ℕ)
  | drainPages (cpu : ℕ)
  /-- The section of `buffered_rmqueue` with interrupts off. -/
  | pcpRmqueue (cpu : ℕ) (cold : Bool)
  /-- The section of `buffered_rmqueue` under `zone->lock`. -/
  | rmqueue (order : ℕ)

namespace State

def run (s : State) : Action → Option State
  | .write page p => some { s with zone := s.zone.setPage page p }
  | .freeHotColdPage cpu cold page =>
      (s.zone.freeHotColdPage cpu cold page).map fun z => ⟨z, s.held \ {page}⟩
  | .freePagesOk page order =>
      (s.zone.freePagesOk page order).map fun z => ⟨z, s.held \ (around order page).units⟩
  | .drainPages cpu => (s.zone.drainPages cpu).map fun z => ⟨z, s.held⟩
  | .pcpRmqueue cpu cold =>
      (s.zone.pcpRmqueue cpu cold).map fun r => ⟨r.1, s.held ∪ {p | r.2 = some p}⟩
  | .rmqueue order =>
      (s.zone.rmqueue order).map fun r =>
        ⟨r.1, s.held ∪ {p | ∃ i, r.2 = some i ∧ p ∈ (around order i).units}⟩

/-- What callers do: only holders write and free; a page in use does not look like
the head of a free block; what is freed is not reserved. -/
def Allowed (s : State) : Action → Prop
  | .write page p => page ∈ s.held ∧ p.zone = (s.zone.memMap page).zone ∧ ¬ Zone.LooksFree p
  | .freeHotColdPage _ _ page => page ∈ s.held ∧ (s.zone.memMap page).flags .reserved = false
  | .freePagesOk page order => order < maxOrder ∧ 2 ^ order ∣ page ∧
      ∀ p ∈ (around order page).units, p ∈ s.held ∧ (s.zone.memMap p).flags .reserved = false
  | .drainPages _ => True
  | .pcpRmqueue _ _ => True
  | .rmqueue _ => True

end State

/-- `free_area_init_core` and `memmap_init_zone`: nothing is free, and every page
is reserved and in the hands of the boot code. -/
structure Init (batch : ℕ) (s : State) : Prop where
  freeArea : ∀ o, s.zone.freeArea o = ⟨[], 0⟩
  freePages : s.zone.freePages = 0
  pageset : ∀ cpu cold, s.zone.pageset cpu cold = Zone.pcpInit batch cold
  held : s.held = {p | s.zone.badRange p = false}
  reserved : ∀ p, s.zone.badRange p = false → (s.zone.memMap p).flags .reserved = true

/-- The runs on a zone whose per-CPU lists move `batch` pages at a time. -/
def system (batch : ℕ) : System State Action where
  init := Init batch
  step s a s' := s.run a = some s'

structure Inv (batch : ℕ) (s : State) : Prop where
  placed : s.zone.Placed batch s.held
  full : ∀ cpu cold, (s.zone.pageset cpu cold).count ≤ (Zone.pcpInit batch cold).high

theorem Init.inv {batch : ℕ} {s : State} (h : Init batch s) : Inv batch s := by
  have hlist : ∀ o, (s.zone.freeArea o).freeList = [] := fun o => by rw [h.freeArea]
  have hpcp : ∀ cpu cold, (s.zone.pageset cpu cold).list = [] := by
    intro cpu cold
    rw [h.pageset]
    cases cold <;> rfl
  have hblocks : s.zone.blocks = ∅ := by
    ext b
    refine ⟨fun hb => ?_, fun hb => hb.elim⟩
    have hmem := hb.2
    rw [hlist] at hmem
    cases hmem
  have hfree : s.zone.free = ∅ := by
    ext p
    refine ⟨?_, fun hp => hp.elim⟩
    rintro ⟨b, hb, _⟩
    rw [hblocks] at hb
    exact hb.elim
  have hcount : ∀ cpu cold, (s.zone.pageset cpu cold).count = 0 := by
    intro cpu cold
    rw [h.pageset]
    cases cold <;> rfl
  refine ⟨⟨⟨?_, ?_, ?_, ?_, ?_, ?_, ?_⟩, ?_, ⟨?_, ?_⟩, ?_, ?_, ?_, ?_, ?_, ?_⟩, ?_⟩
  · intro o p hp
    rw [hlist] at hp
    cases hp
  · intro o
    rw [hlist]
    exact List.nodup_nil
  · intro o
    rw [h.freeArea]
    rfl
  · rw [hblocks, hfree]
    exact tiles_empty _
  · rw [hblocks]
    exact coalesced_empty _
  · intro p hp
    rw [hfree] at hp
    exact hp.elim
  · intro p o hp
    rw [hlist]
    refine ⟨fun hbuddy => ?_, fun hmem => absurd hmem List.not_mem_nil⟩
    have hres := (Zone.pageIsBuddy_iff.mp hbuddy).2.2.1
    rw [h.reserved p hp] at hres
    cases hres
  · rw [Zone.Accounted, h.freePages, hfree, Set.ncard_empty]
    rfl
  · intro i j p hi hj
    have hheld : ∀ k, p ∈ s.zone.home s.held k → k = .held := by
      intro k hk
      cases k with
      | held => rfl
      | buddy =>
          have hk' : p ∈ s.zone.free := hk
          rw [hfree] at hk'
          exact hk'.elim
      | pcp cpu cold =>
          have hk' : p ∈ (s.zone.pageset cpu cold).list := hk
          rw [hpcp] at hk'
          cases hk'
    rw [hheld i hi, hheld j hj]
  · intro p
    constructor
    · intro hp
      refine ⟨.held, ?_⟩
      show p ∈ s.held
      rw [h.held]
      exact hp
    · rintro ⟨k, hk⟩
      cases k with
      | held =>
          have hk' : p ∈ s.held := hk
          rw [h.held] at hk'
          exact hk'
      | buddy =>
          have hk' : p ∈ s.zone.free := hk
          rw [hfree] at hk'
          exact hk'.elim
      | pcp cpu cold =>
          have hk' : p ∈ (s.zone.pageset cpu cold).list := hk
          rw [hpcp] at hk'
          cases hk'
  · intro cpu cold p hp
    rw [hpcp] at hp
    cases hp
  · intro cpu cold
    rw [hpcp]
    exact List.nodup_nil
  · intro cpu cold
    rw [hpcp, hcount]
    rfl
  · intro cpu cold
    rw [h.pageset]
  · intro cpu cold
    rw [h.pageset]
  · intro cpu cold
    rw [h.pageset]
    cases cold <;> rfl
  · intro cpu cold
    rw [hcount]
    cases cold
    · show (0 : Int) ≤ 6 * batch
      omega
    · show (0 : Int) ≤ 2 * batch
      omega

namespace Zone

variable {batch : ℕ} {z : Zone} {held : Set ℕ}

/-! ## The sections -/

theorem pcpInit_high (batch : ℕ) (cold : Bool) :
    (pcpInit batch cold).low + batch ≤ (pcpInit batch cold).high ∧
      (batch : Int) ≤ (pcpInit batch cold).high ∧ 0 ≤ (pcpInit batch cold).low := by
  cases cold
  · show (2 * batch : Int) + batch ≤ 6 * batch ∧ (batch : Int) ≤ 6 * batch ∧ (0 : Int) ≤ 2 * batch
    omega
  · show (0 : Int) + batch ≤ 2 * batch ∧ (batch : Int) ≤ 2 * batch ∧ (0 : Int) ≤ 0
    omega

/-- Everything but one per-CPU list is as full as before. -/
theorem full_setPcp {z₁ : Zone} {cpu : ℕ} {cold : Bool} {q : PerCpuPages}
    (hpageset : z₁.pageset = z.pageset)
    (hfull : ∀ cpu cold, (z.pageset cpu cold).count ≤ (pcpInit batch cold).high)
    (hq : q.count ≤ (pcpInit batch cold).high) (cpu' : ℕ) (cold' : Bool) :
    ((z₁.setPcp cpu cold q).pageset cpu' cold').count ≤ (pcpInit batch cold').high := by
  rw [setPcp_pageset]
  by_cases heq : cpu' = cpu ∧ cold' = cold
  · rw [if_pos heq, heq.2]
    exact hq
  · rw [if_neg heq, hpageset]
    exact hfull cpu' cold'

theorem drainPcp_spec (h : z.Placed batch held)
    (hfull : ∀ cpu cold, (z.pageset cpu cold).count ≤ (pcpInit batch cold).high)
    (cpu : ℕ) (cold : Bool) :
    ∃ z', z.drainPcp cpu cold = some z' ∧ z'.Placed batch held ∧
      (∀ cpu cold, (z'.pageset cpu cold).count ≤ (pcpInit batch cold).high) ∧
      (z'.pageset cpu cold).list = [] ∧
      ∀ d, d ≠ cold → z'.pageset cpu d = z.pageset cpu d := by
  obtain ⟨z₁, left, freed, heq, hlen, hlist, hframe, hplaced⟩ :=
    h.unpark cpu cold (z.pageset cpu cold).list.length
  have hpageset := hframe.pageset
  rw [min_self] at hlen
  have hleft : left = [] := by
    have hsum := congrArg List.length hlist
    rw [List.length_append] at hsum
    exact List.length_eq_zero_iff.mp (by omega)
  refine ⟨_, ?_, hplaced, full_setPcp hpageset hfull ?_, ?_, ?_⟩
  · rw [drainPcp, h.count]
    show (z.freePagesBulk _ _ 0).bind _ = _
    rw [heq, Option.bind_some, ← h.count]
    rfl
  · show (z.pageset cpu cold).count - (freed.length : Int) ≤ _
    have := hfull cpu cold
    omega
  · rw [setPcp_pageset, if_pos ⟨rfl, rfl⟩]
    exact hleft
  · intro d hd
    rw [setPcp_pageset, if_neg fun h => hd h.2, hpageset]

theorem drainPages_spec (h : z.Placed batch held)
    (hfull : ∀ cpu cold, (z.pageset cpu cold).count ≤ (pcpInit batch cold).high) (cpu : ℕ) :
    ∃ z', z.drainPages cpu = some z' ∧ z'.Placed batch held ∧
      (∀ cpu cold, (z'.pageset cpu cold).count ≤ (pcpInit batch cold).high) ∧
      ∀ cold, (z'.pageset cpu cold).list = [] := by
  obtain ⟨z₁, heq₁, h₁, hfull₁, hhot, _⟩ := drainPcp_spec h hfull cpu false
  obtain ⟨z₂, heq₂, h₂, hfull₂, hcold, hsame⟩ := drainPcp_spec h₁ hfull₁ cpu true
  refine ⟨z₂, ?_, h₂, hfull₂, ?_⟩
  · rw [drainPages]
    show (z.drainPcp cpu false).bind _ = _
    rw [heq₁]
    exact heq₂
  · intro cold
    cases cold
    · rw [hsame false (by simp), hhot]
    · exact hcold

/-- The check before a page is freed; its holder may as well have done it. -/
theorem Placed.check (h : z.Placed batch held) {page : ℕ} (hheld : page ∈ held)
    (hres : (z.memMap page).flags .reserved = false) {p : Page}
    (hp : p.zone = (z.memMap page).zone) (hpres : p.flags .reserved = (z.memMap page).flags .reserved) :
    (z.setPage page p.freePagesCheck).Placed batch held ∧
      (z.setPage page p.freePagesCheck).Clean page := by
  obtain ⟨hcount, hpriv, hreserved, hzone⟩ := p.freePagesCheck_spec
  have hmap : (z.setPage page p.freePagesCheck).memMap page = p.freePagesCheck := by
    rw [setPage_memMap, if_pos rfl]
  refine ⟨h.write hheld (hzone.trans hp) ?_, ?_, ?_, ?_⟩
  · rintro ⟨hlooks, _⟩
    rw [hpriv] at hlooks
    cases hlooks
  · rw [badRange_setPage (hzone.trans hp)]
    exact h.parts.mem (i := Home.held) hheld
  · rw [hmap]
    exact hcount
  · rw [hmap, hreserved, hpres, hres]

theorem freeHotColdPage_spec (hbatch : 1 ≤ batch) (h : z.Placed batch held)
    (hfull : ∀ cpu cold, (z.pageset cpu cold).count ≤ (pcpInit batch cold).high)
    (cpu : ℕ) (cold : Bool) {page : ℕ} (hheld : page ∈ held)
    (hres : (z.memMap page).flags .reserved = false) :
    ∃ z', z.freeHotColdPage cpu cold page = some z' ∧ z'.Placed batch (held \ {page}) ∧
      ∀ cpu cold, (z'.pageset cpu cold).count ≤ (pcpInit batch cold).high := by
  let p : Page := if (z.memMap page).anon then { z.memMap page with mapping := 0 }
    else z.memMap page
  have hp : p.zone = (z.memMap page).zone ∧ p.flags = (z.memMap page).flags := by
    by_cases hanon : (z.memMap page).anon = true
    · rw [show p = { z.memMap page with mapping := 0 } from if_pos hanon]
      exact ⟨rfl, rfl⟩
    · rw [show p = z.memMap page from if_neg hanon]
      exact ⟨rfl, rfl⟩
  obtain ⟨h₀, hclean⟩ := h.check hheld hres hp.1 (congrFun hp.2 .reserved)
  have hbounds := pcpInit_high batch cold
  have hhigh := h.high cpu cold
  have hcap := hfull cpu cold
  have hcount := h.count cpu cold
  rw [freeHotColdPage]
  show ∃ z', ((z.setPage page p.freePagesCheck).pcpEmpty (z.pageset cpu cold)).bind _ = some z' ∧ _
  rw [pcpEmpty]
  by_cases hle : (z.pageset cpu cold).high ≤ (z.pageset cpu cold).count
  · obtain ⟨z₁, left, freed, heq, hlen, _, hframe, h₁⟩ := h₀.unpark cpu cold batch
    have hclean₁ := hframe.clean.mpr hclean
    have h₂ := h₁.park cpu cold hheld ⟨hclean₁.range, hclean₁.count, hclean₁.reserved⟩
    rw [setPcp_setPcp, setPcp_pageset, if_pos ⟨rfl, rfl⟩] at h₂
    refine ⟨_, ?_, h₂, full_setPcp (z := z) hframe.pageset hfull ?_⟩
    · have heq' : (z.setPage page p.freePagesCheck).freePagesBulk (z.pageset cpu cold).batch
          (z.pageset cpu cold).list 0 = some (z₁, left, (freed.length : Int)) := by
        rw [h.batch]
        exact heq
      rw [if_pos hle, heq']
      rfl
    · show (z.pageset cpu cold).count - (freed.length : Int) + 1 ≤ _
      have hlen' : freed.length = min batch (z.pageset cpu cold).list.length := hlen
      omega
  · refine ⟨_, ?_, h₀.park cpu cold hheld hclean, full_setPcp (z := z) rfl hfull ?_⟩
    · rw [if_neg hle]
      rfl
    · show (z.pageset cpu cold).count + 1 ≤ _
      omega

theorem pcpRmqueue_spec (h : z.Placed batch held)
    (hfull : ∀ cpu cold, (z.pageset cpu cold).count ≤ (pcpInit batch cold).high)
    (cpu : ℕ) (cold : Bool) :
    ∃ z' r, z.pcpRmqueue cpu cold = some (z', r) ∧
      z'.Placed batch (held ∪ {p | r = some p}) ∧
      (∀ cpu cold, (z'.pageset cpu cold).count ≤ (pcpInit batch cold).high) ∧
      (∀ p, p ∈ z'.free ∨ p ∈ (z'.pageset cpu cold).list ∨ r = some p ↔
        p ∈ z.free ∨ p ∈ (z.pageset cpu cold).list) ∧
      (r = none → (z'.pageset cpu cold).list = []) := by
  have hbounds := pcpInit_high batch cold
  have hlow := h.low cpu cold
  have hcap := hfull cpu cold
  -- the list after the refill, if there is one
  have hrefill : ∃ z₁ q, z.pcpRefill (z.pageset cpu cold) = some (z₁, q) ∧
      z₁.pageset = z.pageset ∧ q.count ≤ (pcpInit batch cold).high ∧
      (z₁.setPcp cpu cold q).Placed batch held ∧
      ∀ p, p ∈ z₁.free ∨ p ∈ q.list ↔ p ∈ z.free ∨ p ∈ (z.pageset cpu cold).list := by
    rw [pcpRefill]
    by_cases hle : (z.pageset cpu cold).count ≤ (z.pageset cpu cold).low
    · obtain ⟨z₁, ps, heq, hlen, htaken, h₁⟩ := h.refill cpu cold batch
      refine ⟨z₁, _, ?_, htaken.frame.pageset, ?_, h₁, ?_⟩
      · have heq' : rmqueueBulk 0 (z.pageset cpu cold).batch.toNat z (z.pageset cpu cold).list =
            some (z₁, (z.pageset cpu cold).list ++ ps, (ps.length : Int)) := by
          rw [h.batch]
          exact heq
        rw [if_pos hle, heq']
        rfl
      · show (z.pageset cpu cold).count + (ps.length : Int) ≤ _
        omega
      · intro p
        have hsub := htaken.subset p
        rw [htaken.free, List.mem_append]
        tauto
    · refine ⟨z, _, if_neg hle, rfl, hcap, ?_, fun p => Iff.rfl⟩
      rw [setPcp_self]
      exact h
  obtain ⟨z₁, q, heq, hpageset, hq, h₁, hpages⟩ := hrefill
  have hself : ∀ q', (z₁.setPcp cpu cold q').pageset cpu cold = q' := by
    intro q'
    rw [setPcp_pageset, if_pos ⟨rfl, rfl⟩]
  have hcount := h₁.count cpu cold
  rw [hself] at hcount
  rw [pcpRmqueue]
  show ∃ z' r, (z.pcpRefill (z.pageset cpu cold)).bind _ = some (z', r) ∧ _
  rw [heq, Option.bind_some]
  by_cases hzero : q.count = 0
  · have hlist : q.list = [] := List.length_eq_zero_iff.mp (by omega)
    refine ⟨z₁.setPcp cpu cold q, none, if_pos hzero, ?_, full_setPcp hpageset hfull hq, ?_, ?_⟩
    · have hnone : held ∪ {p | (none : Option ℕ) = some p} = held := by
        ext p
        simp
      rw [hnone]
      exact h₁
    · intro p
      rw [hself, ← hpages]
      simp only [reduceCtorEq, or_false]
      exact Iff.rfl
    · intro _
      rw [hself, hlist]
  · cases hlist : q.list with
    | nil =>
        rw [hlist] at hcount
        exact absurd hcount hzero
    | cons page rest =>
        have h₂ := h₁.giveHead cpu cold ((hself q).symm ▸ hlist)
        rw [setPcp_setPcp, hself] at h₂
        refine ⟨z₁.setPcp cpu cold { q with list := rest, count := q.count - 1 }, some page,
          ?_, ?_, full_setPcp hpageset hfull ?_, ?_, fun hr => absurd hr (by simp)⟩
        · show (if q.count = 0 then _ else _) = _
          rw [if_neg hzero, hlist]
          rfl
        · have hsome : {p | some page = some p} = {page} := by
            ext p
            simp [eq_comm]
          rw [hsome]
          exact h₂
        · show q.count - 1 ≤ _
          omega
        · intro p
          rw [hself, ← hpages, hlist, List.mem_cons, Option.some.injEq, or_comm (a := p ∈ rest),
            eq_comm (a := page)]
          exact Iff.rfl

/-- The checks of `__free_pages_ok`. -/
theorem Placed.checkAll (h : z.Placed batch held) (page : ℕ) : ∀ n,
    (∀ j, j < n → page + j ∈ held ∧ (z.memMap (page + j)).flags .reserved = false) →
    ∃ z₁, (List.range n).foldl
        (fun z i => z.setPage (page + i) (z.memMap (page + i)).freePagesCheck) z = z₁ ∧
      z₁.Placed batch held ∧ z₁.pageset = z.pageset ∧ (∀ j, j < n → z₁.Clean (page + j)) ∧
      ∀ j, n ≤ j → z₁.memMap (page + j) = z.memMap (page + j) := by
  intro n
  induction n with
  | zero =>
      intro _
      exact ⟨z, rfl, h, rfl, fun j hj => absurd hj (Nat.not_lt_zero j), fun _ _ => rfl⟩
  | succ n ih =>
      intro hn
      obtain ⟨z₁, heq, h₁, hpageset, hclean, hsame⟩ := ih fun j hj => hn j (by omega)
      obtain ⟨hheld, hres⟩ := hn n (Nat.lt_succ_self n)
      rw [← hsame n (le_refl n)] at hres
      obtain ⟨h₂, hclean₂⟩ := h₁.check hheld hres rfl rfl
      refine ⟨_, ?_, h₂, hpageset, ?_, ?_⟩
      · rw [List.range_succ, List.foldl_append, heq]
        rfl
      · intro j hj
        by_cases hjn : j = n
        · exact hjn ▸ hclean₂
        · exact (hclean j (by omega)).setPage ((z₁.memMap (page + n)).freePagesCheck_spec.2.2.2)
            (by omega)
      · intro j hj
        rw [setPage_memMap, if_neg (by omega)]
        exact hsame j (by omega)

theorem freePagesOk_spec (h : z.Placed batch held) {b : Block} (ho : b.order < maxOrder)
    (hb : ∀ p ∈ b.units, p ∈ held ∧ (z.memMap p).flags .reserved = false) :
    ∃ z', z.freePagesOk b.start b.order = some z' ∧ z'.Placed batch (held \ b.units) ∧
      z'.pageset = z.pageset := by
  obtain ⟨z₁, heq, h₁, hpageset, hclean, _⟩ := h.checkAll b.start (2 ^ b.order)
    fun j hj => hb _ (mem_units_iff.mpr ⟨Nat.le_add_right _ _, by omega⟩)
  have hclean₁ : ∀ p ∈ b.units, z₁.Clean p := by
    intro p hp
    obtain ⟨hle, hlt⟩ := mem_units_iff.mp hp
    obtain ⟨j, rfl⟩ := Nat.exists_eq_add_of_le hle
    exact hclean j (by omega)
  obtain ⟨z₂, heq₂, hframe, h₂⟩ := h₁.takeBack ho (fun p hp => (hb p hp).1) hclean₁
  refine ⟨z₂, ?_, h₂, hframe.pageset.trans hpageset⟩
  rw [freePagesOk, heq]
  show (z₁.freePagesBulk 1 [b.start] b.order).bind _ = _
  rw [heq₂]
  rfl

end Zone

variable {batch : ℕ} {s : State}

/-- **Step.** An allowed step does not run into a `BUG_ON` and keeps the invariant. -/
theorem Inv.run (hbatch : 1 ≤ batch) (h : Inv batch s) {a : Action} (ha : s.Allowed a) :
    ∃ s', s.run a = some s' ∧ Inv batch s' := by
  cases a with
  | write page p =>
      obtain ⟨hheld, hzone, hlook⟩ := ha
      exact ⟨_, rfl, h.placed.write hheld hzone hlook, h.full⟩
  | freeHotColdPage cpu cold page =>
      obtain ⟨z', heq, hplaced, hfull⟩ :=
        Zone.freeHotColdPage_spec hbatch h.placed h.full cpu cold ha.1 ha.2
      exact ⟨_, congrArg (Option.map _) heq, hplaced, hfull⟩
  | freePagesOk page order =>
      obtain ⟨ho, hdvd, hb⟩ := ha
      obtain ⟨z', heq, hplaced, hpageset⟩ :=
        Zone.freePagesOk_spec h.placed (b := around order page) ho hb
      rw [around_start hdvd] at heq
      refine ⟨_, congrArg (Option.map _) heq, hplaced, ?_⟩
      show ∀ cpu cold, (z'.pageset cpu cold).count ≤ _
      rw [hpageset]
      exact h.full
  | drainPages cpu =>
      obtain ⟨z', heq, hplaced, hfull, _⟩ := Zone.drainPages_spec h.placed h.full cpu
      exact ⟨_, congrArg (Option.map _) heq, hplaced, hfull⟩
  | pcpRmqueue cpu cold =>
      obtain ⟨z', r, heq, hplaced, hfull, _⟩ := Zone.pcpRmqueue_spec h.placed h.full cpu cold
      exact ⟨_, congrArg (Option.map _) heq, hplaced, hfull⟩
  | rmqueue order =>
      rcases Zone.rmqueue_spec h.placed.buddies order with ⟨heq, _⟩ | ⟨z', b, heq, ht⟩
      · refine ⟨_, congrArg (Option.map _) heq, ?_, h.full⟩
        have hnone : s.held ∪ {p | ∃ i, (none : Option ℕ) = some i ∧
            p ∈ (around order i).units} = s.held := by
          ext p
          simp
        show s.zone.Placed batch (s.held ∪ {p | ∃ i, (none : Option ℕ) = some i ∧
          p ∈ (around order i).units})
        rw [hnone]
        exact h.placed
      · refine ⟨_, congrArg (Option.map _) heq, ?_, ?_⟩
        · have hsome : {p | ∃ i, some b.start = some i ∧ p ∈ (around order i).units} =
              b.units := by
            ext p
            show (∃ i, some b.start = some i ∧ p ∈ (around order i).units) ↔ p ∈ b.units
            simp only [Option.some.injEq, exists_eq_left']
            rw [← ht.order_eq, around_eq b.start_mem]
          show z'.Placed batch (s.held ∪ {p | ∃ i, some b.start = some i ∧
            p ∈ (around order i).units})
          rw [hsome]
          exact h.placed.give ht
        · show ∀ cpu cold, (z'.pageset cpu cold).count ≤ _
          rw [ht.frame.pageset]
          exact h.full

theorem reach_inv (hbatch : 1 ≤ batch) (h : (system batch).Reach State.Allowed s) :
    Inv batch s := by
  refine h.invariant (fun s (hi : Init batch s) => hi.inv) ?_
  intro s a s' hs ha hstep
  obtain ⟨s'', heq, hs''⟩ := hs.run hbatch ha
  have hsame : s' = s'' := Option.some.inj (hstep.symm.trans heq)
  rw [hsame]
  exact hs''

/-! ## A zone of four pages -/

def bootPage : Page :=
  { flags := fun f => decide (f = .reserved), zone := 0, count := 0, mapcount := 0, mapping := 0,
    priv := 0 }

/-- All pages are with the boot code. -/
def bootZone : Zone :=
  { freePages := 0, pagesMin := 0, pagesLow := 0, pagesHigh := 0, lowmemReserve := fun _ => 0,
    pageset := fun _ => Zone.pcpInit 1, freeArea := fun _ => ⟨[], 0⟩, pagesScanned := 0,
    allUnreclaimable := false, zoneStartPfn := 0, spannedPages := 4, nodezone := 0,
    memMap := fun _ => bootPage, marks := by decide }

def boot : State := ⟨bootZone, {p | bootZone.badRange p = false}⟩

theorem boot_init : Init 1 boot := ⟨fun _ => rfl, rfl, fun _ _ => rfl, rfl, fun _ _ => rfl⟩

/-- The boot code has made the first two pages ready to be freed. -/
def readyZone : Zone :=
  (bootZone.setPage 0 { bootPage with flags := fun _ => false }).setPage 1
    { bootPage with flags := fun _ => false }

theorem ready_reach : (system 1).Reach State.Allowed ⟨readyZone, boot.held⟩ := by
  let p : Page := { bootPage with flags := fun _ => false }
  have hp : ¬ Zone.LooksFree p := fun h => absurd h.1 (by simp [p])
  have h₁ : (system 1).Reach State.Allowed ⟨bootZone.setPage 0 p, boot.held⟩ :=
    .step (.write 0 p) (.init boot_init) ⟨rfl, rfl, hp⟩ rfl
  exact .step (.write 1 p) h₁ ⟨rfl, rfl, hp⟩ rfl

/-- The boot code has freed them as one block. -/
def freedZone : Zone := (readyZone.freePagesOk 0 1).getD bootZone

def freed : State := ⟨freedZone, boot.held \ (around 1 0).units⟩

theorem allowed_freePagesOk : (State.mk readyZone boot.held).Allowed (.freePagesOk 0 1) := by
  refine ⟨by decide, by decide, ?_⟩
  intro q hq
  have hlt : q < 2 := (mem_units_iff.mp hq).2
  have hcases : q = 0 ∨ q = 1 := by omega
  rcases hcases with rfl | rfl
  · exact ⟨rfl, rfl⟩
  · exact ⟨rfl, rfl⟩

theorem freed_reach : (system 1).Reach State.Allowed freed :=
  .step (.freePagesOk 0 1) ready_reach allowed_freePagesOk rfl

/-! ## Results -/

/-- **No lost page, no page given out twice.** In every reached state each page of
the zone is in one free block, on one per-CPU list or with one holder; the counters
are exact, no per-CPU list is above its mark, and no allowed step hits a `BUG_ON`. -/
theorem pages_have_one_home (hbatch : 1 ≤ batch) (h : (system batch).Reach State.Allowed s) :
    (∀ p, s.zone.badRange p = false → ∃! k, p ∈ s.zone.home s.held k) ∧
      s.zone.freePages = s.zone.free.ncard ∧
      (∀ o, (s.zone.freeArea o).nrFree = (s.zone.freeArea o).freeList.length) ∧
      (∀ cpu cold, (s.zone.pageset cpu cold).count = (s.zone.pageset cpu cold).list.length ∧
        (s.zone.pageset cpu cold).list.Nodup ∧
        (s.zone.pageset cpu cold).count ≤ (s.zone.pageset cpu cold).high) ∧
      ∀ a, s.Allowed a → ∃ s', s.run a = some s' := by
  have hinv := reach_inv hbatch h
  refine ⟨fun p hp => hinv.placed.parts.existsUnique hp, hinv.placed.accounted,
    hinv.placed.buddies.nrFree, fun cpu cold => ⟨hinv.placed.count cpu cold,
      hinv.placed.nodup cpu cold, ?_⟩, fun a ha => ?_⟩
  · rw [hinv.placed.high]
    exact hinv.full cpu cold
  · obtain ⟨s', heq, _⟩ := hinv.run hbatch ha
    exact ⟨s', heq⟩

theorem freed_one_home : ∃! k, 1 ∈ freedZone.home freed.held k :=
  (pages_have_one_home (le_refl 1) freed_reach).1 1 rfl

/-- **The free lists keep no history.** In every reached state the free blocks are the
maximal blocks of free pages; two states with the same pages free have the same
blocks on every list. -/
theorem free_lists_canonical (hbatch : 1 ≤ batch) (h : (system batch).Reach State.Allowed s) :
    s.zone.blocks = maximal (maxOrder - 1) s.zone.free ∧
      ∀ s', (system batch).Reach State.Allowed s' → s'.zone.free = s.zone.free →
        ∀ o, (s'.zone.freeArea o).freeList.Perm (s.zone.freeArea o).freeList := by
  have hz := (reach_inv hbatch h).placed.buddies
  refine ⟨hz.tiles.eq_maximal hz.coalesced, fun s' h' hfree o => ?_⟩
  exact hz.perm (reach_inv hbatch h').placed.buddies hfree o

theorem freed_canonical : freedZone.blocks = maximal 10 freedZone.free :=
  (free_lists_canonical (le_refl 1) freed_reach).1

/-- Once everything is given back, the zone is in its largest blocks again. -/
theorem all_given_back (hbatch : 1 ≤ batch) (h : (system batch).Reach State.Allowed s)
    (hheld : s.held = ∅) (hpcp : ∀ cpu cold, (s.zone.pageset cpu cold).list = []) :
    s.zone.blocks = maximal (maxOrder - 1) {p | s.zone.badRange p = false} := by
  have hparts := (reach_inv hbatch h).placed.parts
  have hfree : s.zone.free = {p | s.zone.badRange p = false} := by
    ext p
    rw [hparts.cover]
    refine ⟨fun hp => ⟨.buddy, hp⟩, ?_⟩
    rintro ⟨k, hk⟩
    cases k with
    | buddy => exact hk
    | pcp cpu cold =>
        have hk' : p ∈ (s.zone.pageset cpu cold).list := hk
        rw [hpcp] at hk'
        cases hk'
    | held =>
        have hk' : p ∈ s.held := hk
        rw [hheld] at hk'
        exact hk'.elim
  rw [← hfree]
  exact (free_lists_canonical hbatch h).1

/-- **Allocation is complete.** `__rmqueue` hands out an aligned block of pages that
nobody has, and that no per-CPU list holds, exactly when some aligned run of that many
pages is free; else it changes nothing. -/
theorem alloc_succeeds_iff (hbatch : 1 ≤ batch) (h : (system batch).Reach State.Allowed s)
    {order : ℕ} (ho : order < maxOrder) :
    ((∃ a : Block, a.order = order ∧ a.units ⊆ s.zone.free) →
      ∃ (z' : Zone) (b : Block), s.zone.rmqueue order = some (z', some b.start) ∧ b.order = order ∧
        (∀ p ∈ b.units, s.zone.badRange p = false ∧ p ∉ s.held ∧
          ∀ cpu cold, p ∉ (s.zone.pageset cpu cold).list) ∧
        z'.free = s.zone.free \ b.units) ∧
      ((¬ ∃ a : Block, a.order = order ∧ a.units ⊆ s.zone.free) →
        s.zone.rmqueue order = some (s.zone, none)) := by
  have hinv := reach_inv hbatch h
  have hz := hinv.placed.buddies
  constructor
  · rintro ⟨a, ha, hsub⟩
    rcases Zone.rmqueue_spec hz order with ⟨hnone, _⟩ | ⟨z', b, heq, ht⟩
    · exact absurd hsub ((Zone.rmqueue_none_iff hz ho).mp hnone a ha)
    · refine ⟨z', b, heq, ht.order_eq, fun p hp => ⟨(hz.clean p (ht.subset hp)).range, ?_, ?_⟩,
        ht.free⟩
      · exact hinv.placed.parts.notMem (i := .buddy) (j := .held) (ht.subset hp) (by simp)
      · intro cpu cold
        exact hinv.placed.parts.notMem (i := .buddy) (j := .pcp cpu cold) (ht.subset hp) (by simp)
  · intro hnot
    exact (Zone.rmqueue_none_iff hz ho).mpr fun a ha hsub => hnot ⟨a, ha, hsub⟩

theorem freed_alloc : ∃ (z' : Zone) (b : Block),
    freedZone.rmqueue 0 = some (z', some b.start) ∧ b.order = 0 ∧
      (∀ p ∈ b.units, freedZone.badRange p = false ∧ p ∉ freed.held ∧
        ∀ cpu cold, p ∉ (freedZone.pageset cpu cold).list) ∧
      z'.free = freedZone.free \ b.units := by
  refine (alloc_succeeds_iff (le_refl 1) freed_reach (by decide)).1 ⟨around 0 0, rfl, ?_⟩
  intro p hp
  exact ⟨⟨1, 0⟩, ⟨by decide, by decide⟩, Block.units_subset (by decide) (mem_around 0 0)
    (start_mem ⟨1, 0⟩) hp⟩

/-- **A zone above its watermark has the block.** -/
theorem watermark_suffices (hbatch : 1 ≤ batch) (h : (system batch).Reach State.Allowed s)
    {order mark classzoneIdx : ℕ} {canTryHarder gfpHigh : Bool} (ho : order < maxOrder)
    (hmark : mark < 2 ^ 31)
    (hok : s.zone.watermarkOk order mark classzoneIdx canTryHarder gfpHigh = true) :
    ∃ (z' : Zone) (b : Block), s.zone.rmqueue order = some (z', some b.start) ∧ b.order = order ∧
      b.units ⊆ s.zone.free := by
  have hplaced := (reach_inv hbatch h).placed
  obtain ⟨z', b, heq, ht⟩ :=
    Zone.rmqueue_of_watermarkOk hplaced.buddies hplaced.accounted ho hmark hok
  exact ⟨z', b, heq, ht.order_eq, ht.subset⟩

theorem freed_watermark : ∃ (z' : Zone) (b : Block),
    freedZone.rmqueue 1 = some (z', some b.start) ∧ b.order = 1 ∧ b.units ⊆ freedZone.free :=
  @watermark_suffices 1 freed (le_refl 1) freed_reach 1 0 0 false false (by decide) (by decide)
    (by decide)

end LinuxHacks.PageAlloc
