import LinuxHacks.PageAlloc.Runs

/-!
# Whole calls

`buffered_rmqueue` and `__free_pages` are two or three sections each, with a write
to a page the caller holds between them. They are runs of the system, so what
holds of all runs holds when calls on several CPUs are interleaved
(`bufferedRmqueue_run`, `freePages_run`). Freeing what was just allocated restores
the free lists (`alloc_free`), and `mark_free_pages` marks the free pages and no
others (`markFreePages_spec`).
-/

namespace LinuxHacks.PageAlloc

open LinuxHacks.Lib LinuxHacks.Lib.Buddy LinuxHacks.Lib.Buddy.Block

/-- `prep_new_page` leaves a page with one user and without `PG_private`. -/
theorem Page.prepNewPage_spec (p : Page) : p.prepNewPage.count = 1 ∧
    p.prepNewPage.zone = p.zone ∧ p.prepNewPage.flags .priv = false := by
  have hcheck : ∀ bad : Bool, (bad = false → p.flags .priv = false) →
      (if bad then p.badPage else p).zone = p.zone ∧
        (if bad then p.badPage else p).flags .priv = false := by
    intro bad hpriv
    cases bad
    · exact ⟨rfl, hpriv rfl⟩
    · exact ⟨rfl, Bool.and_false _⟩
  obtain ⟨hzone, hpriv⟩ := hcheck (decide (p.mapping ≠ 0) || p.mapped ||
    p.anyFlag [.priv, .locked, .lru, .active, .dirty, .reclaim, .swapcache, .writeback]) <| by
      intro hbad
      simp only [Bool.or_eq_false_iff, anyFlag, List.any_cons, List.any_nil] at hbad
      exact hbad.2.1
  rw [prepNewPage]
  refine ⟨rfl, hzone, ?_⟩
  show (Page.flags _ .priv && true) = false
  rw [hpriv, Bool.false_and]

variable {batch : ℕ} {s : State}

/-- A run of one step. -/
theorem Inv.single (hbatch : 1 ≤ batch) (h : Inv batch s) {a : Action} (ha : s.Allowed a)
    {s' : State} (hrun : s.run a = some s') :
    Relation.ReflTransGen ((system batch).Admitted State.Allowed) s s' ∧ Inv batch s' := by
  obtain ⟨s'', heq, hinv⟩ := h.run hbatch ha
  rw [hrun] at heq
  rw [← Option.some.inj heq] at hinv
  exact ⟨Relation.ReflTransGen.single ⟨a, ha, hrun⟩, hinv⟩

/-! ## `buffered_rmqueue` -/

/-- What a call of `buffered_rmqueue` leaves behind, and when it has no page. -/
structure Buffered (batch : ℕ) (s : State) (cpu order : ℕ) (cold : Bool) (z' : Zone)
    (r : Option ℕ) : Prop where
  run : Relation.ReflTransGen ((system batch).Admitted State.Allowed) s
    ⟨z', s.held ∪ {p | ∃ i, r = some i ∧ p ∈ (around order i).units}⟩
  inv : Inv batch ⟨z', s.held ∪ {p | ∃ i, r = some i ∧ p ∈ (around order i).units}⟩
  fresh : ∀ i, r = some i → 2 ^ order ∣ i ∧
    ∀ p ∈ (around order i).units, z'.badRange p = false ∧ p ∉ s.held
  none_iff : r = none ↔ (∀ a : Block, a.order = order → ¬ a.units ⊆ s.zone.free) ∧
    (order = 0 → (s.zone.pageset cpu cold).list = [])

/-- The second section, in a state in which the first has left no page. -/
theorem rmqueue_run (hbatch : 1 ≤ batch) {s₁ : State} (h₁ : Inv batch s₁)
    (hrun₁ : Relation.ReflTransGen ((system batch).Admitted State.Allowed) s s₁)
    (hheld : s₁.held = s.held) {order : ℕ} (ho : order < maxOrder) :
    ∃ z₂ r₂, s₁.zone.rmqueue order = some (z₂, r₂) ∧
      Relation.ReflTransGen ((system batch).Admitted State.Allowed) s
        ⟨z₂, s.held ∪ {p | ∃ i, r₂ = some i ∧ p ∈ (around order i).units}⟩ ∧
      Inv batch ⟨z₂, s.held ∪ {p | ∃ i, r₂ = some i ∧ p ∈ (around order i).units}⟩ ∧
      (∀ i, r₂ = some i → 2 ^ order ∣ i ∧
        ∀ p ∈ (around order i).units, z₂.badRange p = false ∧ p ∉ s.held) ∧
      (r₂ = none ↔ ∀ a : Block, a.order = order → ¬ a.units ⊆ s₁.zone.free) := by
  have hz := h₁.placed.buddies
  rcases Zone.rmqueue_spec hz order with ⟨heq, _⟩ | ⟨z', b, heq, ht⟩
  · obtain ⟨hrun, hinv⟩ := h₁.single hbatch (a := .rmqueue order) trivial
      (congrArg (Option.map _) heq)
    rw [hheld] at hrun hinv
    refine ⟨_, none, heq, hrun₁.trans hrun, hinv, fun i hi => absurd hi (by simp), ?_⟩
    rw [← Zone.rmqueue_none_iff hz ho]
    exact ⟨fun _ => heq, fun _ => rfl⟩
  · obtain ⟨hrun, hinv⟩ := h₁.single hbatch (a := .rmqueue order) trivial
      (congrArg (Option.map _) heq)
    rw [hheld] at hrun hinv
    refine ⟨z', some b.start, heq, hrun₁.trans hrun, hinv, ?_, ?_⟩
    · intro i hi
      rw [← Option.some.inj hi, ← ht.order_eq, around_eq b.start_mem]
      refine ⟨b.start_dvd, fun p hp => ⟨?_, ?_⟩⟩
      · rw [ht.frame.badRange]
        exact (hz.clean p (ht.subset hp)).range
      · rw [← hheld]
        exact h₁.placed.parts.notMem (i := .buddy) (j := .held) (ht.subset hp) (by simp)
    · refine ⟨fun hr => absurd hr (by simp), fun hnot => ?_⟩
      exact absurd ht.subset (hnot b ht.order_eq)

theorem units_order_zero (i p : ℕ) : p ∈ (around 0 i).units ↔ p = i := by
  rw [Zone.units_zero rfl, around_start (by rw [pow_zero]; exact one_dvd i)]

/-- The sections, before the page is made ready. -/
theorem sections_run (hbatch : 1 ≤ batch) (h : Inv batch s) (cpu : ℕ) {order : ℕ}
    (cold : Bool) (ho : order < maxOrder) :
    ∃ z₁ r₁ z₂ r₂, s.zone.rmqueuePcp cpu order cold = some (z₁, r₁) ∧
      z₁.rmqueueLocked order r₁ = some (z₂, r₂) ∧ Buffered batch s cpu order cold z₂ r₂ := by
  by_cases hzero : order = 0
  · subst hzero
    obtain ⟨z₁, r₁, heq, hplaced, hfull, hpages, hnone⟩ :=
      Zone.pcpRmqueue_spec h.placed h.full cpu cold
    obtain ⟨hrun, hinv⟩ := h.single hbatch (a := .pcpRmqueue cpu cold) trivial
      (congrArg (Option.map _) heq)
    cases r₁ with
    | some i =>
        have hset : {p | some i = some p} =
            {p | ∃ j, some i = some j ∧ p ∈ (around 0 j).units} := by
          ext p
          show some i = some p ↔ ∃ j, some i = some j ∧ p ∈ (around 0 j).units
          simp only [units_order_zero, Option.some.injEq, exists_eq_left', eq_comm]
        have hstate : (⟨z₁, s.held ∪ {p | some i = some p}⟩ : State) =
            ⟨z₁, s.held ∪ {p | ∃ j, some i = some j ∧ p ∈ (around 0 j).units}⟩ := by
          rw [hset]
        have hrun' := hrun
        have hinv' := hinv
        change Relation.ReflTransGen _ s ⟨z₁, s.held ∪ {p | some i = some p}⟩ at hrun'
        change Inv batch ⟨z₁, s.held ∪ {p | some i = some p}⟩ at hinv'
        rw [hstate] at hrun' hinv'
        have hi := (hpages i).mp (Or.inr (Or.inr rfl))
        refine ⟨z₁, some i, z₁, some i, (if_pos rfl).trans heq, if_neg (by simp), hrun', hinv',
          ?_, ?_⟩
        · intro j hj
          rw [← Option.some.inj hj]
          refine ⟨by rw [pow_zero]; exact one_dvd i, fun p hp => ?_⟩
          rw [units_order_zero] at hp
          rw [hp]
          refine ⟨hinv'.placed.parts.mem (i := Zone.Home.held)
            (Or.inr ⟨i, rfl, mem_around 0 i⟩), fun hheld => ?_⟩
          rcases hi with hi | hi
          · exact h.placed.parts.notMem (i := .buddy) (j := .held) hi (by simp) hheld
          · exact h.placed.parts.notMem (i := .pcp cpu cold) (j := .held) hi (by simp) hheld
        · refine ⟨fun hr => absurd hr (by simp), fun ⟨hno, hempty⟩ => ?_⟩
          rcases hi with hi | hi
          · refine absurd (fun p hp => ?_) (hno (around 0 i) rfl)
            rw [units_order_zero] at hp
            exact hp ▸ hi
          · rw [hempty rfl] at hi
            cases hi
    | none =>
        have hset : s.held ∪ {p | (none : Option ℕ) = some p} = s.held := by
          ext p
          simp
        have hheld : State.held ⟨z₁, s.held ∪ {p | (none : Option ℕ) = some p}⟩ = s.held := hset
        obtain ⟨z₂, r₂, heq₂, hrun₂, hinv₂, hfresh, hr₂⟩ :=
          rmqueue_run hbatch hinv hrun hheld ho
        refine ⟨z₁, none, z₂, r₂, (if_pos rfl).trans heq, (if_pos rfl).trans heq₂, hrun₂,
          hinv₂, hfresh, ?_⟩
        rw [hr₂]
        have hlist := hnone rfl
        have hsame : ∀ p, p ∈ z₁.free ↔ p ∈ s.zone.free ∨ p ∈ (s.zone.pageset cpu cold).list := by
          intro p
          have hp := hpages p
          rw [hlist] at hp
          simpa using hp
        constructor
        · intro hno
          refine ⟨fun a ha hsub => hno a ha fun p hp => (hsame p).mpr (Or.inl (hsub hp)),
            fun _ => ?_⟩
          refine List.eq_nil_iff_forall_not_mem.mpr fun p hp => hno (around 0 p) rfl fun q hq => ?_
          rw [units_order_zero] at hq
          exact hq ▸ (hsame p).mpr (Or.inr hp)
        · rintro ⟨hno, hempty⟩ a ha hsub
          refine hno a ha fun p hp => ((hsame p).mp (hsub hp)).resolve_right fun hmem => ?_
          rw [hempty rfl] at hmem
          cases hmem
  · obtain ⟨z₂, r₂, heq, hrun, hinv, hfresh, hnone⟩ :=
      rmqueue_run hbatch h Relation.ReflTransGen.refl rfl ho
    refine ⟨s.zone, none, z₂, r₂, if_neg hzero, (if_pos rfl).trans heq, hrun, hinv, hfresh, ?_⟩
    rw [hnone]
    exact ⟨fun hn => ⟨hn, fun h0 => absurd h0 hzero⟩, And.left⟩

/-- **`buffered_rmqueue`** is a run of the sections; it hands out a fresh block with one
user on its head, and has none only when the zone has no such block and, for a single
page, the list of the CPU is empty as well. -/
theorem bufferedRmqueue_run (hbatch : 1 ≤ batch) (h : Inv batch s) (cpu : ℕ) {order : ℕ}
    (cold : Bool) (ho : order < maxOrder) :
    ∃ z' r, s.zone.bufferedRmqueue cpu order cold = some (z', r) ∧
      Buffered batch s cpu order cold z' r ∧ ∀ i, r = some i → (z'.memMap i).count = 1 := by
  obtain ⟨z₁, r₁, z₂, r₂, heq₁, heq₂, hb⟩ := sections_run hbatch h cpu cold ho
  have hcall : s.zone.bufferedRmqueue cpu order cold = z₂.rmqueuePrep r₂ := by
    rw [Zone.bufferedRmqueue, heq₁]
    show (z₁.rmqueueLocked order r₁).bind _ = _
    rw [heq₂]
    rfl
  cases r₂ with
  | none => exact ⟨z₂, none, hcall, hb, fun i hi => absurd hi (by simp)⟩
  | some i =>
      obtain ⟨hcount, hzone, hpriv⟩ := (z₂.memMap i).prepNewPage_spec
      have hmem := mem_around order i
      have hrange := (hb.fresh i rfl).2 i hmem
      have hallowed : State.Allowed ⟨z₂, s.held ∪ {p | ∃ j, some i = some j ∧
          p ∈ (around order j).units}⟩ (.write i (z₂.memMap i).prepNewPage) := by
        refine ⟨Or.inr ⟨i, rfl, hmem⟩, hzone, ?_⟩
        rintro ⟨hlooks, _⟩
        rw [hpriv] at hlooks
        cases hlooks
      obtain ⟨hrun, hinv⟩ := hb.inv.single hbatch hallowed rfl
      refine ⟨_, some i, ?_, ⟨hb.run.trans hrun, hinv, ?_, ?_⟩, ?_⟩
      · rw [hcall]
        exact if_neg (by rw [hrange.1]; exact Bool.false_ne_true)
      · intro j hj
        refine ⟨(hb.fresh j hj).1, fun p hp => ?_⟩
        rw [Zone.badRange_setPage hzone]
        exact (hb.fresh j hj).2 p hp
      · exact hb.none_iff
      · intro j hj
        rw [← Option.some.inj hj, Zone.setPage_memMap, if_pos rfl]
        exact hcount

/-! ## `__free_pages` -/

/-- **`__free_pages`** is a run of the sections: with the last reference the block goes
back, else its holders keep it. -/
theorem freePages_run (hbatch : 1 ≤ batch) (h : Inv batch s) (cpu : ℕ) {page order : ℕ}
    (ho : order < maxOrder) (hdvd : 2 ^ order ∣ page)
    (hb : ∀ p ∈ (around order page).units, p ∈ s.held ∧
      (s.zone.memMap p).flags .reserved = false)
    (hpriv : (s.zone.memMap page).flags .priv = false) :
    ∃ z', s.zone.freePagesTestzero cpu page order = some z' ∧
      Relation.ReflTransGen ((system batch).Admitted State.Allowed) s ⟨z',
        if 1 < (s.zone.memMap page).count then s.held else s.held \ (around order page).units⟩ := by
  obtain ⟨hheld, hres⟩ := hb page (mem_around order page)
  let p : Page := { s.zone.memMap page with count := (s.zone.memMap page).count - 1 }
  have hallowed : s.Allowed (.write page p) :=
    ⟨hheld, rfl, fun hlooks => absurd hlooks.1 (by rw [show p.flags = _ from rfl, hpriv]; simp)⟩
  obtain ⟨hrun, hinv⟩ := h.single hbatch hallowed rfl
  have hres' : ∀ q, ((s.zone.setPage page p).memMap q).flags .reserved =
      (s.zone.memMap q).flags .reserved := by
    intro q
    rw [Zone.setPage_memMap]
    by_cases hq : q = page
    · rw [if_pos hq, hq]
    · rw [if_neg hq]
  rw [Zone.freePagesTestzero, hres]
  show ∃ z', (if 0 < (s.zone.memMap page).count - 1 then some (s.zone.setPage page p)
    else if order = 0 then (s.zone.setPage page p).freeHotColdPage cpu false page
    else (s.zone.setPage page p).freePagesOk page order) = some z' ∧ _
  by_cases hone : 1 < (s.zone.memMap page).count
  · rw [if_pos (by omega), if_pos hone]
    exact ⟨_, rfl, hrun⟩
  · rw [if_neg (by omega), if_neg hone]
    by_cases hzero : order = 0
    · rw [if_pos hzero, hzero]
      have hset : (around 0 page).units = {page} := by
        ext q
        exact units_order_zero page q
      obtain ⟨z', heq, _⟩ := Zone.freeHotColdPage_spec hbatch hinv.placed hinv.full cpu false hheld
        ((hres' page).trans hres)
      refine ⟨z', heq, hrun.tail ⟨.freeHotColdPage cpu false page,
        ⟨hheld, (hres' page).trans hres⟩, ?_⟩⟩
      rw [hset]
      exact congrArg (Option.map _) heq
    · rw [if_neg hzero]
      have hfree : (State.mk (s.zone.setPage page p) s.held).Allowed (.freePagesOk page order) :=
        ⟨ho, hdvd, fun q hq => ⟨(hb q hq).1, (hres' q).trans (hb q hq).2⟩⟩
      obtain ⟨s', heq, _⟩ := hinv.run hbatch hfree
      obtain ⟨z', hz', rfl⟩ := Option.map_eq_some_iff.mp heq
      exact ⟨z', hz', hrun.tail ⟨_, hfree, heq⟩⟩

/-! ## Allocating and freeing again -/

/-- **A round trip.** A block that is freed right after it was allocated merges with all
that was split off, and every list holds the same blocks as before. -/
theorem alloc_free (hbatch : 1 ≤ batch) (h : (system batch).Reach State.Allowed s)
    {order page : ℕ} (ho : order < maxOrder) {z₁ : Zone}
    (halloc : s.zone.rmqueue order = some (z₁, some page)) :
    ∃ z₂, z₁.freePagesBulkOne page order = some z₂ ∧
      (∀ o, (z₂.freeArea o).freeList.Perm (s.zone.freeArea o).freeList) ∧
      z₂.freePages = s.zone.freePages := by
  have hz := (reach_inv hbatch h).placed.buddies
  rcases Zone.rmqueue_spec hz order with ⟨hnone, _⟩ | ⟨z', b, hsome, ht⟩
  · rw [halloc] at hnone
    cases hnone
  · rw [halloc] at hsome
    obtain ⟨rfl, hpage⟩ := Prod.mk.inj (Option.some.inj hsome)
    have hfreeable : z₁.Freeable b := by
      refine ⟨ht.order_eq ▸ ho, fun p hp => ht.frame.clean.mpr (hz.clean p (ht.subset hp)), ?_⟩
      intro p hp hpf
      rw [ht.free] at hpf
      exact hpf.2 hp
    obtain ⟨z₂, heq, hfreed⟩ := Zone.freePagesBulkOne_spec ht.buddies hfreeable
    have hfree : z₂.free = s.zone.free := by
      rw [hfreed.free, ht.free, Set.sdiff_union_of_subset ht.subset]
    refine ⟨z₂, ?_, fun o => hz.perm hfreed.buddies hfree o, ?_⟩
    · rw [Option.some.inj hpage, ← ht.order_eq]
      exact heq
    · rw [hfreed.freePages, ht.freePages, ht.order_eq, sub_add_cancel]

theorem freed_round_trip : ∃ z₁ z₂, freedZone.rmqueue 0 = some (z₁, some 0) ∧
    z₁.freePagesBulkOne 0 0 = some z₂ ∧
    ∀ o, (z₂.freeArea o).freeList.Perm (freedZone.freeArea o).freeList := by
  have halloc : freedZone.rmqueue 0 =
      some (((freedZone.rmqueue 0).getD (freedZone, none)).1, some 0) := rfl
  obtain ⟨z₂, hfree, hperm, _⟩ := alloc_free (le_refl 1) freed_reach (by decide) halloc
  exact ⟨_, z₂, halloc, hfree, hperm⟩

/-! ## `mark_free_pages` -/

namespace Zone

/-- `z'` is `z` with `PG_nosave_free` set on the pages `S`. -/
structure Marked (S : Set ℕ) (z z' : Zone) : Prop where
  freeArea : z'.freeArea = z.freeArea
  flag : ∀ p, (z'.memMap p).flags .nosaveFree = true ↔
    p ∈ S ∨ (z.memMap p).flags .nosaveFree = true

/-- A loop marks what its passes mark. -/
theorem Marked.foldl {S : ℕ → Zone → Set ℕ} {f : Zone → ℕ → Zone}
    (hf : ∀ z i, Marked (S i z) z (f z i))
    (hS : ∀ i z z', z'.freeArea = z.freeArea → S i z' = S i z) :
    ∀ (l : List ℕ) (z : Zone), Marked {p | ∃ i ∈ l, p ∈ S i z} z (l.foldl f z) := by
  intro l
  induction l with
  | nil => exact fun z => ⟨rfl, fun p => by simp⟩
  | cons i l ih =>
      intro z
      have hstep := hf z i
      have hrest := ih (f z i)
      refine ⟨hrest.freeArea.trans hstep.freeArea, fun p => ?_⟩
      have hsame : (∃ j ∈ l, p ∈ S j (f z i)) ↔ ∃ j ∈ l, p ∈ S j z :=
        exists_congr fun j => and_congr Iff.rfl (by rw [hS j z (f z i) hstep.freeArea])
      rw [List.foldl_cons, hrest.flag, hstep.flag]
      show ((∃ j ∈ l, p ∈ S j (f z i)) ∨ p ∈ S i z ∨ _) ↔ (∃ j ∈ i :: l, p ∈ S j z) ∨ _
      rw [hsame]
      simp only [List.mem_cons, exists_eq_or_imp]
      rw [← or_assoc, or_comm (a := ∃ j ∈ l, p ∈ S j z)]

theorem setFlag_marked (z : Zone) (i : ℕ) :
    Marked {i} z (z.setPage i ((z.memMap i).setFlag .nosaveFree)) := by
  refine ⟨rfl, fun p => ?_⟩
  rw [setPage_memMap, Set.mem_singleton_iff]
  by_cases hp : p = i
  · rw [if_pos hp]
    refine ⟨fun _ => Or.inl hp, fun _ => ?_⟩
    show Function.update (z.memMap i).flags .nosaveFree true .nosaveFree = true
    rw [Function.update_self]
  · rw [if_neg hp]
    exact ⟨Or.inr, fun h => h.resolve_left hp⟩

theorem markBlock_marked (o : ℕ) (z : Zone) (start : ℕ) :
    Marked {p | start ≤ p ∧ p < start + 2 ^ o} z (markBlock o z start) := by
  have h := Marked.foldl (S := fun i _ => {start + i})
    (fun z i => setFlag_marked z (start + i)) (fun _ _ _ _ => rfl) (List.range (2 ^ o)) z
  refine ⟨h.freeArea, fun p => (h.flag p).trans (or_congr ?_ Iff.rfl)⟩
  constructor
  · rintro ⟨i, hi, hp⟩
    rw [List.mem_range] at hi
    rw [Set.mem_singleton_iff] at hp
    exact ⟨by omega, by omega⟩
  · rintro ⟨hle, hlt⟩
    exact ⟨p - start, List.mem_range.mpr (by omega), (by omega : p = start + (p - start))⟩

theorem markOrder_marked (z : Zone) (o : ℕ) :
    Marked {p | ∃ start ∈ (z.freeArea o).freeList, start ≤ p ∧ p < start + 2 ^ o} z
      (z.markOrder o) :=
  Marked.foldl (S := fun start _ => {p | start ≤ p ∧ p < start + 2 ^ o})
    (markBlock_marked o) (fun _ _ _ _ => rfl) (z.freeArea o).freeList z

/-- The first loop clears the mark of every page of the zone. -/
theorem clear_marks (z : Zone) : ∀ n,
    ((List.range n).foldl
        (fun z i => z.setPage i ((z.memMap i).clearFlags [.nosaveFree])) z).freeArea = z.freeArea ∧
      ∀ p, p < n → (((List.range n).foldl
        (fun z i => z.setPage i ((z.memMap i).clearFlags [.nosaveFree])) z).memMap p).flags
          .nosaveFree = false := by
  intro n
  induction n with
  | zero => exact ⟨rfl, fun p hp => absurd hp (Nat.not_lt_zero p)⟩
  | succ n ih =>
      rw [List.range_succ, List.foldl_append, List.foldl_cons, List.foldl_nil]
      refine ⟨ih.1, fun p hp => ?_⟩
      rw [setPage_memMap]
      by_cases hpn : p = n
      · rw [if_pos hpn]
        exact Bool.and_false _
      · rw [if_neg hpn]
        exact ih.2 p (by omega)

end Zone

/-- **`mark_free_pages`** marks the pages of the free blocks and, within the zone, no
others: none that is in use or on a per-CPU list. -/
theorem markFreePages_spec (hbatch : 1 ≤ batch) (h : (system batch).Reach State.Allowed s)
    {p : ℕ} (hp : p < s.zone.spannedPages) :
    (s.zone.markFreePages.memMap p).flags .nosaveFree = true ↔ p ∈ s.zone.free := by
  have hz := (reach_inv hbatch h).placed.buddies
  obtain ⟨harea, hclear⟩ := Zone.clear_marks s.zone s.zone.spannedPages
  have hspan : s.zone.spannedPages ≠ 0 := by omega
  have hmarked := Zone.Marked.foldl
    (S := fun o z => {p | ∃ start ∈ (z.freeArea o).freeList, start ≤ p ∧ p < start + 2 ^ o})
    Zone.markOrder_marked (fun o z z' hz => by rw [hz]) (List.range maxOrder).reverse
    s.zone.clearNosaveFree
  rw [Zone.markFreePages, if_neg hspan, hmarked.flag, Zone.clearNosaveFree, hclear p hp, harea]
  simp only [Bool.false_eq_true, or_false]
  constructor
  · rintro ⟨o, _, start, hstart, hle, hlt⟩
    have hdvd := (hz.aligned o start hstart).2
    refine ⟨around o start, hz.around_mem hstart, mem_units_iff.mpr ?_⟩
    rw [around_start hdvd]
    exact ⟨hle, hlt⟩
  · rintro ⟨b, hb, hpb⟩
    refine ⟨b.order, ?_, b.start, hb.2, mem_units_iff.mp hpb⟩
    rw [List.mem_reverse, List.mem_range]
    exact hb.1

theorem freed_marked : (freedZone.markFreePages.memMap 1).flags .nosaveFree = true ↔
    1 ∈ freedZone.free :=
  markFreePages_spec (le_refl 1) freed_reach (by decide)

end LinuxHacks.PageAlloc
