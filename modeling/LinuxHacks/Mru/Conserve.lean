import LinuxHacks.Mru.Order
import Mathlib.Data.Multiset.AddSub

/-!
# `shrink_zone` keeps every page (`HW5/mm/vmscan.c`)

`Holding z₀ z held freed`: since zone `z₀` the pages on the lists became those
on the lists of `z`, the pages `held` in private lists and the pages `freed`.
Under the three-list invariant `PG_lru` says which pages are on a list, so
that this is followed through the flags; the multisets come at the end
(`Holding.pages`).

Every function of `shrink_zone` is shown to end without a `BUG` and to be a
`Pass`: no page lost, the freed pages counted in `nr_reclaimed`, and the order
of the safety list as before unless the function is about that list.
-/

namespace LinuxHacks.Mru

open Zone

/-- The pages on the three lists. -/
def Zone.pages (z : Zone) : Multiset Page :=
  (z.list .active : Multiset Page) + (z.list .inactive : Multiset Page) +
    (z.list .safety : Multiset Page)

theorem ZoneInv.mem_pages {z : Zone} (h : ZoneInv z) {p : Page} :
    p ∈ z.pages ↔ (z.flags p).lru = true := by
  rw [Zone.pages, Multiset.mem_add, Multiset.mem_add, Multiset.mem_coe, Multiset.mem_coe,
    Multiset.mem_coe, h.mem, h.mem, h.mem]
  cases hk : (z.flags p).kind <;> simp

theorem ZoneInv.disjoint {z : Zone} (h : ZoneInv z) {j k : ListKind} (hjk : j ≠ k) :
    Disjoint (z.list j : Multiset Page) (z.list k) := by
  rw [Multiset.disjoint_left]
  intro p hj hk
  exact hjk (((h.mem j p).mp hj).2.symm.trans ((h.mem k p).mp hk).2)

theorem ZoneInv.nodup_pages {z : Zone} (h : ZoneInv z) : z.pages.Nodup := by
  have hcoe : ∀ k, (z.list k : Multiset Page).Nodup := fun k => Multiset.coe_nodup.mpr (h.nodup k)
  refine Multiset.nodup_add.mpr ⟨Multiset.nodup_add.mpr ⟨hcoe _, hcoe _, ?_⟩, hcoe _, ?_⟩
  · exact h.disjoint (by simp)
  · rw [Multiset.disjoint_add_left]
    exact ⟨h.disjoint (by simp), h.disjoint (by simp)⟩

/-! ## Pages in private lists -/

structure Holding (z₀ z : Zone) (held freed : List Page) : Prop where
  zone : ZoneInv z
  nodup : (held ++ freed).Nodup
  off : ∀ p ∈ held ++ freed, (z.flags p).lru = false
  same : ∀ p, (z₀.flags p).lru = true ↔ (z.flags p).lru = true ∨ p ∈ held ++ freed

section Holding

variable {z₀ z z' : Zone} {held freed : List Page}

theorem Holding.refl (h : ZoneInv z) : Holding z z [] [] :=
  ⟨h, List.nodup_nil, by simp, by simp⟩

/-- Nothing is held: the pages before are the pages after and the freed ones. -/
theorem Holding.pages (h : Holding z₀ z [] freed) (h₀ : ZoneInv z₀) :
    z₀.pages = z.pages + (freed : Multiset Page) := by
  have hnd : (z.pages + (freed : Multiset Page)).Nodup := by
    refine Multiset.nodup_add.mpr ⟨h.zone.nodup_pages, Multiset.coe_nodup.mpr h.nodup, ?_⟩
    rw [Multiset.disjoint_left]
    intro p hp hf
    have hlru := h.zone.mem_pages.mp hp
    rw [h.off p (Multiset.mem_coe.mp hf)] at hlru
    cases hlru
  refine (Multiset.Nodup.ext h₀.nodup_pages hnd).mpr (fun p => ?_)
  rw [Multiset.mem_add, h₀.mem_pages, h.zone.mem_pages, Multiset.mem_coe]
  exact h.same p

theorem Holding.trans {freed' : List Page} (h : Holding z₀ z [] freed)
    (h' : Holding z z' [] freed') : Holding z₀ z' [] (freed ++ freed') := by
  have hlru : ∀ p ∈ freed', (z.flags p).lru = true := fun p hp => (h'.same p).mpr (Or.inr hp)
  have hoff : ∀ p ∈ freed, (z'.flags p).lru = false := by
    intro p hp
    rw [← Bool.not_eq_true]
    intro hp'
    have hback := (h'.same p).mpr (Or.inl hp')
    rw [h.off p hp] at hback
    cases hback
  refine ⟨h'.zone, ?_, ?_, ?_⟩
  · show (freed ++ freed').Nodup
    refine List.nodup_append.mpr ⟨h.nodup, h'.nodup, ?_⟩
    rintro p hp q hq rfl
    have hon := hlru p hq
    rw [h.off p hp] at hon
    cases hon
  · intro p hp
    change p ∈ freed ++ freed' at hp
    rcases List.mem_append.mp hp with hp | hp
    · exact hoff p hp
    · exact h'.off p hp
  · intro p
    rw [h.same p, h'.same p]
    simp only [List.nil_append, List.mem_append]
    tauto

/-- A section that leaves `PG_lru` alone. -/
theorem Holding.lruSame (h : Holding z₀ z held freed) (hz : ZoneInv z')
    (hlru : ∀ p, (z'.flags p).lru = (z.flags p).lru) : Holding z₀ z' held freed :=
  ⟨hz, h.nodup, fun p hp => (hlru p).trans (h.off p hp), fun p => by rw [hlru, h.same p]⟩

theorem Holding.perm {held' freed' : List Page} (h : Holding z₀ z held freed)
    (hp : (held' ++ freed').Perm (held ++ freed)) : Holding z₀ z held' freed' :=
  ⟨h.zone, hp.nodup_iff.mpr h.nodup, fun p hm => h.off p (hp.mem_iff.mp hm),
    fun p => by rw [h.same p, hp.mem_iff]⟩

/-- A section that isolates pages. -/
theorem Holding.taken {k : ListKind} {ps : List Page} (h : Holding z₀ z [] freed)
    (hz : ZoneInv z') (ht : Taken k z z' ps) : Holding z₀ z' ps freed := by
  have hnot : ∀ p ∈ ps, p ∉ freed := by
    intro p hp hf
    have hon := (ht.came p hp).1
    rw [h.off p hf] at hon
    cases hon
  refine ⟨hz, ?_, ?_, ?_⟩
  · refine List.nodup_append.mpr ⟨ht.nodup, h.nodup, ?_⟩
    rintro p hp q hq rfl
    exact hnot p hp hq
  · intro p hp
    by_cases hps : p ∈ ps
    · rw [ht.flags p hps]
      rfl
    · rw [ht.other p hps]
      exact h.off p ((List.mem_append.mp hp).resolve_left hps)
  · intro p
    rw [h.same p, List.mem_append]
    by_cases hps : p ∈ ps
    · simp [(ht.came p hps).1, hps]
    · rw [ht.other p hps]
      simp [hps]

/-- A section that puts pages back on the LRU. -/
theorem Holding.entered {done rest : List Page} (h : Holding z₀ z (done ++ rest) freed)
    (hz : ZoneInv z') (hent : Entered z z' done) : Holding z₀ z' rest freed := by
  have hnd := h.nodup
  rw [List.append_assoc] at hnd
  obtain ⟨_, hnd', hdisj⟩ := List.nodup_append.mp hnd
  have hnot : ∀ p ∈ rest ++ freed, p ∉ done := fun p hp hd => hdisj p hd p hp rfl
  refine ⟨hz, hnd', ?_, ?_⟩
  · intro p hp
    rw [hent.other p (hnot p hp)]
    refine h.off p ?_
    rw [List.append_assoc]
    exact List.mem_append_right _ hp
  · intro p
    rw [h.same p, List.append_assoc, List.mem_append]
    by_cases hd : p ∈ done
    · simp [hent.on p hd, hd]
    · rw [hent.other p hd]
      simp [hd]

end Holding

/-! ## Loops that empty a private list -/

theorem drain_spec {lockedSection : List Page → Nat → Zone → Option (Zone × List Page × Nat)}
    {I : List Page → Zone → Prop}
    (hsection : ∀ p l nr z, I (p :: l) z → ∃ z' rest nr',
      lockedSection (p :: l) nr z = some (z', rest, nr') ∧ rest.length ≤ l.length ∧ I rest z') :
    ∀ (n : Nat) (l : List Page) (nr : Nat) (z : Zone), l.length ≤ n → I l z →
      ∃ z' nr', drain lockedSection n l nr z = some (z', nr') ∧ I [] z'
  | n, [], nr, z, _, h => ⟨z, nr, by cases n <;> rfl, h⟩
  | 0, p :: l, nr, z, hn, _ => by simp at hn
  | n + 1, p :: l, nr, z, hn, h => by
      obtain ⟨z', rest, nr', hs, hlen, h'⟩ := hsection p l nr z h
      rw [List.length_cons] at hn
      obtain ⟨z'', nr'', hd, hend⟩ := drain_spec hsection n rest nr' z' (by omega) h'
      refine ⟨z'', nr'', ?_, hend⟩
      rw [drain, hs]
      exact hd

theorem drain_putBack (pagevecSize : Nat) {l : List Page} {z₀ z : Zone} {freed : List Page}
    (h : Holding z₀ z l freed) (nr : Nat) :
    ∃ z' nr', drain (fun l nr z => z.putBackLoop pagevecSize l nr) l.length l nr z =
        some (z', nr') ∧
      Holding z₀ z' [] freed ∧ z'.list .safety = z.list .safety := by
  refine drain_spec (I := fun l' z' => Holding z₀ z' l' freed ∧
    z'.list .safety = z.list .safety) ?_ _ l nr z le_rfl ⟨h, rfl⟩
  rintro p l nr z' ⟨hh, hs⟩
  obtain ⟨z'', done, rest, nr', hz, hl, hinv, hent⟩ :=
    hh.zone.putBackLoop pagevecSize nr (List.nodup_append.mp hh.nodup).1
      (fun q hq => hh.off q (List.mem_append_left _ hq))
  obtain ⟨hsafety, hlen⟩ := putBackLoop_spec pagevecSize hz
  rw [hl] at hh
  exact ⟨z'', rest, nr', hz, by simpa using hlen, hh.entered hinv hent, hsafety.trans hs⟩

theorem drain_refill {k : ListKind} (hk : k ≠ .safety) (pagevecSize : Nat)
    {l other : List Page} {z₀ z : Zone} {freed : List Page}
    (h : Holding z₀ z (l ++ other) freed) (hact : ∀ p ∈ l ++ other, (z.flags p).active = true)
    (nr : Nat) :
    ∃ z' nr', drain (fun l nr z => z.refillSection k pagevecSize l nr) l.length l nr z =
        some (z', nr') ∧
      Holding z₀ z' other freed ∧ (∀ p ∈ other, (z'.flags p).active = true) ∧
      z'.list .safety = z.list .safety := by
  refine drain_spec (I := fun l' z' => Holding z₀ z' (l' ++ other) freed ∧
    (∀ p ∈ l' ++ other, (z'.flags p).active = true) ∧ z'.list .safety = z.list .safety)
    ?_ _ l nr z le_rfl ⟨h, hact, rfl⟩
  rintro p l nr z' ⟨hh, ha, hs⟩
  have hnd := hh.nodup
  rw [List.append_assoc] at hnd
  obtain ⟨hnd', _, hdisj⟩ := List.nodup_append.mp hnd
  obtain ⟨z'', done, rest, nr', hz, hl, hinv, hent⟩ :=
    hh.zone.refillSection hk pagevecSize nr hnd' (fun q hq =>
      ⟨hh.off q (List.mem_append_left _ (List.mem_append_left _ hq)),
        ha q (List.mem_append_left _ hq)⟩)
  obtain ⟨hsafety, hlen⟩ := refillSection_spec hk hz
  have hsplit : p :: l ++ other = done ++ (rest ++ other) := by rw [hl, List.append_assoc]
  rw [hsplit] at hh ha
  refine ⟨z'', rest, nr', hz, by simpa using hlen, hh.entered hinv hent, ?_, hsafety.trans hs⟩
  intro q hq
  have hnot : q ∉ done := by
    have hnd'' := (List.nodup_append.mp hh.nodup).1
    exact fun hd => (List.nodup_append.mp hnd'').2.2 q hd q hq rfl
  rw [hent.other q hnot]
  exact ha q (List.mem_append_right _ hq)

/-! ## `shrink_list` -/

theorem Holding.shrinkOne {z₀ z : Zone} {p : Page} {held freed : List Page}
    (h : Holding z₀ z (p :: held) freed) (hact : (z.flags p).active = false)
    (outcome : Outcome) :
    ∃ z' gone, z.shrinkOne p outcome = some (z', gone) ∧ Holding z₀ z' (p :: held) freed ∧
      z'.list = z.list ∧ ∀ q, q ≠ p → z'.flags q = z.flags q := by
  have hlru : (z.flags p).lru = false := h.off p (by simp)
  cases outcome with
  | locked => exact ⟨z, false, by simp [Zone.shrinkOne, hlru], h, rfl, fun _ _ => rfl⟩
  | keep => exact ⟨z, false, by simp [Zone.shrinkOne, hlru, hact], h, rfl, fun _ _ => rfl⟩
  | activate =>
      refine ⟨z.setActive p true, false, by simp [Zone.shrinkOne, hlru, hact], ?_, rfl,
        fun q hq => Function.update_of_ne hq _ _⟩
      refine h.lruSame (h.zone.reflag rfl rfl (Or.inr hlru)) (fun q => ?_)
      show (Function.update z.flags p _ q).lru = _
      by_cases hq : q = p
      · rw [hq, Function.update_self]
      · rw [Function.update_of_ne hq]
  | free => exact ⟨z, true, by simp [Zone.shrinkOne, hact], h, rfl, fun _ _ => rfl⟩

theorem pagevecReleaseNonlru_eq {z : Zone} {freedPvec : List Page}
    (h : ∀ p ∈ freedPvec, (z.flags p).lru = false) :
    z.pagevecReleaseNonlru freedPvec = some () := by
  rw [Zone.pagevecReleaseNonlru, if_neg]
  simp only [List.any_eq_true, not_exists, not_and, Bool.not_eq_true]
  exact h

section Functions

variable (params : Params) (a : Answers)

/-- Freeing a page: into the pagevec, which is released when it is full. -/
theorem freeIt_spec {p : Page} {s : ShrinkList} {r : Reclaim}
    (hoff : ∀ q ∈ s.freedPvec ++ [p], (r.zone.flags q).lru = false) :
    ∃ pvec, (∀ q ∈ pvec, q ∈ s.freedPvec ++ [p]) ∧
      freeIt params p s r =
        some (⟨s.retPages, pvec, s.reclaimed + 1⟩, { r with freed := r.freed ++ [p] }) := by
  by_cases hfull : params.pagevecSize ≤ (s.freedPvec ++ [p]).length
  · refine ⟨[], by simp, ?_⟩
    rw [freeIt, if_pos hfull, pagevecReleaseNonlru_eq hoff]
    rfl
  · refine ⟨s.freedPvec ++ [p], fun _ hq => hq, ?_⟩
    rw [freeIt, if_neg hfull]

/-- What the loop of `shrink_list` did with the pages `l` of its list. -/
structure Shrunk (c : Cache) (l : List Page) (s s' : ShrinkList) (r r' : Reclaim)
    (new : List Page) : Prop where
  reclaimed : s'.reclaimed = s.reclaimed + new.length
  freed : r'.freed = r.freed ++ new
  nrReclaimed : r'.nrReclaimed = r.nrReclaimed
  list : r'.zone.list = r.zone.list
  handed : r'.handed = Function.update r.handed c (r.handed c ++ l)

/-- The pages are taken in the order in which they were isolated, from the tail
of the list, and each is kept or freed. -/
theorem shrinkListLoop_spec (c : Cache) {z₀ : Zone} : ∀ (l : List Page) {s : ShrinkList}
    {r : Reclaim} {freed : List Page}, Holding z₀ r.zone (l ++ s.retPages) freed →
    (∀ p ∈ l, (r.zone.flags p).active = false) → (∀ p ∈ s.freedPvec, p ∈ freed) →
    ∃ s' r' new, shrinkListLoop params a c l.length l.reverse s r = some (s', r') ∧
      Holding z₀ r'.zone s'.retPages (freed ++ new) ∧ (∀ p ∈ s'.freedPvec, p ∈ freed ++ new) ∧
      Shrunk c l s s' r r' new
  | [], s, r, freed, h, _, hpvec => by
      refine ⟨s, r, [], by simp [shrinkListLoop], by simpa using h, by simpa using hpvec,
        by simp, by simp, rfl, rfl, ?_⟩
      rw [List.append_nil, Function.update_eq_self]
  | p :: l, s, r, freed, h, hact, hpvec => by
      obtain ⟨z, gone, hone, hh, hlist, hother⟩ :=
        Holding.shrinkOne h (hact p List.mem_cons_self) (a.outcome r.tried)
      have hp : p ∉ l := by
        have hnd := (List.nodup_append.mp (List.nodup_append.mp h.nodup).1).1
        exact (List.nodup_cons.mp hnd).1
      have hact' : ∀ q ∈ l, (z.flags q).active = false := by
        intro q hq
        rw [hother q (fun hqp => hp (hqp ▸ hq))]
        exact hact q (List.mem_cons_of_mem _ hq)
      obtain ⟨r₁, hr₁⟩ : ∃ r₁, r₁ = { r with
        zone := z
        tried := r.tried + 1
        handed := Function.update r.handed c (r.handed c ++ [p]) } := ⟨_, rfl⟩
      have hloop : shrinkListLoop params a c (p :: l).length (p :: l).reverse s r =
          if gone then (freeIt params p s r₁).bind
            (fun next => shrinkListLoop params a c l.length l.reverse next.1 next.2)
          else shrinkListLoop params a c l.length l.reverse
            { s with retPages := p :: s.retPages } r₁ := by
        rw [List.length_cons, shrinkListLoop, List.reverse_cons]
        simp only [List.getLast?_concat, List.dropLast_concat, hone, hr₁]
        rfl
      have hhanded : Function.update r₁.handed c (r₁.handed c ++ l) =
          Function.update r.handed c (r.handed c ++ (p :: l)) := by
        rw [hr₁]
        simp
      rw [hloop]
      cases gone with
      | true =>
          obtain ⟨pvec, hsub, hfree⟩ := freeIt_spec params (p := p) (s := s) (r := r₁) (by
            intro q hq
            rw [hr₁]
            refine hh.off q ?_
            rcases List.mem_append.mp hq with hq | hq
            · exact List.mem_append_right _ (hpvec q hq)
            · rw [List.mem_singleton.mp hq]
              simp)
          have hmove : Holding z₀ z (l ++ s.retPages) (freed ++ [p]) := by
            refine hh.perm ?_
            rw [← List.append_assoc]
            exact List.perm_append_singleton p _
          obtain ⟨s', r', new, heq, hend, hpvec', hspec⟩ :=
            shrinkListLoop_spec c l (s := ⟨s.retPages, pvec, s.reclaimed + 1⟩)
              (r := { r₁ with freed := r₁.freed ++ [p] })
              (show Holding z₀ r₁.zone (l ++ s.retPages) (freed ++ [p]) by rw [hr₁]; exact hmove)
              (by rw [hr₁]; exact hact') (by
                intro q hq
                rcases List.mem_append.mp (hsub q hq) with hq | hq
                · exact List.mem_append_left _ (hpvec q hq)
                · exact List.mem_append_right _ hq)
          refine ⟨s', r', p :: new, ?_, by simpa using hend, by simpa using hpvec', ?_, ?_, ?_,
            ?_, hspec.handed.trans hhanded⟩
          · rw [if_pos rfl, hfree]
            exact heq
          · rw [hspec.reclaimed, List.length_cons]
            show s.reclaimed + 1 + new.length = _
            omega
          · rw [hspec.freed, hr₁]
            simp
          · rw [hspec.nrReclaimed, hr₁]
          · rw [hspec.list, hr₁]
            exact hlist
      | false =>
          have hmove : Holding z₀ z (l ++ (p :: s.retPages)) freed :=
            hh.perm (List.perm_middle.append_right freed)
          obtain ⟨s', r', new, heq, hend, hpvec', hspec⟩ :=
            shrinkListLoop_spec c l (s := { s with retPages := p :: s.retPages }) (r := r₁)
              (by rw [hr₁]; exact hmove) (by rw [hr₁]; exact hact') hpvec
          refine ⟨s', r', new, ?_, hend, hpvec', hspec.reclaimed, ?_, ?_, ?_,
            hspec.handed.trans hhanded⟩
          · rw [if_neg (by simp)]
            exact heq
          · rw [hspec.freed, hr₁]
          · rw [hspec.nrReclaimed, hr₁]
          · rw [hspec.list, hr₁]
            exact hlist

/-! ## The functions of `shrink_zone` -/

/-- A part of `shrink_zone`: no page is lost, and the pages freed, `new`, are
counted. -/
structure Pass (r r' : Reclaim) (new : List Page) : Prop where
  holding : Holding r.zone r'.zone [] new
  freed : r'.freed = r.freed ++ new
  reclaimed : r'.nrReclaimed = r.nrReclaimed + new.length

/-- The safety list and what was handed on from it are as before. -/
structure SafetyKept (r r' : Reclaim) : Prop where
  list : r'.zone.list .safety = r.zone.list .safety
  handed : r'.handed .shrinkCacheMru = r.handed .shrinkCacheMru

/-- The pages `shrink_list` got from the safety list, and those still to come, in
order. -/
def Reclaim.victims (r : Reclaim) : List Page :=
  r.handed .shrinkCacheMru ++ (r.zone.list .safety).reverse

variable {params a} {r r' r'' : Reclaim} {f f' : List Page}

theorem Pass.zoneInv (h : Pass r r' f) : ZoneInv r'.zone := h.holding.zone

theorem Pass.trans (h : Pass r r' f) (h' : Pass r' r'' f') : Pass r r'' (f ++ f') where
  holding := h.holding.trans h'.holding
  freed := by rw [h'.freed, h.freed, List.append_assoc]
  reclaimed := by rw [h'.reclaimed, h.reclaimed, List.length_append, Nat.add_assoc]

theorem SafetyKept.trans (h : SafetyKept r r') (h' : SafetyKept r' r'') : SafetyKept r r'' :=
  ⟨h'.list.trans h.list, h'.handed.trans h.handed⟩

theorem SafetyKept.victims (h : SafetyKept r r') : r'.victims = r.victims := by
  rw [Reclaim.victims, h.list, h.handed, Reclaim.victims]

/-- The safety list is handed on from its tail, `SWAP_CLUSTER_MAX` pages at
least or all of it when `shrink_cache_mru` has something to scan. -/
structure HandsOn (params : Params) (c : Cache) (maxScan : Int) (r r' : Reclaim) : Prop where
  victims : r'.victims = r.victims
  more : ∃ more, r'.handed .shrinkCacheMru = r.handed .shrinkCacheMru ++ more ∧
    (c = .shrinkCacheMru → 0 < maxScan →
      r'.zone.list .safety = [] ∨ params.swapClusterMax ≤ more.length)

/-- `shrink_cache` is not about the safety list. -/
theorem SafetyKept.handsOn {maxScan : Int} (h : SafetyKept r r') :
    HandsOn params .shrinkCache maxScan r r' :=
  ⟨h.victims, [], by rw [h.handed, List.append_nil], fun hc => by cases hc⟩

/-- An isolation from the safety list hands on `taken`, and the rest of the
loop goes on from there. -/
theorem HandsOn.batch {maxScan maxScan' : Int} {taken : List Page}
    (htaken : taken ++ (r'.zone.list .safety).reverse = (r.zone.list .safety).reverse)
    (hhanded : r'.handed .shrinkCacheMru = r.handed .shrinkCacheMru ++ taken)
    (hfull : params.swapClusterMax ≤ taken.length ∨ r'.zone.list .safety = [])
    (h : HandsOn params .shrinkCacheMru maxScan' r' r'') :
    HandsOn params .shrinkCacheMru maxScan r r'' := by
  obtain ⟨more, hmore, _⟩ := h.more
  refine ⟨?_, taken ++ more, ?_, fun _ _ => ?_⟩
  · rw [h.victims, Reclaim.victims, hhanded, List.append_assoc, htaken, Reclaim.victims]
  · rw [hmore, hhanded, List.append_assoc]
  · rcases hfull with hfull | hnil
    · right
      rw [List.length_append]
      omega
    · left
      have hv := h.victims
      rw [Reclaim.victims, Reclaim.victims, hmore, hnil, List.append_assoc] at hv
      have hnone := List.append_cancel_left hv
      rw [List.reverse_nil, List.append_eq_nil_iff, List.reverse_eq_nil_iff] at hnone
      exact hnone.2

variable (params)

/-- `shrink_list` on the pages `l`, isolated in this order. -/
theorem shrinkList_spec (c : Cache) {z₀ : Zone} {l : List Page}
    (h : Holding z₀ r.zone l []) (hact : ∀ p ∈ l, (r.zone.flags p).active = false) :
    ∃ pageList nrFreed r' new, shrinkList params a c l.reverse r = some (pageList, nrFreed, r') ∧
      Holding z₀ r'.zone pageList new ∧ r'.freed = r.freed ++ new ∧
      r'.nrReclaimed = r.nrReclaimed + new.length ∧ r'.zone.list = r.zone.list ∧
      r'.handed = Function.update r.handed c (r.handed c ++ l) := by
  obtain ⟨s', r₁, new, heq, hh, hpvec, hspec⟩ := shrinkListLoop_spec params a c l
    (s := ⟨[], [], 0⟩) (r := r) (show Holding z₀ r.zone (l ++ []) [] by simpa using h) hact
    (by simp)
  refine ⟨s'.retPages, s'.reclaimed, { r₁ with nrReclaimed := r₁.nrReclaimed + s'.reclaimed },
    new, ?_, by simpa using hh, hspec.freed, ?_, hspec.list, hspec.handed⟩
  · have hrelease : r₁.zone.pagevecReleaseNonlru s'.freedPvec = some () := by
      refine pagevecReleaseNonlru_eq (fun p hp => hh.off p ?_)
      exact List.mem_append_right _ (hpvec p hp)
    rw [shrinkList, List.length_reverse, heq]
    simp only [Option.bind_eq_bind, Option.bind_some, hrelease]
  · show r₁.nrReclaimed + s'.reclaimed = _
    rw [hspec.nrReclaimed, hspec.reclaimed]
    simp

/-- One iteration of the loop of `shrink_cache` or `shrink_cache_mru`, when
pages were isolated. -/
theorem shrinkCacheBatch_spec (c : Cache) (nr : Nat) {i : Zone.Isolation} (hz : ZoneInv r.zone)
    (hi : ZoneInv i.zone) (ht : Taken c.kind r.zone i.zone i.taken) :
    ∃ pageList nrFreed r₁ z nr' new,
      shrinkList params a c i.taken.reverse
          { r with zone := i.zone, isolations := r.isolations + 1 } =
        some (pageList, nrFreed, r₁) ∧
      drain (fun l nr z => z.putBackLoop params.pagevecSize l nr) pageList.length
        pageList.reverse nr r₁.zone = some (z, nr') ∧
      (∀ m : Int, Pass r { r₁ with zone := z, nrToReclaim := m } new) ∧
      z.list .safety = i.zone.list .safety ∧
      r₁.handed = Function.update r.handed c (r.handed c ++ i.taken) := by
  have hact : ∀ p ∈ i.taken, (i.zone.flags p).active = false := by
    intro p hp
    rw [ht.flags p hp]
    show (r.zone.flags p).active = false
    cases ha : (r.zone.flags p).active with
    | false => rfl
    | true =>
        have hkind := (ht.came p hp).2
        rw [Flags.kind_active ha] at hkind
        cases c <;> cases hkind
  obtain ⟨pageList, nrFreed, r₁, new, hs, hh, hfreed, hrecl, hlist, hhanded⟩ :=
    shrinkList_spec params (a := a) c
      (r := { r with zone := i.zone, isolations := r.isolations + 1 })
      ((Holding.refl hz).taken hi ht) hact
  have hrev : Holding r.zone r₁.zone pageList.reverse new :=
    hh.perm ((List.reverse_perm pageList).append_right new)
  obtain ⟨z, nr', hd, hend, hsafety⟩ :=
    drain_putBack params.pagevecSize hrev nr
  rw [List.length_reverse] at hd
  refine ⟨pageList, nrFreed, r₁, z, nr', new, hs, hd, fun m => ⟨hend, hfreed, hrecl⟩, ?_,
    hhanded⟩
  rw [hsafety, hlist]

/-- `shrink_cache` leaves the safety list alone, and `shrink_cache_mru` hands
its pages on from the tail. -/
theorem shrinkCacheLoop_spec (c : Cache) : ∀ (n : Nat) {maxScan : Int} (nr : Nat)
    {r : Reclaim}, ZoneInv r.zone → maxScan.toNat < n →
    ∃ r' f, shrinkCacheLoop params a c n maxScan nr r = some r' ∧ Pass r r' f ∧
      (c = .shrinkCache → SafetyKept r r') ∧
      ((∀ i j, a.testone i j = false) → HandsOn params c maxScan r r')
  | 0, maxScan, nr, r, hz, hn => absurd hn (Nat.not_lt_zero _)
  | n + 1, maxScan, nr, r, hz, hn => by
      by_cases hmax : 0 < maxScan
      · obtain ⟨i, hiso, hi, ht⟩ :=
          hz.isolateCache c.kind params.swapClusterMax (a.testone r.isolations)
        obtain ⟨hother, horder⟩ := hz.isolateCache_order hiso
        rw [shrinkCacheLoop, if_pos hmax, hiso]
        simp only [Option.bind_eq_bind, Option.bind_some]
        by_cases hnone : i.taken = []
        · obtain ⟨r₁, hr₁⟩ : ∃ r₁, r₁ =
              { r with zone := i.zone, isolations := r.isolations + 1 } := ⟨_, rfl⟩
          rw [if_pos hnone, ← hr₁]
          have hh := (Holding.refl hz).taken hi ht
          rw [hnone] at hh
          have hkept : c = .shrinkCache → SafetyKept r r₁ := by
            rintro rfl
            rw [hr₁]
            exact ⟨hother .safety (by simp [Cache.kind]), rfl⟩
          refine ⟨r₁, [], rfl, by rw [hr₁]; exact ⟨hh, by simp, rfl⟩, hkept, fun hquiet => ?_⟩
          cases c with
          | shrinkCache => exact (hkept rfl).handsOn
          | shrinkCacheMru =>
              obtain ⟨htaken, hfull⟩ := horder (hquiet _)
              have hrefl : HandsOn params .shrinkCacheMru 0 r₁ r₁ :=
                ⟨rfl, [], by simp, fun _ h => absurd h (by simp)⟩
              refine hrefl.batch ?_ ?_ (by rw [hr₁]; exact hfull)
              · rw [hr₁]
                exact htaken
              · rw [hr₁, hnone, List.append_nil]
        · rw [if_neg hnone]
          obtain ⟨pageList, nrFreed, r₁, z, nr', new, hs, hd, hpass, hsafety, hhanded⟩ :=
            shrinkCacheBatch_spec params (a := a) c nr hz hi ht
          obtain ⟨r₂, hr₂⟩ : ∃ r₂, r₂ =
              { r₁ with zone := z, nrToReclaim := r₁.nrToReclaim - nrFreed } := ⟨_, rfl⟩
          have hpass₂ : Pass r r₂ new := by
            rw [hr₂]
            exact hpass _
          have hlist₂ : r₂.zone.list .safety = i.zone.list .safety := by
            rw [hr₂]
            exact hsafety
          have hhanded₂ : r₂.handed = Function.update r.handed c (r.handed c ++ i.taken) := by
            rw [hr₂]
            exact hhanded
          have hscan : 0 < i.scanned := by
            rw [Zone.isolateCache, Option.bind_eq_bind, Option.bind_eq_some_iff] at hiso
            obtain ⟨_, _, hi⟩ := hiso
            cases Option.some.inj hi
            exact Nat.succ_pos _
          have hless : (maxScan - i.scanned).toNat < n := by omega
          obtain ⟨r', f, heq, hrest, hkept, hhands⟩ :=
            shrinkCacheLoop_spec c n nr' hpass₂.zoneInv hless
          simp only [hs, hd, Option.bind_some]
          rw [← hr₂]
          have hkept' : c = .shrinkCache → SafetyKept r r' := by
            intro hc
            refine SafetyKept.trans ⟨?_, ?_⟩ (hkept hc)
            · rw [hlist₂, hother .safety (by rw [hc]; simp [Cache.kind])]
            · rw [hhanded₂, hc, Function.update_of_ne (by simp)]
          refine ⟨r', new ++ f, heq, hpass₂.trans hrest, hkept', fun hquiet => ?_⟩
          cases c with
          | shrinkCache => exact (hkept' rfl).handsOn
          | shrinkCacheMru =>
              obtain ⟨htaken, hfull⟩ := horder (hquiet _)
              refine (hhands hquiet).batch (r := r) ?_ ?_ (by rw [hlist₂]; exact hfull)
              · rw [hlist₂]
                exact htaken
              · rw [hhanded₂, Function.update_self]
      · have hkept : SafetyKept r r := ⟨rfl, rfl⟩
        refine ⟨r, [], ?_, ⟨Holding.refl hz, by simp, rfl⟩, fun _ => hkept, fun _ => ?_⟩
        · rw [shrinkCacheLoop, if_neg hmax]
        · exact ⟨rfl, [], by simp, fun _ h => absurd h hmax⟩

theorem shrinkCacheOf_spec (c : Cache) (hz : ZoneInv r.zone) :
    ∃ r' f, shrinkCacheOf params a c r = some r' ∧ Pass r r' f ∧
      (c = .shrinkCache → SafetyKept r r') ∧
      ((∀ i j, a.testone i j = false) → HandsOn params c r.nrToScan r r') :=
  shrinkCacheLoop_spec params c _ 0 hz (by omega)

/-- Sorting changes no page, and no other field than the counters of the
answers. -/
theorem refillSort_spec : ∀ (lHold lInactive lActive : List Page) (r : Reclaim),
    ((refillSort a lHold lInactive lActive r).1 ++
      (refillSort a lHold lInactive lActive r).2.1).Perm (lHold ++ (lInactive ++ lActive)) ∧
    ∃ sorted policyReads, (refillSort a lHold lInactive lActive r).2.2 =
      { r with sorted := sorted, policyReads := policyReads }
  | [], lInactive, lActive, r => ⟨List.Perm.refl _, _, _, rfl⟩
  | p :: lHold, lInactive, lActive, r => by
      have hinactive : (lHold ++ (lInactive ++ [p] ++ lActive)).Perm
          (p :: lHold ++ (lInactive ++ lActive)) := by
        rw [List.append_assoc lInactive]
        exact (List.perm_append_left_iff _ |>.mpr List.perm_middle).trans List.perm_middle
      have hactive : (lHold ++ (lInactive ++ (lActive ++ [p]))).Perm
          (p :: lHold ++ (lInactive ++ lActive)) := by
        rw [← List.append_assoc, ← List.append_assoc, List.append_assoc lHold]
        exact List.perm_append_singleton p _
      rw [refillSort]
      split
      · simp only
        split
        · obtain ⟨hperm, sorted, reads, heq⟩ := refillSort_spec lHold lInactive (lActive ++ [p])
            { r with sorted := r.sorted + 1, policyReads := r.policyReads + 1 }
          exact ⟨hperm.trans hactive, sorted, reads, heq⟩
        · obtain ⟨hperm, sorted, reads, heq⟩ := refillSort_spec lHold (lInactive ++ [p]) lActive
            { r with sorted := r.sorted + 1, policyReads := r.policyReads + 1 }
          exact ⟨hperm.trans hinactive, sorted, reads, heq⟩
      · obtain ⟨hperm, sorted, reads, heq⟩ := refillSort_spec lHold (lInactive ++ [p]) lActive
          { r with sorted := r.sorted + 1 }
        exact ⟨hperm.trans hinactive, sorted, reads, heq⟩

theorem refillInactiveZone_spec (hz : ZoneInv r.zone) :
    ∃ r', refillInactiveZone params a r = some r' ∧ Pass r r' [] ∧ SafetyKept r r' := by
  obtain ⟨i, hiso, hi, ht⟩ := hz.isolateActive r.nrToScan (a.testone r.isolations)
  have hother := hz.isolateActive_order hiso
  obtain ⟨hperm, sorted, reads, hr⟩ := refillSort_spec (a := a) i.taken [] []
    { r with zone := i.zone, isolations := r.isolations + 1 }
  obtain ⟨⟨lInactive, lActive, r₁⟩, hs⟩ : ∃ s, s = refillSort a i.taken [] []
    { r with zone := i.zone, isolations := r.isolations + 1 } := ⟨_, rfl⟩
  rw [← hs] at hperm hr
  simp only [List.append_nil] at hperm hr
  have hh : Holding r.zone i.zone (lInactive ++ lActive) [] :=
    ((Holding.refl hz).taken hi ht).perm (hperm.append_right [])
  have hact : ∀ p ∈ lInactive ++ lActive, (i.zone.flags p).active = true := by
    intro p hp
    have htaken := hperm.mem_iff.mp hp
    rw [ht.flags p htaken]
    show (r.zone.flags p).active = true
    have hkind := (ht.came p htaken).2
    cases ha : (r.zone.flags p).active with
    | true => rfl
    | false =>
        rw [Flags.kind, ha] at hkind
        cases hm : (r.zone.flags p).mruvictim <;> simp [hm] at hkind
  obtain ⟨z, nr, hd, hh₁, hact₁, hsafety⟩ :=
    drain_refill (by simp : ListKind.inactive ≠ .safety) params.pagevecSize hh hact 0
  have hh₁' : Holding r.zone z (lActive ++ []) [] := by simpa using hh₁
  obtain ⟨z', nr', hd', hh₂, _, hsafety'⟩ :=
    drain_refill (by simp : ListKind.active ≠ .safety) params.pagevecSize hh₁'
      (by simpa using hact₁) nr
  refine ⟨{ r₁ with zone := z' }, ?_, ⟨hh₂, ?_, ?_⟩, ⟨?_, ?_⟩⟩
  · rw [refillInactiveZone, hiso]
    simp only [Option.bind_eq_bind, Option.bind_some, ← hs]
    have hzone : r₁.zone = i.zone := by rw [hr]
    rw [hzone, hd]
    simp only [Option.bind_some, hd']
  · rw [hr]
    simp
  · rw [hr]
    rfl
  · exact (hsafety'.trans hsafety).trans (hother .safety (by simp))
  · rw [hr]

/-- `scan_active_for_mru` moves pages between the lists only. -/
theorem scanActive_spec (hz : ZoneInv r.zone) :
    ∃ r', scanActive params r = some r' ∧ Pass r r' [] := by
  obtain ⟨z, hscan, hinv, _, _, _, hlru⟩ :=
    hz.scanLoop_order (r.nrToScan + params.swapClusterMax) (r.zone.nr .active).toNat le_rfl
  obtain ⟨s, hs, hzone⟩ : ∃ s, r.zone.scanActiveForMru r.nrToScan params.swapClusterMax =
      some s ∧ s.1 = z := by
    rw [Zone.scanActiveForMru, hscan]
    exact ⟨_, rfl, rfl⟩
  obtain ⟨hgrab, _, hgrabLru⟩ := hinv.grabFromInactive s.2
  refine ⟨{ r with zone := grabFromInactive s.2 s.1 }, ?_, ⟨?_, by simp, rfl⟩⟩
  · rw [scanActive, hs]
    rfl
  · rw [hzone]
    exact (Holding.refl hz).lruSame hgrab (fun q => (hgrabLru q).trans (hlru q))

/-! ## `shrink_zone` -/

theorem Pass.refl (hz : ZoneInv r.zone) : Pass r r [] :=
  ⟨Holding.refl hz, by simp, rfl⟩

theorem activeTurn_spec (hscm : 0 < params.swapClusterMax) (nrActive : Nat)
    (hz : ZoneInv r.zone) :
    ∃ n r', activeTurn params a nrActive r = some (n, r') ∧ Pass r r' [] ∧ SafetyKept r r' ∧
      n ≤ nrActive - 1 := by
  rw [activeTurn]
  by_cases hzero : nrActive = 0
  · rw [if_pos hzero]
    exact ⟨0, r, rfl, Pass.refl hz, ⟨rfl, rfl⟩, Nat.zero_le _⟩
  · rw [if_neg hzero]
    split
    · exact ⟨0, _, rfl, ⟨Holding.refl hz, by simp, rfl⟩, ⟨rfl, rfl⟩, Nat.zero_le _⟩
    · obtain ⟨r', heq, hpass, hkept⟩ := refillInactiveZone_spec params (a := a)
        (r := { r with
          policyReads := r.policyReads + 1
          nrToScan := min nrActive params.swapClusterMax }) hz
      refine ⟨nrActive - min nrActive params.swapClusterMax, r', ?_,
        ⟨hpass.holding, hpass.freed, hpass.reclaimed⟩, ⟨hkept.list, hkept.handed⟩, by omega⟩
      simp only [heq, Option.bind_eq_bind, Option.bind_some]

theorem cacheTurn_spec (hscm : 0 < params.swapClusterMax) (c : Cache) (budget : Nat)
    (hz : ZoneInv r.zone) :
    ∃ n stop r' f, cacheTurn params (shrinkCacheOf params a c) budget r = some (n, stop, r') ∧
      Pass r r' f ∧
      (c = .shrinkCache ∨ budget = 0 → SafetyKept r r') ∧ n ≤ budget - 1 := by
  rw [cacheTurn]
  by_cases hzero : budget = 0
  · rw [if_pos hzero]
    exact ⟨0, false, r, [], rfl, Pass.refl hz, fun _ => ⟨rfl, rfl⟩, Nat.zero_le _⟩
  · rw [if_neg hzero]
    obtain ⟨r', f, heq, hpass, hkept, _⟩ := shrinkCacheOf_spec params (a := a)
      (r := { r with nrToScan := min budget params.swapClusterMax }) c hz
    refine ⟨budget - min budget params.swapClusterMax, decide (r'.nrToReclaim ≤ 0), r', f, ?_,
      ⟨hpass.holding, hpass.freed, hpass.reclaimed⟩, ?_, by omega⟩
    · simp only [heq, Option.bind_eq_bind, Option.bind_some]
    · intro hc
      obtain ⟨hlist, hhanded⟩ := hkept (hc.resolve_right hzero)
      exact ⟨hlist, hhanded⟩

/-- Each round lowers the budgets that are not used up. -/
theorem shrinkZoneLoop_spec (hscm : 0 < params.swapClusterMax) :
    ∀ (n nrActive nrInactive nrSafety : Nat) {r : Reclaim}, ZoneInv r.zone →
    nrActive + nrInactive + nrSafety < n →
    ∃ r' f, shrinkZoneLoop params a n nrActive nrInactive nrSafety r = some r' ∧ Pass r r' f ∧
      (nrSafety = 0 → SafetyKept r r')
  | 0, nrActive, nrInactive, nrSafety, r, hz, hn => absurd hn (Nat.not_lt_zero _)
  | n + 1, nrActive, nrInactive, nrSafety, r, hz, hn => by
      rw [shrinkZoneLoop]
      by_cases hdone : nrActive = 0 ∧ nrInactive = 0 ∧ nrSafety = 0
      · rw [if_pos hdone]
        exact ⟨r, [], rfl, Pass.refl hz, fun _ => ⟨rfl, rfl⟩⟩
      · rw [if_neg hdone]
        obtain ⟨act, r₁, hact, hpass₁, hkept₁, hle₁⟩ := activeTurn_spec (a := a) params hscm nrActive hz
        obtain ⟨inact, stop, r₂, f₂, hinact, hpass₂, hkept₂, hle₂⟩ :=
          cacheTurn_spec (a := a) params hscm .shrinkCache nrInactive hpass₁.zoneInv
        obtain ⟨safe, stop', r₃, f₃, hsafe, hpass₃, hkept₃, hle₃⟩ :=
          cacheTurn_spec (a := a) params hscm .shrinkCacheMru nrSafety hpass₂.zoneInv
        change cacheTurn params (shrinkCache params a) nrInactive r₁ = _ at hinact
        change cacheTurn params (shrinkCacheMru params a) nrSafety r₂ = _ at hsafe
        simp only [hact, hinact, Option.bind_eq_bind, Option.bind_some]
        have hpass₁₂ := hpass₁.trans hpass₂
        have hkept₁₂ : SafetyKept r r₂ := hkept₁.trans (hkept₂ (Or.inl rfl))
        cases stop with
        | true => exact ⟨r₂, _, if_pos rfl, hpass₁₂, fun _ => hkept₁₂⟩
        | false =>
            simp only [hsafe, Bool.false_eq_true, if_false, Option.bind_some]
            cases stop' with
            | true =>
                exact ⟨r₃, _, if_pos rfl, hpass₁₂.trans hpass₃,
                  fun h => hkept₁₂.trans (hkept₃ (Or.inr h))⟩
            | false =>
                obtain ⟨r', f, heq, hpass, hkept⟩ :=
                  shrinkZoneLoop_spec hscm n act inact safe hpass₃.zoneInv (by omega)
                refine ⟨r', _, by simpa using heq, (hpass₁₂.trans hpass₃).trans hpass, ?_⟩
                intro h
                exact (hkept₁₂.trans (hkept₃ (Or.inr h))).trans (hkept (by omega))

/-- Under the normal policy there is no budget for the safety list, and the
list is cleared. -/
theorem policyBranch_spec (nrActive : Nat) (hz : ZoneInv r.zone) :
    ∃ nrSafety r', policyBranch a nrActive r = some (nrSafety, r') ∧ Pass r r' [] ∧
      r'.policyReads = r.policyReads + 1 ∧
      (a.useMruPolicy r.policyReads = false → nrSafety = 0 ∧ r'.zone.list .safety = []) := by
  rw [policyBranch]
  by_cases hmru : a.useMruPolicy r.policyReads = true
  · rw [if_pos hmru]
    exact ⟨nrActive, _, rfl, ⟨Holding.refl hz, by simp, rfl⟩, rfl, by simp [hmru]⟩
  · rw [if_neg hmru]
    by_cases hnr : r.zone.nr .safety ≠ 0
    · obtain ⟨z, hclear, hinv, hnil, hlru⟩ := hz.clearSafetyList
      rw [if_pos hnr, hclear]
      exact ⟨0, _, rfl, ⟨(Holding.refl hz).lruSame hinv hlru, by simp, rfl⟩, rfl,
        fun _ => ⟨rfl, hnil⟩⟩
    · rw [if_neg hnr]
      have hnil : r.zone.list .safety = [] := by
        rw [not_not, hz.count .safety] at hnr
        exact List.length_eq_zero_iff.mp (by omega)
      exact ⟨0, _, rfl, ⟨Holding.refl hz, by simp, rfl⟩, rfl, fun _ => ⟨rfl, hnil⟩⟩

theorem scanBranch_spec (nrSafety : Nat) (hz : ZoneInv r.zone) :
    ∃ r', scanBranch params a nrSafety r = some r' ∧ Pass r r' [] ∧
      (nrSafety = 0 → r'.zone = r.zone) := by
  rw [scanBranch]
  by_cases hc : a.useMruPolicy r.policyReads = true ∧ nrSafety ≠ 0
  · rw [if_pos hc]
    obtain ⟨r', heq, hpass⟩ := scanActive_spec params
      (r := { r with policyReads := r.policyReads + 1, nrToScan := nrSafety }) hz
    exact ⟨r', heq, ⟨hpass.holding, hpass.freed, hpass.reclaimed⟩, fun h => absurd h hc.2⟩
  · rw [if_neg hc]
    exact ⟨_, rfl, ⟨Holding.refl hz, by simp, rfl⟩, fun _ => rfl⟩

/-- The first reading of the policy decides whether the safety list is cleared
for good. -/
theorem shrinkZone_spec (hscm : 0 < params.swapClusterMax) (hz : ZoneInv r.zone) :
    ∃ r' f, shrinkZone params a r = some r' ∧ Pass r r' f ∧
      (a.useMruPolicy r.policyReads = false → r'.zone.list .safety = []) := by
  obtain ⟨act, hact⟩ : ∃ act, act = scanNow params
    (r.nrScanActive + ((r.zone.nr .active).toNat >>> r.priority + 1)) := ⟨_, rfl⟩
  obtain ⟨nrSafety, r₁, hpolicy, hpass₁, _, hnormal₁⟩ :=
    policyBranch_spec (a := a) act.1 (r := { r with nrScanActive := act.2 }) hz
  obtain ⟨inact, hinact⟩ : ∃ inact, inact = scanNow params r₁.nrScanInactive := ⟨_, rfl⟩
  obtain ⟨r₂, hscan, hpass₂, hnormal₂⟩ := scanBranch_spec params (a := a) nrSafety
    (r := { r₁ with nrScanInactive := inact.2, nrToReclaim := params.swapClusterMax })
    hpass₁.zoneInv
  obtain ⟨r', f, hloop, hpass, hkept⟩ := shrinkZoneLoop_spec (a := a) params hscm
    (act.1 + inact.1 + nrSafety + 1) act.1 inact.1 nrSafety hpass₂.zoneInv (by omega)
  have hpass₁₂ : Pass r r₂ [] :=
    ⟨hpass₁.holding.trans hpass₂.holding, by rw [hpass₂.freed, hpass₁.freed]; simp,
      by rw [hpass₂.reclaimed, hpass₁.reclaimed]; rfl⟩
  refine ⟨r', f, ?_, hpass₁₂.trans hpass, ?_⟩
  · rw [shrinkZone]
    simp only [← hact, hpolicy, Option.bind_eq_bind, Option.bind_some, ← hinact, hscan, hloop]
  · intro hnormal
    obtain ⟨hnone, hnil⟩ := hnormal₁ hnormal
    rw [(hkept hnone).list, hnormal₂ hnone]
    exact hnil

end Functions

/-- **`shrink_zone` neither loses nor duplicates a page.** On a zone that
nothing else touches, for every priority, every sequence of values of
`USE_MRU_POLICY` and every outcome for every page, it ends without a `BUG`:
the pages on the three lists before are those on them after and the freed
ones, the invariant holds again and so the counters are the lengths,
`nr_reclaimed` grew by the number of freed pages, and under the normal policy
the safety list is empty. -/
theorem shrink_zone_keeps_pages (params : Params) (hscm : 0 < params.swapClusterMax)
    (a : Answers) (r : Reclaim) (hz : ZoneInv r.zone) :
    ∃ r' freed, shrinkZone params a r = some r' ∧ r'.freed = r.freed ++ freed ∧
      r.zone.pages = r'.zone.pages + (freed : Multiset Page) ∧ ZoneInv r'.zone ∧
      (∀ k, r'.zone.nr k = (r'.zone.list k).length) ∧
      r'.nrReclaimed = r.nrReclaimed + freed.length ∧
      ((∀ n, a.useMruPolicy n = false) → r'.zone.list .safety = []) := by
  obtain ⟨r', f, heq, hpass, hnormal⟩ := shrinkZone_spec (a := a) params hscm hz
  exact ⟨r', f, heq, hpass.freed, hpass.holding.pages hz, hpass.zoneInv, hpass.zoneInv.count,
    hpass.reclaimed, fun h => hnormal (h _)⟩

/-! Three active pages under the MRU policy: the most recent one is kept and
activated, the next freed, the last kept. The second round of the loop makes the
first one inactive again. -/

def activeFlags : Flags := ⟨true, true, false, false⟩

def threeActive : Zone := ((Zone.empty.enter 5 activeFlags).enter 6 activeFlags).enter 7 activeFlags

theorem threeActive_inv : ZoneInv threeActive := by
  have h₁ : ZoneInv (Zone.empty.enter 5 activeFlags) := ZoneInv.empty.enter rfl rfl (by decide)
  have h₂ : ZoneInv ((Zone.empty.enter 5 activeFlags).enter 6 activeFlags) :=
    h₁.enter (by decide) rfl (by decide)
  exact h₂.enter (by decide) rfl (by decide)

def mruAnswers : Answers where
  useMruPolicy := fun _ => true
  outcome := fun n => if n = 0 then .activate else if n = 1 then .free else .keep
  testone := fun _ _ => false
  pageMapped := fun _ => false
  inUse := fun _ => false

def threeReclaim : Reclaim where
  zone := threeActive
  nrScanActive := 40
  nrScanInactive := 0
  priority := 12
  nrToScan := 0
  nrToReclaim := 0
  nrReclaimed := 2
  policyReads := 0
  tried := 0
  isolations := 0
  sorted := 0
  freed := []
  handed := fun _ => []

theorem threeReclaim_result :
    (shrinkZone ⟨32, 14⟩ mruAnswers threeReclaim).map
      (fun r => (r.zone.list .active, r.zone.list .inactive, r.zone.list .safety, r.freed)) =
    some ([], [7, 5], [], [6]) := by
  decide +kernel

theorem threeReclaim_keeps_pages :
    ∃ r', shrinkZone ⟨32, 14⟩ mruAnswers threeReclaim = some r' ∧ r'.nrReclaimed = 3 ∧
      threeActive.pages = r'.zone.pages + {6} ∧ ∀ k, r'.zone.nr k = (r'.zone.list k).length := by
  obtain ⟨r', freed, heq, hfreed, hpages, _, hcount, hrecl, _⟩ :=
    shrink_zone_keeps_pages ⟨32, 14⟩ (by decide) mruAnswers threeReclaim threeActive_inv
  have hresult := threeReclaim_result
  rw [heq, Option.map_some, Option.some.injEq, Prod.mk.injEq, Prod.mk.injEq, Prod.mk.injEq]
    at hresult
  have hone : freed = [6] := by
    rw [← hresult.2.2.2, hfreed]
    rfl
  rw [hone] at hpages hrecl
  exact ⟨r', heq, hrecl, hpages, hcount⟩

end LinuxHacks.Mru
