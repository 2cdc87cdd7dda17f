import LinuxHacks.Mru.ShrinkZone

/-!
# The order of the lists (`HW5/mm/swap.c`, `vmscan.c`)

What each section does to the order of the lists, and to the safety list in
particular: `activate_page` takes a page out, `scan_active_for_mru` turns the
front of the active list around in front of it, an isolation takes pages from
its tail, and the other sections leave it alone.
-/

namespace LinuxHacks.Mru

open Zone

section Order

variable {z : Zone} {p : Page}

theorem move_list_of_ne {f : Flags} {j : ListKind} (hj : j ≠ f.kind) :
    (z.move p f).list j = (z.list j).erase p := by
  show Function.update (fun k => (z.list k).erase p) f.kind _ j = _
  rw [Function.update_of_ne hj]

theorem move_list_self (f : Flags) :
    (z.move p f).list f.kind = p :: (z.list f.kind).erase p := by
  show Function.update (fun k => (z.list k).erase p) f.kind _ f.kind = _
  rw [Function.update_self]
  rfl

theorem move_nr (f : Flags) (hkind : (z.flags p).kind ≠ f.kind) :
    (z.move p f).nr f.kind = z.nr f.kind + 1 ∧
      (z.move p f).nr (z.flags p).kind = z.nr (z.flags p).kind - 1 := by
  constructor
  · show Function.update (Function.update z.nr (z.flags p).kind _) f.kind
      (Function.update z.nr (z.flags p).kind _ f.kind + 1) f.kind = _
    rw [Function.update_self, Function.update_of_ne hkind.symm]
  · show Function.update (Function.update z.nr (z.flags p).kind (z.nr (z.flags p).kind + -1))
      f.kind _ (z.flags p).kind = _
    rw [Function.update_of_ne hkind, Function.update_self]
    ring

theorem move_lru {f : Flags} (hlru : f.lru = (z.flags p).lru) (q : Page) :
    ((z.move p f).flags q).lru = (z.flags q).lru := by
  show (Function.update (Function.update z.flags p _) p f q).lru = _
  by_cases hq : q = p
  · rw [hq, Function.update_self, hlru]
  · rw [Function.update_of_ne hq, Function.update_of_ne hq]

theorem ZoneInv.not_mem (h : ZoneInv z) {j k : ListKind} (hp : p ∈ z.list k) (hjk : j ≠ k) :
    p ∉ z.list j :=
  fun hj => hjk (((h.mem j p).mp hj).2.symm.trans ((h.mem k p).mp hp).2)

/-! ## `activate_page`, `clear_safety_list` and the grabbing loop -/

/-- `activate_page` does something to a page on the inactive or safety list only. -/
theorem ZoneInv.activatePage_cases (h : ZoneInv z) (p : Page) :
    (z.activatePage p = z.move p (activatedFlags (z.flags p)) ∧ (z.flags p).lru = true) ∨
      z.activatePage p = z ∧ ∀ j, j ≠ .active → p ∉ z.list j := by
  by_cases hc : (z.flags p).lru = true ∧ (z.flags p).active = false
  · exact Or.inl ⟨activatePage_eq hc.1 hc.2, hc.1⟩
  · refine Or.inr ⟨?_, fun j hj hp => ?_⟩
    · rw [Zone.activatePage, if_neg]
      simpa using hc
    · obtain ⟨hlru, hkind⟩ := (h.mem j p).mp hp
      cases ha : (z.flags p).active with
      | true => exact hj (hkind.symm.trans (Flags.kind_active ha))
      | false => exact hc ⟨hlru, ha⟩

theorem ZoneInv.activatePage_list (h : ZoneInv z) {j : ListKind} (hj : j ≠ .active) (p : Page) :
    (z.activatePage p).list j = (z.list j).erase p := by
  rcases h.activatePage_cases p with ⟨heq, _⟩ | ⟨heq, hnot⟩
  · rw [heq, move_list_of_ne]
    rwa [show (activatedFlags (z.flags p)).kind = .active from Flags.kind_active rfl]
  · rw [heq, List.erase_of_not_mem (hnot j hj)]

theorem ZoneInv.activatePage_lru (h : ZoneInv z) (p q : Page) :
    ((z.activatePage p).flags q).lru = (z.flags q).lru := by
  rcases h.activatePage_cases p with ⟨heq, _⟩ | ⟨heq, _⟩
  · rw [heq]
    exact move_lru (f := activatedFlags (z.flags p)) rfl q
  · rw [heq]

/-- The walk over the safety list meets its pages in order, and each of them
leaves. -/
theorem ZoneInv.clearSafetyLoop : ∀ (n : Nat) {z : Zone}, ZoneInv z →
    (z.list .safety).length ≤ n →
    ∃ z', clearSafetyLoop n (z.list .safety).head? z = some z' ∧ ZoneInv z' ∧
      z'.list .safety = [] ∧ ∀ q, (z'.flags q).lru = (z.flags q).lru
  | n, z, h, hn => by
      cases hl : z.list .safety with
      | nil => exact ⟨z, by simp [Zone.clearSafetyLoop], h, hl, fun _ => rfl⟩
      | cons p l =>
          cases n with
          | zero => simp [hl] at hn
          | succ n =>
              -- the page after `p` is the first page once `p` has left
              have hlist : (z.activatePage p).list .safety = l := by
                rw [h.activatePage_list (by simp), hl, List.erase_cons_head]
              have hlen : ((z.activatePage p).list .safety).length ≤ n := by
                rw [hlist]
                rw [hl, List.length_cons] at hn
                omega
              obtain ⟨z', hz', hinv, hnil, hlru⟩ :=
                ZoneInv.clearSafetyLoop n (h.activatePage p).1 hlen
              refine ⟨z', ?_, hinv, hnil, fun q => (hlru q).trans (h.activatePage_lru p q)⟩
              rw [List.head?_cons, Zone.clearSafetyLoop]
              simp only [hl, nextOf, if_true]
              rw [← hlist]
              exact hz'

theorem ZoneInv.clearSafetyList (h : ZoneInv z) :
    ∃ z', z.clearSafetyList = some z' ∧ ZoneInv z' ∧ z'.list .safety = [] ∧
      ∀ q, (z'.flags q).lru = (z.flags q).lru :=
  h.clearSafetyLoop _ le_rfl

/-- Grabbing pages from the inactive list does not touch the safety list. -/
theorem ZoneInv.grabFromInactive : ∀ (n : Nat) {z : Zone}, ZoneInv z →
    ZoneInv (grabFromInactive n z) ∧
      (grabFromInactive n z).list .safety = z.list .safety ∧
      ∀ q, ((grabFromInactive n z).flags q).lru = (z.flags q).lru
  | 0, z, h => ⟨h, rfl, fun _ => rfl⟩
  | n + 1, z, h => by
      rw [Zone.grabFromInactive]
      cases hl : z.list .inactive with
      | nil => exact ZoneInv.grabFromInactive n h
      | cons p l =>
          obtain ⟨hinv, hsafety, hlru⟩ := ZoneInv.grabFromInactive n (h.activatePage p).1
          refine ⟨hinv, ?_, fun q => (hlru q).trans (h.activatePage_lru p q)⟩
          have hmem : p ∈ z.list .inactive := by
            rw [hl]
            exact List.mem_cons_self
          rw [hsafety, h.activatePage_list (by simp),
            List.erase_of_not_mem (h.not_mem hmem (by simp))]

/-! ## `scan_active_for_mru` -/

/-- The number of pages `scan_active_for_mru` moves: what the safety list lacks
of its target, as far as the active list has it. -/
def Zone.scanCount (z : Zone) (listSizeTarget : Nat) : Nat :=
  (min (max 0 (listSizeTarget - z.nr .safety)) (z.nr .active)).toNat

/-- The front of the active list comes to the front of the safety list, turned
around. -/
theorem ZoneInv.scanLoop_order (listSizeTarget : Nat) : ∀ (n : Nat) {z : Zone}, ZoneInv z →
    (z.nr .active).toNat ≤ n →
    ∃ z', z.scanLoop listSizeTarget n = some z' ∧ ZoneInv z' ∧
      z'.list .safety =
        ((z.list .active).take (z.scanCount listSizeTarget)).reverse ++ z.list .safety ∧
      z'.list .active = (z.list .active).drop (z.scanCount listSizeTarget) ∧
      z'.list .inactive = z.list .inactive ∧ ∀ q, (z'.flags q).lru = (z.flags q).lru
  | n, z, h, hn => by
      by_cases hc : z.nr .safety < listSizeTarget ∧ 0 < z.nr .active
      · cases hl : z.list .active with
        | nil =>
            have hcount := h.count .active
            rw [hl] at hcount
            exact absurd hc.2 (by simp [hcount])
        | cons p l =>
            cases n with
            | zero => omega
            | succ n =>
                have hmem : p ∈ z.list .active := by
                  rw [hl]
                  exact List.mem_cons_self
                obtain ⟨hlru, hkind⟩ := (h.mem .active p).mp hmem
                have hto : (victimFlags (z.flags p)).kind = .safety := Flags.kind_safety rfl rfl
                obtain ⟨hinv, _⟩ := h.move (f := victimFlags (z.flags p)) hlru hlru
                  (by simp [victimFlags])
                obtain ⟨hnrS, hnrA⟩ := move_nr (z := z) (p := p) (victimFlags (z.flags p))
                  (by rw [hkind, hto]; simp)
                rw [hto] at hnrS
                rw [hkind] at hnrA
                have hcount : z.scanCount listSizeTarget =
                    (z.move p (victimFlags (z.flags p))).scanCount listSizeTarget + 1 := by
                  rw [scanCount, scanCount, hnrS, hnrA]
                  omega
                obtain ⟨z', hz', hinv', hS, hA, hI, hlru'⟩ :=
                  ZoneInv.scanLoop_order listSizeTarget n hinv (by rw [hnrA]; omega)
                have hlistA : (z.move p (victimFlags (z.flags p))).list .active = l := by
                  rw [move_list_of_ne (by rw [hto]; simp), hl, List.erase_cons_head]
                have hlistS : (z.move p (victimFlags (z.flags p))).list .safety =
                    p :: z.list .safety := by
                  rw [← hto, move_list_self, hto,
                    List.erase_of_not_mem (h.not_mem hmem (by simp))]
                refine ⟨z', ?_, hinv', ?_, ?_, ?_, ?_⟩
                · rw [scanLoop_cons hl hc hkind, hz']
                · rw [hS, hlistA, hlistS, hcount]
                  simp
                · rw [hA, hlistA, hcount, List.drop_succ_cons]
                · rw [hI, move_list_of_ne (by rw [hto]; simp),
                    List.erase_of_not_mem (h.not_mem hmem (by simp))]
                · exact fun q => (hlru' q).trans (move_lru (f := victimFlags (z.flags p)) rfl q)
      · have hnone : z.scanCount listSizeTarget = 0 := by
          rw [scanCount]
          omega
        refine ⟨z, ?_, h, by simp [hnone], by simp [hnone], rfl, fun _ => rfl⟩
        cases n with
        | zero => rfl
        | succ n => rw [Zone.scanLoop, if_neg hc]

/-! ## Isolation -/

theorem getLast?_split {l : List Page} (h : l.getLast? = some p) : l = l.dropLast ++ [p] :=
  (List.dropLast_append_getLast? p h).symm

/-- The other lists are left alone, and when no page is being freed elsewhere
the pages are taken from the tail, the last one first. -/
theorem ZoneInv.isolateLoop_order {k : ListKind} (testone : Nat → Bool) : ∀ (n : Nat)
    {r r' : Isolation}, ZoneInv (r.zone.addNr k (-r.taken.length)) →
    Zone.isolateLoop k testone n r = some r' →
    (∀ j, j ≠ k → r'.zone.list j = r.zone.list j) ∧
      ((∀ i, testone i = false) →
        r'.taken ++ (r'.zone.list k).reverse = r.taken ++ (r.zone.list k).reverse ∧
        (r.taken.length + n ≤ r'.taken.length ∨ r'.zone.list k = []))
  | 0, r, r', h, heq => by
      cases Option.some.inj heq
      exact ⟨fun _ _ => rfl, fun _ => ⟨rfl, Or.inl le_rfl⟩⟩
  | n + 1, r, r', h, heq => by
      cases hlast : (r.zone.list k).getLast? with
      | none =>
          rw [Zone.isolateLoop] at heq
          simp only [hlast] at heq
          cases Option.some.inj heq
          exact ⟨fun _ _ => rfl, fun _ => ⟨rfl, Or.inr (List.getLast?_eq_none_iff.mp hlast)⟩⟩
      | some p =>
          have hmem : p ∈ r.zone.list k := List.mem_of_getLast? hlast
          obtain ⟨hlru, hkind⟩ : (r.zone.flags p).lru = true ∧ (r.zone.flags p).kind = k :=
            (h.mem k p).mp hmem
          obtain ⟨hback, htake⟩ := h.isolateStep hmem
          have hother : ∀ j, j ≠ k → (r.zone.list j).erase p = r.zone.list j := by
            intro j hj
            exact List.erase_of_not_mem (h.not_mem hmem hj)
          rw [isolateLoop_succ hlast hlru hkind] at heq
          cases htest : testone n with
          | true =>
              rw [htest, if_pos rfl] at heq
              obtain ⟨hlists, _⟩ := ZoneInv.isolateLoop_order testone n hback heq
              refine ⟨fun j hj => (hlists j hj).trans ?_, ?_⟩
              · show Function.update (fun k => (r.zone.list k).erase p) k _ j = _
                rw [Function.update_of_ne hj, hother j hj]
              · intro hquiet
                rw [hquiet n] at htest
                cases htest
          | false =>
              rw [htest, if_neg (by simp)] at heq
              obtain ⟨hlists, horder⟩ := ZoneInv.isolateLoop_order testone n htake heq
              refine ⟨fun j hj => (hlists j hj).trans (hother j hj), ?_⟩
              intro hquiet
              obtain ⟨htaken, hfull⟩ := horder hquiet
              have hsplit : r.zone.list k = (r.zone.list k).dropLast ++ [p] := getLast?_split hlast
              have herase : (r.zone.list k).erase p = (r.zone.list k).dropLast := by
                have hnd : (r.zone.list k).Nodup := h.nodup k
                rw [hsplit] at hnd ⊢
                rw [List.erase_append_right _ (fun hp =>
                  (List.nodup_append.mp hnd).2.2 p hp p List.mem_cons_self rfl)]
                simp
              refine ⟨?_, ?_⟩
              · rw [htaken]
                show r.taken ++ [p] ++ ((r.zone.list k).erase p).reverse = _
                rw [herase]
                nth_rewrite 2 [hsplit]
                simp
              · refine hfull.imp_left (fun hlen => ?_)
                rw [List.length_append, List.length_singleton] at hlen
                omega

theorem ZoneInv.isolateAll_order (h : ZoneInv z) {k : ListKind} {n : Nat}
    {testone : Nat → Bool} {r : Isolation}
    (heq : Zone.isolateLoop k testone n ⟨z, [], 0⟩ = some r) :
    (∀ j, j ≠ k → r.zone.list j = z.list j) ∧
      ((∀ i, testone i = false) → r.taken ++ (r.zone.list k).reverse = (z.list k).reverse ∧
        (n ≤ r.taken.length ∨ r.zone.list k = [])) := by
  have h₀ : ZoneInv (z.addNr k (-(([] : List Page).length : Int))) := by
    rw [List.length_nil, Nat.cast_zero, neg_zero, addNr_zero]
    exact h
  obtain ⟨hlists, horder⟩ := ZoneInv.isolateLoop_order testone n (r := ⟨z, [], 0⟩) h₀ heq
  refine ⟨hlists, fun hquiet => ?_⟩
  obtain ⟨htaken, hfull⟩ := horder hquiet
  exact ⟨htaken, hfull.imp_left (fun hlen => by simpa using hlen)⟩

theorem ZoneInv.isolateCache_order (h : ZoneInv z) {k : ListKind} {swapClusterMax : Nat}
    {testone : Nat → Bool} {r : Isolation} (heq : z.isolateCache k swapClusterMax testone = some r) :
    (∀ j, j ≠ k → r.zone.list j = z.list j) ∧
      ((∀ i, testone i = false) → r.taken ++ (r.zone.list k).reverse = (z.list k).reverse ∧
        (swapClusterMax ≤ r.taken.length ∨ r.zone.list k = [])) := by
  rw [Zone.isolateCache, Option.bind_eq_bind, Option.bind_eq_some_iff] at heq
  obtain ⟨i, hi, heq⟩ := heq
  cases Option.some.inj heq
  obtain ⟨hlists, horder⟩ := h.isolateAll_order hi
  exact ⟨hlists, horder⟩

theorem ZoneInv.isolateActive_order (h : ZoneInv z) {nrPages : Nat} {testone : Nat → Bool}
    {r : Isolation} (heq : z.isolateActive nrPages testone = some r) :
    ∀ j, j ≠ .active → r.zone.list j = z.list j := by
  rw [Zone.isolateActive, Option.bind_eq_bind, Option.bind_eq_some_iff] at heq
  obtain ⟨i, hi, heq⟩ := heq
  cases Option.some.inj heq
  obtain ⟨hlists, _⟩ := h.isolateAll_order hi
  exact hlists

/-! ## Putting pages back -/

/-- Pages are put back on the active and inactive lists only, at least one of
them in a section. -/
theorem putBackLoop_spec (pagevecSize : Nat) : ∀ {l : List Page} {nr : Nat} {z z' : Zone}
    {rest : List Page} {nr' : Nat}, z.putBackLoop pagevecSize l nr = some (z', rest, nr') →
    z'.list .safety = z.list .safety ∧ rest.length ≤ l.length - 1
  | [], nr, z, z', rest, nr', heq => by
      cases Option.some.inj heq
      exact ⟨rfl, by simp⟩
  | p :: l, nr, z, z', rest, nr', heq => by
      rw [Zone.putBackLoop] at heq
      by_cases hlru : (z.flags p).lru = true
      · rw [if_pos hlru] at heq
        cases heq
      · rw [if_neg hlru] at heq
        have hsafety : ∀ z₁ : Zone, (if (z₁.flags p).active then z₁.addPageToActiveList p
            else z₁.addPageToInactiveList p).list .safety = z₁.list .safety := by
          intro z₁
          split <;> rfl
        simp only at heq
        split at heq
        · cases Option.some.inj heq
          exact ⟨hsafety _, by simp⟩
        · obtain ⟨hsame, hlen⟩ := putBackLoop_spec pagevecSize heq
          refine ⟨hsame.trans (hsafety _), ?_⟩
          rw [List.length_cons]
          omega

theorem refillLoop_spec {k : ListKind} (hk : k ≠ .safety) (pagevecSize : Nat) :
    ∀ {l : List Page} {nr pgmoved : Nat} {z z' : Zone} {rest : List Page} {nr' pgmoved' : Nat},
      z.refillLoop k pagevecSize l nr pgmoved = some (z', rest, nr', pgmoved') →
      z'.list .safety = z.list .safety ∧ rest.length ≤ l.length - 1
  | [], nr, pgmoved, z, z', rest, nr', pgmoved', heq => by
      cases Option.some.inj heq
      exact ⟨rfl, by simp⟩
  | p :: l, nr, pgmoved, z, z', rest, nr', pgmoved', heq => by
      rw [Zone.refillLoop] at heq
      have hsafety : (((z.setLru p true).setActive p (decide (k = .active))).listAdd k p).list
          .safety = z.list .safety := Function.update_of_ne hk.symm _ _
      split at heq
      · cases heq
      · split at heq
        · cases heq
        · simp only at heq
          split at heq
          · cases Option.some.inj heq
            exact ⟨hsafety, by simp⟩
          · obtain ⟨hsame, hlen⟩ := refillLoop_spec hk pagevecSize heq
            refine ⟨hsame.trans hsafety, ?_⟩
            rw [List.length_cons]
            omega

theorem refillSection_spec {k : ListKind} (hk : k ≠ .safety) {pagevecSize : Nat}
    {l rest : List Page} {nr nr' : Nat} {z' : Zone}
    (heq : z.refillSection k pagevecSize l nr = some (z', rest, nr')) :
    z'.list .safety = z.list .safety ∧ rest.length ≤ l.length - 1 := by
  rw [Zone.refillSection, Option.bind_eq_bind, Option.bind_eq_some_iff] at heq
  obtain ⟨⟨z₁, rest₁, nr₁, pgmoved⟩, hloop, heq⟩ := heq
  cases Option.some.inj heq
  obtain ⟨hsafety, hlen⟩ := refillLoop_spec hk pagevecSize hloop
  exact ⟨hsafety, hlen⟩

end Order

end LinuxHacks.Mru
