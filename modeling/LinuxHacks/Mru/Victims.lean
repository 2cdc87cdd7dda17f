import LinuxHacks.Mru.Conserve

/-!
# The order of the victims (`HW5/mm/vmscan.c`)

`scan_active_for_mru` with its cursors, and the order in which
`shrink_cache_mru` hands the scanned pages to `shrink_list`.

The scan takes pages from the head of the active list and puts them at the head
of the safety list, so that the safety list read from its tail goes on with the
active list read from its head. Isolation reads it from the tail.
-/

namespace LinuxHacks.Mru

open Zone

/-! ## The cursors of the scan -/

/-- The loop of `scan_active_for_mru`: `next` was read from the page that the
loop has moved since, `none` is the head of the active list. -/
def Zone.scanCursorLoop (listSizeTarget : Nat) : Nat → Option Page → Zone → Option Zone
  | 0, _, z => if z.nr .safety < listSizeTarget ∧ 0 < z.nr .active then none else some z
  | n + 1, next, z =>
      if z.nr .safety < listSizeTarget ∧ 0 < z.nr .active then
        match next with
        | none => none
        | some cur =>
            scanCursorLoop listSizeTarget n (nextOf (z.list .active) cur)
              (((z.delPageFromActiveList cur).setActive cur false).addPageToSafetyList cur)
      else some z

/-- The locked part of `scan_active_for_mru`. -/
def Zone.scanCursor (z : Zone) (listSizeTarget : Nat) : Option Zone :=
  scanCursorLoop listSizeTarget (z.nr .active).toNat (z.list .active).head? z

/-- The saved `next` is always the first page of the active list. -/
theorem ZoneInv.scanCursorLoop_eq (listSizeTarget : Nat) : ∀ (n : Nat) {z : Zone}, ZoneInv z →
    (z.nr .active).toNat ≤ n →
    scanCursorLoop listSizeTarget n (z.list .active).head? z = z.scanLoop listSizeTarget n
  | 0, z, h, hn => by
      rw [Zone.scanCursorLoop, Zone.scanLoop, if_neg (by omega)]
  | n + 1, z, h, hn => by
      cases hl : z.list .active with
      | nil =>
          have hcount := h.count .active
          rw [hl, List.length_nil] at hcount
          rw [List.head?_nil, Zone.scanCursorLoop, Zone.scanLoop]
          rw [if_neg (by omega), if_neg (by omega)]
      | cons p l =>
          rw [List.head?_cons, Zone.scanCursorLoop]
          by_cases hc : z.nr .safety < listSizeTarget ∧ 0 < z.nr .active
          · have hmem : p ∈ z.list .active := by
              rw [hl]
              exact List.mem_cons_self
            obtain ⟨hlru, hkind⟩ := (h.mem .active p).mp hmem
            have hto : (victimFlags (z.flags p)).kind = .safety := Flags.kind_safety rfl rfl
            obtain ⟨hinv, _⟩ := h.move (f := victimFlags (z.flags p)) hlru hlru
              (by simp [victimFlags])
            obtain ⟨_, hnr⟩ := move_nr (z := z) (p := p) (victimFlags (z.flags p))
              (by rw [hkind, hto]; simp)
            rw [hkind] at hnr
            have hlist : (z.move p (victimFlags (z.flags p))).list .active = l := by
              rw [move_list_of_ne (by rw [hto]; simp), hl, List.erase_cons_head]
            have hrest := ZoneInv.scanCursorLoop_eq listSizeTarget n hinv (by rw [hnr]; omega)
            rw [hlist] at hrest
            rw [if_pos hc, victim_move hkind, scanLoop_cons hl hc hkind, hl, nextOf, if_pos rfl]
            exact hrest
          · rw [if_neg hc, Zone.scanLoop, if_neg hc]

theorem ZoneInv.scanCursor_order {z : Zone} (h : ZoneInv z) (listSizeTarget : Nat) :
    ∃ z', z.scanCursor listSizeTarget = some z' ∧ ZoneInv z' ∧
      z'.list .safety =
        ((z.list .active).take (z.scanCount listSizeTarget)).reverse ++ z.list .safety ∧
      z'.list .active = (z.list .active).drop (z.scanCount listSizeTarget) ∧
      z'.list .inactive = z.list .inactive := by
  obtain ⟨z', hz', hinv, hS, hA, hI, _⟩ := h.scanLoop_order listSizeTarget _ le_rfl
  exact ⟨z', (h.scanCursorLoop_eq listSizeTarget _ le_rfl).trans hz', hinv, hS, hA, hI⟩

/-! ## Handing on -/

/-- The calls that `shrink_zone` makes after the scan, in any number and order
and with any `nr_to_scan`. -/
inductive Calls (params : Params) (a : Answers) : Reclaim → Reclaim → Prop
  | refl {r : Reclaim} : Calls params a r r
  | shrink {r r' r'' : Reclaim} {c : Cache} {nrToScan : Nat} : Calls params a r r' →
      shrinkCacheOf params a c { r' with nrToScan := nrToScan } = some r'' → Calls params a r r''
  | refill {r r' r'' : Reclaim} {nrToScan : Nat} : Calls params a r r' →
      refillInactiveZone params a { r' with nrToScan := nrToScan } = some r'' →
      Calls params a r r''

section Order

variable {params : Params} {a : Answers} {r r' : Reclaim}

theorem Calls.victims (hquiet : ∀ i j, a.testone i j = false) (h : Calls params a r r')
    (hz : ZoneInv r.zone) :
    ZoneInv r'.zone ∧ r'.victims = r.victims ∧
      ∃ more, r'.handed .shrinkCacheMru = r.handed .shrinkCacheMru ++ more := by
  induction h with
  | refl => exact ⟨hz, rfl, [], by simp⟩
  | @shrink r' r'' c nrToScan _ hcall ih =>
      obtain ⟨hz', hvictims, more, hmore⟩ := ih
      obtain ⟨r₁, f, heq, hpass, _, hhands⟩ := shrinkCacheOf_spec params (a := a)
        (r := { r' with nrToScan := nrToScan }) c hz'
      cases Option.some.inj (hcall.symm.trans heq)
      obtain ⟨more', hmore', _⟩ := (hhands hquiet).more
      refine ⟨hpass.zoneInv, (hhands hquiet).victims.trans hvictims, more ++ more', ?_⟩
      rw [hmore', hmore, List.append_assoc]
  | @refill r' r'' nrToScan _ hcall ih =>
      obtain ⟨hz', hvictims, more, hmore⟩ := ih
      obtain ⟨r₁, heq, hpass, hkept⟩ := refillInactiveZone_spec params (a := a)
        (r := { r' with nrToScan := nrToScan }) hz'
      cases Option.some.inj (hcall.symm.trans heq)
      exact ⟨hpass.zoneInv, hkept.victims.trans hvictims, more, hkept.handed.trans hmore⟩

/-- `scan_active_for_mru`: its locked part, and pages grabbed from the inactive
list, which leave the safety list alone. -/
theorem scanActive_order (params : Params) (hz : ZoneInv r.zone) :
    ∃ r' z, scanActive params r = some r' ∧
      r.zone.scanCursor (r.nrToScan + params.swapClusterMax) = some z ∧
      ZoneInv r'.zone ∧ r'.zone.list .safety = z.list .safety ∧ r'.handed = r.handed := by
  obtain ⟨z, hz', hinv, _⟩ := hz.scanLoop_order (r.nrToScan + params.swapClusterMax) _ le_rfl
  have hscan := (hz.scanCursorLoop_eq (r.nrToScan + params.swapClusterMax) _ le_rfl).trans hz'
  obtain ⟨s, hs, hzone⟩ : ∃ s, r.zone.scanActiveForMru r.nrToScan params.swapClusterMax =
      some s ∧ s.1 = z := by
    rw [Zone.scanActiveForMru, hz']
    exact ⟨_, rfl, rfl⟩
  obtain ⟨hgrab, hsafety, _⟩ := hinv.grabFromInactive s.2
  refine ⟨{ r with zone := grabFromInactive s.2 s.1 }, z, ?_, hscan, ?_, ?_, rfl⟩
  · rw [scanActive, hs]
    rfl
  · rw [hzone]
    exact hgrab
  · rw [hzone]
    exact hsafety

/-- **Victims are taken most recently used first.** On a zone that nothing else
touches, `scan_active_for_mru` with `nr_to_scan = n` moves the first `m` active
pages, `m = min (max 0 (n + SWAP_CLUSTER_MAX - nr_safety)) nr_active`. Whatever
calls follow, `shrink_cache_mru` hands the pages on in this order: the safety
list from its tail, then the `m` pages from the most recently activated one.
None comes twice, and every further call of `shrink_cache_mru` hands on
`SWAP_CLUSTER_MAX` pages at least or all that are left. -/
theorem victims_most_recent_first (params : Params) (a : Answers)
    (hquiet : ∀ i j, a.testone i j = false) (r : Reclaim) (hz : ZoneInv r.zone) (n m : Nat)
    (hm : (m : Int) =
      min (max 0 ((n : Int) + params.swapClusterMax - r.zone.nr .safety)) (r.zone.nr .active)) :
    (∃ z, r.zone.scanCursor (n + params.swapClusterMax) = some z ∧
      z.list .safety = ((r.zone.list .active).take m).reverse ++ r.zone.list .safety ∧
      z.list .active = (r.zone.list .active).drop m ∧
      z.list .inactive = r.zone.list .inactive) ∧
    ((r.zone.list .safety).reverse ++ (r.zone.list .active).take m).Nodup ∧
    ∃ r₁, scanActive params { r with nrToScan := n } = some r₁ ∧
      ∀ r₂, Calls params a r₁ r₂ →
        (∃ handed, r₂.handed .shrinkCacheMru = r.handed .shrinkCacheMru ++ handed ∧
          handed ++ (r₂.zone.list .safety).reverse =
            (r.zone.list .safety).reverse ++ (r.zone.list .active).take m) ∧
        ∀ k, 0 < k → ∃ r₃ more,
          shrinkCacheMru params a { r₂ with nrToScan := k } = some r₃ ∧
          r₃.handed .shrinkCacheMru = r₂.handed .shrinkCacheMru ++ more ∧
          (r₃.zone.list .safety = [] ∨ params.swapClusterMax ≤ more.length) := by
  have hcount : r.zone.scanCount (n + params.swapClusterMax) = m := by
    rw [scanCount]
    push_cast
    rw [← hm, Int.toNat_natCast]
  obtain ⟨z, hscan, hinv, hS, hA, hI⟩ := hz.scanCursor_order (n + params.swapClusterMax)
  rw [hcount] at hS hA
  have hrev : (z.list .safety).reverse =
      (r.zone.list .safety).reverse ++ (r.zone.list .active).take m := by
    rw [hS, List.reverse_append, List.reverse_reverse]
  obtain ⟨r₁, z', hscanned, hscan', hz₁, hsafety, hhanded⟩ :=
    scanActive_order params (r := { r with nrToScan := n }) hz
  cases Option.some.inj (hscan.symm.trans hscan')
  refine ⟨⟨z, hscan, hS, hA, hI⟩, ?_, r₁, hscanned, fun r₂ hcalls => ?_⟩
  · rw [← hrev]
    exact List.nodup_reverse.mpr (hinv.nodup .safety)
  · obtain ⟨hz₂, hvictims, handed, hmore⟩ := hcalls.victims hquiet hz₁
    rw [hhanded] at hmore
    refine ⟨⟨handed, hmore, ?_⟩, fun k hk => ?_⟩
    · rw [Reclaim.victims, Reclaim.victims, hmore, hhanded, hsafety, hrev, List.append_assoc]
        at hvictims
      exact List.append_cancel_left hvictims
    · obtain ⟨r₃, f, hcall, _, _, hhands⟩ := shrinkCacheOf_spec params (a := a)
        (r := { r₂ with nrToScan := k }) .shrinkCacheMru hz₂
      obtain ⟨more, hmore₃, hfull⟩ := (hhands hquiet).more
      exact ⟨r₃, more, hcall, hmore₃, hfull rfl (by simpa using hk)⟩

/-! Three active pages and nothing on the safety list: the page added last is
handed on first. -/

theorem threeActive_handed :
    ∃ r₁, scanActive ⟨2, 14⟩ { threeReclaim with nrToScan := 1 } = some r₁ ∧
      ∀ r₂, Calls ⟨2, 14⟩ mruAnswers r₁ r₂ →
        ∃ handed, r₂.handed .shrinkCacheMru = handed ∧
          handed ++ (r₂.zone.list .safety).reverse = [7, 6, 5] := by
  obtain ⟨_, _, r₁, hscanned, hcalls⟩ := victims_most_recent_first ⟨2, 14⟩ mruAnswers
    (fun _ _ => rfl) threeReclaim threeActive_inv 1 3 (by decide)
  refine ⟨r₁, hscanned, fun r₂ h => ?_⟩
  obtain ⟨⟨handed, hhanded, horder⟩, _⟩ := hcalls r₂ h
  exact ⟨handed, hhanded, horder⟩

end Order

end LinuxHacks.Mru
