import LinuxHacks.Mru.Conserve

/-!
# When `balance_pgdat` gives a zone up (`HW5/mm/vmscan.c`)

`balance_pgdat` sets `all_unreclaimable` when `pages_scanned` has reached four
times the pages of the zone, "the case where all pages in the zone have been
scanned twice". It counts the pages of the active and of the inactive list; those
of the safety list are not among them.

* `BalanceStep`: the calls of `shrink_zone` on one zone, the test that follows
  the ones of `balance_pgdat`, and what the rest of the kernel does in between;
* `BalanceInv`: the three-list invariant, and an empty safety list after a call
  under the normal policy;
* `unreclaimable_scanned`: a zone is not given up too early in runs whose tests
  find no page on the safety list.
-/

namespace LinuxHacks.Mru

open LinuxHacks.Lib

/-- `DEF_PRIORITY`. -/
def defPriority : Nat := 12

/-- A `struct zone` between two calls. `checking` says that `balance_pgdat` is
back from `shrink_zone` and has not tested `pages_scanned` yet; `lastMru` is
history: the last `shrink_zone` did not take the branch of the normal policy. -/
structure PgdatZone where
  zone : Zone
  nrScanActive : Nat
  nrScanInactive : Nat
  presentPages : Nat
  allUnreclaimable : Bool
  checking : Bool
  lastMru : Bool

namespace PgdatZone

/-- The tests of `balance_pgdat` and of `shrink_caches` before `shrink_zone`. -/
def scans (s : PgdatZone) (priority : Nat) : Bool :=
  s.presentPages ≠ 0 && !(s.allUnreclaimable && priority ≠ defPriority)

/-- The zone and a `scan_control` as `shrink_zone` is called with them. -/
def control (s : PgdatZone) (priority : Nat) : Reclaim where
  zone := s.zone
  nrScanActive := s.nrScanActive
  nrScanInactive := s.nrScanInactive
  priority := priority
  nrToScan := 0
  nrToReclaim := 0
  nrReclaimed := 0
  policyReads := 0
  tried := 0
  isolations := 0
  sorted := 0
  freed := []
  handed := fun _ => []

/-- `free_pages_bulk`. -/
def freePagesBulk (s : PgdatZone) : PgdatZone :=
  { s with allUnreclaimable := false, zone := { s.zone with pagesScanned := 0 } }

/-- Back from `shrink_zone`. When a `free_pages_bulk` ran on the zone during the
call, `pages_scanned` is what was scanned `since` the last one. -/
def shrunk (s : PgdatZone) (a : Answers) (r : Reclaim) : Option Nat → PgdatZone
  | none =>
      { s with
        zone := r.zone
        nrScanActive := r.nrScanActive
        nrScanInactive := r.nrScanInactive
        lastMru := a.useMruPolicy 0 }
  | some since =>
      { s with
        zone := { r.zone with
          pagesScanned := min since (r.zone.pagesScanned - s.zone.pagesScanned) }
        nrScanActive := r.nrScanActive
        nrScanInactive := r.nrScanInactive
        allUnreclaimable := false
        lastMru := a.useMruPolicy 0 }

/-- The test of `balance_pgdat` after `shrink_zone`. -/
def check (s : PgdatZone) : PgdatZone :=
  if s.allUnreclaimable then { s with checking := false }
  else if (s.zone.nr .active + s.zone.nr .inactive) * 4 ≤ s.zone.pagesScanned then
    { s with checking := false, allUnreclaimable := true }
  else { s with checking := false }

end PgdatZone

/-- A section of `swap.c` on the zone. A page that is added is new: the allocator
cleared its flags. -/
inductive SwapSection (z : Zone) : Zone → Prop
  | lruAdd {ps : List Page} {z' : Zone} : ps.Nodup →
      (∀ p ∈ ps, (z.flags p).lru = false ∧ (z.flags p).active = false) →
      z.pagevecLruAdd ps = some z' → SwapSection z z'
  | lruAddActive {ps : List Page} {z' : Zone} : ps.Nodup →
      (∀ p ∈ ps, (z.flags p).lru = false ∧ (z.flags p).active = false) →
      z.pagevecLruAddActive ps = some z' → SwapSection z z'
  | activate (p : Page) : SwapSection z (z.activatePage p)
  | rotate (p : Page) : SwapSection z (z.rotatePage p)
  | release (p : Page) : SwapSection z (z.releasePage p)

inductive BalanceLabel where
  /-- `shrink_zone` from `balance_pgdat`. -/
  | balance (priority : Nat)
  | check
  /-- `shrink_zone` from `shrink_caches`. -/
  | reclaim (priority : Nat)
  | freePagesBulk
  | swap
deriving DecidableEq, Repr

inductive BalanceStep (params : Params) (s : PgdatZone) : BalanceLabel → PgdatZone → Prop
  | balance {priority : Nat} {a : Answers} {r : Reclaim} {bulk : Option Nat} :
      s.checking = false → s.scans priority = true →
      shrinkZone params a (s.control priority) = some r →
      BalanceStep params s (.balance priority) { s.shrunk a r bulk with checking := true }
  | check : s.checking = true → BalanceStep params s .check s.check
  | reclaim {priority : Nat} {a : Answers} {r : Reclaim} {bulk : Option Nat} :
      s.scans priority = true → shrinkZone params a (s.control priority) = some r →
      BalanceStep params s (.reclaim priority) (s.shrunk a r bulk)
  | freePagesBulk : BalanceStep params s .freePagesBulk s.freePagesBulk
  | swap {z : Zone} : SwapSection s.zone z → BalanceStep params s .swap { s with zone := z }

/-- Any zone that satisfies the three-list invariant. -/
structure BalanceStart (s : PgdatZone) : Prop where
  zone : ZoneInv s.zone
  checking : s.checking = false
  lastMru : s.lastMru = true

def balanceSystem (params : Params) : System PgdatZone BalanceLabel where
  init := BalanceStart
  step := BalanceStep params

/-! ## The invariant -/

structure BalanceInv (s : PgdatZone) : Prop where
  zone : ZoneInv s.zone
  normal : s.lastMru = false → s.zone.list .safety = []

/-- The pages of the safety list are those with `PG_mruvictim`. -/
theorem ZoneInv.mem_safety {z : Zone} (h : ZoneInv z) {p : Page} :
    p ∈ z.list .safety ↔ (z.flags p).mruvictim = true := by
  rw [h.mem .safety p]
  constructor
  · rintro ⟨-, hkind⟩
    rw [Flags.kind] at hkind
    split at hkind
    · cases hkind
    · split at hkind
      · assumption
      · cases hkind
  · intro hm
    have hact : (z.flags p).active = false := by
      rw [← Bool.not_eq_true]
      exact fun ha => h.notBoth p ⟨ha, hm⟩
    refine ⟨?_, Flags.kind_safety hact hm⟩
    by_contra hlru
    rw [Bool.not_eq_true] at hlru
    rw [h.offLru p hlru] at hm
    cases hm

/-! ## Sections of `swap.c` -/

theorem pagevecLruAdd_safety : ∀ {ps : List Page} {z z' : Zone},
    z.pagevecLruAdd ps = some z' → z'.list .safety = z.list .safety
  | [], z, z', h => by
      cases h
      rfl
  | p :: ps, z, z', h => by
      rw [Zone.pagevecLruAdd] at h
      split at h
      · cases h
      · have hne : ListKind.safety ≠ .inactive := by simp
        rw [pagevecLruAdd_safety h]
        show Function.update z.list .inactive (p :: z.list .inactive) .safety = _
        rw [Function.update_of_ne hne]

theorem pagevecLruAddActive_safety : ∀ {ps : List Page} {z z' : Zone},
    z.pagevecLruAddActive ps = some z' → z'.list .safety = z.list .safety
  | [], z, z', h => by
      cases h
      rfl
  | p :: ps, z, z', h => by
      rw [Zone.pagevecLruAddActive] at h
      split_ifs at h
      have hne : ListKind.safety ≠ .active := by simp
      rw [pagevecLruAddActive_safety h]
      show Function.update z.list .active (p :: z.list .active) .safety = _
      rw [Function.update_of_ne hne]

theorem rotatePage_flags (z : Zone) (p : Page) : (z.rotatePage p).flags = z.flags := by
  rw [Zone.rotatePage]
  split_ifs <;> rfl

/-- Nothing outside `vmscan.c` puts a page on the safety list. -/
theorem SwapSection.inv {z z' : Zone} (hsec : SwapSection z z') (h : ZoneInv z) :
    ZoneInv z' ∧ (z.list .safety = [] → z'.list .safety = []) := by
  cases hsec with
  | lruAdd hnd hnew heq =>
      obtain ⟨z₁, hz₁, hinv, -⟩ := h.pagevecLruAdd hnd hnew
      rw [heq] at hz₁
      cases hz₁
      exact ⟨hinv, fun hnil => (pagevecLruAdd_safety heq).trans hnil⟩
  | lruAddActive hnd hnew heq =>
      obtain ⟨z₁, hz₁, hinv, -⟩ := h.pagevecLruAddActive hnd hnew
      rw [heq] at hz₁
      cases hz₁
      exact ⟨hinv, fun hnil => (pagevecLruAddActive_safety heq).trans hnil⟩
  | activate p =>
      refine ⟨(h.activatePage p).1, fun hnil => ?_⟩
      rw [h.activatePage_list (by simp) p, hnil]
      rfl
  | rotate p =>
      have hinv := (h.rotatePage p).1
      refine ⟨hinv, fun hnil => List.eq_nil_iff_forall_not_mem.mpr fun q hq => ?_⟩
      rw [hinv.mem_safety, rotatePage_flags, ← h.mem_safety, hnil] at hq
      cases hq
  | release p =>
      refine ⟨(h.releasePage p).1, fun hnil => ?_⟩
      cases hp : (z.flags p).lru with
      | true =>
          rw [releasePage_eq hp (h.notBoth p)]
          show (z.list .safety).erase p = []
          rw [hnil]
          rfl
      | false =>
          rw [Zone.releasePage, if_neg (by simp [hp])]
          exact hnil

/-! ## Steps -/

section Steps

variable {params : Params} {s s' : PgdatZone} {l : BalanceLabel}

theorem BalanceInv.shrunk (hscm : 0 < params.swapClusterMax) (h : BalanceInv s)
    {priority : Nat} {a : Answers} {r : Reclaim}
    (heq : shrinkZone params a (s.control priority) = some r) (bulk : Option Nat) :
    BalanceInv (s.shrunk a r bulk) := by
  obtain ⟨r', f, heq', hpass, hnormal⟩ :=
    shrinkZone_spec (a := a) params hscm (r := s.control priority) h.zone
  rw [heq] at heq'
  cases heq'
  cases bulk with
  | none => exact ⟨hpass.zoneInv, hnormal⟩
  | some since =>
      have hz := hpass.zoneInv
      exact ⟨⟨hz.nodup, hz.mem, hz.notBoth, hz.offLru, hz.count⟩, hnormal⟩

theorem BalanceInv.step (hscm : 0 < params.swapClusterMax) (h : BalanceInv s)
    (hst : BalanceStep params s l s') : BalanceInv s' := by
  cases hst with
  | @balance priority a r bulk _ _ heq =>
      have hinv := h.shrunk hscm heq bulk
      exact ⟨hinv.zone, hinv.normal⟩
  | check _ =>
      rw [PgdatZone.check]
      split_ifs
      · exact ⟨h.zone, h.normal⟩
      · exact ⟨h.zone, h.normal⟩
      · exact ⟨h.zone, h.normal⟩
  | @reclaim priority a r bulk _ heq => exact h.shrunk hscm heq bulk
  | freePagesBulk =>
      have hz := h.zone
      exact ⟨⟨hz.nodup, hz.mem, hz.notBoth, hz.offLru, hz.count⟩, h.normal⟩
  | swap hsec =>
      obtain ⟨hinv, hsafety⟩ := hsec.inv h.zone
      exact ⟨hinv, fun hmru => hsafety (h.normal hmru)⟩

theorem BalanceStart.inv (h : BalanceStart s) : BalanceInv s := by
  refine ⟨h.zone, fun hmru => ?_⟩
  rw [h.lastMru] at hmru
  cases hmru

/-- `all_unreclaimable` is set by the test of `balance_pgdat` alone. -/
theorem balanceStep_flag (hst : BalanceStep params s l s') (hl : l ≠ .check)
    (hs : s.allUnreclaimable = false) : s'.allUnreclaimable = false := by
  have hshrunk : ∀ (a : Answers) (r : Reclaim) (bulk : Option Nat),
      (s.shrunk a r bulk).allUnreclaimable = false := by
    intro a r bulk
    cases bulk with
    | none => exact hs
    | some since => rfl
  cases hst with
  | balance _ _ _ => exact hshrunk _ _ _
  | check _ => exact absurd rfl hl
  | reclaim _ _ => exact hshrunk _ _ _
  | freePagesBulk => rfl
  | swap _ => exact hs

end Steps

/-! ## The test -/

/-- The pages on the three lists. -/
def Zone.lruPages (z : Zone) : Nat :=
  (z.list .active).length + (z.list .inactive).length + (z.list .safety).length

/-- If the step declares the zone unreclaimable, the pages of the zone have been
scanned four times. -/
def ReallyScanned (t : PgdatZone × BalanceLabel × PgdatZone) : Prop :=
  t.1.allUnreclaimable = false → t.2.2.allUnreclaimable = true →
    4 * t.1.zone.lruPages ≤ t.1.zone.pagesScanned

/-- When `balance_pgdat` tests a zone it has not given up, the last `shrink_zone` on
it took the branch of the normal policy, which empties the safety list, or the list
is empty all the same. -/
def SafetyEmptied (t : PgdatZone × BalanceLabel × PgdatZone) : Prop :=
  t.2.1 = .check → t.1.allUnreclaimable = false →
    t.1.lastMru = false ∨ t.1.zone.list .safety = []

theorem check_unreclaimable {s : PgdatZone} (hflag : s.allUnreclaimable = false)
    (hreached : (s.zone.nr .active + s.zone.nr .inactive) * 4 ≤ s.zone.pagesScanned) :
    s.check = { s with checking := false, allUnreclaimable := true } := by
  rw [PgdatZone.check, if_neg (by simp [hflag]), if_pos hreached]

theorem check_reclaimable {s : PgdatZone} (hflag : s.allUnreclaimable = false)
    (hnot : ¬ (s.zone.nr .active + s.zone.nr .inactive) * 4 ≤ s.zone.pagesScanned) :
    s.check = { s with checking := false } := by
  rw [PgdatZone.check, if_neg (by simp [hflag]), if_neg hnot]

/-- What is on the safety list when `balance_pgdat` tests the zone. -/
theorem BalanceInv.safety_nil {s s' : PgdatZone} (h : BalanceInv s)
    (hempty : SafetyEmptied (s, .check, s')) (hflag : s.allUnreclaimable = false) :
    s.zone.list .safety = [] := by
  rcases hempty rfl hflag with hnormal | hnil
  · exact h.normal hnormal
  · exact hnil

theorem BalanceInv.reallyScanned {params : Params} {s s' : PgdatZone} {l : BalanceLabel}
    (h : BalanceInv s) (hst : BalanceStep params s l s') (hempty : SafetyEmptied (s, l, s')) :
    ReallyScanned (s, l, s') := by
  intro hflag hset
  by_cases hl : l = .check
  · subst hl
    have hnil := h.safety_nil hempty hflag
    cases hst with
    | check _ =>
        by_cases hreached : (s.zone.nr .active + s.zone.nr .inactive) * 4 ≤ s.zone.pagesScanned
        · -- the two lists that are counted have all the pages
          rw [h.zone.count .active, h.zone.count .inactive] at hreached
          show 4 * s.zone.lruPages ≤ s.zone.pagesScanned
          rw [Zone.lruPages, hnil, List.length_nil]
          omega
        · rw [check_reclaimable hflag hreached] at hset
          exact absurd (hflag.symm.trans hset) (by decide)
  · have hkept := balanceStep_flag hst hl hflag
    rw [show s'.allUnreclaimable = true from hset] at hkept
    cases hkept

/-- **When `all_unreclaimable` means what it says.** In a run that starts in any
zone state with the three-list invariant and whose tests find no page on the safety
list, a zone is given up only after four scans of its pages. -/
theorem unreclaimable_scanned {params : Params} (hscm : 0 < params.swapClusterMax)
    {s₀ s : PgdatZone} {l : List (PgdatZone × BalanceLabel × PgdatZone)} (h₀ : BalanceStart s₀)
    (h : (balanceSystem params).Path s₀ l s) (hempty : ∀ t ∈ l, SafetyEmptied t) :
    ∀ t ∈ l, ReallyScanned t := by
  induction h with
  | nil => exact fun t ht => absurd ht List.not_mem_nil
  | @snoc s s' l a p hst ih =>
      have hinv : BalanceInv s := p.invariant (I := BalanceInv)
        (fun _ _ _ hI hst => hI.step hscm hst) h₀.inv
      intro t ht
      rcases List.mem_append.mp ht with ht | ht
      · exact ih (fun t ht => hempty t (List.mem_append_left _ ht)) t ht
      · obtain rfl := List.mem_singleton.mp ht
        apply hinv.reallyScanned hst
        exact hempty _ (List.mem_append_right _ (List.mem_singleton_self _))

/-! ## A zone of 48 active pages -/

def kernelParams : Params := ⟨32, 14⟩

/-- Every page can be freed. -/
def freeAnswers (useMruPolicy : Bool) : Answers where
  useMruPolicy := fun _ => useMruPolicy
  outcome := fun _ => .free
  testone := fun _ _ => false
  pageMapped := fun _ => false
  inUse := fun _ => false

def activeZone : Nat → Zone
  | 0 => Zone.empty
  | n + 1 => (activeZone n).enter n activeFlags

theorem activeZone_inv : ∀ n, ZoneInv (activeZone n) ∧ ∀ p, n ≤ p → (activeZone n).flags p =
    ⟨false, false, false, false⟩
  | 0 => ⟨ZoneInv.empty, fun _ _ => rfl⟩
  | n + 1 => by
      obtain ⟨hinv, hflags⟩ := activeZone_inv n
      refine ⟨hinv.enter (by rw [hflags n le_rfl]) rfl (by decide), fun p hp => ?_⟩
      have hne : p ≠ n := by
        rintro rfl
        exact absurd hp (Nat.not_succ_le_self p)
      show Function.update (activeZone n).flags n activeFlags p = _
      rw [Function.update_of_ne hne, hflags p (Nat.le_of_succ_le hp)]

/-- 48 active pages, after 31 calls of `shrink_zone` at `DEF_PRIORITY` with too few
pages to scan. -/
def activePgdatZone : PgdatZone where
  zone := activeZone 48
  nrScanActive := 31
  nrScanInactive := 0
  presentPages := 48
  allUnreclaimable := false
  checking := false
  lastMru := true

theorem activePgdatZone_start : BalanceStart activePgdatZone :=
  ⟨(activeZone_inv 48).1, rfl, rfl⟩

/-- The run of `balance_pgdat` on that zone: a call, and the test. -/
theorem activePgdatZone_path {useMruPolicy : Bool} {r : Reclaim}
    (heq : shrinkZone kernelParams (freeAnswers useMruPolicy) (activePgdatZone.control 12) =
      some r) :
    let s := { activePgdatZone.shrunk (freeAnswers useMruPolicy) r none with checking := true }
    (balanceSystem kernelParams).Path activePgdatZone
      [(activePgdatZone, .balance 12, s), (s, .check, s.check)] s.check := by
  have hcall : BalanceStep kernelParams activePgdatZone (.balance 12)
      { activePgdatZone.shrunk (freeAnswers useMruPolicy) r none with checking := true } :=
    .balance rfl (by decide) heq
  exact (System.Path.nil.snoc hcall).snoc (.check rfl)

/-- The pages are in use, and 400 were scanned before. -/
def scannedZone : PgdatZone :=
  { activePgdatZone with zone := { activeZone 48 with pagesScanned := 400 } }

def lockedAnswers (useMruPolicy : Bool) : Answers :=
  { freeAnswers useMruPolicy with outcome := fun _ => .locked }

theorem scannedZone_start : BalanceStart scannedZone :=
  have hz := (activeZone_inv 48).1
  ⟨⟨hz.nodup, hz.mem, hz.notBoth, hz.offLru, hz.count⟩, rfl, rfl⟩

/-- `shrink_caches` leaves 16 pages on the safety list under the MRU policy; the call
of `balance_pgdat` under the normal policy takes them back, and the test gives the
zone up. -/
theorem scannedZone_scanned : ∃ r r',
    shrinkZone kernelParams (lockedAnswers true) (scannedZone.control 12) = some r ∧
      (r.zone.list .safety).length = 16 ∧
      let s := scannedZone.shrunk (lockedAnswers true) r none
      shrinkZone kernelParams (lockedAnswers false) (s.control 12) = some r' ∧
        { s.shrunk (lockedAnswers false) r' none with checking := true }.check.allUnreclaimable =
          true ∧
        r'.zone.lruPages = 48 ∧ 4 * r'.zone.lruPages ≤ r'.zone.pagesScanned := by
  have hrun : ((shrinkZone kernelParams (lockedAnswers true) (scannedZone.control 12)).bind
      fun r =>
        let s := scannedZone.shrunk (lockedAnswers true) r none
        (shrinkZone kernelParams (lockedAnswers false) (s.control 12)).map fun r' =>
          let s := { s.shrunk (lockedAnswers false) r' none with checking := true }
          ((r.zone.list .safety).length, r'.zone.lruPages, s.check.allUnreclaimable)) =
        some (16, 48, true) := by
    decide +kernel
  obtain ⟨r, hr, hrun⟩ := Option.bind_eq_some_iff.mp hrun
  obtain ⟨r', hr', hrun⟩ := Option.map_eq_some_iff.mp hrun
  rw [Prod.mk.injEq, Prod.mk.injEq] at hrun
  obtain ⟨hsafety, hpages, hset⟩ := hrun
  refine ⟨r, r', hr, hsafety, hr', hset, hpages, ?_⟩
  have hfill : BalanceStep kernelParams scannedZone (.reclaim 12)
      (scannedZone.shrunk (lockedAnswers true) r none) := .reclaim rfl hr
  have hcall : BalanceStep kernelParams (scannedZone.shrunk (lockedAnswers true) r none)
      (.balance 12) { (scannedZone.shrunk (lockedAnswers true) r none).shrunk
        (lockedAnswers false) r' none with checking := true } := .balance rfl rfl hr'
  refine unreclaimable_scanned (by decide) scannedZone_start
    (((System.Path.nil.snoc hfill).snoc hcall).snoc (.check rfl)) ?_ _
    (List.mem_append_right _ (List.mem_singleton_self _)) rfl hset
  intro t ht hcheck
  simp only [List.nil_append, List.mem_append, List.mem_singleton] at ht
  rcases ht with (rfl | rfl) | rfl
  · cases hcheck
  · cases hcheck
  · exact fun _ => .inl rfl

/-- Under the MRU policy the call moves the 48 pages to the safety list and frees
32 of them. The test then finds no page on the other two lists, and gives the
zone up: 33 scans, 16 pages. -/
theorem unreclaimable_too_early :
    (∃ r, shrinkZone kernelParams (freeAnswers true) (activePgdatZone.control 12) = some r ∧
      (r.zone.list .active).length = 0 ∧ (r.zone.list .inactive).length = 0 ∧
      (r.zone.list .safety).length = 16 ∧ r.zone.pagesScanned = 33 ∧
      (activePgdatZone.shrunk (freeAnswers true) r none).check.allUnreclaimable = true) ∧
    ¬ ∀ (s₀ s : PgdatZone) (l : List (PgdatZone × BalanceLabel × PgdatZone)),
      BalanceStart s₀ → (balanceSystem kernelParams).Path s₀ l s → ∀ t ∈ l, ReallyScanned t := by
  have hrun : (shrinkZone kernelParams (freeAnswers true) (activePgdatZone.control 12)).map
      (fun r => ((r.zone.list .active).length, (r.zone.list .inactive).length,
        (r.zone.list .safety).length, r.zone.pagesScanned)) = some (0, 0, 16, 33) := by
    decide +kernel
  obtain ⟨r, f, heq, hpass, -⟩ := shrinkZone_spec (a := freeAnswers true) kernelParams (by decide)
    (r := activePgdatZone.control 12) activePgdatZone_start.zone
  rw [heq, Option.map_some, Option.some.injEq, Prod.mk.injEq, Prod.mk.injEq, Prod.mk.injEq] at hrun
  obtain ⟨hA, hI, hS, hscanned⟩ := hrun
  have hnr : (r.zone.nr .active + r.zone.nr .inactive) * 4 ≤ r.zone.pagesScanned := by
    rw [hpass.zoneInv.count, hpass.zoneInv.count]
    omega
  have hset : (activePgdatZone.shrunk (freeAnswers true) r none).check.allUnreclaimable = true := by
    rw [check_unreclaimable rfl hnr]
  refine ⟨⟨r, heq, hA, hI, hS, hscanned, hset⟩, fun hall => ?_⟩
  have hset' : PgdatZone.allUnreclaimable (PgdatZone.check
      { activePgdatZone.shrunk (freeAnswers true) r none with checking := true }) = true := by
    rw [check_unreclaimable rfl hnr]
  have hfour : 4 * r.zone.lruPages ≤ r.zone.pagesScanned :=
    hall _ _ _ activePgdatZone_start (activePgdatZone_path heq) _
      (List.mem_cons_of_mem _ (List.mem_singleton_self _)) rfl hset'
  rw [Zone.lruPages] at hfour
  omega

end LinuxHacks.Mru
