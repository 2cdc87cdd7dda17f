import LinuxHacks.Mru.Sections

/-!
# `shrink_zone` alone on a zone (`HW5/mm/vmscan.c`)

The functions of `vmscan.c` as one task runs them when nothing else touches the
zone: the sections of the concurrent model, one after the other, with the
loops around them. `lru_add_drain` finds empty pagevecs. A `pagevec_release`
gives back the reference that the isolation took, which is not the last one.

What the rest of the kernel answers is left open (`Answers`): the value of
`USE_MRU_POLICY` at each of its reads, what `shrink_list` does with a page,
what `get_page_testone` and the tests of `refill_inactive_zone` find.

`page_list` and `ret_pages` of `shrink_list` are written from their head, as
they lie in memory; the other private lists in the order in which their pages
are taken. `none` is a `BUG`, or a loop that did not end within its bound.
-/

namespace LinuxHacks.Mru

/-- What the code finds when it asks, one answer for each time it asks. -/
structure Answers where
  /-- `USE_MRU_POLICY`. -/
  useMruPolicy : Nat → Bool
  /-- What `shrink_list` does with a page. -/
  outcome : Nat → Outcome
  /-- `get_page_testone`, in each iteration of an isolation loop. -/
  testone : Nat → Nat → Bool
  /-- `page_mapped` in `refill_inactive_zone`. -/
  pageMapped : Nat → Bool
  /-- The tests of `refill_inactive_zone` that keep a mapped page active. -/
  inUse : Nat → Bool

/-- The zone, the fields of `scan_control` that are used, how often each of the
`Answers` was asked for, and what became of the pages. -/
structure Reclaim where
  zone : Zone
  nrScanActive : Nat
  nrScanInactive : Nat
  priority : Nat
  nrToScan : Nat
  nrToReclaim : Int
  nrReclaimed : Nat
  policyReads : Nat
  tried : Nat
  isolations : Nat
  sorted : Nat
  /-- The pages freed so far. -/
  freed : List Page
  /-- The pages `shrink_list` took from the list of each of its callers. -/
  handed : Cache → List Page

namespace Zone

/-! ## `shrink_list` -/

/-- `shrink_list` on one page, and whether it was freed. -/
def shrinkOne (z : Zone) (p : Page) : Outcome → Option (Zone × Bool)
  | .locked => if (z.flags p).lru then none else some (z, false)
  | .keep =>
      if (z.flags p).active then none
      else if (z.flags p).lru then none
      else some (z, false)
  | .activate =>
      if (z.flags p).active then none
      else if (z.flags p).lru then none
      else some (z.setActive p true, false)
  | .free => if (z.flags p).active then none else some (z, true)

/-- In the concurrent model a step of `shrink_list` does the same. -/
theorem shrinkPage_eq (s : State) (t : Task) (c : Cache) (maxScan : Int) (nr : Nat) (p : Page)
    (pageList retPages freedPvec : List Page) (outcome : Outcome) :
    Mru.shrinkPage s t c maxScan nr p pageList retPages freedPvec outcome =
      (s.zone.shrinkOne p outcome).map fun r => s.set t r.1
        (.shrinkList c maxScan nr pageList (if r.2 then retPages else retPages ++ [p])
          (if r.2 then freedPvec ++ [p] else freedPvec)) := by
  cases outcome <;> rw [Mru.shrinkPage, shrinkOne] <;> split_ifs <;> rfl

/-- `__pagevec_release_nonlru`: its `BUG_ON`. -/
def pagevecReleaseNonlru (z : Zone) (freedPvec : List Page) : Option Unit :=
  if freedPvec.any (fun p => (z.flags p).lru) then none else some ()

theorem releaseNonlru_eq (s : State) (t : Task) (c : Cache) (maxScan : Int) (nr : Nat)
    (pageList retPages freedPvec : List Page) :
    Mru.releaseNonlru s t c maxScan nr pageList retPages freedPvec =
      (s.zone.pagevecReleaseNonlru freedPvec).map fun _ => s.set t s.zone
        (.shrinkList c maxScan nr pageList retPages []) := by
  rw [Mru.releaseNonlru, pagevecReleaseNonlru]
  split_ifs <;> rfl

/-! ## Lists -/

/-- The page after `p`, `none` for the list head. -/
def nextOf : List Page → Page → Option Page
  | [], _ => none
  | q :: l, p => if q = p then l.head? else nextOf l p

/-- `clear_safety_list`: `thispage` is the argument, and the page after it is
read before `activate_page` moves it. -/
def clearSafetyLoop : Nat → Option Page → Zone → Option Zone
  | _, none, z => some z
  | 0, some _, _ => none
  | n + 1, some thispage, z =>
      let tmp := nextOf (z.list .safety) thispage
      clearSafetyLoop n tmp (z.activatePage thispage)

def clearSafetyList (z : Zone) : Option Zone :=
  clearSafetyLoop (z.list .safety).length (z.list .safety).head? z

/-- The loop of `scan_active_for_mru` over `to_grab_from_inactive`. -/
def grabFromInactive : Nat → Zone → Zone
  | 0, z => z
  | n + 1, z =>
      match z.list .inactive with
      | [] => grabFromInactive n z
      | firstpage :: _ => grabFromInactive n (z.activatePage firstpage)

/-- A loop that empties a private list in one locked section after the other. -/
def drain (lockedSection : List Page → Nat → Zone → Option (Zone × List Page × Nat)) :
    Nat → List Page → Nat → Zone → Option (Zone × Nat)
  | _, [], nr, z => some (z, nr)
  | 0, _ :: _, _, _ => none
  | n + 1, p :: l, nr, z => do
      let s ← lockedSection (p :: l) nr z
      drain lockedSection n s.2.1 s.2.2 s.1

end Zone

open Zone

/-- The locals of `shrink_list`. -/
structure ShrinkList where
  retPages : List Page
  freedPvec : List Page
  reclaimed : Nat

section Functions

variable (params : Params) (a : Answers)

/-- The page `shrink_list` took is freed. -/
def freeIt (p : Page) (s : ShrinkList) (r : Reclaim) : Option (ShrinkList × Reclaim) :=
  let freedPvec := s.freedPvec ++ [p]
  let r := { r with freed := r.freed ++ [p] }
  if params.pagevecSize ≤ freedPvec.length then do
    pagevecReleaseNonlru r.zone freedPvec
    some (⟨s.retPages, [], s.reclaimed + 1⟩, r)
  else some (⟨s.retPages, freedPvec, s.reclaimed + 1⟩, r)

/-- The loop of `shrink_list`: `lru_to_page` is the last page of the list. -/
def shrinkListLoop (c : Cache) : Nat → List Page → ShrinkList → Reclaim →
    Option (ShrinkList × Reclaim)
  | 0, pageList, s, r => if pageList = [] then some (s, r) else none
  | n + 1, pageList, s, r =>
      match pageList.getLast? with
      | none => some (s, r)
      | some p => do
          let one ← r.zone.shrinkOne p (a.outcome r.tried)
          let r := { r with
            zone := one.1
            tried := r.tried + 1
            handed := Function.update r.handed c (r.handed c ++ [p]) }
          if one.2 then do
            let next ← freeIt params p s r
            shrinkListLoop c n pageList.dropLast next.1 next.2
          else
            shrinkListLoop c n pageList.dropLast { s with retPages := p :: s.retPages } r

/-- The pages to put back, from the head of `page_list`, and the number of
pages freed. -/
def shrinkList (c : Cache) (pageList : List Page) (r : Reclaim) :
    Option (List Page × Nat × Reclaim) := do
  let l ← shrinkListLoop params a c pageList.length pageList ⟨[], [], 0⟩ r
  pagevecReleaseNonlru l.2.zone l.1.freedPvec
  some (l.1.retPages, l.1.reclaimed,
    { l.2 with nrReclaimed := l.2.nrReclaimed + l.1.reclaimed })

/-! ## `shrink_cache`, `shrink_cache_mru` and `refill_inactive_zone` -/

/-- The loop of `shrink_cache` and of `shrink_cache_mru`. The isolated pages
went to the head of `page_list`, and are put back from its tail. -/
def shrinkCacheLoop (c : Cache) : Nat → Int → Nat → Reclaim → Option Reclaim
  | 0, _, _, _ => none
  | n + 1, maxScan, nr, r =>
      if 0 < maxScan then do
        let i ← r.zone.isolateCache c.kind params.swapClusterMax (a.testone r.isolations)
        let r := { r with zone := i.zone, isolations := r.isolations + 1 }
        if i.taken = [] then some r
        else do
          let l ← shrinkList params a c i.taken.reverse r
          let d ← drain (fun l nr z => z.putBackLoop params.pagevecSize l nr)
            l.1.length l.1.reverse nr l.2.2.zone
          shrinkCacheLoop c n (maxScan - i.scanned) d.2
            { l.2.2 with zone := d.1, nrToReclaim := l.2.2.nrToReclaim - l.2.1 }
      else some r

/-- `shrink_cache` and `shrink_cache_mru`, which differ in their list only. -/
def shrinkCacheOf (c : Cache) (r : Reclaim) : Option Reclaim :=
  shrinkCacheLoop params a c (r.nrToScan + 1) r.nrToScan 0 r

def shrinkCache (r : Reclaim) : Option Reclaim := shrinkCacheOf params a .shrinkCache r

def shrinkCacheMru (r : Reclaim) : Option Reclaim := shrinkCacheOf params a .shrinkCacheMru r

/-- The loop of `refill_inactive_zone` over `l_hold`: to `l_active` go the
mapped pages in use, unless the policy is MRU. -/
def refillSort : List Page → List Page → List Page → Reclaim → List Page × List Page × Reclaim
  | [], lInactive, lActive, r => (lInactive, lActive, r)
  | p :: lHold, lInactive, lActive, r =>
      if a.pageMapped r.sorted then
        let r' := { r with sorted := r.sorted + 1, policyReads := r.policyReads + 1 }
        if !a.useMruPolicy r.policyReads && a.inUse r.sorted then
          refillSort lHold lInactive (lActive ++ [p]) r'
        else refillSort lHold (lInactive ++ [p]) lActive r'
      else refillSort lHold (lInactive ++ [p]) lActive { r with sorted := r.sorted + 1 }

def refillInactiveZone (r : Reclaim) : Option Reclaim := do
  let i ← r.zone.isolateActive r.nrToScan (a.testone r.isolations)
  let s := refillSort a i.taken [] [] { r with zone := i.zone, isolations := r.isolations + 1 }
  let d ← drain (fun l nr z => z.refillSection .inactive params.pagevecSize l nr)
    s.1.length s.1 0 s.2.2.zone
  let d' ← drain (fun l nr z => z.refillSection .active params.pagevecSize l nr)
    s.2.1.length s.2.1 d.2 d.1
  some { s.2.2 with zone := d'.1 }

/-- `scan_active_for_mru`. -/
def scanActive (r : Reclaim) : Option Reclaim := do
  let s ← r.zone.scanActiveForMru r.nrToScan params.swapClusterMax
  some { r with zone := grabFromInactive s.2 s.1 }

/-! ## `shrink_zone` -/

/-- `if (nr_active)` in the loop of `shrink_zone`. -/
def activeTurn (nrActive : Nat) (r : Reclaim) : Option (Nat × Reclaim) :=
  if nrActive = 0 then some (0, r)
  else
    let r' := { r with policyReads := r.policyReads + 1 }
    if a.useMruPolicy r.policyReads ∧ 2 * r.zone.nr .active < r.zone.nr .inactive then
      some (0, r')
    else
      let nrToScan := min nrActive params.swapClusterMax
      do
        let r'' ← refillInactiveZone params a { r' with nrToScan := nrToScan }
        some (nrActive - nrToScan, r'')

/-- `if (nr_inactive)` and `if (nr_safety)`, up to the test for the `break`:
`shrink` is `shrink_cache` or `shrink_cache_mru`. -/
def cacheTurn (shrink : Reclaim → Option Reclaim) (budget : Nat) (r : Reclaim) :
    Option (Nat × Bool × Reclaim) :=
  if budget = 0 then some (0, false, r)
  else
    let nrToScan := min budget params.swapClusterMax
    do
      let r' ← shrink { r with nrToScan := nrToScan }
      some (budget - nrToScan, decide (r'.nrToReclaim ≤ 0), r')

def shrinkZoneLoop : Nat → Nat → Nat → Nat → Reclaim → Option Reclaim
  | 0, _, _, _, _ => none
  | n + 1, nrActive, nrInactive, nrSafety, r =>
      if nrActive = 0 ∧ nrInactive = 0 ∧ nrSafety = 0 then some r
      else do
        let act ← activeTurn params a nrActive r
        let inact ← cacheTurn params (shrinkCache params a) nrInactive act.2
        if inact.2.1 then some inact.2.2
        else do
          let safe ← cacheTurn params (shrinkCacheMru params a) nrSafety inact.2.2
          if safe.2.1 then some safe.2.2
          else shrinkZoneLoop n act.1 inact.1 safe.1 safe.2.2

/-- `nr_scan` with its increment: what is to be scanned now, and what is left
for the next call. -/
def scanNow (nrScan : Nat) : Nat × Nat :=
  if params.swapClusterMax ≤ nrScan then (nrScan, 0) else (0, nrScan)

/-- The branch on the policy: `nr_safety`, and the pages of the safety list
back on the active list when the policy is normal. -/
def policyBranch (nrActive : Nat) (r : Reclaim) : Option (Nat × Reclaim) :=
  let r' := { r with policyReads := r.policyReads + 1 }
  if a.useMruPolicy r.policyReads then some (nrActive, { r' with nrScanInactive := 0 })
  else
    let nrScanInactive := r.nrScanInactive + ((r.zone.nr .inactive).toNat >>> r.priority + 1)
    if r.zone.nr .safety ≠ 0 then do
      let z ← r.zone.clearSafetyList
      some (0, { r' with nrScanInactive := nrScanInactive, zone := z })
    else some (0, { r' with nrScanInactive := nrScanInactive })

/-- `if (USE_MRU_POLICY && nr_safety)` before the loop. -/
def scanBranch (nrSafety : Nat) (r : Reclaim) : Option Reclaim :=
  let r' := { r with policyReads := r.policyReads + 1 }
  if a.useMruPolicy r.policyReads ∧ nrSafety ≠ 0 then
    scanActive params { r' with nrToScan := nrSafety }
  else some r'

def shrinkZone (r : Reclaim) : Option Reclaim := do
  let act := scanNow params (r.nrScanActive + ((r.zone.nr .active).toNat >>> r.priority + 1))
  let p ← policyBranch a act.1 { r with nrScanActive := act.2 }
  let inact := scanNow params p.2.nrScanInactive
  let r' ← scanBranch params a p.1
    { p.2 with nrScanInactive := inact.2, nrToReclaim := params.swapClusterMax }
  shrinkZoneLoop params a (act.1 + inact.1 + p.1 + 1) act.1 inact.1 p.1 r'

end Functions

end LinuxHacks.Mru
