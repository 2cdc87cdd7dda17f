import LinuxHacks.Lib.Transition
import Mathlib.Data.List.Perm.Basic
import Mathlib.Tactic

/-!
# The LRU lists of a zone with the safety list (`HW5/mm`, `mm_inline.h`)

One zone, its pages, and any number of tasks that run the functions of
`swap.c` and `vmscan.c` that move pages. A step is one section under
`zone->lru_lock`, or one action outside it.

The zone lists are written from their head. A list private to a task is filled
at the head and emptied at the tail, and is written in the order in which its
pages are taken.

Reference counts are not modelled: what `get_page_testone` and
`put_page_testzero` return is left open. `BUG()`, `BUG_ON` and the use of a
list head as a page give `none`.

`SWAP_CLUSTER_MAX` and `PAGEVEC_SIZE` are constants of headers the repository
does not change; the results hold for all values.
-/

namespace LinuxHacks.Mru

open LinuxHacks.Lib

abbrev Page := Nat

abbrev Task := Nat

inductive ListKind where
  | active
  | inactive
  | safety
deriving DecidableEq, Repr

/-- `PG_lru`, `PG_active`, `PG_mruvictim` and `PG_referenced`. -/
structure Flags where
  lru : Bool
  active : Bool
  mruvictim : Bool
  referenced : Bool
deriving DecidableEq, Repr

/-- `active_list`, `inactive_list`, `safety_list`, their counters, and the
flags of the zone's pages. -/
@[ext] structure Zone where
  list : ListKind → List Page
  nr : ListKind → Int
  pagesScanned : Nat
  flags : Page → Flags

namespace Zone

/-! ## Lists, counters, flags -/

/-- `list_del(&page->lru)`: out of whichever list the page is on. -/
def listDel (z : Zone) (p : Page) : Zone :=
  { z with list := fun k => (z.list k).erase p }

def listAdd (z : Zone) (k : ListKind) (p : Page) : Zone :=
  { z with list := Function.update z.list k (p :: z.list k) }

def listAddTail (z : Zone) (k : ListKind) (p : Page) : Zone :=
  { z with list := Function.update z.list k (z.list k ++ [p]) }

def addNr (z : Zone) (k : ListKind) (d : Int) : Zone :=
  { z with nr := Function.update z.nr k (z.nr k + d) }

def setFlags (z : Zone) (p : Page) (f : Flags) : Zone :=
  { z with flags := Function.update z.flags p f }

def setLru (z : Zone) (p : Page) (b : Bool) : Zone :=
  z.setFlags p { z.flags p with lru := b }

def setActive (z : Zone) (p : Page) (b : Bool) : Zone :=
  z.setFlags p { z.flags p with active := b }

def setMruvictim (z : Zone) (p : Page) (b : Bool) : Zone :=
  z.setFlags p { z.flags p with mruvictim := b }

def setReferenced (z : Zone) (p : Page) (b : Bool) : Zone :=
  z.setFlags p { z.flags p with referenced := b }

/-! ## `mm_inline.h` -/

def addPageToSafetyList (z : Zone) (p : Page) : Zone :=
  ((z.listAdd .safety p).addNr .safety 1).setMruvictim p true

def delPageFromSafetyList (z : Zone) (p : Page) : Zone :=
  ((z.listDel p).addNr .safety (-1)).setMruvictim p false

def addPageToActiveList (z : Zone) (p : Page) : Zone :=
  (z.listAdd .active p).addNr .active 1

def addPageToInactiveList (z : Zone) (p : Page) : Zone :=
  (z.listAdd .inactive p).addNr .inactive 1

def delPageFromActiveList (z : Zone) (p : Page) : Zone :=
  (z.listDel p).addNr .active (-1)

def delPageFromInactiveList (z : Zone) (p : Page) : Zone :=
  (z.listDel p).addNr .inactive (-1)

def delPageFromLru (z : Zone) (p : Page) : Zone :=
  if (z.flags p).active then ((z.listDel p).setActive p false).addNr .active (-1)
  else if (z.flags p).mruvictim then ((z.listDel p).setMruvictim p false).addNr .safety (-1)
  else (z.listDel p).addNr .inactive (-1)

/-! ## Locked sections of `swap.c` -/

def activatePage (z : Zone) (p : Page) : Zone :=
  if (z.flags p).lru && !(z.flags p).active then
    ((if (z.flags p).mruvictim then z.delPageFromSafetyList p
      else z.delPageFromInactiveList p).setActive p true).addPageToActiveList p
  else z

/-- The section of `rotate_reclaimable_page`. -/
def rotatePage (z : Zone) (p : Page) : Zone :=
  if (z.flags p).lru && !(z.flags p).active then
    if (z.flags p).mruvictim then (z.listDel p).listAddTail .safety p
    else (z.listDel p).listAddTail .inactive p
  else z

/-- The section of `__page_cache_release` and of `release_pages` for a page
whose count fell to zero. -/
def releasePage (z : Zone) (p : Page) : Zone :=
  if (z.flags p).lru then (z.setLru p false).delPageFromLru p else z

/-- `__pagevec_lru_add`. -/
def pagevecLruAdd : List Page → Zone → Option Zone
  | [], z => some z
  | p :: ps, z =>
      if (z.flags p).lru then none
      else pagevecLruAdd ps ((z.setLru p true).addPageToInactiveList p)

/-- `__pagevec_lru_add_active`. -/
def pagevecLruAddActive : List Page → Zone → Option Zone
  | [], z => some z
  | p :: ps, z =>
      if (z.flags p).lru then none
      else if (z.flags p).active then none
      else if (z.flags p).mruvictim then none
      else pagevecLruAddActive ps (((z.setLru p true).setActive p true).addPageToActiveList p)

/-! ## Locked sections of `vmscan.c` -/

/-- The locals of an isolation loop. -/
structure Isolation where
  zone : Zone
  taken : List Page
  scanned : Nat

/-- The isolation loop of `shrink_cache_mru` (`safety`), `shrink_cache`
(`inactive`) and `refill_inactive_zone` (`active`), at most `n` more
iterations. Only the first of them clears `PG_mruvictim`, and sets it again on a
page that `get_page_testone` finds being freed elsewhere. -/
def isolateLoop (k : ListKind) (testone : Nat → Bool) : Nat → Isolation → Option Isolation
  | 0, r => some r
  | n + 1, r =>
      match (r.zone.list k).getLast? with
      | none => some r
      | some p =>
          if (r.zone.flags p).lru = false then none
          else
            let z := (r.zone.setLru p false).listDel p
            let z := if k = .safety then z.setMruvictim p false else z
            if testone n then
              let z := (z.setLru p true).listAdd k p
              let z := if k = .safety then z.setMruvictim p true else z
              isolateLoop k testone n ⟨z, r.taken, r.scanned + 1⟩
            else isolateLoop k testone n ⟨z, r.taken ++ [p], r.scanned + 1⟩

/-- The first section of a loop iteration of `shrink_cache_mru` and
`shrink_cache`; `nr_scan` is one more than the pages looked at. -/
def isolateCache (k : ListKind) (swapClusterMax : Nat) (testone : Nat → Bool) (z : Zone) :
    Option Isolation := do
  let r ← isolateLoop k testone swapClusterMax ⟨z, [], 0⟩
  some
    { r with
      zone := { r.zone.addNr k (-r.taken.length) with
        pagesScanned := r.zone.pagesScanned + (r.scanned + 1) }
      scanned := r.scanned + 1 }

/-- The first section of `refill_inactive_zone`. -/
def isolateActive (nrPages : Nat) (testone : Nat → Bool) (z : Zone) : Option Isolation := do
  let r ← isolateLoop .active testone nrPages ⟨z, [], 0⟩
  some
    { r with
      zone := { r.zone.addNr .active (-r.taken.length) with
        pagesScanned := r.zone.pagesScanned + r.scanned } }

/-- Putting back unfreeable pages, until the pagevec with room for
`pagevecSize` pages is full. Left over: the pages still to put back, and the
number of pages in the pagevec, which is released when full. -/
def putBackLoop (pagevecSize : Nat) : List Page → Nat → Zone → Option (Zone × List Page × Nat)
  | [], nr, z => some (z, [], nr)
  | p :: l, nr, z =>
      if (z.flags p).lru then none
      else
        let z := z.setLru p true
        let z := if (z.flags p).active then z.addPageToActiveList p
          else z.addPageToInactiveList p
        if pagevecSize ≤ nr + 1 then some (z, l, 0) else putBackLoop pagevecSize l (nr + 1) z

/-- A loop of `refill_inactive_zone` that empties `l_inactive` (`inactive`,
clearing `PG_active`) or `l_active` (`active`), until the pagevec is full. -/
def refillLoop (k : ListKind) (pagevecSize : Nat) :
    List Page → Nat → Nat → Zone → Option (Zone × List Page × Nat × Nat)
  | [], nr, pgmoved, z => some (z, [], nr, pgmoved)
  | p :: l, nr, pgmoved, z =>
      if (z.flags p).lru then none
      else if (z.flags p).active = false then none
      else
        let z := ((z.setLru p true).setActive p (decide (k = .active))).listAdd k p
        if pagevecSize ≤ nr + 1 then some (z, l, 0, pgmoved + 1)
        else refillLoop k pagevecSize l (nr + 1) (pgmoved + 1) z

/-- A locked section of `refill_inactive_zone` around that loop: the counter is
updated at its end. -/
def refillSection (k : ListKind) (pagevecSize : Nat) (l : List Page) (nr : Nat) (z : Zone) :
    Option (Zone × List Page × Nat) := do
  let r ← refillLoop k pagevecSize l nr 0 z
  some (r.1.addNr k r.2.2.2, r.2.1, r.2.2.1)

/-- The loop of `scan_active_for_mru`; each iteration lowers `nr_active`. -/
def scanLoop (listSizeTarget : Nat) : Nat → Zone → Option Zone
  | 0, z => some z
  | n + 1, z =>
      if z.nr .safety < listSizeTarget ∧ 0 < z.nr .active then
        match z.list .active with
        | [] => none
        | p :: _ =>
            scanLoop listSizeTarget n
              (((z.delPageFromActiveList p).setActive p false).addPageToSafetyList p)
      else some z

/-- The section of `scan_active_for_mru`, with `to_grab_from_inactive`. -/
def scanActiveForMru (nrToScan swapClusterMax : Nat) (z : Zone) : Option (Zone × Nat) := do
  let z' ← scanLoop (nrToScan + swapClusterMax) (z.nr .active).toNat z
  some (z', if z'.nr .active < (nrToScan + swapClusterMax : Nat) then nrToScan + swapClusterMax
    else 0)

/-- `safety_list_consistency`: 1 and a corrected counter if it is wrong. -/
def safetyListConsistency (z : Zone) : Int × Zone :=
  if ((z.list .safety).length : Int) ≠ z.nr .safety then
    (1, { z with nr := Function.update z.nr .safety (z.list .safety).length })
  else (0, z)

end Zone

/-! ## Tasks -/

/-- The two functions that reclaim, with the list they isolate from. -/
inductive Cache where
  | shrinkCacheMru
  | shrinkCache
deriving DecidableEq, Repr

def Cache.kind : Cache → ListKind
  | .shrinkCacheMru => .safety
  | .shrinkCache => .inactive

/-- What `shrink_list` does with a page. -/
inductive Outcome where
  /-- `TestSetPageLocked` failed. -/
  | locked
  | keep
  | activate
  | free
deriving DecidableEq, Repr

/-- Where a task stands between two steps, with its private lists. -/
inductive Pc where
  | idle
  /-- In `mark_page_accessed`, before `activate_page`. -/
  | marking (p : Page)
  /-- In `mark_page_accessed`, before `ClearPageReferenced`. -/
  | unreferencing (p : Page)
  /-- In `rotate_reclaimable_page`, before its section. -/
  | rotating (p : Page)
  /-- In `scan_active_for_mru`, `n` pages to grab from the inactive list. -/
  | grab (n : Nat)
  | grabbing (p : Page) (n : Nat)
  /-- At the head of the loop of a `shrink_cache` function. -/
  | shrink (c : Cache) (maxScan : Int) (nr : Nat)
  | shrinkList (c : Cache) (maxScan : Int) (nr : Nat) (pageList retPages freedPvec : List Page)
  | putBack (c : Cache) (maxScan : Int) (nr : Nat) (pageList : List Page)
  | refillSort (lHold lInactive lActive : List Page)
  | refillInactive (nr : Nat) (lInactive lActive : List Page)
  | refillActive (nr : Nat) (lActive : List Page)

/-- The isolated pages of a task. -/
def Pc.held : Pc → List Page
  | .shrinkList _ _ _ pageList retPages freedPvec => pageList ++ (retPages ++ freedPvec)
  | .putBack _ _ _ pageList => pageList
  | .refillSort lHold lInactive lActive => lHold ++ (lInactive ++ lActive)
  | .refillInactive _ lInactive lActive => lInactive ++ lActive
  | .refillActive _ lActive => lActive
  | _ => []

structure State where
  zone : Zone
  pc : Task → Pc
  /-- A `BUG` was reached. -/
  bug : Bool

def State.set (s : State) (t : Task) (zone : Zone) (pc : Pc) : State :=
  { s with zone := zone, pc := Function.update s.pc t pc }

/-- Go on with the result of a section, or stop at its `BUG`. -/
def State.orBug {α : Type} (s : State) (r : Option α) (next : α → State) : State :=
  match r with
  | none => { s with bug := true }
  | some a => next a

/-- A page the allocator handed out and nobody put on a list yet. -/
def State.New (s : State) (p : Page) : Prop :=
  (s.zone.flags p).lru = false ∧ ∀ t, p ∉ (s.pc t).held

/-- `shrink_list` on the first page of its list. -/
def shrinkPage (s : State) (t : Task) (c : Cache) (maxScan : Int) (nr : Nat) (p : Page)
    (pageList retPages freedPvec : List Page) : Outcome → Option State
  | .locked =>
      if (s.zone.flags p).lru then none
      else some (s.set t s.zone (.shrinkList c maxScan nr pageList (retPages ++ [p]) freedPvec))
  | .keep =>
      if (s.zone.flags p).active then none
      else if (s.zone.flags p).lru then none
      else some (s.set t s.zone (.shrinkList c maxScan nr pageList (retPages ++ [p]) freedPvec))
  | .activate =>
      if (s.zone.flags p).active then none
      else if (s.zone.flags p).lru then none
      else some (s.set t (s.zone.setActive p true)
        (.shrinkList c maxScan nr pageList (retPages ++ [p]) freedPvec))
  | .free =>
      if (s.zone.flags p).active then none
      else some (s.set t s.zone
        (.shrinkList c maxScan nr pageList retPages (freedPvec ++ [p])))

/-- `__pagevec_release_nonlru` on the pages `shrink_list` freed. -/
def releaseNonlru (s : State) (t : Task) (c : Cache) (maxScan : Int) (nr : Nat)
    (pageList retPages freedPvec : List Page) : Option State :=
  if freedPvec.any (fun p => (s.zone.flags p).lru) then none
  else some (s.set t s.zone (.shrinkList c maxScan nr pageList retPages []))

/-- Constants of the kernel headers. -/
structure Params where
  swapClusterMax : Nat
  pagevecSize : Nat

/-- After the isolation section: `goto done` when nothing was taken. -/
def afterIsolate (s : State) (t : Task) (c : Cache) (maxScan : Int) (nr : Nat)
    (r : Zone.Isolation) : State :=
  if r.taken = [] then s.set t r.zone .idle
  else s.set t r.zone (.shrinkList c (maxScan - r.scanned) nr r.taken [] [])

inductive Step (params : Params) : State → Task → State → Prop
  /-- A flush of a pagevec of new pages. -/
  | lruAdd {s : State} {t : Task} {ps : List Page} : s.pc t = .idle → ps.Nodup →
      (∀ p ∈ ps, s.New p) →
      Step params s t (s.orBug (s.zone.pagevecLruAdd ps) fun z => s.set t z .idle)
  | lruAddActive {s : State} {t : Task} {ps : List Page} : s.pc t = .idle → ps.Nodup →
      (∀ p ∈ ps, s.New p) →
      Step params s t (s.orBug (s.zone.pagevecLruAddActive ps) fun z => s.set t z .idle)
  | activate {s : State} {t : Task} {p : Page} : s.pc t = .idle →
      Step params s t (s.set t (s.zone.activatePage p) .idle)
  | release {s : State} {t : Task} {p : Page} : s.pc t = .idle →
      Step params s t (s.set t (s.zone.releasePage p) .idle)
  /-- `mark_page_accessed`: the unlocked tests, then one of its two branches. -/
  | markTests {s : State} {t : Task} {p : Page} : s.pc t = .idle →
      (s.zone.flags p).active = false → (s.zone.flags p).referenced = true →
      (s.zone.flags p).lru = true → Step params s t (s.set t s.zone (.marking p))
  | markSet {s : State} {t : Task} {p : Page} : s.pc t = .idle →
      (s.zone.flags p).referenced = false →
      Step params s t (s.set t (s.zone.setReferenced p true) .idle)
  | markActivate {s : State} {t : Task} {p : Page} : s.pc t = .marking p →
      Step params s t (s.set t (s.zone.activatePage p) (.unreferencing p))
  | markClear {s : State} {t : Task} {p : Page} : s.pc t = .unreferencing p →
      Step params s t (s.set t (s.zone.setReferenced p false) .idle)
  /-- `rotate_reclaimable_page`: the tests that can fail, then the section. -/
  | rotateTests {s : State} {t : Task} {p : Page} : s.pc t = .idle →
      (s.zone.flags p).active = false → (s.zone.flags p).lru = true →
      Step params s t (s.set t s.zone (.rotating p))
  | rotate {s : State} {t : Task} {p : Page} : s.pc t = .rotating p →
      Step params s t (s.set t (s.zone.rotatePage p) .idle)
  | scan {s : State} {t : Task} {nrToScan : Nat} : s.pc t = .idle →
      Step params s t (s.orBug (s.zone.scanActiveForMru nrToScan params.swapClusterMax)
        fun r => s.set t r.1 (.grab r.2))
  /-- The unlocked look at the first inactive page. -/
  | grabPage {s : State} {t : Task} {n : Nat} {p : Page} {l : List Page} :
      s.pc t = .grab (n + 1) → s.zone.list .inactive = p :: l →
      Step params s t (s.set t s.zone (.grabbing p n))
  | grabNone {s : State} {t : Task} {n : Nat} : s.pc t = .grab (n + 1) →
      s.zone.list .inactive = [] → Step params s t (s.set t s.zone (.grab n))
  | grabActivate {s : State} {t : Task} {n : Nat} {p : Page} : s.pc t = .grabbing p n →
      Step params s t (s.set t (s.zone.activatePage p) (.grab n))
  | grabDone {s : State} {t : Task} : s.pc t = .grab 0 → Step params s t (s.set t s.zone .idle)
  | shrinkCall {s : State} {t : Task} {c : Cache} {maxScan : Int} : s.pc t = .idle →
      Step params s t (s.set t s.zone (.shrink c maxScan 0))
  | shrinkDone {s : State} {t : Task} {c : Cache} {maxScan : Int} {nr : Nat} :
      s.pc t = .shrink c maxScan nr → ¬ 0 < maxScan →
      Step params s t (s.set t s.zone .idle)
  | isolate {s : State} {t : Task} {c : Cache} {maxScan : Int} {nr : Nat}
      {testone : Nat → Bool} : s.pc t = .shrink c maxScan nr → 0 < maxScan →
      Step params s t (s.orBug (s.zone.isolateCache c.kind params.swapClusterMax testone)
        (afterIsolate s t c maxScan nr))
  | shrinkPage {s : State} {t : Task} {c : Cache} {maxScan : Int} {nr : Nat} {p : Page}
      {pageList retPages freedPvec : List Page} {outcome : Outcome} :
      s.pc t = .shrinkList c maxScan nr (p :: pageList) retPages freedPvec →
      Step params s t (s.orBug
        (shrinkPage s t c maxScan nr p pageList retPages freedPvec outcome) id)
  | releaseNonlru {s : State} {t : Task} {c : Cache} {maxScan : Int} {nr : Nat}
      {pageList retPages freedPvec : List Page} :
      s.pc t = .shrinkList c maxScan nr pageList retPages freedPvec →
      Step params s t (s.orBug
        (releaseNonlru s t c maxScan nr pageList retPages freedPvec) id)
  | shrinkListDone {s : State} {t : Task} {c : Cache} {maxScan : Int} {nr : Nat}
      {retPages : List Page} : s.pc t = .shrinkList c maxScan nr [] retPages [] →
      Step params s t (s.set t s.zone (.putBack c maxScan nr retPages))
  | putBack {s : State} {t : Task} {c : Cache} {maxScan : Int} {nr : Nat}
      {pageList : List Page} : s.pc t = .putBack c maxScan nr pageList →
      Step params s t (s.orBug (s.zone.putBackLoop params.pagevecSize pageList nr)
        fun r => s.set t r.1 (.putBack c maxScan r.2.2 r.2.1))
  | putBackDone {s : State} {t : Task} {c : Cache} {maxScan : Int} {nr : Nat} :
      s.pc t = .putBack c maxScan nr [] →
      Step params s t (s.set t s.zone (.shrink c maxScan nr))
  | refillIsolate {s : State} {t : Task} {nrPages : Nat} {testone : Nat → Bool} :
      s.pc t = .idle →
      Step params s t (s.orBug (s.zone.isolateActive nrPages testone)
        fun r => s.set t r.zone (.refillSort r.taken [] []))
  /-- The page is mapped and in use (to `l_active`), or not (to `l_inactive`). -/
  | refillSort {s : State} {t : Task} {p : Page} {lHold lInactive lActive : List Page}
      {inUse : Bool} : s.pc t = .refillSort (p :: lHold) lInactive lActive →
      Step params s t (s.set t s.zone
        (if inUse then .refillSort lHold lInactive (lActive ++ [p])
          else .refillSort lHold (lInactive ++ [p]) lActive))
  | refillSorted {s : State} {t : Task} {lInactive lActive : List Page} :
      s.pc t = .refillSort [] lInactive lActive →
      Step params s t (s.set t s.zone (.refillInactive 0 lInactive lActive))
  | refillInactive {s : State} {t : Task} {nr : Nat} {lInactive lActive : List Page} :
      s.pc t = .refillInactive nr lInactive lActive →
      Step params s t (s.orBug
        (s.zone.refillSection .inactive params.pagevecSize lInactive nr)
        fun r => s.set t r.1 (.refillInactive r.2.2 r.2.1 lActive))
  | refillInactiveDone {s : State} {t : Task} {nr : Nat} {lActive : List Page} :
      s.pc t = .refillInactive nr [] lActive →
      Step params s t (s.set t s.zone (.refillActive nr lActive))
  | refillActive {s : State} {t : Task} {nr : Nat} {lActive : List Page} :
      s.pc t = .refillActive nr lActive →
      Step params s t (s.orBug (s.zone.refillSection .active params.pagevecSize lActive nr)
        fun r => s.set t r.1 (.refillActive r.2.2 r.2.1))
  | refillDone {s : State} {t : Task} {nr : Nat} : s.pc t = .refillActive nr [] →
      Step params s t (s.set t s.zone .idle)

/-- An empty zone, no page on a list, all tasks idle. -/
def State.init : State where
  zone := ⟨fun _ => [], fun _ => 0, 0, fun _ => ⟨false, false, false, false⟩⟩
  pc := fun _ => .idle
  bug := false

def system (params : Params) : System State Task where
  init := fun s => s = State.init
  step := Step params

end LinuxHacks.Mru
