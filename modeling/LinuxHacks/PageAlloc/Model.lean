import LinuxHacks.Lib.Transition
import Mathlib.Tactic

/-!
# The page allocator (`HW5/mm/page_alloc.c`)

One zone: its `struct page`s, its free lists and its per-CPU lists. Pages go by
their index in `zone_mem_map`, which is `page - base` in the source. A function
is one section under `zone->lock`, or one section with interrupts off on its
CPU; `BUG_ON` and a list head used as a page give `none`.

Without `CONFIG_HUGETLB_PAGE`, `CONFIG_NUMA` and `CONFIG_HOLES_IN_ZONE`, and with
`CONFIG_MMU`. Left out: event counters (`mod_page_state`), page contents, and what
`bad_page` prints.
-/

namespace LinuxHacks.PageAlloc

/-- `MAX_ORDER`. -/
def maxOrder : ℕ := 11

/-! ## `struct page` -/

/-- The `PG_` bits of `page->flags`. -/
inductive PageFlag where
  | locked
  | error
  | referenced
  | uptodate
  | dirty
  | lru
  | active
  | slab
  | highmem
  | checked
  | arch1
  | reserved
  | priv
  | writeback
  | nosave
  | compound
  | swapcache
  | mappedtodisk
  | reclaim
  | nosaveFree
  | mruvictim
deriving DecidableEq, Repr

/-- `zone` is in the upper bits of `page->flags`; `count` and `mapcount` are what
`page_count` and `page_mapcount` return; `priv` is `page->private`. -/
@[ext] structure Page where
  flags : PageFlag → Bool
  zone : ℕ
  count : Int
  mapcount : Int
  mapping : ℕ
  priv : ℕ

namespace Page

def setFlag (p : Page) (f : PageFlag) : Page :=
  { p with flags := Function.update p.flags f true }

def clearFlags (p : Page) (fs : List PageFlag) : Page :=
  { p with flags := fun f => p.flags f && decide (f ∉ fs) }

def anyFlag (p : Page) (fs : List PageFlag) : Bool := fs.any p.flags

/-- `PageAnon`: `PAGE_MAPPING_ANON` is bit 0. -/
def anon (p : Page) : Bool := decide (p.mapping % 2 = 1)

def mapped (p : Page) : Bool := decide (0 < p.mapcount)

def badPage (p : Page) : Page :=
  { p.clearFlags [.priv, .locked, .lru, .active, .dirty, .swapcache, .writeback] with
    count := 0, mapcount := 0, mapping := 0 }

def freePagesCheck (p : Page) : Page :=
  let p :=
    if p.mapped || decide (p.mapping ≠ 0) || decide (p.count ≠ 0) ||
        p.anyFlag [.lru, .priv, .locked, .active, .reclaim, .slab, .swapcache, .writeback] then
      p.badPage
    else p
  if p.flags .dirty then p.clearFlags [.dirty] else p

/-- `prep_new_page` with `set_page_refs`. -/
def prepNewPage (p : Page) : Page :=
  let p :=
    if decide (p.mapping ≠ 0) || p.mapped ||
        p.anyFlag [.priv, .locked, .lru, .active, .dirty, .reclaim, .swapcache, .writeback] then
      p.badPage
    else p
  { p.clearFlags [.uptodate, .error, .referenced, .arch1, .checked, .mappedtodisk] with
    priv := 0, count := 1 }

end Page

/-! ## `struct zone` -/

/-- `nr_free` beside the list it counts. -/
@[ext] structure FreeArea where
  freeList : List ℕ
  nrFree : Int

structure PerCpuPages where
  count : Int
  low : Int
  high : Int
  batch : Int
  list : List ℕ

/-- `pageset cpu cold` is `zone->pageset[cpu].pcp[cold]`, and `nodezone` the index of the
zone in `zone_table`. -/
@[ext] structure Zone where
  freePages : Int
  pagesMin : ℕ
  pagesLow : ℕ
  pagesHigh : ℕ
  lowmemReserve : ℕ → ℕ
  pageset : ℕ → Bool → PerCpuPages
  freeArea : ℕ → FreeArea
  pagesScanned : ℕ
  allUnreclaimable : Bool
  zoneStartPfn : ℕ
  spannedPages : ℕ
  nodezone : ℕ
  memMap : ℕ → Page
  /-- Marks are numbers of pages, and stay positive as a `long`. -/
  marks : pagesMin < 2 ^ 31 ∧ pagesLow < 2 ^ 31 ∧ pagesHigh < 2 ^ 31

namespace Zone

def pageToPfn (z : Zone) (i : ℕ) : ℕ := z.zoneStartPfn + i

def badRange (z : Zone) (i : ℕ) : Bool :=
  decide (z.zoneStartPfn + z.spannedPages ≤ z.pageToPfn i) ||
    decide (z.pageToPfn i < z.zoneStartPfn) || decide (z.nodezone ≠ (z.memMap i).zone)

def setPage (z : Zone) (i : ℕ) (p : Page) : Zone :=
  { z with memMap := Function.update z.memMap i p }

/-! ## A page's order -/

def pageOrder (z : Zone) (i : ℕ) : ℕ := (z.memMap i).priv

def setPageOrder (z : Zone) (i order : ℕ) : Zone :=
  z.setPage i { (z.memMap i).setFlag .priv with priv := order }

def rmvPageOrder (z : Zone) (i : ℕ) : Zone :=
  z.setPage i { (z.memMap i).clearFlags [.priv] with priv := 0 }

def pageIsBuddy (z : Zone) (i order : ℕ) : Bool :=
  (z.memMap i).flags .priv && decide (z.pageOrder i = order) &&
    !(z.memMap i).flags .reserved && decide ((z.memMap i).count = 0)

/-! ## Free lists -/

/-- `list_del(&page->lru)`: out of whichever free list the page is on. -/
def listDel (z : Zone) (i : ℕ) : Zone :=
  { z with freeArea := fun o => { z.freeArea o with freeList := (z.freeArea o).freeList.erase i } }

def setFreeArea (z : Zone) (order : ℕ) (area : FreeArea) : Zone :=
  { z with freeArea := Function.update z.freeArea order area }

def listAdd (z : Zone) (order i : ℕ) : Zone :=
  z.setFreeArea order { z.freeArea order with freeList := i :: (z.freeArea order).freeList }

def addNrFree (z : Zone) (order : ℕ) (d : Int) : Zone :=
  z.setFreeArea order { z.freeArea order with nrFree := (z.freeArea order).nrFree + d }

/-- The loop of `__free_pages_bulk`, with the number of orders that are left: the
zone, and where the coalesced block starts and what its order is. -/
def coalesce : ℕ → Zone → ℕ → ℕ → Zone × ℕ × ℕ
  | 0, z, pageIdx, order => (z, pageIdx, order)
  | n + 1, z, pageIdx, order =>
      let buddyIdx := pageIdx ^^^ (1 <<< order)
      if z.badRange buddyIdx then (z, pageIdx, order)
      else if !z.pageIsBuddy buddyIdx order then (z, pageIdx, order)
      else
        coalesce n (((z.listDel buddyIdx).addNrFree order (-1)).rmvPageOrder buddyIdx)
          (pageIdx &&& buddyIdx) (order + 1)

/-- `__free_pages_bulk`. -/
def freePagesBulkOne (z : Zone) (pageIdx order : ℕ) : Option Zone :=
  if pageIdx &&& ((1 <<< order) - 1) ≠ 0 then none
  else if z.badRange pageIdx then none
  else
    let (z, coalesced, order) :=
      coalesce (maxOrder - 1 - order) { z with freePages := z.freePages + 2 ^ order } pageIdx order
    some (((z.setPageOrder coalesced order).listAdd order coalesced).addNrFree order 1)

/-- The loop of `free_pages_bulk`, on the list from its tail: the zone, what stays
on the list, and how many pages were freed. -/
def freePagesBulkLoop (order : ℕ) : List ℕ → Int → Zone → Option (Zone × List ℕ × Int)
  | [], _, z => some (z, [], 0)
  | page :: rest, count, z =>
      if count = 0 then some (z, page :: rest, 0)
      else do
        let z ← z.freePagesBulkOne page order
        let (z, left, ret) ← freePagesBulkLoop order rest (count - 1) z
        pure (z, left, ret + 1)

def freePagesBulk (z : Zone) (count : Int) (list : List ℕ) (order : ℕ) :
    Option (Zone × List ℕ × Int) := do
  let (z, left, ret) ← freePagesBulkLoop order list.reverse count
    { z with allUnreclaimable := false, pagesScanned := 0 }
  pure (z, left.reverse, ret)

/-- `__free_pages_ok`. -/
def freePagesOk (z : Zone) (page order : ℕ) : Option Zone := do
  let z := (List.range (2 ^ order)).foldl
    (fun z i => z.setPage (page + i) (z.memMap (page + i)).freePagesCheck) z
  let (z, _, _) ← z.freePagesBulk 1 [page] order
  pure z

/-- The loop of `expand`, `n = high - low` orders down. -/
def expand (page : ℕ) : ℕ → ℕ → Zone → Option Zone
  | 0, _, z => some z
  | n + 1, high, z =>
      let high := high - 1
      let size := 2 ^ high
      if z.badRange (page + size) then none
      else expand page n high
        (((z.listAdd high (page + size)).addNrFree high 1).setPageOrder (page + size) high)

/-- The loop of `__rmqueue`, with the number of orders that are left. -/
def rmqueueFrom (z : Zone) (order : ℕ) : ℕ → ℕ → Option (Zone × Option ℕ)
  | 0, _ => some (z, none)
  | n + 1, currentOrder =>
      match (z.freeArea currentOrder).freeList with
      | [] => rmqueueFrom z order n (currentOrder + 1)
      | page :: _ => do
          let z := ((z.listDel page).rmvPageOrder page).addNrFree currentOrder (-1)
          let z ← expand page (currentOrder - order) currentOrder
            { z with freePages := z.freePages - 2 ^ order }
          pure (z, some page)

/-- `__rmqueue`. -/
def rmqueue (z : Zone) (order : ℕ) : Option (Zone × Option ℕ) :=
  z.rmqueueFrom order (maxOrder - order) order

/-- `rmqueue_bulk`: the zone, the list with the pages at its tail, their number. -/
def rmqueueBulk (order : ℕ) : ℕ → Zone → List ℕ → Option (Zone × List ℕ × Int)
  | 0, z, list => some (z, list, 0)
  | n + 1, z, list => do
      let (z, page) ← z.rmqueue order
      match page with
      | none => pure (z, list, 0)
      | some page =>
          let (z, list, allocated) ← rmqueueBulk order n z (list ++ [page])
          pure (z, list, allocated + 1)

/-! ## Per-CPU lists -/

def setPcp (z : Zone) (cpu : ℕ) (cold : Bool) (pcp : PerCpuPages) : Zone :=
  let pcps := Function.update (z.pageset cpu) cold pcp
  { z with pageset := Function.update z.pageset cpu pcps }

/-- The lists of `free_area_init_core`. -/
def pcpInit (batch : ℕ) : Bool → PerCpuPages
  | false => { count := 0, low := 2 * batch, high := 6 * batch, batch := batch, list := [] }
  | true => { count := 0, low := 0, high := 2 * batch, batch := batch, list := [] }

/-- `__drain_pages` on one list of one zone. -/
def drainPcp (z : Zone) (cpu : ℕ) (cold : Bool) : Option Zone := do
  let pcp := z.pageset cpu cold
  let (z, left, ret) ← z.freePagesBulk pcp.count pcp.list 0
  pure (z.setPcp cpu cold { pcp with count := pcp.count - ret, list := left })

/-- `__drain_pages` on one zone. -/
def drainPages (z : Zone) (cpu : ℕ) : Option Zone := do
  let z ← z.drainPcp cpu false
  z.drainPcp cpu true

/-- `if (pcp->count >= pcp->high)` of `free_hot_cold_page`. -/
def pcpEmpty (z : Zone) (pcp : PerCpuPages) : Option (Zone × PerCpuPages) :=
  if pcp.high ≤ pcp.count then
    (z.freePagesBulk pcp.batch pcp.list 0).map fun r =>
      (r.1, { pcp with count := pcp.count - r.2.2, list := r.2.1 })
  else some (z, pcp)

def freeHotColdPage (z : Zone) (cpu : ℕ) (cold : Bool) (page : ℕ) : Option Zone := do
  let p := z.memMap page
  let p := if p.anon then { p with mapping := 0 } else p
  let z := z.setPage page p.freePagesCheck
  let (z, pcp) ← z.pcpEmpty (z.pageset cpu cold)
  pure (z.setPcp cpu cold { pcp with list := page :: pcp.list, count := pcp.count + 1 })

/-- `if (pcp->count <= pcp->low)` of `buffered_rmqueue`. -/
def pcpRefill (z : Zone) (pcp : PerCpuPages) : Option (Zone × PerCpuPages) :=
  if pcp.count ≤ pcp.low then
    (rmqueueBulk 0 pcp.batch.toNat z pcp.list).map fun r =>
      (r.1, { pcp with count := pcp.count + r.2.2, list := r.2.1 })
  else some (z, pcp)

/-- The section of `buffered_rmqueue` with interrupts off. -/
def pcpRmqueue (z : Zone) (cpu : ℕ) (cold : Bool) : Option (Zone × Option ℕ) := do
  let (z, pcp) ← z.pcpRefill (z.pageset cpu cold)
  if pcp.count = 0 then pure (z.setPcp cpu cold pcp, none)
  else
    match pcp.list with
    | [] => none
    | page :: rest =>
        pure (z.setPcp cpu cold { pcp with list := rest, count := pcp.count - 1 }, some page)

/-- `if (order == 0)` of `buffered_rmqueue`. -/
def rmqueuePcp (z : Zone) (cpu order : ℕ) (cold : Bool) : Option (Zone × Option ℕ) :=
  if order = 0 then z.pcpRmqueue cpu cold else some (z, none)

/-- `if (page == NULL)` of `buffered_rmqueue`. -/
def rmqueueLocked (z : Zone) (order : ℕ) (page : Option ℕ) : Option (Zone × Option ℕ) :=
  if page = none then z.rmqueue order else some (z, page)

/-- `if (page != NULL)` of `buffered_rmqueue`. -/
def rmqueuePrep (z : Zone) : Option ℕ → Option (Zone × Option ℕ)
  | none => some (z, none)
  | some page =>
      if z.badRange page then none
      else some (z.setPage page (z.memMap page).prepNewPage, some page)

def bufferedRmqueue (z : Zone) (cpu order : ℕ) (cold : Bool) : Option (Zone × Option ℕ) := do
  let (z, page) ← z.rmqueuePcp cpu order cold
  let (z, page) ← z.rmqueueLocked order page
  z.rmqueuePrep page

/-- `__free_pages`, on the zone of the page; `put_page_testzero` is true when no
reference is left. -/
def freePagesTestzero (z : Zone) (cpu page order : ℕ) : Option Zone :=
  if (z.memMap page).flags .reserved then some z
  else
    let count := (z.memMap page).count - 1
    let z := z.setPage page { z.memMap page with count := count }
    if 0 < count then some z
    else if order = 0 then z.freeHotColdPage cpu false page
    else z.freePagesOk page order

/-! ## Watermarks -/

/-- The loop of `zone_watermark_ok`, with the number of orders that are left. -/
def watermarkLoop (z : Zone) : ℕ → ℕ → Int → Int → Bool
  | 0, _, _, _ => true
  | n + 1, o, freePages, min =>
      let freePages := freePages - (z.freeArea o).nrFree * 2 ^ o
      let min := min >>> (1 : ℕ)
      if freePages ≤ min then false else watermarkLoop z n (o + 1) freePages min

/-- `min` before the loop: a `long` of 32 bits. -/
def watermarkMin (mark : ℕ) (canTryHarder gfpHigh : Bool) : Int :=
  let min : Int := (mark : Int).bmod (2 ^ 32)
  let min := if gfpHigh then min - min.tdiv 2 else min
  if canTryHarder then min - min.tdiv 4 else min

/-- The first test is between numbers without sign, as `lowmem_reserve` has none. -/
def watermarkOk (z : Zone) (order mark classzoneIdx : ℕ) (canTryHarder gfpHigh : Bool) : Bool :=
  let freePages := z.freePages - 2 ^ order + 1
  let min := watermarkMin mark canTryHarder gfpHigh
  if freePages % 2 ^ 32 ≤ (min + z.lowmemReserve classzoneIdx) % 2 ^ 32 then false
  else z.watermarkLoop order 0 freePages min

/-! ## Software suspend -/

/-- The first loop of `mark_free_pages`. -/
def clearNosaveFree (z : Zone) : Zone :=
  (List.range z.spannedPages).foldl
    (fun z i => z.setPage i ((z.memMap i).clearFlags [.nosaveFree])) z

def markBlock (order : ℕ) (z : Zone) (start : ℕ) : Zone :=
  (List.range (2 ^ order)).foldl
    (fun z i => z.setPage (start + i) ((z.memMap (start + i)).setFlag .nosaveFree)) z

def markOrder (z : Zone) (order : ℕ) : Zone :=
  (z.freeArea order).freeList.foldl (markBlock order) z

def markFreePages (z : Zone) : Zone :=
  if z.spannedPages = 0 then z
  else (List.range maxOrder).reverse.foldl markOrder z.clearNosaveFree

end Zone

end LinuxHacks.PageAlloc
