import LinuxKernel.Lib.Dyadic

/-!
# The buddy allocator of a zone

The functions of `mm/page_alloc.c` that take blocks from the free lists of a zone and put blocks
back: `__rmqueue_smallest()`, `__rmqueue_fallback()` without the step that steals a page block,
and `__free_one_page()`.

All page frames are valid and there are no guard pages.  The page marks cover the pages of every
zone, since a buddy may lie in another one.
-/

namespace LinuxKernel.Mm

open Lib Function

/-- `MIGRATE_*`. -/
inductive Migratetype where
  | unmovable
  | movable
  | reclaimable
  | highatomic
  | cma
  | isolate
deriving DecidableEq

/-- `for_each_migratetype`. -/
def Migratetype.all : List Migratetype :=
  [.unmovable, .movable, .reclaimable, .highatomic, .cma, .isolate]

def maxOrder : Nat := 11

structure FreeArea where
  freeList : Migratetype → List Nat
  nrFree : Int

/-- `struct zone`, with `PageBuddy()`, `page_private()` and `page_zone_id()` of its pages. -/
structure Zone where
  id : Nat
  freeArea : Nat → FreeArea
  nrFreePages : Int
  nrFreeCmaPages : Int
  pageBuddy : Nat → Bool
  pagePrivate : Nat → Nat
  pageZoneId : Nat → Nat

namespace Zone

variable (zone : Zone)

/-- `list_del(&page->lru)`. -/
def listDel (page : Nat) : Zone :=
  { zone with
    freeArea := fun order =>
      { zone.freeArea order with
        freeList := fun mt => ((zone.freeArea order).freeList mt).filter (· ≠ page) } }

def setFreeList (order : Nat) (mt : Migratetype) (l : List Nat) : Zone :=
  { zone with
    freeArea := update zone.freeArea order
      { zone.freeArea order with
        freeList := update (zone.freeArea order).freeList mt l } }

def listAdd (page order : Nat) (mt : Migratetype) : Zone :=
  zone.setFreeList order mt (page :: (zone.freeArea order).freeList mt)

def listAddTail (page order : Nat) (mt : Migratetype) : Zone :=
  zone.setFreeList order mt ((zone.freeArea order).freeList mt ++ [page])

/-- `nr_free--` and `nr_free++`. -/
def addNrFree (order : Nat) (d : Int) : Zone :=
  { zone with
    freeArea := update zone.freeArea order
      { zone.freeArea order with nrFree := (zone.freeArea order).nrFree + d } }

def setPageOrder (page order : Nat) : Zone :=
  { zone with
    pagePrivate := update zone.pagePrivate page order
    pageBuddy := update zone.pageBuddy page true }

def rmvPageOrder (page : Nat) : Zone :=
  { zone with
    pageBuddy := update zone.pageBuddy page false
    pagePrivate := update zone.pagePrivate page 0 }

def delFree (page order : Nat) : Zone :=
  ((zone.listDel page).addNrFree order (-1)).rmvPageOrder page

def modFreepageState (nrPages : Int) (mt : Migratetype) : Zone :=
  { zone with
    nrFreePages := zone.nrFreePages + nrPages
    nrFreeCmaPages :=
      if mt = .cma then zone.nrFreeCmaPages + nrPages else zone.nrFreeCmaPages }

/-- The halves split off a block of order `high` go to the free lists. -/
def expand (zone : Zone) (page low : Nat) (mt : Migratetype) : Nat → Zone
  | 0 => zone
  | high + 1 =>
    if low < high + 1 then
      let half := page + 2 ^ high
      (((zone.listAdd half high mt).addNrFree high 1).setPageOrder half high).expand
        page low mt high
    else
      zone

/-- The loop of `__rmqueue_smallest()`, with `left` orders to go. -/
def smallestLoop (zone : Zone) (order : Nat) (mt : Migratetype) : Nat → Nat → Option Nat × Zone
  | _, 0 => (none, zone)
  | currentOrder, left + 1 =>
    match (zone.freeArea currentOrder).freeList mt with
    | [] => zone.smallestLoop order mt (currentOrder + 1) left
    | page :: _ =>
      (some page, (zone.delFree page currentOrder).expand page order mt currentOrder)

def rmqueueSmallest (order : Nat) (mt : Migratetype) : Option Nat × Zone :=
  zone.smallestLoop order mt order (maxOrder - order)

end Zone

/-- The rows of `fallbacks[][]` up to `MIGRATE_TYPES`.  That of `MIGRATE_HIGHATOMIC` is not
initialised: four zeros. -/
def fallbacks : Migratetype → List Migratetype
  | .unmovable => [.reclaimable, .movable]
  | .reclaimable => [.unmovable, .movable]
  | .movable => [.reclaimable, .unmovable]
  | .highatomic => [.unmovable, .unmovable, .unmovable, .unmovable]
  | .cma => []
  | .isolate => []

/-- `find_suitable_fallback()` with `only_stealable` false. -/
def findSuitableFallback (area : FreeArea) (mt : Migratetype) : Option Migratetype :=
  if area.nrFree = 0 then
    none
  else
    (fallbacks mt).find? (fun fallbackMt => !(area.freeList fallbackMt).isEmpty)

namespace Zone

/-- The loop of `__rmqueue_fallback()` from the order `n - 1` down. -/
def fallbackLoop (zone : Zone) (order : Nat) (mt : Migratetype) : Nat → Option Nat × Zone
  | 0 => (none, zone)
  | currentOrder + 1 =>
    if order ≤ currentOrder then
      match findSuitableFallback (zone.freeArea currentOrder) mt with
      | none => zone.fallbackLoop order mt currentOrder
      | some fallbackMt =>
        match (zone.freeArea currentOrder).freeList fallbackMt with
        | [] => (none, zone) -- not reached: the list found is not empty
        | page :: _ =>
          (some page, (zone.delFree page currentOrder).expand page order mt currentOrder)
    else
      (none, zone)

/-- `__rmqueue_fallback()`, without stealing. -/
def rmqueueFallback (zone : Zone) (order : Nat) (mt : Migratetype) : Option Nat × Zone :=
  zone.fallbackLoop order mt maxOrder

def pageIsBuddy (zone : Zone) (page buddy order : Nat) : Bool :=
  zone.pageBuddy buddy && zone.pagePrivate buddy == order &&
    zone.pageZoneId page == zone.pageZoneId buddy

end Zone

/-- The variables of `__free_one_page()`. -/
structure Freeing where
  zone : Zone
  page : Nat
  pageIdx : Nat
  buddyIdx : Nat
  order : Nat

namespace Freeing

/-- `page + (buddy_idx - page_idx)`. -/
def buddy (f : Freeing) : Nat :=
  f.page + buddyOf f.pageIdx f.order - f.pageIdx

/-- The merge with the buddy. -/
def merge (f : Freeing) : Freeing :=
  let buddyIdx := buddyOf f.pageIdx f.order
  let combinedIdx := buddyIdx &&& f.pageIdx
  { zone := f.zone.delFree f.buddy f.order
    page := f.page + combinedIdx - f.pageIdx
    pageIdx := combinedIdx
    buddyIdx := buddyIdx
    order := f.order + 1 }

/-- The loop, with `left` orders below `max_order - 1`. -/
def mergeLoop (f : Freeing) : Nat → Freeing
  | 0 => f
  | left + 1 =>
    if f.zone.pageIsBuddy f.page f.buddy f.order then
      f.merge.mergeLoop left
    else
      { f with buddyIdx := buddyOf f.pageIdx f.order }

/-- Whether the buddy of the next larger block is free. -/
def higherBuddyFree (f : Freeing) : Bool :=
  let combinedIdx := f.buddyIdx &&& f.pageIdx
  let higherPage := f.page + combinedIdx - f.pageIdx
  let higherBuddy := higherPage + buddyOf combinedIdx (f.order + 1) - combinedIdx
  f.order + 2 < maxOrder && f.zone.pageIsBuddy higherPage higherBuddy (f.order + 1)

/-- The block that the loop ends with goes to the free lists. -/
def finish (f : Freeing) (mt : Migratetype) : Zone :=
  let zone := f.zone.setPageOrder f.page f.order
  if { f with zone := zone }.higherBuddyFree then
    (zone.listAddTail f.page f.order mt).addNrFree f.order 1
  else
    (zone.listAdd f.page f.order mt).addNrFree f.order 1

end Freeing

/-- The orders up to which `__free_one_page()` merges. -/
def mergeLimit (pageblockOrder : Nat) (mt : Migratetype) : Nat :=
  if mt = .isolate then min maxOrder (pageblockOrder + 1) else maxOrder

/-- `__free_one_page()`; `stale` is in the uninitialised `buddy_idx`. -/
def Zone.freeOnePage (zone : Zone) (pageblockOrder stale pfn order : Nat)
    (mt : Migratetype) : Zone :=
  let limit := mergeLimit pageblockOrder mt
  let zone := if mt = .isolate then zone else zone.modFreepageState (2 ^ order) mt
  (Freeing.mergeLoop
    { zone := zone
      page := pfn
      pageIdx := pfn &&& (2 ^ limit - 1)
      buddyIdx := stale
      order := order } (limit - 1 - order)).finish mt

end LinuxKernel.Mm
