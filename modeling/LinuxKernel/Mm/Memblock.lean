/-!
# Memblock

The lists of memory ranges of the boot-time allocator, `mm/memblock.c`.  The first `cnt` entries of
the array of regions are a list.  An array without a region has one dummy entry of size
0.  `memblock_double_array()` either doubles the array or fails; its outcomes are an input of each
operation.  A `BUG_ON()` that fires is `none`.
-/

namespace LinuxKernel.Mm

/-- `phys_addr_t`. -/
abbrev PhysAddr := BitVec 64

@[ext]
structure MemblockRegion where
  base : PhysAddr
  size : PhysAddr
  flags : BitVec 64
  nid : BitVec 32
deriving DecidableEq

/-- An array entry that has not been used. -/
instance : Inhabited MemblockRegion := ⟨⟨0, 0, 0, 0⟩⟩

/-- `MAX_NUMNODES` in some configuration. -/
def maxNumnodes : BitVec 32 := 64

structure MemblockType where
  regions : List MemblockRegion
  max : Nat
  totalSize : PhysAddr
deriving DecidableEq

variable (t : MemblockType) (grown : List Bool)

def MemblockType.cnt : Nat :=
  t.regions.length

/-- The empty dummy entry in an array of `max` entries. -/
def memblockInit (max : Nat) : MemblockType where
  regions := [default]
  max := max
  totalSize := 0

inductive Ret
  | ok | enomem
deriving DecidableEq

def memblockCapSize (base size : PhysAddr) : PhysAddr :=
  if size ≤ -1 - base then size else -1 - base

/-- `while (type->cnt + need > type->max)` around `memblock_double_array()`; the list says which
calls succeed, and those behind its end fail. -/
def ensureRoom (need : Nat) : List Bool → MemblockType → Ret × MemblockType
  | [], t => if t.max < t.cnt + need then (.enomem, t) else (.ok, t)
  | grown :: rest, t =>
    if t.max < t.cnt + need then
      if grown then ensureRoom need rest { t with max := t.max * 2 }
      else (.enomem, t)
    else (.ok, t)

def memblockInsertRegion (idx : Nat) (base size : PhysAddr)
    (nid : BitVec 32) (flags : BitVec 64) : Option MemblockType :=
  if t.max ≤ t.cnt then none
  else
    some
      { t with
        regions := t.regions.insertIdx idx ⟨base, size, flags, nid⟩
        totalSize := t.totalSize + size }

def memblockRemoveRegion (r : Nat) : MemblockType :=
  let regions := t.regions.eraseIdx r
  { t with
    -- special case for empty arrays
    regions := if regions = [] then [⟨0, 0, 0, maxNumnodes⟩] else regions
    totalSize := t.totalSize - (t.regions.getD r default).size }

/-- The loop of `memblock_merge_regions()`. -/
def mergeLoop : Nat → Nat → List MemblockRegion → Option (List MemblockRegion)
  | 0, _, _ => none
  | fuel + 1, i, regions =>
    if i < regions.length - 1 then
      let this := regions.getD i default
      let next := regions.getD (i + 1) default
      if this.base + this.size ≠ next.base ∨ this.nid ≠ next.nid ∨ this.flags ≠ next.flags then
        if next.base < this.base + this.size then none
        else mergeLoop fuel (i + 1) regions
      else
        mergeLoop fuel i
          ((regions.set i { this with size := this.size + next.size }).eraseIdx (i + 1))
    else some regions

def memblockMergeRegions : Option MemblockType :=
  (mergeLoop t.cnt 0 t.regions).map (fun regions => { t with regions := regions })

section Add

variable (nid : BitVec 32) (flags : BitVec 64) (stop : PhysAddr)

/-- The `for` loop of `memblock_add_range()`: the last index, `nr_new`, `base`, and the array. -/
def addLoop (insert : Bool) :
    Nat → Nat → Nat → PhysAddr → MemblockType → Option (Nat × Nat × PhysAddr × MemblockType)
  | 0, _, _, _, _ => none
  | fuel + 1, i, nrNew, base, t =>
    if i < t.cnt then
      let rgn := t.regions.getD i default
      let rbase := rgn.base
      let rend := rbase + rgn.size
      -- area below `rend` is dealt with
      let base' := if rend ≤ stop then rend else stop
      if stop ≤ rbase then some (i, nrNew, base, t)
      else if rend ≤ base then addLoop insert fuel (i + 1) nrNew base t
      else if base < rbase then
        if insert then
          match memblockInsertRegion t i base (rbase - base) nid flags with
          | none => none
          | some t => addLoop insert fuel (i + 1 + 1) (nrNew + 1) base' t
        else addLoop insert fuel (i + 1) (nrNew + 1) base' t
      else addLoop insert fuel (i + 1) nrNew base' t
    else some (i, nrNew, base, t)

/-- One round from `repeat:` on, with the remaining portion. -/
def addRound (insert : Bool) (base : PhysAddr) (t : MemblockType) : Option (Nat × MemblockType) :=
  match addLoop nid flags stop insert (t.cnt + 1) 0 0 base t with
  | none => none
  | some (i, nrNew, base, t) =>
    if base < stop then
      if insert then
        (memblockInsertRegion t i base (stop - base) nid flags).map (fun t => (nrNew + 1, t))
      else some (nrNew + 1, t)
    else some (nrNew, t)

end Add

def memblockAddRange (t : MemblockType)
    (base size : PhysAddr) (nid : BitVec 32) (flags : BitVec 64) :
    Option (Ret × MemblockType) :=
  let size := memblockCapSize base size
  let stop := base + size
  if size = 0 then some (.ok, t)
  else if (t.regions.getD 0 default).size = 0 then
    -- special case for empty array
    some
      (.ok,
        { t with
          regions := t.regions.set 0 ⟨base, size, flags, nid⟩
          totalSize := size })
  else
    match addRound nid flags stop false base t with
    | none => none
    | some (nrNew, _) =>
      match ensureRoom nrNew grown t with
      | (.enomem, t) => some (.enomem, t)
      | (.ok, t) =>
        match addRound nid flags stop true base t with
        | none => none
        | some (_, t) =>
          (memblockMergeRegions t).map (fun t => (.ok, t))

/-- Make `rgn` at `i` start at `mid`, and insert what was below. -/
def splitRegion (i : Nat) (mid : PhysAddr) : Option MemblockType :=
  let rgn := t.regions.getD i default
  memblockInsertRegion
    { t with
      regions :=
        t.regions.set i { rgn with base := mid, size := rgn.size - (mid - rgn.base) }
      totalSize := t.totalSize - (mid - rgn.base) }
    i rgn.base (mid - rgn.base) rgn.nid rgn.flags

/-- The loop of `memblock_isolate_range()`: `*start_rgn`, `*end_rgn` and the array. -/
def isolateLoop (base stop : PhysAddr) :
    Nat → Nat → Nat → Nat → MemblockType → Option (Nat × Nat × MemblockType)
  | 0, _, _, _, _ => none
  | fuel + 1, i, startRgn, endRgn, t =>
    if i < t.cnt then
      let rgn := t.regions.getD i default
      let rbase := rgn.base
      let rend := rbase + rgn.size
      if stop ≤ rbase then some (startRgn, endRgn, t)
      else if rend ≤ base then
        isolateLoop base stop fuel (i + 1) startRgn endRgn t
      else if rbase < base then
        -- continue with the next region, the new top half
        match splitRegion t i base with
        | none => none
        | some t => isolateLoop base stop fuel (i + 1) startRgn endRgn t
      else if stop < rend then
        -- redo the current region, the new bottom half: `i--` and `i++`
        match splitRegion t i stop with
        | none => none
        | some t => isolateLoop base stop fuel i startRgn endRgn t
      else
        isolateLoop base stop fuel (i + 1) (if endRgn = 0 then i else startRgn) (i + 1) t
    else some (startRgn, endRgn, t)

def memblockIsolateRange (t : MemblockType)
    (base size : PhysAddr) : Option (Ret × Nat × Nat × MemblockType) :=
  let size := memblockCapSize base size
  let stop := base + size
  if size = 0 then some (.ok, 0, 0, t)
  else
    -- we'll create at most two more regions
    match ensureRoom 2 grown t with
    | (.enomem, t) => some (.enomem, 0, 0, t)
    | (.ok, t) =>
      (isolateLoop base stop (t.cnt + 3) 0 0 0 t).map (fun out => (.ok, out))

/-- `for (i = end_rgn - 1; i >= start_rgn; i--)` with `memblock_remove_region()`; the second
argument counts the regions left. -/
def removeLoop (startRgn : Nat) : Nat → MemblockType → MemblockType
  | 0, t => t
  | n + 1, t => removeLoop startRgn n (memblockRemoveRegion t (startRgn + n))

def memblockRemoveRange (t : MemblockType) (base size : PhysAddr) : Option (Ret × MemblockType) :=
  match memblockIsolateRange grown t base size with
  | none => none
  | some (.enomem, _, _, t) => some (.enomem, t)
  | some (.ok, startRgn, endRgn, t) =>
    some (.ok, removeLoop startRgn (endRgn - startRgn) t)

/-- `memblock_set_region_flags()` or `memblock_clear_region_flags()`. -/
def setclr (set : Bool) (flag : BitVec 64) (r : MemblockRegion) : MemblockRegion :=
  { r with flags := if set then r.flags ||| flag else r.flags &&& ~~~ flag }

/-- `for (i = start_rgn; i < end_rgn; i++)` over the flags; the second argument counts the regions
left. -/
def setclrLoop (set : Bool) (flag : BitVec 64) :
    Nat → Nat → List MemblockRegion → List MemblockRegion
  | _, 0, regions => regions
  | i, n + 1, regions =>
    setclrLoop set flag (i + 1) n (regions.modify i (setclr set flag))

def memblockSetclrFlag (t : MemblockType) (base size : PhysAddr) (set : Bool) (flag : BitVec 64) :
    Option (Ret × MemblockType) :=
  match memblockIsolateRange grown t base size with
  | none => none
  | some (.enomem, _, _, t) => some (.enomem, t)
  | some (.ok, startRgn, endRgn, t) =>
    (memblockMergeRegions
      { t with
        regions :=
          setclrLoop set flag startRgn (endRgn - startRgn) t.regions }).map
      (fun t => (.ok, t))

/-- The loop of `memblock_search()`. -/
def searchLoop (addr : PhysAddr) : Nat → Nat → Nat → Option Int
  | 0, _, _ => none
  | fuel + 1, left, right =>
    let mid := (right + left) / 2
    let region := t.regions.getD mid default
    let next left right := if left < right then searchLoop addr fuel left right else some (-1)
    if addr < region.base then next left mid
    else if region.base + region.size ≤ addr then next (mid + 1) right
    else some mid

def memblockSearch (addr : PhysAddr) : Option Int :=
  searchLoop t addr t.cnt 0 t.cnt

/-- A call of an operation, with the outcomes of `memblock_double_array()`. -/
inductive MemblockOp
  | add (grown : List Bool) (base size : PhysAddr) (nid : BitVec 32) (flags : BitVec 64)
  | remove (grown : List Bool) (base size : PhysAddr)
  | setclr (grown : List Bool) (base size : PhysAddr) (set : Bool) (flag : BitVec 64)

def MemblockOp.run : MemblockOp → Option (Ret × MemblockType)
  | .add grown base size nid flags =>
    memblockAddRange grown t base size nid flags
  | .remove grown base size => memblockRemoveRange grown t base size
  | .setclr grown base size set flag =>
    memblockSetclrFlag grown t base size set flag

/-- A `struct memblock_type` after some operations. -/
inductive Reachable : MemblockType → Prop
  | init {max : Nat} (h : 1 ≤ max) : Reachable (memblockInit max)
  | step {t t' : MemblockType} (op : MemblockOp) (ret : Ret)
      (h : Reachable t) (hrun : op.run t = some (ret, t')) : Reachable t'

end LinuxKernel.Mm
