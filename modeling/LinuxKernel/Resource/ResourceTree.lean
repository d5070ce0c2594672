import LinuxKernel.Lib.Returns
import Mathlib.Algebra.Ring.Nat
import Mathlib.Data.List.Sort

/-!
# The resource tree

The functions of `kernel/resource.c` that link, unlink and change resources.  Memory holds the
fields of each `struct resource` by its address; a pointer is an address or `NULL`, and the
variable `p` of type `struct resource **` is a `Slot`.  Loops have a bound on their passes.
-/

namespace LinuxKernel.Resources

open Function

/-- The fields of all resources; `stop` is the field `end`. -/
structure Mem where
  start : Nat → Nat
  stop : Nat → Nat
  parent : Nat → Option Nat
  sibling : Nat → Option Nat
  child : Nat → Option Nat

/-- The field that a `struct resource **` points to. -/
inductive Slot
  | child (a : Nat)
  | sibling (a : Nat)
deriving DecidableEq

namespace Mem

variable (mem : Mem)

def setParent (a : Nat) (p : Option Nat) : Mem :=
  { mem with parent := update mem.parent a p }

def setSibling (a : Nat) (p : Option Nat) : Mem :=
  { mem with sibling := update mem.sibling a p }

def setChild (a : Nat) (p : Option Nat) : Mem :=
  { mem with child := update mem.child a p }

def setRange (a start stop : Nat) : Mem :=
  { mem with
    start := update mem.start a start
    stop := update mem.stop a stop }

/-- `*p`. -/
def read : Slot → Option Nat
  | .child a => mem.child a
  | .sibling a => mem.sibling a

/-- `*p = q`. -/
def write (p : Slot) (q : Option Nat) : Mem :=
  match p with
  | .child a => mem.setChild a q
  | .sibling a => mem.setSibling a q

end Mem

variable (mem : Mem)

/-- `new` goes between the slot `p` and what it points to. -/
def linkAt (root new : Nat) (p : Slot) (tmp : Option Nat) : Mem :=
  ((mem.setSibling new tmp).write p (some new)).setParent new (some root)

/-- The loop of `__request_resource`: the memory and the conflict. -/
def requestLoop (mem : Mem) (root new : Nat) : Nat → Slot → Option (Mem × Option Nat)
  | 0, _ => none
  | fuel + 1, p =>
    match mem.read p with
    | none => some (linkAt mem root new p none, none)
    | some tmp =>
      if mem.start tmp > mem.stop new then
        some (linkAt mem root new p (some tmp), none)
      else if mem.stop tmp < mem.start new then
        requestLoop mem root new fuel (.sibling tmp)
      else
        some (mem, some tmp)

def requestResource (root new fuel : Nat) : Option (Mem × Option Nat) :=
  if mem.stop new < mem.start new then
    some (mem, some root)
  else if mem.start new < mem.start root then
    some (mem, some root)
  else if mem.stop new > mem.stop root then
    some (mem, some root)
  else
    requestLoop mem root new fuel (.child root)

/-- The loop of `__release_resource`: whether `old` was found. -/
def releaseLoop (mem : Mem) (old : Nat) : Nat → Slot → Option (Mem × Bool)
  | 0, _ => none
  | fuel + 1, p =>
    match mem.read p with
    | none => some (mem, false)
    | some tmp =>
      if tmp = old then
        some ((mem.write p (mem.sibling tmp)).setParent old none, true)
      else
        releaseLoop mem old fuel (.sibling tmp)

/-- `__release_resource` of a resource with a parent. -/
def releaseResource (old fuel : Nat) : Option (Mem × Bool) :=
  match mem.parent old with
  | none => none
  | some parent => releaseLoop mem old fuel (.child parent)

/-- Where the first loop of `__insert_resource` ends. -/
inductive Descent
  | done (conflict : Option Nat)
  | overlap (parent first : Nat)
deriving DecidableEq

/-- What the first loop does after `__request_resource`. -/
def descendFrom (new parent : Nat) (down : Nat → Option (Mem × Descent)) :
    Mem × Option Nat → Option (Mem × Descent)
  | (mem', none) => some (mem', .done none)
  | (mem', some first) =>
    if first = parent then
      some (mem', .done (some first))
    else if first = new then
      some (mem', .done (some first))
    else if mem.start first > mem.start new ∨ mem.stop first < mem.stop new then
      some (mem', .overlap parent first)
    else if mem.start first = mem.start new ∧ mem.stop first = mem.stop new then
      some (mem', .overlap parent first)
    else
      down first

/-- The first loop of `__insert_resource`: down to the resource for the new one. -/
def descend (mem : Mem) (new : Nat) : Nat → Nat → Option (Mem × Descent)
  | 0, _ => none
  | fuel + 1, parent =>
    (requestResource mem parent new fuel).bind (descendFrom mem new parent (descend mem new fuel))

/-- The second loop: the last resource covered by the new one, or one overlapped. -/
def coverLoop (mem : Mem) (new : Nat) : Nat → Nat → Option (Except Nat Nat)
  | 0, _ => none
  | fuel + 1, next =>
    if mem.start next < mem.start new ∨ mem.stop next > mem.stop new then
      some (.error next)
    else
      match mem.sibling next with
      | none => some (.ok next)
      | some sibling =>
        if mem.start sibling > mem.stop new then some (.ok next)
        else coverLoop mem new fuel sibling

/-- The third loop: the resources of a chain get the parent `new`. -/
def adoptLoop (new : Nat) : Nat → Mem → Option Nat → Option Mem
  | 0, _, _ => none
  | _ + 1, mem, none => some mem
  | fuel + 1, mem, some next =>
    adoptLoop new fuel (mem.setParent next (some new)) (mem.sibling next)

/-- The resource in front of `target` in a chain. -/
def findPrev (mem : Mem) (target : Nat) : Nat → Option Nat → Option Nat
  | 0, _ => none
  | _ + 1, none => none
  | fuel + 1, some tmp =>
    if mem.sibling tmp = some target then some tmp
    else findPrev mem target fuel (mem.sibling tmp)

/-- The end of `__insert_resource`: `new` replaces the chain from `first`. -/
def replaceFirst (parent new first fuel : Nat) : Option Mem :=
  if mem.child parent = some first then
    some (mem.setChild parent (some new))
  else
    (findPrev mem first fuel (mem.child parent)).map fun prev => mem.setSibling prev (some new)

/-- The resources from `first` to `last` become the children of `new`. -/
def takeOver (parent new first last fuel : Nat) : Option Mem :=
  let linked := ((mem.setParent new (some parent)).setSibling new (mem.sibling last)).setChild new
    (some first)
  let cut := linked.setSibling last none
  (adoptLoop new fuel cut (some first)).bind fun adopted =>
    replaceFirst adopted parent new first fuel

/-- `__insert_resource`: the memory and the conflict. -/
def insertResource (parent new fuel : Nat) : Option (Mem × Option Nat) :=
  (descend mem new fuel parent).bind fun
    | (mem', .done conflict) => some (mem', conflict)
    | (mem', .overlap parent first) =>
      (coverLoop mem' new fuel first).bind fun
        | .error conflict => some (mem', some conflict)
        | .ok last =>
          (takeOver mem' parent new first last fuel).map fun mem'' => (mem'', none)

/-- The loop of `insert_resource_expand_to_fit`. -/
def expandLoop (root new : Nat) : Nat → Mem → Option Mem
  | 0, _ => none
  | fuel + 1, mem =>
    (insertResource mem root new fuel).bind fun
      | (mem', none) => some mem'
      | (mem', some conflict) =>
        if conflict = root then
          some mem'
        else
          expandLoop root new fuel (mem'.setRange new
            (if mem'.start conflict < mem'.start new then mem'.start conflict
              else mem'.start new)
            (if mem'.stop conflict > mem'.stop new then mem'.stop conflict
              else mem'.stop new))

def insertResourceExpandToFit (root new fuel : Nat) : Option Mem :=
  if mem.parent new ≠ none then some mem else expandLoop root new fuel mem

/-- The end of a range with the given size, in 64 bits. -/
def rangeEnd (start size : Nat) : Nat :=
  (start + size + (2 ^ 64 - 1)) % 2 ^ 64

/-- The loop over the children: each lies in the new range. -/
def childrenFit (mem : Mem) (start stop : Nat) : Nat → Option Nat → Option Bool
  | 0, _ => none
  | _ + 1, none => some true
  | fuel + 1, some tmp =>
    if mem.start tmp < start ∨ mem.stop tmp > stop then some false
    else childrenFit mem start stop fuel (mem.sibling tmp)

/-- The new range stays between the neighbours and in the parent. -/
def neighboursFit (res parent start stop fuel : Nat) : Option Bool :=
  if start < mem.start parent ∨ stop > mem.stop parent then
    some false
  else if ∃ sibling ∈ mem.sibling res, mem.start sibling ≤ stop then
    some false
  else if mem.child parent = some res then
    some true
  else
    (findPrev mem res fuel (mem.child parent)).map fun prev => decide (mem.stop prev < start)

/-- The check of `__adjust_resource` against parent and neighbours, if any. -/
def outsideFits (res start stop fuel : Nat) : Option Bool :=
  match mem.parent res with
  | none => some true
  | some parent => neighboursFit mem res parent start stop fuel

/-- `__adjust_resource`: the memory, and whether it was changed. -/
def adjustResource (res start size fuel : Nat) : Option (Mem × Bool) :=
  (outsideFits mem res start (rangeEnd start size) fuel).bind fun (outside : Bool) =>
    if outside then
      (childrenFit mem start (rangeEnd start size) fuel (mem.child res)).map fun (inside : Bool) =>
        if inside then (mem.setRange res start (rangeEnd start size), true) else (mem, false)
    else
      some (mem, false)

end LinuxKernel.Resources
