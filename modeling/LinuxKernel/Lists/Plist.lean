import LinuxKernel.Lib.Returns
import LinuxKernel.Lists.ListHead

/-!
# Priority lists

`lib/plist.c`.  A node has two list heads: `node_list` links all nodes of a plist, in order, to the
head of the plist, and `prio_list` links one node of each priority.  The head has a `node_list`
only.  The two kinds of list heads are two memories, addressed by the node that they are part of.
-/

namespace LinuxKernel.Lists

open Lib

structure PlistMem where
  prio : Nat → Int
  prioList : ListMem
  nodeList : ListMem

namespace PlistMem

variable (mem : PlistMem)

def plistHeadInit (head : Nat) : PlistMem :=
  { mem with nodeList := mem.nodeList.initListHead head }

def plistNodeInit (node : Nat) (prio : Int) : PlistMem where
  prio := Function.update mem.prio node prio
  prioList := mem.prioList.initListHead node
  nodeList := mem.nodeList.initListHead node

def plistHeadEmpty (head : Nat) : Bool :=
  mem.nodeList.listEmpty head

def plistNodeEmpty (node : Nat) : Bool :=
  mem.nodeList.listEmpty node

def plistFirst (head : Nat) : Nat :=
  mem.nodeList.next head

def plistLast (head : Nat) : Nat :=
  mem.nodeList.prev head

def plistNext (pos : Nat) : Nat :=
  mem.nodeList.next pos

/-- Where the loop of `plist_add()` stops. -/
structure Place where
  prev : Option Nat
  iter : Nat
  nodeNext : Nat
deriving DecidableEq

/-- The loop of `plist_add()`. -/
def plistAddLoop (node head first : Nat) : Nat → Option Nat → Nat → Option Place
  | 0, _, _ => none
  | fuel + 1, prev, iter =>
    if mem.prio node < mem.prio iter then
      some { prev, iter, nodeNext := iter }
    else
      let prev := some iter
      let iter := mem.prioList.next iter
      if iter ≠ first then
        plistAddLoop node head first fuel prev iter
      else
        some { prev, iter, nodeNext := head }

def plistAdd (node head fuel : Nat) : Option PlistMem := do
  if mem.plistHeadEmpty head then
    return { mem with nodeList := mem.nodeList.listAddTail node head }
  let first := mem.plistFirst head
  let place ← mem.plistAddLoop node head first fuel none first
  let mem : PlistMem :=
    if ∀ prev ∈ place.prev, mem.prio prev ≠ mem.prio node then
      { mem with prioList := mem.prioList.listAddTail node place.iter }
    else
      mem
  return { mem with nodeList := mem.nodeList.listAddTail node place.nodeNext }

def plistDel (node head : Nat) : PlistMem :=
  let mem : PlistMem :=
    if !mem.prioList.listEmpty node then
      let next := mem.nodeList.next node
      let prioList :=
        if next ≠ head ∧ mem.prioList.listEmpty next then
          mem.prioList.listAdd next node
        else
          mem.prioList
      { mem with prioList := prioList.listDelInit node }
    else
      mem
  { mem with nodeList := mem.nodeList.listDelInit node }

/-- The loop of `plist_requeue()` from `iter`: what `node` is put before. -/
def plistRequeueLoop (node head : Nat) : Nat → Nat → Option Nat
  | 0, _ => none
  | fuel + 1, iter =>
    if iter = head then
      some head
    else if mem.prio node ≠ mem.prio iter then
      some iter
    else
      plistRequeueLoop node head fuel (mem.nodeList.next iter)

/-- `plist_requeue()`; a hit `BUG_ON()` gives no result. -/
def plistRequeue (node head fuel : Nat) : Option PlistMem := do
  if mem.plistHeadEmpty head ∨ mem.plistNodeEmpty node then
    none
  else if node = mem.plistLast head then
    return mem
  else
    let iter := mem.plistNext node
    if mem.prio node ≠ mem.prio iter then
      return mem
    else
      let mem := mem.plistDel node head
      let nodeNext ← mem.plistRequeueLoop node head fuel (mem.nodeList.next iter)
      return { mem with nodeList := mem.nodeList.listAddTail node nodeNext }

end PlistMem

/-- What a caller does with the nodes of a plist. -/
inductive PlistOp where
  | nodeInit (node : Nat) (prio : Int)
  | add (node : Nat)
  | del (node : Nat)
  | requeue (node : Nat)

def PlistOp.run (mem : PlistMem) (head : Nat) : PlistOp → Nat → Option PlistMem
  | nodeInit node prio, _ => some (mem.plistNodeInit node prio)
  | add node, fuel => mem.plistAdd node head fuel
  | del node, _ => some (mem.plistDel node head)
  | requeue node, fuel => mem.plistRequeue node head fuel

/-- What the callers know: the initialised nodes, and those in the plist in the order of their
insertion. -/
structure PlistUse where
  known : List Nat
  arrivals : List Nat

namespace PlistUse

/-- The operation is called on a node that it is meant for. -/
def Allowed (head : Nat) (use : PlistUse) : PlistOp → Prop
  | .nodeInit node _ => node ≠ head ∧ node ∉ use.arrivals
  | .add node => node ∈ use.known ∧ node ∉ use.arrivals
  | .del node => node ∈ use.arrivals
  | .requeue node => node ∈ use.arrivals

def step (use : PlistUse) : PlistOp → PlistUse
  | .nodeInit node _ => { use with known := node :: use.known }
  | .add node => { use with arrivals := use.arrivals ++ [node] }
  | .del node => { use with arrivals := use.arrivals.erase node }
  | .requeue node => { use with arrivals := use.arrivals.erase node ++ [node] }

end PlistUse

/-- The states after any sequence of operations. -/
inductive PlistReach (head : Nat) : PlistMem → PlistUse → Prop
  | init (mem : PlistMem) : PlistReach head (mem.plistHeadInit head) ⟨[], []⟩
  | step {mem mem' : PlistMem} {use : PlistUse} {op : PlistOp} :
      PlistReach head mem use → use.Allowed head op → Returns (op.run mem head) mem' →
      PlistReach head mem' (use.step op)

end LinuxKernel.Lists
