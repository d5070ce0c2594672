import Mathlib.Data.List.Sort

/-!
# Linked lists

The circular doubly linked lists of `list.h`, with every write in the order of the
source, and the lookup of the example program that goes through such a list.

A node is named by a number; the memory holds its two pointers.
-/

namespace LinuxKernel.Lists

/-- `struct list_head` of all nodes. -/
@[ext]
structure ListMem where
  next : Nat → Nat
  prev : Nat → Nat

namespace ListMem

variable (mem : ListMem) (list head : Nat)

/-- `x->next = y`. -/
def setNext (x y : Nat) : ListMem :=
  { mem with next := Function.update mem.next x y }

/-- `x->prev = y`. -/
def setPrev (x y : Nat) : ListMem :=
  { mem with prev := Function.update mem.prev x y }

def listPoison1 : Nat := 0xdead000000000100

def listPoison2 : Nat := 0xdead000000000200

def initListHead (list : Nat) : ListMem :=
  (mem.setNext list list).setPrev list list

/-- `__list_add()`. -/
def listAddBetween (new prev next : Nat) : ListMem :=
  let mem := mem.setPrev next new
  let mem := mem.setNext new next
  let mem := mem.setPrev new prev
  mem.setNext prev new

def listAdd (new head : Nat) : ListMem :=
  mem.listAddBetween new head (mem.next head)

def listAddTail (new head : Nat) : ListMem :=
  mem.listAddBetween new (mem.prev head) head

/-- `__list_del()`. -/
def listDelBetween (prev next : Nat) : ListMem :=
  (mem.setPrev next prev).setNext prev next

def listDelEntry (entry : Nat) : ListMem :=
  mem.listDelBetween (mem.prev entry) (mem.next entry)

def listDel (entry : Nat) : ListMem :=
  let mem := mem.listDelBetween (mem.prev entry) (mem.next entry)
  let mem := mem.setNext entry listPoison1
  mem.setPrev entry listPoison2

def listReplace (old new : Nat) : ListMem :=
  let mem := mem.setNext new (mem.next old)
  let mem := mem.setPrev (mem.next new) new
  let mem := mem.setPrev new (mem.prev old)
  mem.setNext (mem.prev new) new

def listReplaceInit (old new : Nat) : ListMem :=
  (mem.listReplace old new).initListHead old

def listDelInit (entry : Nat) : ListMem :=
  (mem.listDelEntry entry).initListHead entry

def listMove : ListMem :=
  (mem.listDelEntry list).listAdd list head

def listMoveTail : ListMem :=
  (mem.listDelEntry list).listAddTail list head

def listEmpty (head : Nat) : Bool :=
  mem.next head == head

def listRotateLeft (head : Nat) : ListMem :=
  if !mem.listEmpty head then
    mem.listMoveTail (mem.next head) head
  else
    mem

def listIsSingular (head : Nat) : Bool :=
  !mem.listEmpty head && mem.next head == mem.prev head

/-- `__list_cut_position()`. -/
def listCutAt (list head entry : Nat) : ListMem :=
  let newFirst := mem.next entry
  let mem := mem.setNext list (mem.next head)
  let mem := mem.setPrev (mem.next list) list
  let mem := mem.setPrev list entry
  let mem := mem.setNext entry list
  let mem := mem.setNext head newFirst
  mem.setPrev newFirst head

def listCutPosition (list head entry : Nat) : ListMem :=
  if mem.listEmpty head then
    mem
  else if mem.listIsSingular head ∧ mem.next head ≠ entry ∧ head ≠ entry then
    mem
  else if entry = head then
    mem.initListHead list
  else
    mem.listCutAt list head entry

/-- `__list_splice()`. -/
def listSpliceBetween (list prev next : Nat) : ListMem :=
  let first := mem.next list
  let last := mem.prev list
  let mem := mem.setPrev first prev
  let mem := mem.setNext prev first
  let mem := mem.setNext last next
  mem.setPrev next last

def listSplice : ListMem :=
  if !mem.listEmpty list then
    mem.listSpliceBetween list head (mem.next head)
  else
    mem

def listSpliceTail : ListMem :=
  if !mem.listEmpty list then
    mem.listSpliceBetween list (mem.prev head) head
  else
    mem

def listSpliceInit : ListMem :=
  if !mem.listEmpty list then
    (mem.listSpliceBetween list head (mem.next head)).initListHead list
  else
    mem

def listSpliceTailInit : ListMem :=
  if !mem.listEmpty list then
    (mem.listSpliceBetween list (mem.prev head) head).initListHead list
  else
    mem

/-- The nodes that `list_for_each()` visits from `pos` on. -/
def listForEachFrom (head : Nat) : Nat → Nat → Option (List Nat)
  | 0, _ => none
  | fuel + 1, pos =>
    if pos = head then
      some []
    else do
      let rest ← listForEachFrom head fuel (mem.next pos)
      return pos :: rest

def listForEach (head fuel : Nat) : Option (List Nat) :=
  mem.listForEachFrom head fuel (mem.next head)

/-- The loop of `ht_get_dst_macaddr()`. -/
def htGetDstMacaddrFrom (ip : Nat → UInt32) (hwAddr : Nat → Nat) (arpTable : Nat)
    (dip : UInt32) : Nat → Nat → Option (Option Nat)
  | 0, _ => none
  | fuel + 1, cursor =>
    if cursor = arpTable then
      some none
    else if dip = ip cursor then
      some (some (hwAddr cursor))
    else
      htGetDstMacaddrFrom ip hwAddr arpTable dip fuel (mem.next cursor)

/-- `ht_get_dst_macaddr()`: the address for an `ip`, or `NULL`. -/
def htGetDstMacaddr (ip : Nat → UInt32) (hwAddr : Nat → Nat) (arpTable : Nat)
    (dip : UInt32) (fuel : Nat) : Option (Option Nat) :=
  mem.htGetDstMacaddrFrom ip hwAddr arpTable dip fuel (mem.next arpTable)

end ListMem

inductive ListOp where
  | add (new head : Nat)
  | addTail (new head : Nat)
  | del (entry : Nat)
  | delInit (entry : Nat)
  | replace (old new : Nat)
  | replaceInit (old new : Nat)
  | move (list head : Nat)
  | moveTail (list head : Nat)
  | rotateLeft (head : Nat)
  | cutPosition (list head entry : Nat)
  | splice (list head : Nat)
  | spliceTail (list head : Nat)
  | spliceInit (list head : Nat)
  | spliceTailInit (list head : Nat)

def ListOp.run (mem : ListMem) : ListOp → ListMem
  | add new head => mem.listAdd new head
  | addTail new head => mem.listAddTail new head
  | del entry => mem.listDel entry
  | delInit entry => mem.listDelInit entry
  | replace old new => mem.listReplace old new
  | replaceInit old new => mem.listReplaceInit old new
  | move list head => mem.listMove list head
  | moveTail list head => mem.listMoveTail list head
  | rotateLeft head => mem.listRotateLeft head
  | cutPosition list head entry => mem.listCutPosition list head entry
  | splice list head => mem.listSplice list head
  | spliceTail list head => mem.listSpliceTail list head
  | spliceInit list head => mem.listSpliceInit list head
  | spliceTailInit list head => mem.listSpliceTailInit list head

end LinuxKernel.Lists
