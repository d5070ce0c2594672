import LinuxKernel.Lib.RedBlack

/-!
# Red-black trees in memory

`lib/rbtree.c` and `include/linux/rbtree_augmented.h`: the fields of the nodes, and the loops that
rebalance a tree after a node was linked or unlinked.

A node is named by its address divided by four, and zero is `NULL`.  The word `__rb_parent_color`
keeps the address of the parent with the colour in its low bit.  Code that the source has in two
mirror images takes the direction as an argument.  Loops return `none` when they reach the bound on
their passes.
-/

namespace LinuxKernel.Rbtree

open Lib

/-- The nodes of a tree and its root, with a value in each node that augmented trees maintain. -/
@[ext] structure RbMem (α : Type) where
  parentColor : Nat → Nat
  link : Dir → Nat → Nat
  rootNode : Nat
  augmented : Nat → α

/-- `RB_RED` and `RB_BLACK`. -/
def colorBit : Color → Nat
  | .red => 0
  | .black => 1

/-- `(unsigned long)p | color`. -/
def pack (p : Nat) (c : Color) : Nat :=
  4 * p + colorBit c

/-- `__rb_parent()`. -/
def wordParent (pc : Nat) : Nat :=
  pc / 4

/-- `__rb_color()`. -/
def wordColor (pc : Nat) : Color :=
  if pc % 2 = 1 then .black else .red

namespace RbMem

variable {α : Type} (mem : RbMem α)

def setParentColor (x w : Nat) : RbMem α :=
  { mem with parentColor := Function.update mem.parentColor x w }

/-- `WRITE_ONCE()` of `rb_left` or `rb_right`. -/
def setLink (d : Dir) (x v : Nat) : RbMem α :=
  { mem with link := Function.update mem.link d (Function.update (mem.link d) x v) }

def rbParent (x : Nat) : Nat :=
  wordParent (mem.parentColor x)

def rbColor (x : Nat) : Color :=
  wordColor (mem.parentColor x)

def rbSetBlack (x : Nat) : RbMem α :=
  mem.setParentColor x (mem.parentColor x ||| 1)

/-- The word of a red node is the address of its parent. -/
def rbRedParent (x : Nat) : Nat :=
  mem.parentColor x / 4

def rbSetParent (x p : Nat) : RbMem α :=
  mem.setParentColor x (pack p (mem.rbColor x))

def rbSetParentColor (x p : Nat) (c : Color) : RbMem α :=
  mem.setParentColor x (pack p c)

/-- `if (tmp) rb_set_parent_color(tmp, p, color)`. -/
def trySetParentColor (tmp p : Nat) (c : Color) : RbMem α :=
  if tmp ≠ 0 then mem.rbSetParentColor tmp p c else mem

def rbChangeChild (old new parent : Nat) : RbMem α :=
  if parent ≠ 0 then
    if mem.link .left parent = old then
      mem.setLink .left parent new
    else
      mem.setLink .right parent new
  else
    { mem with rootNode := new }

def rbRotateSetParents (old new : Nat) (c : Color) : RbMem α :=
  let parent := mem.rbParent old
  ((mem.setParentColor new (mem.parentColor old)).rbSetParentColor old new c).rbChangeChild
    old new parent

end RbMem

structure Callbacks (α : Type) where
  propagate : Nat → RbMem α → Nat → Nat → Option (RbMem α)
  copy : RbMem α → Nat → Nat → RbMem α
  rotate : RbMem α → Nat → Nat → RbMem α

def dummyCallbacks : Callbacks Unit where
  propagate _ mem _ _ := some mem
  copy mem _ _ := mem
  rotate mem _ _ := mem

section Declare

variable {α : Type} [DecidableEq α] (combine : Nat → Option α → Option α → α) (mem : RbMem α)

def childValue (x : Nat) : Option α :=
  if x ≠ 0 then some (mem.augmented x) else none

/-- `rbcompute()`: the value of a node from its own and its children's. -/
def rbCompute (x : Nat) : α :=
  combine x (childValue mem (mem.link .left x)) (childValue mem (mem.link .right x))

def RbMem.setAugmented (x : Nat) (v : α) : RbMem α :=
  { mem with augmented := Function.update mem.augmented x v }

def augmentPropagate : Nat → RbMem α → Nat → Nat → Option (RbMem α)
  | 0, _, _, _ => none
  | fuel + 1, mem, rb, stop =>
    if rb ≠ stop then
      let augmented := rbCompute combine mem rb
      if mem.augmented rb = augmented then
        some mem
      else
        augmentPropagate fuel (mem.setAugmented rb augmented) (mem.rbParent rb) stop
    else
      some mem

def augmentCopy (old new : Nat) : RbMem α :=
  mem.setAugmented new (mem.augmented old)

def augmentRotate (old new : Nat) : RbMem α :=
  let mem := mem.setAugmented new (mem.augmented old)
  mem.setAugmented old (rbCompute combine mem old)

def declareCallbacks : Callbacks α where
  propagate := augmentPropagate combine
  copy := augmentCopy
  rotate := augmentRotate combine

end Declare

section Insert

variable {α : Type} (cb : Callbacks α) (d : Dir) (mem : RbMem α)

/-- Case 2 of `__rb_insert()`: `node` goes above `parent`, on the side `d`. -/
def insertCase2 (node parent : Nat) : RbMem α :=
  let tmp := mem.link d node
  let mem := mem.setLink d.flip parent tmp
  let mem := mem.setLink d node parent
  let mem := mem.trySetParentColor tmp parent .black
  let mem := mem.rbSetParentColor parent node .red
  cb.rotate mem parent node

/-- Case 3 of `__rb_insert()`: `parent` goes above `gparent`. -/
def insertCase3 (parent gparent tmp : Nat) : RbMem α :=
  let mem := mem.setLink d gparent tmp
  let mem := mem.setLink d.flip parent gparent
  let mem := mem.trySetParentColor tmp gparent .black
  let mem := mem.rbRotateSetParents gparent parent .red
  cb.rotate mem gparent parent

/-- Case 2 when `node` is the inner child, and case 3. -/
def insertRotate (node parent gparent : Nat) : RbMem α :=
  let tmp := mem.link d.flip parent
  if node = tmp then
    let mem := insertCase2 cb d mem node parent
    insertCase3 cb d mem node gparent (mem.link d.flip node)
  else
    insertCase3 cb d mem parent gparent tmp

/-- Case 1 of `__rb_insert()`: parent, uncle and grandparent change colour. -/
def insertCase1 (parent gparent tmp : Nat) : RbMem α :=
  let mem := mem.rbSetParentColor tmp gparent .black
  let mem := mem.rbSetParentColor parent gparent .black
  mem.rbSetParentColor gparent (mem.rbParent gparent) .red

/-- `__rb_insert()`. -/
def rbInsertLoop : Nat → RbMem α → Nat → Nat → Option (RbMem α)
  | 0, _, _, _ => none
  | fuel + 1, mem, node, parent =>
    if parent = 0 then
      some (mem.rbSetParentColor node 0 .black)
    else if mem.rbColor parent = .black then
      some mem
    else
      let gparent := mem.rbRedParent parent
      let d : Dir := if parent ≠ mem.link .right gparent then .left else .right
      let tmp := mem.link d.flip gparent
      if tmp ≠ 0 ∧ mem.rbColor tmp = .red then
        rbInsertLoop fuel (insertCase1 mem parent gparent tmp) gparent
          ((insertCase1 mem parent gparent tmp).rbParent gparent)
      else
        some (insertRotate cb d mem node parent gparent)

/-- `__rb_insert()` from the node that was linked. -/
def rbInsert (fuel : Nat) (mem : RbMem α) (node : Nat) : Option (RbMem α) :=
  rbInsertLoop cb fuel mem node (mem.rbRedParent node)

/-- The place that `rb_link` points to. -/
inductive RbLink where
  | root
  | child (parent : Nat) (d : Dir)
  deriving DecidableEq

def RbMem.readLink : RbLink → Nat
  | .root => mem.rootNode
  | .child parent d => mem.link d parent

def RbMem.writeLink (node : Nat) : RbLink → RbMem α
  | .root => { mem with rootNode := node }
  | .child parent d => mem.setLink d parent node

def rbLinkNode (node parent : Nat) (rbLink : RbLink) : RbMem α :=
  let mem := mem.setParentColor node (4 * parent)
  let mem := mem.setLink .right node 0
  let mem := mem.setLink .left node 0
  mem.writeLink node rbLink

/-- Case 1 of `__rb_erase_color()`: the red sibling goes above `parent`.  The side `d` lacks a
black node. -/
def eraseCase1 (parent sibling : Nat) : RbMem α :=
  let tmp1 := mem.link d sibling
  let mem := mem.setLink d.flip parent tmp1
  let mem := mem.setLink d sibling parent
  let mem := mem.rbSetParentColor tmp1 parent .black
  let mem := mem.rbRotateSetParents parent sibling .red
  cb.rotate mem parent sibling

/-- Case 3: the sibling's red inner child goes above it. -/
def eraseCase3 (parent sibling tmp2 : Nat) : RbMem α :=
  let tmp1 := mem.link d.flip tmp2
  let mem := mem.setLink d sibling tmp1
  let mem := mem.setLink d.flip tmp2 sibling
  let mem := mem.setLink d.flip parent tmp2
  let mem := mem.trySetParentColor tmp1 sibling .black
  cb.rotate mem sibling tmp2

/-- Case 4: the sibling goes above `parent`. -/
def eraseCase4 (parent sibling tmp1 : Nat) : RbMem α :=
  let tmp2 := mem.link d sibling
  let mem := mem.setLink d.flip parent tmp2
  let mem := mem.setLink d sibling parent
  let mem := mem.rbSetParentColor tmp1 sibling .black
  let mem := if tmp2 ≠ 0 then mem.rbSetParent tmp2 parent else mem
  let mem := mem.rbRotateSetParents parent sibling .black
  cb.rotate mem parent sibling

/-- A pass of the loop of `__rb_erase_color()`: `node` and `parent` of the next pass, or none. -/
def eraseBody (parent sibling : Nat) : RbMem α × Option (Nat × Nat) :=
  let tmp1 := mem.link d.flip sibling
  if tmp1 = 0 ∨ mem.rbColor tmp1 = .black then
    let tmp2 := mem.link d sibling
    if tmp2 = 0 ∨ mem.rbColor tmp2 = .black then
      -- Case 2: the sibling becomes red.
      let mem := mem.rbSetParentColor sibling parent .red
      if mem.rbColor parent = .red then
        (mem.rbSetBlack parent, none)
      else if mem.rbParent parent ≠ 0 then
        (mem, some (parent, mem.rbParent parent))
      else
        (mem, none)
    else
      (eraseCase4 cb d (eraseCase3 cb d mem parent sibling tmp2) parent tmp2 sibling, none)
  else
    (eraseCase4 cb d mem parent sibling tmp1, none)

/-- One pass of the loop of `__rb_erase_color()`. -/
def eraseStep (node parent : Nat) : RbMem α × Option (Nat × Nat) :=
  let d : Dir := if node ≠ mem.link .right parent then .left else .right
  let sibling := mem.link d.flip parent
  if mem.rbColor sibling = .red then
    eraseBody cb d (eraseCase1 cb d mem parent sibling) parent (mem.link d sibling)
  else
    eraseBody cb d mem parent sibling

/-- `____rb_erase_color()`. -/
def rbEraseColorLoop : Nat → RbMem α → Nat → Nat → Option (RbMem α)
  | 0, _, _, _ => none
  | fuel + 1, mem, node, parent =>
    match eraseStep cb mem node parent with
    | (mem, none) => some mem
    | (mem, some (node, parent)) => rbEraseColorLoop fuel mem node parent

def rbEraseColor (fuel : Nat) (mem : RbMem α) (parent : Nat) : Option (RbMem α) :=
  rbEraseColorLoop cb fuel mem 0 parent

/-- The `do` loop to the leftmost node under the right child: `parent` and `successor`. -/
def successorLoop (mem : RbMem α) : Nat → Nat → Nat → Option (Nat × Nat)
  | 0, _, _ => none
  | fuel + 1, successor, tmp =>
    if mem.link .left tmp ≠ 0 then
      successorLoop mem fuel tmp (mem.link .left tmp)
    else
      some (successor, tmp)

/-- The end of `__rb_erase_augmented()` for two children: `successor` replaces `node`, and `child2`
replaces it below `parent`. -/
def eraseSplice (node successor parent child2 : Nat) : RbMem α × Nat :=
  let tmp := mem.link .left node
  let mem := mem.setLink .left successor tmp
  let mem := mem.rbSetParent tmp successor
  let pc := mem.parentColor node
  let mem := mem.rbChangeChild node successor (wordParent pc)
  if child2 ≠ 0 then
    ((mem.setParentColor successor pc).rbSetParentColor child2 parent .black, 0)
  else
    let pc2 := mem.parentColor successor
    (mem.setParentColor successor pc, if wordColor pc2 = .black then parent else 0)

/-- The node to erase has at most one child, `child`. -/
def eraseOneChild (node child : Nat) : RbMem α × Nat :=
  let pc := mem.parentColor node
  let parent := wordParent pc
  let mem := mem.rbChangeChild node child parent
  if child ≠ 0 then
    (mem.setParentColor child pc, 0)
  else
    (mem, if wordColor pc = .black then parent else 0)

/-- `__rb_erase_augmented()`: the node where rebalancing starts. -/
def rbEraseAugmented (fuel : Nat) (mem : RbMem α) (node : Nat) : Option (RbMem α × Nat) := do
  let child := mem.link .right node
  let tmp := mem.link .left node
  let parent := mem.rbParent node
  if tmp = 0 then
    let (mem, rebalance) := eraseOneChild mem node child
    let mem ← cb.propagate fuel mem parent 0
    return (mem, rebalance)
  else if child = 0 then
    let (mem, rebalance) := eraseOneChild mem node tmp
    let mem ← cb.propagate fuel mem parent 0
    return (mem, rebalance)
  else if mem.link .left child = 0 then
    let child2 := mem.link .right child
    let mem := cb.copy mem node child
    let (mem, rebalance) := eraseSplice mem node child child child2
    let mem ← cb.propagate fuel mem child 0
    return (mem, rebalance)
  else
    let (parent, successor) ← successorLoop mem fuel child (mem.link .left child)
    let child2 := mem.link .right successor
    let mem := mem.setLink .left parent child2
    let mem := mem.setLink .right successor child
    let mem := mem.rbSetParent child successor
    let mem := cb.copy mem node successor
    let mem ← cb.propagate fuel mem parent successor
    let (mem, rebalance) := eraseSplice mem node successor parent child2
    let mem ← cb.propagate fuel mem successor 0
    return (mem, rebalance)

/-- `rb_erase()` and `rb_erase_augmented()`. -/
def rbEraseWith (fuel : Nat) (mem : RbMem α) (node : Nat) : Option (RbMem α) := do
  let (mem, rebalance) ← rbEraseAugmented cb fuel mem node
  if rebalance ≠ 0 then
    rbEraseColor cb fuel mem rebalance
  else
    return mem

end Insert

def rbInsertColor (fuel : Nat) (mem : RbMem Unit) (node : Nat) : Option (RbMem Unit) :=
  rbInsert dummyCallbacks fuel mem node

def rbErase (fuel : Nat) (mem : RbMem Unit) (node : Nat) : Option (RbMem Unit) :=
  rbEraseWith dummyCallbacks fuel mem node

end LinuxKernel.Rbtree
