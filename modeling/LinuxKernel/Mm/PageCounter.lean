import Mathlib.Data.BitVec

/-!
# Page counters

Hierarchical page counters with limits (`mm/page_counter.c`).  Each call in progress is a
thread of control that makes one access to shared memory at a time; the accesses of the
threads come in any order.
-/

namespace LinuxKernel.PageCounter

variable {Node : Type}

/-- The counters with their parents. -/
structure Tree (Node : Type) where
  parent : Node → Option Node
  depth : Node → Nat
  depth_parent : ∀ c p, parent c = some p → depth c = depth p + 1

def Tree.pathFrom (tree : Tree Node) : Nat → Node → List Node
  | 0, c => [c]
  | n + 1, c => c :: ((tree.parent c).map (tree.pathFrom n)).getD []

def Tree.path (tree : Tree Node) (c : Node) : List Node :=
  tree.pathFrom (tree.depth c) c

/-- The counters before a loop `for (; c; c = c->parent)`. -/
def Tree.pathOf (tree : Tree Node) (c : Option Node) : List Node :=
  (c.map tree.path).getD []

variable [DecidableEq Node]

/-- The shared fields of the counters. -/
structure Counters (Node : Type) where
  count : Node → BitVec 64
  limit : Node → BitVec 64

def Counters.setCount (m : Counters Node) (c : Node) (count : BitVec 64) : Counters Node :=
  { m with count := Function.update m.count c count }

def Counters.setLimit (m : Counters Node) (c : Node) (limit : BitVec 64) : Counters Node :=
  { m with limit := Function.update m.limit c limit }

def pageCounterMax : BitVec 64 := (2 ^ 63 - 1) / 4096

/-- `page_counter_init` of all counters. -/
def pageCounterInit : Counters Node where
  count _ := 0
  limit _ := pageCounterMax

/-- A call in progress, by its next access. -/
inductive Thread (Node : Type)
  /-- The head of the loop of `page_counter_try_charge`. -/
  | adding (counter : Node) (nrPages : BitVec 64) (c : Option Node)
  /-- The comparison of `new` with the limit of `c`. -/
  | checking (counter : Node) (nrPages : BitVec 64) (c : Node) (new : BitVec 64)
  /-- The subtraction at the counter that has hit its limit. -/
  | undoing (counter : Node) (nrPages : BitVec 64) (c : Node)
  /-- The loop behind the label `failed`. -/
  | canceling (nrPages : BitVec 64) (fail : Node) (c : Option Node)
  /-- The loop of `page_counter_uncharge`. -/
  | uncharging (nrPages : BitVec 64) (c : Option Node)
  /-- The first read of `page_counter_limit`. -/
  | reading (counter : Node) (limit : BitVec 64)
  /-- Its `xchg`. -/
  | swapping (counter : Node) (limit count : BitVec 64)
  /-- Its second read. -/
  | rereading (counter : Node) (limit count old : BitVec 64)
  /-- Its write of the old limit. -/
  | restoring (counter : Node) (limit old : BitVec 64)

/-- What a thread is after its access. -/
inductive Outcome (Node : Type)
  | continues (thread : Thread Node)
  /-- `page_counter_try_charge` returns true. -/
  | charged (counter : Node) (nrPages : BitVec 64)
  /-- Any other return. -/
  | returned
  /-- A null pointer is followed. -/
  | fault

/-- The next access of a thread. -/
def Thread.access (tree : Tree Node) (m : Counters Node) :
    Thread Node → Counters Node × Outcome Node
  | .adding counter nrPages none => (m, .charged counter nrPages)
  | .adding counter nrPages (some c) =>
    (m.setCount c (m.count c + nrPages),
      .continues (.checking counter nrPages c (m.count c + nrPages)))
  | .checking counter nrPages c new =>
    (m, .continues (if m.limit c < new then .undoing counter nrPages c
      else .adding counter nrPages (tree.parent c)))
  | .undoing counter nrPages c =>
    (m.setCount c (m.count c - nrPages), .continues (.canceling nrPages c (some counter)))
  | .canceling _ _ none => (m, .fault)
  | .canceling nrPages fail (some c) =>
    if c = fail then (m, .returned)
    else (m.setCount c (m.count c - nrPages), .continues (.canceling nrPages fail (tree.parent c)))
  | .uncharging _ none => (m, .returned)
  | .uncharging nrPages (some c) =>
    (m.setCount c (m.count c - nrPages), .continues (.uncharging nrPages (tree.parent c)))
  | .reading counter limit =>
    (m, if limit < m.count counter then .returned
      else .continues (.swapping counter limit (m.count counter)))
  | .swapping counter limit count =>
    (m.setLimit counter limit, .continues (.rereading counter limit count (m.limit counter)))
  | .rereading counter limit count old =>
    (m, if (m.count counter).sle count then .returned
      else .continues (.restoring counter limit old))
  | .restoring counter limit old =>
    (m.setLimit counter old, .continues (.reading counter limit))

/-- The counter whose limit a thread sets. -/
def Thread.sets : Thread Node → Option Node
  | .reading counter _ | .swapping counter _ _ | .rereading counter _ _ _
  | .restoring counter _ _ => some counter
  | _ => none

/-- The memory, the calls in progress and the outstanding charges. -/
structure World (Node : Type) where
  counters : Counters Node
  threads : List (Thread Node)
  held : List (Node × BitVec 64)

/-- What can happen next: a call, or an access of a call in progress. -/
inductive Op (Node : Type)
  | tryCharge (counter : Node) (nrPages : BitVec 64)
  | uncharge (i : Nat)
  | limit (counter : Node) (limit : BitVec 64)
  | access (i : Nat)

/-- The world after thread `i` has made its access. -/
def World.after (w : World Node) (i : Nat) (r : Counters Node × Outcome Node) :
    Option (World Node) :=
  match r.2 with
  | .continues thread => some { w with counters := r.1, threads := w.threads.set i thread }
  | .charged counter nrPages =>
    some ⟨r.1, w.threads.eraseIdx i, (counter, nrPages) :: w.held⟩
  | .returned => some { w with counters := r.1, threads := w.threads.eraseIdx i }
  | .fault => none

/-- The world after a step.  A charge is taken back at most once; the callers serialise the calls
that set one limit. -/
def World.step (tree : Tree Node) (w : World Node) : Op Node → Option (World Node)
  | .tryCharge counter nrPages =>
    some { w with threads := .adding counter nrPages (some counter) :: w.threads }
  | .uncharge i =>
    w.held[i]?.map fun charge =>
      ⟨w.counters, .uncharging charge.2 (some charge.1) :: w.threads, w.held.eraseIdx i⟩
  | .limit counter limit =>
    if ∃ t ∈ w.threads, t.sets = some counter then none
    else some { w with threads := .reading counter limit :: w.threads }
  | .access i => w.threads[i]?.bind fun t => w.after i (t.access tree w.counters)

/-- The worlds after steps that meet the condition. -/
inductive Reach (tree : Tree Node) (cond : World Node → Op Node → Prop) : World Node → Prop
  | start : Reach tree cond ⟨pageCounterInit, [], []⟩
  | step {w w' : World Node} {op : Op Node} (hw : Reach tree cond w) (hcond : cond w op)
      (hstep : w.step tree op = some w') : Reach tree cond w'

end LinuxKernel.PageCounter
