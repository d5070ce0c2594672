import Mathlib.Data.List.ReduceOption
import LinuxKernel.Lib.RefCount
import LinuxKernel.Lib.Returns

/-!
# The garbage collector of sockets in flight

The functions of `net/unix/garbage.c`.  An embryo has no file yet: it belongs to the queue of the
listening socket, and only its own receive queue matters.  The linked lists are lists of sockets;
the list `gc_candidates` with its cursor is the part in front of the cursor and the part behind
it.
-/

namespace LinuxKernel.Unix

open Lib Function

/-- A buffer with the files it carries; each is `unix_get_socket` of the file. -/
structure Skb (σ : Type) where
  fp : Option (List (Option σ))
deriving DecidableEq

/-- The receive queue of a socket.  That of a listening one has embryos with queues. -/
inductive Queue (σ : Type)
  | data (skbs : List (Skb σ))
  | listen (embryos : List (List (Skb σ)))
deriving DecidableEq

/-- The sockets and the lists of the collector. -/
structure World (σ : Type) where
  fileCount : σ → Int
  inflight : σ → Int
  queue : σ → Queue σ
  /-- The flag `UNIX_GC_CANDIDATE`. -/
  candidate : σ → Bool
  /-- The flag `UNIX_GC_MAYBE_CYCLE`. -/
  maybeCycle : σ → Bool
  inflightList : List σ
  /-- The part of `gc_candidates` in front of the cursor. -/
  passed : List σ
  /-- The part of `gc_candidates` behind the cursor. -/
  candidates : List σ
  notCycle : List σ
  hitlist : List (Skb σ)

variable {σ : Type} [DecidableEq σ] (w : World σ)

/-- The loop over the descriptors of a buffer: the function is called for candidates, and whether
there is one returned. -/
def scanFds (func : World σ → σ → World σ) : World σ → List (Option σ) → World σ × Bool
  | w, [] => (w, false)
  | w, none :: fds => scanFds func w fds
  | w, some u :: fds =>
    if w.candidate u then ((scanFds func (func w u) fds).1, true) else scanFds func w fds

/-- `scan_inflight` of a queue; `purge` says whether there is a hitlist. -/
def scanInflight (func : World σ → σ → World σ) (purge : Bool) :
    World σ → List (Skb σ) → World σ × List (Skb σ)
  | w, [] => (w, [])
  | w, skb :: skbs =>
    match skb.fp with
    | none => ((scanInflight func purge w skbs).1, skb :: (scanInflight func purge w skbs).2)
    | some fds =>
      let r := scanFds func w fds
      if r.2 && purge then
        scanInflight func purge { r.1 with hitlist := r.1.hitlist ++ [skb] } skbs
      else
        ((scanInflight func purge r.1 skbs).1, skb :: (scanInflight func purge r.1 skbs).2)

/-- The loop of `scan_children` over the embryos. -/
def scanEmbryos (func : World σ → σ → World σ) (purge : Bool) :
    World σ → List (List (Skb σ)) → World σ × List (List (Skb σ))
  | w, [] => (w, [])
  | w, embryo :: embryos =>
    let r := scanInflight func purge w embryo
    ((scanEmbryos func purge r.1 embryos).1, r.2 :: (scanEmbryos func purge r.1 embryos).2)

/-- The receive queue of a socket is changed. -/
def World.setQueue (x : σ) (q : Queue σ) : World σ :=
  { w with queue := update w.queue x q }

def scanChildren (func : World σ → σ → World σ) (purge : Bool) (w : World σ) (x : σ) : World σ :=
  match w.queue x with
  | .data skbs =>
    let r := scanInflight func purge w skbs
    r.1.setQueue x (.data r.2)
  | .listen embryos =>
    let r := scanEmbryos func purge w embryos
    r.1.setQueue x (.listen r.2)

/-- The counter of a socket is changed by `d`. -/
def addInflight (d : Int) (w : World σ) (u : σ) : World σ :=
  { w with inflight := update w.inflight u (w.inflight u + d) }

def decInflight : World σ → σ → World σ :=
  addInflight (-1)

def incInflight : World σ → σ → World σ :=
  addInflight 1

def incInflightMoveTail (u : σ) : World σ :=
  let w := addInflight 1 w u
  if w.maybeCycle u then
    { w with
      passed := w.passed.erase u
      candidates := w.candidates.erase u ++ [u] }
  else
    w

/-- The body of the first loop of `unix_gc`. -/
def selectOne (u : σ) : World σ :=
  if w.fileCount u = w.inflight u then
    { w with
      inflightList := w.inflightList.erase u
      candidates := w.candidates ++ [u]
      candidate := update w.candidate u true
      maybeCycle := update w.maybeCycle u true }
  else
    w

/-- The first loop of `unix_gc`: sockets without an outer reference are candidates. -/
def selectCandidates : World σ :=
  w.inflightList.foldl selectOne w

/-- The second loop: the references from the candidates are not counted. -/
def dropReferences : World σ :=
  w.candidates.foldl (scanChildren decInflight false) w

def passCursor (u : σ) (rest : List σ) : World σ :=
  { w with
    passed := w.passed ++ [u]
    candidates := rest }

/-- A candidate with a counted reference is no part of a cycle. -/
def keepSocket (u : σ) : World σ :=
  scanChildren incInflightMoveTail false
    { w with
      passed := w.passed.erase u
      notCycle := w.notCycle ++ [u]
      maybeCycle := update w.maybeCycle u false } u

/-- The third loop, with the cursor. -/
def restoreLoop : Nat → World σ → Option (World σ)
  | 0, _ => none
  | fuel + 1, w =>
    match w.candidates with
    | [] => some w
    | u :: rest =>
      if (passCursor w u rest).inflight u > 0 then
        restoreLoop fuel (keepSocket (passCursor w u rest) u)
      else
        restoreLoop fuel (passCursor w u rest)

/-- The body of the fourth loop. -/
def restoreOne (u : σ) : World σ :=
  { w with
    candidate := update w.candidate u false
    notCycle := w.notCycle.erase u
    inflightList := w.inflightList ++ [u] }

/-- The fourth loop, behind the removal of the cursor: what is in no cycle goes back to the list in
flight. -/
def restoreInflight : World σ :=
  w.notCycle.foldl restoreOne
    { w with
      passed := []
      candidates := w.passed ++ w.candidates }

/-- The last loop: the buffers of the candidates go to the hitlist. -/
def fillHitlist : World σ :=
  w.candidates.foldl (scanChildren incInflight true) w

/-- `unix_gc` up to the purge of the hitlist. -/
def unixGc (fuel : Nat) : Option (World σ) :=
  (restoreLoop fuel (dropReferences (selectCandidates w))).map fun w =>
    fillHitlist (restoreInflight w)

/-- `unix_notinflight` of a file; `none` is the `BUG_ON` for an empty link. -/
def unixNotinflight (u : σ) : Option (World σ) :=
  if u ∈ w.inflightList ∨ u ∈ w.candidates then
    let w := addInflight (-1) w u
    if w.inflight u = 0 then
      some { w with
        inflightList := w.inflightList.erase u
        candidates := w.candidates.erase u }
    else
      some w
  else
    none

/-- The files of a destroyed buffer are no longer in flight. -/
def destroySkb (skb : Skb σ) : Option (World σ) :=
  (skb.fp.getD []).reduceOption.foldlM unixNotinflight w

def purgeHitlist : Option (World σ) :=
  w.hitlist.foldlM destroySkb w

end LinuxKernel.Unix
