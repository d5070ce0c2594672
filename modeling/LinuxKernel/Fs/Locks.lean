import Mathlib.Algebra.Order.Ring.Int

/-!
# POSIX record locks

`__posix_lock_file()` of `fs/locks.c` with the conflict test, the deadlock detection and the
wake-ups of blocked requests.  Each inode has the list `flc_posix` of the locks that are held.  A
`struct file_lock` is known by its address: `request`, `left` and `right` of the source may point
to entries of the list.  The results of `locks_alloc_lock()` are an input of each call.
-/

namespace LinuxKernel.Fs

/-- `fl_type`. -/
inductive LockType
  | rdlck | wrlck | unlck
deriving DecidableEq

def offsetMax : Int := 2 ^ 63 - 1

/-- A value of type `loff_t`. -/
def loff (x : Int) : Int :=
  x.bmod (2 ^ 64)

@[ext]
structure FileLock (Owner : Type) where
  addr : Nat
  flOwner : Owner
  flType : LockType
  flStart : Int
  flEnd : Int
deriving DecidableEq

/-- A blocked request: an entry of `blocked_hash`, on the list `fl_block` of the lock `fl_next`. -/
structure Waiter (Owner : Type) where
  request : FileLock Owner
  flNext : Nat
deriving DecidableEq

structure LockFlags where
  access : Bool
  sleep : Bool
  exist : Bool
deriving DecidableEq

/-- The return value of `__posix_lock_file()`. -/
inductive LockRet
  | ok | enolck | eagain | edeadlk | enoent | deferred
deriving DecidableEq

variable {Owner : Type} [DecidableEq Owner] (blocked : List (Waiter Owner))

def posixSameOwner (fl₁ fl₂ : FileLock Owner) : Bool :=
  fl₁.flOwner = fl₂.flOwner

def locksOverlap (fl₁ fl₂ : FileLock Owner) : Bool :=
  fl₂.flStart ≤ fl₁.flEnd ∧ fl₁.flStart ≤ fl₂.flEnd

def locksConflict (caller sys : FileLock Owner) : Bool :=
  sys.flType = .wrlck ∨ caller.flType = .wrlck

def posixLocksConflict (caller sys : FileLock Owner) : Bool :=
  if posixSameOwner caller sys then false
  else if locksOverlap caller sys then locksConflict caller sys
  else false

def maxDeadlkIterations : Nat := 10

/-- `what_owner_is_waiting_for()`; `locks` are those of all inodes. -/
def whatOwnerIsWaitingFor (locks : List (FileLock Owner)) (block : FileLock Owner) :
    Option (FileLock Owner) :=
  match blocked.find? (fun w => posixSameOwner w.request block) with
  | none => none
  | some w => locks.find? (fun fl => fl.addr = w.flNext)

/-- The loop of `posix_locks_deadlock()`, with `left` more locks before `i++ >
MAX_DEADLK_ITERATIONS`. -/
def deadlockLoop (blocked : List (Waiter Owner)) (locks : List (FileLock Owner))
    (caller : FileLock Owner) : Nat → FileLock Owner → Bool
  | left, block =>
    match whatOwnerIsWaitingFor blocked locks block with
    | none => false
    | some block =>
      match left with
      | 0 => false
      | left + 1 =>
        if posixSameOwner caller block then true
        else deadlockLoop blocked locks caller left block

/-- `posix_locks_deadlock()` for locks that are not `FL_OFDLCK`. -/
def posixLocksDeadlock (locks : List (FileLock Owner)) (caller block : FileLock Owner) : Bool :=
  deadlockLoop blocked locks caller (maxDeadlkIterations + 1) block

def modifyLock (addr : Nat) (f : FileLock Owner → FileLock Owner)
    (locks : List (FileLock Owner)) : List (FileLock Owner) :=
  locks.map (fun fl => if fl.addr = addr then f fl else fl)

/-- The variables of `__posix_lock_file()` in the loop over the owner's locks: the list in front of
`fl`, `*request`, `added`, `left`, `new_fl`, and the locks that `locks_wake_up_blocks()` was called
for. -/
structure Walk (Owner : Type) where
  front : List (FileLock Owner)
  request : FileLock Owner
  added : Bool
  left : Option Nat
  newFl : Option Nat
  woken : List Nat

/-- The loop ends without `new_fl`, or with `right` at `fl` before the rest of the list. -/
inductive WalkEnd (Owner : Type)
  | enolck (w : Walk Owner) (rest : List (FileLock Owner))
  | done (w : Walk Owner) (right : Option (FileLock Owner)) (rest : List (FileLock Owner))

/-- One lock from the lower start to the higher end of both. -/
def joinLock (fl request lock : FileLock Owner) : FileLock Owner :=
  { lock with
    flStart :=
      if request.flStart < fl.flStart then request.flStart else fl.flStart
    flEnd := if fl.flEnd < request.flEnd then request.flEnd else fl.flEnd }

/-- `locks_copy_lock(new_fl, request)`. -/
def Walk.newLock (w : Walk Owner) (addr : Nat) : FileLock Owner :=
  { w.request with addr := addr }

/-- `fl` has another type than the request, and overlaps. -/
def Walk.overlap (w : Walk Owner) (fl : FileLock Owner) : Walk Owner :=
  { w with
    added := w.added || decide (w.request.flType = .unlck)
    left := if fl.flStart < w.request.flStart then some fl.addr else w.left }

/-- `list_for_each_entry_safe_from()` over the owner's locks. -/
def walkLoop (w : Walk Owner) : List (FileLock Owner) → WalkEnd Owner
  | [] => .done w none []
  | fl :: rest =>
    if !posixSameOwner w.request fl then .done w none (fl :: rest)
    else if w.request.flType = fl.flType then
      -- detect adjacent or overlapping regions
      if fl.flEnd < loff (w.request.flStart - 1) then
        walkLoop { w with front := w.front ++ [fl] } rest
      else if w.request.flEnd < loff (fl.flStart - 1) then
        .done w none (fl :: rest)
      else if w.added then
        walkLoop
          { w with
            -- `request` may be an entry of the list
            front :=
              modifyLock w.request.addr (fun _ => joinLock fl w.request w.request) w.front
            request := joinLock fl w.request w.request
            woken := w.woken ++ [fl.addr] }
          rest
      else
        walkLoop
          { w with
            front := w.front ++ [joinLock fl w.request fl]
            request := joinLock fl w.request fl
            added := true }
          rest
    else if fl.flEnd < w.request.flStart then
      walkLoop { w with front := w.front ++ [fl] } rest
    else if w.request.flEnd < fl.flStart then .done w none (fl :: rest)
    else if w.request.flEnd < fl.flEnd then
      .done (w.overlap fl) (some fl) (fl :: rest)
    else if w.request.flStart ≤ fl.flStart then
      -- the new lock completely replaces an old one
      if (w.overlap fl).added then
        walkLoop { w.overlap fl with woken := w.woken ++ [fl.addr] } rest
      else
        match w.newFl with
        | none => .enolck (w.overlap fl) (fl :: rest)
        | some addr =>
          walkLoop
            { w.overlap fl with
              front := w.front ++ [w.newLock addr]
              request := w.newLock addr
              added := true
              newFl := none
              woken := w.woken ++ [fl.addr] }
            rest
    else walkLoop { w.overlap fl with front := w.front ++ [fl] } rest

/-- What is left of a lock in front of the request. -/
def trimEnd (request fl : FileLock Owner) : FileLock Owner :=
  { fl with flEnd := loff (request.flStart - 1) }

/-- What is left of a lock behind the request. -/
def trimStart (request fl : FileLock Owner) : FileLock Owner :=
  { fl with flStart := loff (request.flEnd + 1) }

/-- `if (left)`. -/
def trimLeft (request : FileLock Owner) (left : Option Nat)
    (locks : List (FileLock Owner)) (woken : List Nat) :
    List (FileLock Owner) × List Nat :=
  match left with
  | none => (locks, woken)
  | some addr => (modifyLock addr (trimEnd request) locks, woken ++ [addr])

/-- `if (right)` and `if (left)`: the locks, and those with woken waiters. -/
def trimSides (w : Walk Owner) (right : Option (FileLock Owner))
    (newFl2 : Option Nat) (front rest : List (FileLock Owner)) :
    List (FileLock Owner) × List Nat :=
  match right with
  | none => trimLeft w.request w.left (front ++ rest) w.woken
  | some fl =>
    if w.left = some fl.addr then
      -- the new lock breaks the old one in two pieces
      let copy := newFl2.toList.map (fun addr => { fl with addr := addr })
      trimLeft w.request newFl2 (modifyLock fl.addr (trimStart w.request) (front ++ (copy ++ rest)))
        (w.woken ++ [fl.addr])
    else
      trimLeft w.request w.left (modifyLock fl.addr (trimStart w.request) (front ++ rest))
        (w.woken ++ [fl.addr])

/-- The part of `__posix_lock_file()` behind the loop. -/
def finishWalk (exist : Bool) (newFl2 : Option Nat) (w : Walk Owner)
    (right : Option (FileLock Owner)) (rest : List (FileLock Owner)) :
    LockRet × List (FileLock Owner) × List Nat :=
  if right.isSome ∧ w.left = right.map FileLock.addr ∧ newFl2 = none then
    (.enolck, w.front ++ rest, w.woken)
  else if w.added then (.ok, trimSides w right newFl2 w.front rest)
  else if w.request.flType = .unlck then
    (if exist then .enoent else .ok, w.front ++ rest, w.woken)
  else
    match w.newFl with
    | none => (.enolck, w.front ++ rest, w.woken)
    | some addr =>
      (.ok, trimSides w right newFl2 w.front (w.newLock addr :: rest))

/-- From the end of the loop: the return value, the locks, and those with woken waiters. -/
def WalkEnd.finish (exist : Bool) (newFl2 : Option Nat) :
    WalkEnd Owner → LockRet × List (FileLock Owner) × List Nat
  | .enolck w rest => (.enolck, w.front ++ rest, w.woken)
  | .done w right rest => finishWalk exist newFl2 w right rest

/-- `__posix_lock_file()` without a conflict, from the search for the owner's first lock on. -/
def applyRequest (locks : List (FileLock Owner)) (request : FileLock Owner)
    (exist : Bool) (newFl newFl2 : Option Nat) :
    LockRet × List (FileLock Owner) × List Nat :=
  let other := fun fl => !posixSameOwner request fl
  let w : Walk Owner :=
    { front := locks.takeWhile other
      request := request
      added := false
      left := none
      newFl := newFl
      woken := [] }
  (walkLoop w (locks.dropWhile other)).finish exist newFl2

/-- The lists `flc_posix` of all inodes, and `blocked_hash`. -/
structure LockState (Owner : Type) where
  ctxs : List (List (FileLock Owner))
  blocked : List (Waiter Owner)

variable (st : LockState Owner)

def LockState.posix (ino : Nat) : List (FileLock Owner) :=
  st.ctxs.getD ino []

/-- A call of `__posix_lock_file()`, with what `locks_alloc_lock()` returns. -/
structure LockCall (Owner : Type) where
  ino : Nat
  request : FileLock Owner
  flags : LockFlags
  newFl : Option Nat
  newFl2 : Option Nat

/-- In some cases we can be sure, that no new locks will be needed. -/
def LockCall.needsLocks (c : LockCall Owner) : Bool :=
  c.request.flType ≠ .unlck ∨ c.request.flStart ≠ 0 ∨ c.request.flEnd ≠ offsetMax

/-- The first lock that a request conflicts with. -/
def LockCall.conflict (c : LockCall Owner) (st : LockState Owner) : Option (FileLock Owner) :=
  if c.request.flType = .unlck then none
  else (st.posix c.ino).find? (posixLocksConflict c.request)

def locksInsertBlock (blocker waiter : FileLock Owner) : LockState Owner :=
  { st with blocked := ⟨waiter, blocker.addr⟩ :: st.blocked }

/-- `locks_wake_up_blocks()` for the locks at addresses. -/
def locksWakeUpBlocks (woken : List Nat) : List (Waiter Owner) :=
  blocked.filter (fun w => !woken.contains w.flNext)

def posixLockFile (c : LockCall Owner) : LockRet × LockState Owner :=
  match c.conflict st with
  | some fl =>
    if !c.flags.sleep then (.eagain, st)
    else if posixLocksDeadlock st.blocked st.ctxs.flatten c.request fl then
      (.edeadlk, st)
    else (.deferred, locksInsertBlock st fl c.request)
  | none =>
    if c.flags.access then (.ok, st)
    else
      let (ret, locks, woken) := applyRequest (st.posix c.ino) c.request c.flags.exist
          (if c.needsLocks then c.newFl else none)
          (if c.needsLocks then c.newFl2 else none)
      (ret, ⟨st.ctxs.set c.ino locks, locksWakeUpBlocks st.blocked woken⟩)

/-- `posix_unblock_lock()`: a request stops waiting. -/
def posixUnblockLock (addr : Nat) : LockState Owner :=
  { st with blocked := st.blocked.filter (fun w => w.request.addr ≠ addr) }

def LockState.addrs : List Nat :=
  st.ctxs.flatten.map FileLock.addr ++ st.blocked.map (fun w => w.request.addr)

def LockCall.addrs (c : LockCall Owner) : List Nat :=
  c.request.addr :: (c.newFl.toList ++ c.newFl2.toList)

/-- A call with a range, on an inode that there is, whose request and new locks are unused. -/
structure LockCall.Valid (c : LockCall Owner) (st : LockState Owner) : Prop where
  ino : c.ino < st.ctxs.length
  start : 0 ≤ c.request.flStart
  le : c.request.flStart ≤ c.request.flEnd
  stop : c.request.flEnd ≤ offsetMax
  nodup : c.addrs.Nodup
  unused : ∀ addr ∈ c.addrs, addr ∉ st.addrs

def LockState.init (n : Nat) : LockState Owner where
  ctxs := List.replicate n []
  blocked := []

/-- One call, or one request that stops waiting. -/
inductive LockState.Step : LockState Owner → LockState Owner → Prop
  | lock {st : LockState Owner} (c : LockCall Owner) (h : c.Valid st) :
      Step st (posixLockFile st c).2
  | unblock {st : LockState Owner} (addr : Nat) : Step st (posixUnblockLock st addr)

/-- The states of all locks after some calls. -/
inductive LockState.Reachable : LockState Owner → Prop
  | init (n : Nat) : Reachable (.init n)
  | step {st st' : LockState Owner} (h : Reachable st) (hstep : st.Step st') : Reachable st'

end LinuxKernel.Fs
