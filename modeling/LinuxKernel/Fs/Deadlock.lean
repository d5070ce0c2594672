import LinuxKernel.Fs.LocksReach
import LinuxKernel.Lib.Graphs

/-!
# Deadlock detection

`posix_locks_deadlock()` follows the chain of blocked owners from the lock that the request
conflicts with.  If each owner waits for at most one lock, it finds every short cycle that queuing
the request would close, so there is never a short cycle of owners that wait for each other.
-/

namespace LinuxKernel.Fs

open Lib List

variable {Owner : Type}

/-- A request of the owner is blocked by a lock of another. -/
def LockState.WaitsFor (st : LockState Owner) (o o' : Owner) : Prop :=
  ∃ w ∈ st.blocked, w.request.flOwner = o ∧
    ∃ fl ∈ st.ctxs.flatten, fl.addr = w.flNext ∧ fl.flOwner = o'

/-- Each owner waits for at most one lock. -/
def LockState.OneWait (st : LockState Owner) : Prop :=
  ∀ w₁ ∈ st.blocked, ∀ w₂ ∈ st.blocked,
    w₁.request.flOwner = w₂.request.flOwner → w₁.flNext = w₂.flNext

theorem eq_of_addr {locks : List (FileLock Owner)} (hnodup : (addrs locks).Nodup)
    {fl₁ fl₂ : FileLock Owner} (h1 : fl₁ ∈ locks) (h2 : fl₂ ∈ locks) (haddr : fl₁.addr = fl₂.addr) :
    fl₁ = fl₂ :=
  inj_on_of_nodup_map hnodup h1 h2 haddr

variable {st st' : LockState Owner}

variable [DecidableEq Owner]

variable {block : FileLock Owner}

theorem whatOwnerIsWaitingFor_eq (hok : st.Ok) (hone : st.OneWait) {o : Owner}
    (h : st.WaitsFor block.flOwner o) :
    ∃ fl, whatOwnerIsWaitingFor st.blocked st.ctxs.flatten block = some fl ∧ fl.flOwner = o := by
  obtain ⟨w, hw, howner, fl, hfl, haddr, rfl⟩ := h
  obtain ⟨w', hfind⟩ : ∃ w',
      st.blocked.find? (fun w => posixSameOwner w.request block) = some w' := by
    refine Option.isSome_iff_exists.mp (find?_isSome.mpr ⟨w, hw, ?_⟩)
    simp [posixSameOwner, howner]
  have hw' := mem_of_find?_eq_some hfind
  have howner' : w'.request.flOwner = block.flOwner := by
    simpa [posixSameOwner] using find?_some hfind
  have hnext : w'.flNext = w.flNext := hone w' hw' w hw (howner'.trans howner.symm)
  obtain ⟨fl', hfind'⟩ : ∃ fl',
      st.ctxs.flatten.find? (fun fl => fl.addr = w'.flNext) = some fl' := by
    refine Option.isSome_iff_exists.mp (find?_isSome.mpr ⟨fl, hfl, ?_⟩)
    simp [haddr, hnext]
  have haddr' : fl'.addr = w'.flNext := by
    simpa using find?_some hfind'
  have heq : fl' = fl := eq_of_addr hok.nodup (mem_of_find?_eq_some hfind') hfl
      (haddr'.trans (hnext.trans haddr.symm))
  refine ⟨fl', ?_, congrArg FileLock.flOwner heq⟩
  rw [whatOwnerIsWaitingFor, hfind]
  exact hfind'

theorem deadlockLoop_of_trail (hok : st.Ok) (hone : st.OneWait) (caller : FileLock Owner)
    {k left : Nat} (hk : k < left) (h : Trail st.WaitsFor (k + 1) block.flOwner caller.flOwner) :
    deadlockLoop st.blocked st.ctxs.flatten caller left block = true := by
  induction left generalizing k block with
  | zero => exact absurd hk (Nat.not_lt_zero k)
  | succ left ih =>
    cases h with
    | cons hstep hrest =>
      obtain ⟨fl, hwhat, howner⟩ := whatOwnerIsWaitingFor_eq hok hone hstep
      cases k with
      | zero =>
        cases hrest
        simp [deadlockLoop, hwhat, posixSameOwner, howner]
      | succ k =>
        have hloop := ih (Nat.lt_of_succ_lt_succ hk) (howner.symm ▸ hrest)
        simp [deadlockLoop, hwhat, hloop]

/-- The states after some calls, if each owner always waits for at most one lock. -/
inductive LockState.ReachableOne : LockState Owner → Prop
  | init (n : Nat) : ReachableOne (.init n)
  | step {st st' : LockState Owner} (h : ReachableOne st) (hstep : st.Step st')
      (hone : st'.OneWait) : ReachableOne st'

theorem LockState.ReachableOne.reachable (h : st.ReachableOne) : st.Reachable := by
  induction h with
  | init n => exact .init n
  | step _ hstep _ ih => exact .step ih hstep

theorem LockState.ReachableOne.oneWait (h : st.ReachableOne) : st.OneWait := by
  cases h with
  | init n => exact nofun
  | step _ _ hone => exact hone

variable {fl request : FileLock Owner} {ret : LockRet} {c : LockCall Owner}

theorem waitsFor_insertBlock (hok : st.Ok) (hfl : fl ∈ st.ctxs.flatten) (o o' : Owner)
    (h : (locksInsertBlock st fl request).WaitsFor o o') :
    st.WaitsFor o o' ∨ (o = request.flOwner ∧ o' = fl.flOwner) := by
  obtain ⟨w, hw, howner, fl', hfl', haddr, howner'⟩ := h
  rcases mem_cons.mp hw with rfl | hw
  · have heq : fl' = fl := eq_of_addr hok.nodup hfl' hfl haddr
    exact .inr ⟨howner.symm, by rw [← howner', heq]⟩
  · exact .inl ⟨w, hw, howner, fl', hfl', haddr, howner'⟩

theorem deadlock_of_cycle (hok : st.Ok) (hone : st.OneWait)
    (hno : NoCycle st.WaitsFor maxDeadlkIterations) (hfl : fl ∈ st.ctxs.flatten)
    (howner : fl.flOwner ≠ request.flOwner) {k : Nat} (hk : k < maxDeadlkIterations) {o : Owner}
    (hcycle : Trail (locksInsertBlock st fl request).WaitsFor (k + 1) o o) :
    posixLocksDeadlock st.blocked st.ctxs.flatten request fl = true := by
  obtain ⟨j, hj, htrail⟩ := hno.closed_by (waitsFor_insertBlock hok hfl) hk hcycle
  cases j with
  | zero => exact absurd htrail.eq_of_zero howner
  | succ j =>
    refine deadlockLoop_of_trail hok hone request ?_ htrail
    omega

theorem waitsFor_requested (hok : st.Ok) (hvalid : c.Valid st) (hconflict : c.conflict st = none)
    {locks : List (FileLock Owner)} {woken : List Nat}
    (hreq : Requested (st.posix c.ino) c.request c.news ret locks woken) (o o' : Owner)
    (h : LockState.WaitsFor ⟨st.ctxs.set c.ino locks, locksWakeUpBlocks st.blocked woken⟩ o o') :
    st.WaitsFor o o' := by
  have hok' := (CallCases.requested ret locks woken hconflict hreq).ok hok hvalid
  obtain ⟨ctxs₁, ctxs₂, hctxs, hset⟩ := hvalid.split
  obtain ⟨w, hw, howner, fl', hfl', haddr', howner'⟩ := h
  rw [locksWakeUpBlocks, mem_filter] at hw
  obtain ⟨fl, hfl, haddr, -⟩ := hok.waits w hw.1
  have hwoken : fl.addr ∉ woken := by
    rw [haddr]
    simpa using hw.2
  have hkept := hreq.kept_flatten (hctxs ▸ hfl) hwoken
  rw [← hset] at hkept
  obtain ⟨fl'', hfl'', haddr'', howner''⟩ := hkept
  have heq : fl'' = fl' :=
    eq_of_addr hok'.nodup hfl'' hfl' (haddr''.trans (haddr.trans haddr'.symm))
  refine ⟨w, hw.1, howner, fl, hfl, haddr, ?_⟩
  rw [← howner'', heq, howner']

theorem CallCases.noCycle (hcall : CallCases st c ret st') (hok : st.Ok) (hone : st.OneWait)
    (hvalid : c.Valid st) (h : NoCycle st.WaitsFor maxDeadlkIterations) :
    NoCycle st'.WaitsFor maxDeadlkIterations := by
  cases hcall with
  | eagain | edeadlk | access => exact h
  | deferred fl hconflict hdead =>
    obtain ⟨hmem, howner⟩ := hvalid.conflict_flatten hconflict
    intro k o hk hcycle
    rw [deadlock_of_cycle hok hone h hmem howner hk hcycle] at hdead
    cases hdead
  | requested _ locks woken hconflict hreq =>
    exact h.mono (waitsFor_requested hok hvalid hconflict hreq)

theorem LockState.ReachableOne.noCycle (h : st.ReachableOne) :
    NoCycle st.WaitsFor maxDeadlkIterations := by
  induction h with
  | init n =>
    rintro k o - (_ | ⟨⟨w, hw, -⟩, -⟩)
    cases hw
  | @step st st' h hstep hone ih =>
    have hok := LockState.Ok.of_reachable h.reachable
    cases hstep with
    | lock c hvalid =>
      exact (posixLockFile_cases hok hvalid).noCycle hok h.oneWait hvalid ih
    | unblock addr =>
      refine ih.mono ?_
      rintro o o' ⟨w, hw, howner⟩
      exact ⟨w, (mem_filter.mp hw).1, howner⟩

/-- If each owner waits for at most one lock, there is never a cycle of at most
`MAX_DEADLK_ITERATIONS` waiting owners, and a request that would close one is refused. -/
theorem posixLocksDeadlock_reachable {st : LockState Owner} (h : st.ReachableOne) :
    NoCycle st.WaitsFor maxDeadlkIterations ∧
      ∀ c : LockCall Owner, c.Valid st → c.flags.sleep = true →
        ∀ fl, c.conflict st = some fl → ¬ NoCycle (locksInsertBlock st fl c.request).WaitsFor
              maxDeadlkIterations →
            (posixLockFile st c).1 = .edeadlk := by
  have hok := LockState.Ok.of_reachable h.reachable
  refine ⟨h.noCycle, ?_⟩
  intro c hvalid hsleep fl hconflict hclosed
  obtain ⟨hmem, howner⟩ := hvalid.conflict_flatten hconflict
  simp only [NoCycle, not_forall, not_not] at hclosed
  obtain ⟨k, o, hk, hcycle⟩ := hclosed
  have hdead := deadlock_of_cycle hok h.oneWait h.noCycle hmem howner hk hcycle
  simp [posixLockFile, hconflict, hsleep, hdead]

/-- A request of an owner for a write lock on one byte. -/
def byteCall (addr newFl owner : Nat) (start : Int) : LockCall Nat where
  ino := 0
  request := ⟨addr, owner, .wrlck, start, start⟩
  flags := ⟨false, true, false⟩
  newFl := some newFl
  newFl2 := none

/-- Owner 1 holds byte 0 and waits for byte 1, which owner 2 holds. -/
def crossState : LockState Nat where
  ctxs := [[⟨1, 1, .wrlck, 0, 0⟩, ⟨2, 2, .wrlck, 1, 1⟩]]
  blocked := [⟨⟨30, 1, .wrlck, 1, 1⟩, 2⟩]

theorem crossState_reachable : crossState.ReachableOne := by
  have h1 : LockState.ReachableOne (⟨[[⟨1, 1, .wrlck, 0, 0⟩]], []⟩ : LockState Nat) :=
    .step (.init 1)
      (.lock (byteCall 10 1 1 0) ⟨by decide, by decide, by decide, by decide, by decide, by decide⟩)
      nofun
  have h2 : LockState.ReachableOne
      (⟨[[⟨1, 1, .wrlck, 0, 0⟩, ⟨2, 2, .wrlck, 1, 1⟩]], []⟩ : LockState Nat) :=
    .step h1
      (.lock (byteCall 20 2 2 1) ⟨by decide, by decide, by decide, by decide, by decide, by decide⟩)
      nofun
  refine .step h2
    (.lock (byteCall 30 3 1 1)
      ⟨by decide, by decide, by decide, by decide, by decide, by decide⟩) ?_
  unfold LockState.OneWait
  decide

theorem posixLocksDeadlock_reachable_cross :
    (posixLockFile crossState (byteCall 40 4 2 0)).1 = .edeadlk := by
  refine (posixLocksDeadlock_reachable crossState_reachable).2 (byteCall 40 4 2 0)
    ⟨by decide, by decide, by decide, by decide, by decide, by decide⟩ rfl
    ⟨1, 1, .wrlck, 0, 0⟩ (by decide) ?_
  intro hno
  refine hno 1 1 (by decide) (.cons (b := 2) ?_ (.cons (b := 1) ?_ (.nil 1)))
  · exact ⟨⟨⟨30, 1, .wrlck, 1, 1⟩, 2⟩, by decide, rfl, ⟨2, 2, .wrlck, 1, 1⟩, by decide, rfl, rfl⟩
  · exact ⟨⟨⟨40, 2, .wrlck, 0, 0⟩, 1⟩, by decide, rfl, ⟨1, 1, .wrlck, 0, 0⟩, by decide, rfl, rfl⟩

end LinuxKernel.Fs
