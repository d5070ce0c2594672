import LinuxKernel.Fs.LocksInv

/-!
# Runs of POSIX lock calls

The invariant of the locks of all inodes over any sequence of calls of
`__posix_lock_file()` and of requests that stop waiting, and the effect of one
call in every state that is reached.
-/

namespace LinuxKernel.Fs

open Lib List LockState LockCall

variable {Owner : Type} {st : LockState Owner} {c : LockCall Owner}

theorem LockCall.Valid.split (h : c.Valid st) :
    ∃ ctxs₁ ctxs₂, st.ctxs = ctxs₁ ++ st.posix c.ino :: ctxs₂ ∧
        ∀ locks, st.ctxs.set c.ino locks = ctxs₁ ++ locks :: ctxs₂ := by
  refine ⟨st.ctxs.take c.ino, st.ctxs.drop (c.ino + 1), ?_, ?_⟩
  · have hdrop : st.ctxs.drop c.ino = st.posix c.ino :: st.ctxs.drop (c.ino + 1) := by
      rw [drop_eq_getElem_cons h.ino, posix]
      simp [getD_eq_getElem?_getD, h.ino]
    rw [← hdrop, take_append_drop]
  · intro locks
    exact set_eq_take_append_cons_drop.trans (if_pos h.ino)

variable [DecidableEq Owner]

/-- The invariant: each waiter is on the list of a lock held by another owner. -/
structure LockState.Ok (st : LockState Owner) : Prop where
  posix : ∀ locks ∈ st.ctxs, PosixOk locks
  nodup : (Fs.addrs st.ctxs.flatten).Nodup
  waits :
    ∀ w ∈ st.blocked, ∃ fl ∈ st.ctxs.flatten, fl.addr = w.flNext ∧ fl.flOwner ≠ w.request.flOwner

theorem posixOk_nil : PosixOk ([] : List (FileLock Owner)) where
  grouped := ⟨[], rfl, .nil, nofun⟩
  inRange := nofun
  held := nofun
  sorted := fun _ => trivial
  merged := fun _ => .nil
  compatible := nofun

theorem LockState.Ok.init (n : Nat) : (LockState.init n : LockState Owner).Ok where
  posix := by
    intro locks hlocks
    rw [eq_of_mem_replicate hlocks]
    exact posixOk_nil
  nodup := by
    simp [LockState.init]
  waits := nofun

theorem LockState.Ok.posix_ok (h : st.Ok) (ino : Nat) : PosixOk (st.posix ino) := by
  unfold LockState.posix
  rw [getD_eq_getElem?_getD]
  cases hget : st.ctxs[ino]? with
  | none => exact posixOk_nil
  | some locks => exact h.posix locks (mem_of_getElem? hget)

variable {fl request : FileLock Owner} {ret : LockRet} {st' : LockState Owner}

theorem LockCall.Valid.conflict_flatten (h : c.Valid st) (hconflict : c.conflict st = some fl) :
    fl ∈ st.ctxs.flatten ∧ fl.flOwner ≠ c.request.flOwner := by
  obtain ⟨ctxs₁, ctxs₂, hctxs, -⟩ := h.split
  unfold conflict at hconflict
  split at hconflict
  · cases hconflict
  constructor
  · rw [hctxs]
    simp [mem_of_find?_eq_some hconflict]
  · intro howner
    have hfl := find?_some hconflict
    rw [not_conflict_of_owner howner.symm] at hfl
    cases hfl

/-- The addresses that a call may take for new locks. -/
def LockCall.news (c : LockCall Owner) : List Nat :=
  (if c.needsLocks then c.newFl else none).toList ++
    (if c.needsLocks then c.newFl2 else none).toList

theorem LockCall.Valid.news_nodup (h : c.Valid st) (hok : st.Ok) :
    (c.news ++ Fs.addrs st.ctxs.flatten).Nodup := by
  have hsub : c.news.Sublist c.addrs := by
    unfold news addrs
    split
    · exact sublist_cons_self _ _
    · exact nil_sublist _
  refine nodup_append.mpr ⟨h.nodup.sublist hsub, hok.nodup, ?_⟩
  rintro a ha b hb rfl
  exact h.unused a (hsub.subset ha) (mem_append_left _ hb)

theorem LockState.Ok.requested (hok : st.Ok) (h : c.Valid st) (hconflict : c.conflict st = none) :
    ∃ ret locks woken, applyRequest (st.posix c.ino) c.request c.flags.exist
          (if c.needsLocks then c.newFl else none)
          (if c.needsLocks then c.newFl2 else none) = (ret, locks, woken) ∧
        Requested (st.posix c.ino) c.request c.news ret locks woken := by
  obtain ⟨ctxs₁, ctxs₂, hctxs, -⟩ := h.split
  refine applyRequest_requested (hok.posix_ok c.ino) { h with } (fun htype fl hfl => ?_)
    c.flags.exist ?_
  · unfold conflict at hconflict
    rw [if_neg htype] at hconflict
    exact Bool.not_eq_true _ ▸ find?_eq_none.mp hconflict fl hfl
  refine (h.news_nodup hok).sublist ((List.Sublist.refl _).append ?_)
  rw [hctxs]
  simp

/-- All that a call of `__posix_lock_file()` can do. -/
inductive CallCases (st : LockState Owner) (c : LockCall Owner) : LockRet → LockState Owner → Prop
  | eagain (fl : FileLock Owner) (hconflict : c.conflict st = some fl)
      (hsleep : c.flags.sleep = false) : CallCases st c .eagain st
  | edeadlk (fl : FileLock Owner) (hconflict : c.conflict st = some fl)
      (hdead : posixLocksDeadlock st.blocked st.ctxs.flatten c.request fl = true) :
      CallCases st c .edeadlk st
  | deferred (fl : FileLock Owner) (hconflict : c.conflict st = some fl)
      (hdead : posixLocksDeadlock st.blocked st.ctxs.flatten c.request fl = false) :
      CallCases st c .deferred (locksInsertBlock st fl c.request)
  | access (hconflict : c.conflict st = none) (haccess : c.flags.access = true) :
      CallCases st c .ok st
  | requested (ret : LockRet) (locks : List (FileLock Owner)) (woken : List Nat)
      (hconflict : c.conflict st = none)
      (hreq : Requested (st.posix c.ino) c.request c.news ret locks woken) :
      CallCases st c ret ⟨st.ctxs.set c.ino locks, locksWakeUpBlocks st.blocked woken⟩

theorem posixLockFile_cases (hok : st.Ok) (h : c.Valid st) :
    CallCases st c (posixLockFile st c).1 (posixLockFile st c).2 := by
  cases hconflict : c.conflict st with
  | some fl =>
    simp only [posixLockFile, hconflict]
    cases hsleep : c.flags.sleep with
    | false => exact .eagain fl hconflict hsleep
    | true =>
      cases hdead : posixLocksDeadlock st.blocked st.ctxs.flatten c.request fl with
      | true => exact .edeadlk fl hconflict hdead
      | false => exact .deferred fl hconflict hdead
  | none =>
    obtain ⟨ret, locks, woken, happly, hreq⟩ := hok.requested h hconflict
    simp only [posixLockFile, hconflict, happly]
    cases haccess : c.flags.access with
    | true => exact .access hconflict haccess
    | false => exact .requested ret locks woken hconflict hreq

theorem Requested.kept_flatten {ctxs₁ ctxs₂ : List (List (FileLock Owner))}
    {locks locks' : List (FileLock Owner)} {news woken : List Nat}
    (h : Requested locks request news ret locks' woken)
    (hfl : fl ∈ (ctxs₁ ++ locks :: ctxs₂).flatten) (hwoken : fl.addr ∉ woken) :
    ∃ fl' ∈ (ctxs₁ ++ locks' :: ctxs₂).flatten, fl'.addr = fl.addr ∧ fl'.flOwner = fl.flOwner := by
  simp only [flatten_append, flatten_cons, mem_append] at hfl
  rcases hfl with hfl | hfl | hfl
  · exact ⟨fl, by simp [mem_flatten.mp hfl], rfl, rfl⟩
  · rcases h.kept fl hfl with hmem | ⟨fl', hfl', haddr, howner⟩
    · exact absurd hmem hwoken
    · exact ⟨fl', by simp [hfl'], haddr, howner⟩
  · exact ⟨fl, by simp [mem_flatten.mp hfl], rfl, rfl⟩

theorem CallCases.ok (hcall : CallCases st c ret st') (hok : st.Ok) (h : c.Valid st) : st'.Ok := by
  obtain ⟨ctxs₁, ctxs₂, hctxs, hset⟩ := h.split
  cases hcall with
  | eagain | edeadlk | access => exact hok
  | deferred fl hconflict hdead =>
    obtain ⟨hmem, howner⟩ := h.conflict_flatten hconflict
    refine ⟨hok.posix, hok.nodup, ?_⟩
    exact forall_mem_cons.mpr ⟨⟨fl, hmem, rfl, howner⟩, hok.waits⟩
  | requested _ locks woken hconflict hreq =>
    refine ⟨?_, ?_, ?_⟩
    · intro locks' hlocks'
      rcases mem_or_eq_of_mem_set hlocks' with hmem | rfl
      · exact hok.posix locks' hmem
      · exact hreq.ok
    · have hnodup := h.news_nodup hok
      dsimp only
      rw [hset]
      rw [hctxs] at hnodup
      simp only [flatten_append, flatten_cons, addrs_append] at hnodup ⊢
      refine nodup_replace hnodup hreq.nodup ?_
      intro a ha
      obtain ⟨fl, hfl, rfl⟩ := mem_map.mp ha
      exact hreq.sub fl hfl
    intro w hw
    rw [locksWakeUpBlocks, mem_filter] at hw
    obtain ⟨fl, hfl, haddr, howner⟩ := hok.waits w hw.1
    rw [hctxs] at hfl
    have hwoken : fl.addr ∉ woken := by
      rw [haddr]
      simpa using hw.2
    obtain ⟨fl', hfl', haddr', howner'⟩ := hreq.kept_flatten hfl hwoken
    refine ⟨fl', ?_, haddr'.trans haddr, howner'.symm ▸ howner⟩
    dsimp only
    rw [hset]
    exact hfl'

theorem LockState.Ok.step (hok : st.Ok) (hstep : st.Step st') : st'.Ok := by
  cases hstep with
  | lock c h => exact (posixLockFile_cases hok h).ok hok h
  | unblock addr =>
    exact ⟨hok.posix, hok.nodup, fun w hw => hok.waits w (mem_filter.mp hw).1⟩

theorem LockState.Ok.of_reachable (h : st.Reachable) : st.Ok := by
  induction h with
  | init n => exact .init n
  | step _ hstep ih => exact ih.step hstep

theorem CallCases.types (hcall : CallCases st c .ok st') (h : c.Valid st)
    (haccess : c.flags.access = false) (ino : Nat) (o : Owner) (x : Nat) :
    typeAt (st'.posix ino) o x =
      if ino = c.ino ∧ o = c.request.flOwner ∧ c.request.flStart ≤ x ∧
          (x : Int) ≤ c.request.flEnd then
        c.request.flType.held
      else typeAt (st.posix ino) o x := by
  cases hcall with
  | access _ haccess' => simp [haccess] at haccess'
  | requested _ locks woken hconflict hreq =>
    by_cases hino : c.ino = ino
    · subst hino
      rw [posix, getD_eq_getElem?_getD, getElem?_set_self h.ino, Option.getD_some, hreq.types]
      simp
    · rw [if_neg (fun hx => hino hx.1.symm)]
      simp [posix, hino]

/-- In every reachable state the locks of each inode satisfy the invariant, and a call that returns
0 changes its owner's map from offsets to lock types on its range, and nothing else. -/
theorem posixLockFile_reachable {st : LockState Owner} (h : st.Reachable) :
    (∀ ino, PosixOk (st.posix ino)) ∧
      ∀ c : LockCall Owner, c.Valid st → c.flags.access = false →
        (posixLockFile st c).1 = .ok →
          ∀ ino o x, typeAt ((posixLockFile st c).2.posix ino) o x =
              if ino = c.ino ∧ o = c.request.flOwner ∧ c.request.flStart ≤ x ∧
                  (x : Int) ≤ c.request.flEnd then
                c.request.flType.held
              else typeAt (st.posix ino) o x := by
  have hok := LockState.Ok.of_reachable h
  refine ⟨hok.posix_ok, ?_⟩
  intro c hvalid haccess hret
  have hcall := posixLockFile_cases hok hvalid
  rw [hret] at hcall
  exact hcall.types hvalid haccess

/-- A write lock of owner 7 on the first ten bytes. -/
def firstCall : LockCall Nat where
  ino := 0
  request := ⟨0, 7, .wrlck, 0, 9⟩
  flags := ⟨false, true, false⟩
  newFl := some 1
  newFl2 := some 2

theorem firstCall_valid : firstCall.Valid (.init 1) :=
  ⟨by decide, by decide, by decide, by decide, by decide, by decide⟩

/-- A read lock on the middle of the first lock. -/
def middleCall : LockCall Nat :=
  { firstCall with request := ⟨3, 7, .rdlck, 4, 5⟩, newFl := some 4, newFl2 := some 5 }

theorem middleCall_valid : middleCall.Valid (posixLockFile (.init 1) firstCall).2 :=
  ⟨by decide, by decide, by decide, by decide, by decide, by decide⟩

/-- The first lock is split. -/
theorem posixLockFile_reachable_middle :
    [3, 5, 7].map (typeAt ((posixLockFile (posixLockFile (.init 1) firstCall).2
      middleCall).2.posix 0) 7) = [some .wrlck, some .rdlck, some .wrlck] := by
  have htypes := (posixLockFile_reachable (.step (.init 1) (.lock firstCall firstCall_valid))).2
    middleCall middleCall_valid rfl (by decide) 0 7
  rw [map_congr_left fun x _ => htypes x]
  decide

/-- A call that fails, or whose request is blocked, changes no locks. -/
theorem posixLockFile_failed {st : LockState Owner} (hok : st.Ok) {c : LockCall Owner}
    (h : c.Valid st)
    (hret : (posixLockFile st c).1 ∈ [LockRet.enolck, .eagain, .edeadlk, .deferred]) :
    (posixLockFile st c).2.ctxs = st.ctxs := by
  have hne : (posixLockFile st c).1 ≠ .ok := by
    intro heq
    rw [heq] at hret
    exact absurd hret (by decide)
  have hcall := posixLockFile_cases hok h
  generalize posixLockFile st c = out at hcall hne
  obtain ⟨ret, st'⟩ := out
  cases hcall with
  | eagain | edeadlk | deferred => rfl
  | access => exact absurd rfl hne
  | requested _ locks woken hconflict hreq =>
    obtain ⟨ctxs₁, ctxs₂, hctxs, hset⟩ := h.split
    rw [hset, hreq.unchanged hne, ← hctxs]

/-- Unlock the middle of the first lock, without room for its second part. -/
def splitCall : LockCall Nat where
  ino := 0
  request := ⟨3, 7, .unlck, 4, 5⟩
  flags := ⟨false, true, false⟩
  newFl := none
  newFl2 := none

theorem posixLockFile_failed_split :
    (posixLockFile (posixLockFile (.init 1) firstCall).2 splitCall).2.ctxs =
      (posixLockFile (.init 1) firstCall).2.ctxs := by
  exact posixLockFile_failed ((LockState.Ok.init 1).step (.lock firstCall firstCall_valid))
    ⟨by decide, by decide, by decide, by decide, by decide, by decide⟩ (by decide)

end LinuxKernel.Fs
