import LinuxKernel.Fs.LocksWalk

/-!
# Requests without a conflict

`__posix_lock_file()` for a request that does not conflict: the locks of the
owner are changed to those of the map in which all offsets of the request have
the type of the request.
-/

namespace LinuxKernel.Fs

open Lib List FileLock WalkEnd

variable {Owner : Type} {w w' : Walk Owner} {post own old out : List (FileLock Owner)}
  {fl : FileLock Owner}

/-- The state of the loop before the first lock it touches. -/
structure Walk.Start (w : Walk Owner) (post : List (FileLock Owner)) : Prop where
  added : w.added = false
  left : w.left = none
  inRange : w.request.InRange
  post : ∀ fl ∈ post.head?, fl.flOwner ≠ w.request.flOwner

/-- What the call makes of the locks `own`: no memory, nothing to unlock, or the request is in its
place. -/
def Walk.Result (w : Walk Owner) (own post : List (FileLock Owner))
    (news : List Nat) (result : LockRet × List (FileLock Owner) × List Nat) :
    Prop :=
  result = (.enolck, w.front ++ (own ++ post), w.woken) ∨
    (∃ ret, (ret = .ok ∨ ret = .enoent) ∧
      result = (ret, w.front ++ (own ++ post), w.woken) ∧ w.request.after own = lockSegs own) ∨
    ∃ out woken, Placed w w.front own post news (w.request.after own) result out woken

variable {result : LockRet × List (FileLock Owner) × List Nat} {news news' woken : List Nat}

theorem Walk.Result.skip (h : Walk.Result { w with front := w.front ++ [fl] } own post news result)
    (hown : OwnLocks w.request.flOwner (fl :: own))
    (hafter : w.request.after (fl :: own) = fl.seg :: w.request.after own)
    (hfresh : fl.addr ∉ addrs own ∧ fl.addr ∉ news) : w.Result (fl :: own) post news result := by
  obtain ⟨hfl, -⟩ := ownLocks_cons.mp hown
  rcases h with h | ⟨ret, hret, h, hsegs⟩ | ⟨out, woken, h⟩
  · exact .inl (by simpa using h)
  · refine .inr (.inl ⟨ret, hret, by simpa using h, ?_⟩)
    rw [hafter, lockSegs_cons]
    exact congrArg _ hsegs
  refine .inr (.inr ⟨fl :: out, woken, ?_, ?_, ?_, ?_, ?_, ?_⟩)
  · simpa using h.returns
  · exact ownLocks_cons.mpr ⟨hfl, h.ownLocks⟩
  · refine nodup_cons.mpr ⟨?_, h.nodup⟩
    intro hmem
    exact (h.sub _ hmem).elim hfresh.1 hfresh.2
  · intro a ha
    rcases mem_cons.mp ha with rfl | ha
    · exact .inl mem_cons_self
    · exact (h.sub a ha).imp_left (mem_cons_of_mem _)
  · intro a ha
    have hkept := h.kept a
    simp only [addrs_cons, mem_cons] at ha hkept ⊢
    tauto
  · rw [hafter, lockSegs_cons, h.segs_eq]

/-- All that the request touches is behind its start, or a lock is on its left side. -/
theorem Walk.Result.of_ends {segs : List (Seg LockType)}
    (h : w'.Ends w.front old own post news' segs result) (hrequest : w'.request = w.request)
    (hwoken : w'.woken = w.woken) (hfront : w'.front ++ (own ++ post) = w.front ++ (old ++ post))
    (hnews : news' ⊆ news) (hsegs : segs = w.request.after old) :
    w.Result old post news result := by
  rcases h with h | ⟨out, woken, h⟩
  · refine .inl ?_
    rw [h, hfront, hwoken]
  · refine .inr (.inr ⟨out, woken, h.returns, hrequest ▸ h.ownLocks, h.nodup, ?_,
      hwoken ▸ h.kept, h.segs_eq.trans hsegs⟩)
    exact fun a ha => (h.sub a ha).imp_right (fun ha => hnews ha)

theorem Walk.Result.of_placed
    (h : Placed w w.front own post news' (w.request.after own) result out woken)
    (hnews : news' ⊆ news) : w.Result own post news result :=
  .inr (.inr ⟨out, woken,
    { h with sub := fun a ha => (h.sub a ha).imp_right (fun ha => hnews ha) }⟩)

@[simp]
theorem Walk.overlap_request : (w.overlap fl).request = w.request :=
  rfl

@[simp]
theorem Walk.overlap_newFl : (w.overlap fl).newFl = w.newFl :=
  rfl

theorem walkLoop_unlock [DecidableEq Owner] (htype : w.request.flType = .unlck)
    (hfl : fl.flOwner = w.request.flOwner ∧ fl.flType ≠ .unlck)
    (hbefore : ¬ fl.flEnd < w.request.flStart) (hbehind : ¬ w.request.flEnd < fl.flStart)
    (rest : List (FileLock Owner)) :
    walkLoop w (fl :: rest) = walkLoop { w with added := true } (fl :: rest) := by
  have hne : ¬ w.request.flType = fl.flType := fun heq => hfl.2 (heq ▸ htype)
  have howner : ¬ (!posixSameOwner w.request fl) = true := by simp [posixSameOwner, hfl.1]
  have hoverlap : .overlap { w with added := true } fl = w.overlap fl := by
    simp [Walk.overlap, htype]
  have hadded : (w.overlap fl).added = true := by simp [Walk.overlap, htype]
  simp only [walkLoop, if_neg howner, if_neg hne, if_neg hbefore, if_neg hbehind, hoverlap,
    hadded, if_true]

theorem finish_unlock (hadded : w.added = false) (htype : w.request.flType = .unlck) (exist : Bool)
    (newFl2 : Option Nat) (rest : List (FileLock Owner)) :
    (done w none rest).finish exist newFl2 =
      (if exist then .enoent else .ok, w.front ++ rest, w.woken) := by
  have hcond : ¬ ((none : Option (FileLock Owner)).isSome = true ∧
      w.left = none ∧ newFl2 = none) := by
    rintro ⟨⟨⟩, -⟩
  rw [finish, finishWalk, Option.map_none, if_neg hcond, hadded,
    if_neg Bool.false_ne_true, if_pos htype]

theorem Walk.Start.fresh (h : w.Start post) (htype : w.request.flType ≠ .unlck) :
    w.Fresh w.front none post where
  front := (append_nil _).symm
  added := h.added
  left_eq := h.left
  inRange := h.inRange
  type := htype
  leftOwn := ownLocks_nil _
  leftLt := nofun
  post := h.post

variable (h : w.Start post) (exist : Bool) (newFl2 : Option Nat)

include h

theorem Walk.Start.split (hown : OwnLocks w.request.flOwner (fl :: own))
    (hlo : fl.seg.lo < w.request.seg.lo) (hhi : w.request.seg.hi < fl.seg.hi)
    (hafter : w.request.after (fl :: own) =
        ⟨fl.seg.lo, w.request.seg.lo, fl.flType⟩ ::
          (lockSegs w.request.entry ++ ⟨w.request.seg.hi, fl.seg.hi, fl.flType⟩ :: lockSegs own))
    (hnodup : (w.newFl.toList ++ newFl2.toList ++ addrs (w.front ++ (fl :: own ++ post))).Nodup) :
    w.Result (fl :: own) post (w.newFl.toList ++ newFl2.toList)
      ((done (w.overlap fl) (some fl) (fl :: own ++ post)).finish exist newFl2) := by
  obtain ⟨⟨howner, hrange, hheld⟩, hown'⟩ := ownLocks_cons.mp hown
  obtain ⟨hrangeEnd, hsegEnd⟩ := hrange.trimEnd h.inRange hlo
  obtain ⟨hrangeStart, hsegStart⟩ := hrange.trimStart h.inRange hhi
  have hleft : (w.overlap fl).left = some fl.addr :=
    if_pos ((hrange.start_lt_iff h.inRange).mpr hlo)
  cases newFl2 with
  | none =>
    refine .inl ?_
    rw [finish, finishWalk, if_pos ⟨rfl, hleft, rfl⟩]
    rfl
  | some addr₂ =>
    have hcond : ¬ ((some fl).isSome = true ∧
        (w.overlap fl).left = (some fl).map addr ∧
        some addr₂ = none) := by
      rintro ⟨-, -, ⟨⟩⟩
    -- the locks between the two pieces
    have hplaced : ∀ mid : List (FileLock Owner), OwnLocks w.request.flOwner mid →
        lockSegs mid = lockSegs w.request.entry →
        (addr₂ :: addrs (w.front ++ (mid ++ fl :: (own ++ post)))).Nodup →
        Placed w w.front (fl :: own) post (addr₂ :: addrs mid) (w.request.after (fl :: own))
          (.ok, trimSides (w.overlap fl) (some fl) (some addr₂) w.front
            (mid ++ fl :: (own ++ post)))
          (trimEnd w.request { fl with addr := addr₂ } :: (mid ++ trimStart w.request fl :: own))
          (w.woken ++ [fl.addr] ++ [addr₂]) := by
      intro mid hmid hsegs hnodup'
      refine .of_perm ?_ ?_ ?_ ?_ (by simp) ?_
      · refine congrArg (Prod.mk LockRet.ok) ((trimSides_split hleft hnodup').trans ?_)
        simp [Walk.overlap]
      · exact ownLocks_cons.mpr ⟨⟨howner, { hrangeEnd with }, hheld⟩,
          ownLocks_append.mpr ⟨hmid, ownLocks_cons.mpr ⟨⟨howner, hrangeStart, hheld⟩, hown'⟩⟩⟩
      · simp [trimEnd, trimStart]
      · refine hnodup'.sublist (.cons_cons addr₂ ?_)
        simp
      · rw [hafter, ← hsegs, lockSegs_cons, lockSegs_append, lockSegs_cons, hsegStart]
        exact congrArg (· :: _) hsegEnd
    rw [finish, finishWalk, if_neg hcond]
    by_cases htype : w.request.flType = .unlck
    · have hadded : (w.overlap fl).added = true := by
        simp [Walk.overlap, htype]
      have hentry : w.request.entry = [] := if_pos htype
      rw [if_pos hadded]
      refine .of_placed (hplaced [] (ownLocks_nil _) (by rw [hentry]) ?_) (by simp)
      exact hnodup.sublist (by simp)
    have hadded : (w.overlap fl).added = false := by
      simp [Walk.overlap, htype, h.added]
    have hentry : w.request.entry = [w.request] := if_neg htype
    rw [hadded, if_neg Bool.false_ne_true, overlap_request, if_neg htype, overlap_newFl]
    cases hnew : w.newFl with
    | none => exact .inl rfl
    | some addr =>
      refine .of_placed (hplaced [w.newLock addr] ?_ (by rw [hentry]; rfl) ?_) (by simp)
      · exact ownLocks_cons.mpr ⟨⟨rfl, { h.inRange with }, htype⟩, ownLocks_nil _⟩
      rw [hnew] at hnodup
      rw [addrs_append, addrs_append, addrs_cons, addrs_nil, singleton_append, newLock_addr]
      refine (List.Perm.nodup_iff ?_).mpr hnodup
      refine (List.Perm.cons addr₂ perm_middle).trans ?_
      refine (List.Perm.swap addr addr₂ _).trans ?_
      simp

variable (htype : w.request.flType = .unlck) (news : List Nat)

include htype

theorem Walk.Start.unlock_none (own : List (FileLock Owner))
    (hafter : w.request.after own = lockSegs own) :
    w.Result own post news ((done w none (own ++ post)).finish exist newFl2) := by
  refine .inr (.inl ⟨if exist then .enoent else .ok, ?_,
    finish_unlock h.added htype exist newFl2 _, hafter⟩)
  cases exist <;> simp

variable [DecidableEq Owner]

/-- From the first lock that an unlock request overlaps, with the lock on its left. -/
theorem Walk.Start.unlock_run (left : Option (FileLock Owner))
    (hleftOwn : OwnLocks w.request.flOwner left.toList)
    (hleftLt : ∀ fl ∈ left, fl.seg.lo < w.request.seg.lo) (hown : OwnLocks w.request.flOwner own)
    (hsep : SepFrom w.request.seg.lo (lockSegs own))
    (hnodup : (addrs (w.front ++ left.toList ++ (own ++ post))).Nodup)
    (hsegs : lockSegs (left.toList.map (trimEnd w.request)) ++ w.request.after own =
      w.request.after (left.toList ++ own)) :
    w.Result (left.toList ++ own) post news
      ((walkLoop
          { w with
            front := w.front ++ left.toList
            added := true
            left := left.map addr }
          (own ++ post)).finish exist newFl2) := by
  have hentry : w.request.entry = [] := if_pos htype
  have hadded : Walk.Added
      { w with
        front := w.front ++ left.toList
        added := true
        left := left.map addr } w.front left post :=
    { front := by
        dsimp only
        rw [hentry, append_nil]
      added := rfl
      left_eq := rfl
      inRange := h.inRange
      leftOwn := hleftOwn
      leftLt := hleftLt
      post := h.post }
  obtain ⟨out, woken, happlied⟩ := hadded.run exist newFl2 hown hsep hnodup
  refine .of_placed (happlied.placed rfl ?_ ?_ ?_ hsegs) (nil_subset news)
  · refine hnodup.sublist ?_
    simp [hentry]
  · intro a ha
    exact .inl (by simpa [hentry] using ha)
  · intro a ha
    simpa [hentry] using ha

theorem Walk.Start.unlock_behind (hown : OwnLocks w.request.flOwner (fl :: own))
    (hsep : SepFrom w.request.seg.lo (lockSegs (fl :: own)))
    (hnodup : (addrs (w.front ++ (fl :: own ++ post))).Nodup) :
    w.Result (fl :: own) post news ((walkLoop w (fl :: own ++ post)).finish exist newFl2) := by
  obtain ⟨⟨howner, hrange, hheld⟩, -⟩ := ownLocks_cons.mp hown
  obtain ⟨hlo, hlt, -⟩ := id hsep
  have hbefore : ¬ fl.flEnd < w.request.flStart := by
    rw [hrange.end_lt_start_iff h.inRange]
    omega
  by_cases hbehind : w.request.flEnd < fl.flStart
  · have hne : ¬ w.request.flType = fl.flType := fun heq => hheld (heq ▸ htype)
    rw [cons_append, walkLoop, if_neg (by simp [posixSameOwner, howner]), if_neg hne,
      if_neg hbefore, if_pos hbehind]
    refine h.unlock_none exist newFl2 htype news _ ?_
    have hgap := (h.inRange.end_lt_start_iff hrange).mp hbehind
    rw [FileLock.after, htype, lockSegs_cons, put, if_neg (by rintro ⟨⟩), if_neg (by omega),
      if_pos hgap]
    rfl
  · have hrun := h.unlock_run exist newFl2 htype news none (ownLocks_nil _) (by rintro _ ⟨⟩) hown
      hsep (by simpa using hnodup) rfl
    simp only [Option.toList_none, append_nil, Option.map_none, ← h.left] at hrun
    rw [cons_append, walkLoop_unlock htype ⟨howner, hheld⟩ hbefore hbehind]
    exact hrun

omit htype

theorem Walk.Start.lock_behind (htype : w.request.flType ≠ .unlck)
    (hown : OwnLocks w.request.flOwner own) (hsep : SepFrom w.request.seg.lo (lockSegs own))
    (hnodup : (w.newFl.toList ++ newFl2.toList ++ addrs (w.front ++ (own ++ post))).Nodup) :
    w.Result own post (w.newFl.toList ++ newFl2.toList)
      ((walkLoop w (own ++ post)).finish exist newFl2) := by
  refine .of_ends ((h.fresh htype).run exist newFl2 hown hsep ?_) rfl rfl rfl
    (subset_append_left _ _) rfl
  refine hnodup.sublist ?_
  simp

theorem Walk.Start.left_only (hown : OwnLocks w.request.flOwner (fl :: own))
    (hlo : fl.seg.lo < w.request.seg.lo)
    (hsep : SepFrom w.request.seg.lo (lockSegs own))
    (hafter : w.request.after (fl :: own) =
        [⟨fl.seg.lo, w.request.seg.lo, fl.flType⟩] ++ w.request.after own)
    (hnodup : (w.newFl.toList ++ newFl2.toList ++ addrs (w.front ++ (fl :: own ++ post))).Nodup) :
    w.Result (fl :: own) post (w.newFl.toList ++ newFl2.toList)
      ((walkLoop { w.overlap fl with front := w.front ++ [fl] }
        (own ++ post)).finish exist newFl2) := by
  obtain ⟨hfl, hown'⟩ := ownLocks_cons.mp hown
  have hflOwn : OwnLocks w.request.flOwner (some fl).toList :=
    ownLocks_cons.mpr ⟨hfl, ownLocks_nil _⟩
  have hflLt : ∀ fl' ∈ some fl, fl'.seg.lo < w.request.seg.lo := by
    rintro fl' ⟨⟩
    exact hlo
  have hstart : fl.flStart < w.request.flStart := (hfl.2.1.start_lt_iff h.inRange).mpr hlo
  have hsegs : lockSegs ((some fl).toList.map (trimEnd w.request)) ++
      w.request.after own = w.request.after (fl :: own) := by
    rw [hafter]
    exact congrArg (· :: _) (hfl.2.1.trimEnd h.inRange hlo).2
  have hsub : (addrs (w.front ++ (fl :: own ++ post))).Nodup :=
    hnodup.sublist (sublist_append_right _ _)
  by_cases htype : w.request.flType = .unlck
  · have hoverlap : { w.overlap fl with front := w.front ++ [fl] } =
        { w with
          front := w.front ++ (some fl).toList
          added := true
          left := (some fl).map addr } := by
      simp [Walk.overlap, htype, hstart]
    rw [hoverlap]
    exact h.unlock_run exist newFl2 htype _ (some fl) hflOwn hflLt hown' hsep
      (by simpa using hsub) hsegs
  have hoverlap : { w.overlap fl with front := w.front ++ [fl] } =
      { w with
        front := w.front ++ (some fl).toList
        left := (some fl).map addr } := by
    simp [Walk.overlap, htype, hstart]
  have hfresh : Walk.Fresh
      { w with
        front := w.front ++ (some fl).toList
        left := (some fl).map addr } w.front (some fl) post :=
    ⟨rfl, h.added, rfl, h.inRange, htype, hflOwn, hflLt, h.post⟩
  rw [hoverlap]
  refine .of_ends (hfresh.run exist newFl2 hown' hsep ?_) rfl rfl ?_ (subset_append_left _ _) hsegs
  · refine hnodup.sublist ?_
    simp
  · simp

theorem Walk.Start.run (hown : OwnLocks w.request.flOwner own) {b : Nat}
    (hsep : SepFrom b (lockSegs own))
    (hnodup : (w.newFl.toList ++ newFl2.toList ++ addrs (w.front ++ (own ++ post))).Nodup) :
    w.Result own post (w.newFl.toList ++ newFl2.toList)
      ((walkLoop w (own ++ post)).finish exist newFl2) := by
  induction own generalizing w b with
  | nil =>
    by_cases htype : w.request.flType = .unlck
    · rw [nil_append, walkLoop_end h.post]
      refine h.unlock_none exist newFl2 htype _ [] ?_
      rw [FileLock.after, htype]
      rfl
    · exact h.lock_behind exist newFl2 htype hown trivial hnodup
  | cons fl own ih =>
    obtain ⟨⟨howner, hrange, hheld⟩, hown'⟩ := ownLocks_cons.mp hown
    obtain ⟨-, hlt, hsep'⟩ := hsep
    have hsub : (addrs (w.front ++ (fl :: own ++ post))).Nodup :=
      hnodup.sublist (sublist_append_right _ _)
    by_cases hlo : w.request.seg.lo ≤ fl.seg.lo
    · by_cases htype : w.request.flType = .unlck
      · exact h.unlock_behind exist newFl2 htype _ hown ⟨hlo, hlt, hsep'⟩ hsub
      · exact h.lock_behind exist newFl2 htype hown ⟨hlo, hlt, hsep'⟩ hnodup
    have hlo' : fl.seg.lo < w.request.seg.lo := not_le.mp hlo
    have hreq : w.request.seg.lo < w.request.seg.hi :=
      Nat.lt_succ_of_le (Int.toNat_le_toNat h.inRange.le)
    have hafter : w.request.after (fl :: own) =
        put w.request.seg.lo w.request.seg.hi w.request.flType.held (fl.seg :: lockSegs own) := rfl
    have hval : w.request.flType.held = some fl.seg.val ↔
        w.request.flType = fl.flType := LockType.held_eq_some hheld
    -- a lock that the request does not touch
    have hskip : w.request.after (fl :: own) = fl.seg :: w.request.after own →
        w.Result (fl :: own) post (w.newFl.toList ++ newFl2.toList)
          ((walkLoop { w with front := w.front ++ [fl] } (own ++ post)).finish exist newFl2) := by
      intro hafter
      refine .skip (ih ?_ hown' hsep' ?_) hown hafter ?_
      · exact { h with }
      · simpa using hnodup
      · obtain ⟨-, hlocks, hdisj⟩ := nodup_append.mp hnodup
        rw [addrs_append, cons_append, addrs_cons, addrs_append] at hlocks
        have hfl := (nodup_cons.mp (nodup_append.mp hlocks).2.1).1
        refine ⟨fun hmem => hfl (mem_append_left _ hmem), ?_⟩
        exact fun hmem => hdisj _ hmem fl.addr (by simp) rfl
    simp only [put, hval] at hafter
    rw [cons_append, walkLoop, if_neg (by simp [posixSameOwner, howner])]
    simp only [InRange.end_lt_iff, InRange.end_lt_start_iff, InRange.end_lt_end_iff, hrange,
      h.inRange]
    by_cases htype : w.request.flType = fl.flType
    · rw [if_pos htype] at hafter ⊢
      have hnotUnlck : w.request.flType ≠ .unlck := htype ▸ hheld
      by_cases hgap : fl.seg.hi < w.request.seg.lo
      · rw [if_pos hgap] at hafter ⊢
        exact hskip hafter
      rw [if_neg hgap, if_neg (by omega)] at hafter ⊢
      rw [h.added, if_neg Bool.false_ne_true]
      obtain ⟨out, woken, hplaced⟩ :=
        (h.fresh hnotUnlck).join exist newFl2 hown htype hsep' (.inl rfl) hsub []
      exact .of_placed (hafter.symm ▸ hplaced) (nil_subset _)
    rw [if_neg htype] at hafter ⊢
    by_cases hgap : fl.seg.hi ≤ w.request.seg.lo
    · rw [if_pos hgap] at hafter ⊢
      exact hskip hafter
    rw [if_neg hgap, if_neg (by omega)] at hafter ⊢
    rw [piece, if_pos hlo'] at hafter
    by_cases hright : w.request.seg.hi < fl.seg.hi
    · rw [if_pos hright] at hafter ⊢
      refine h.split exist newFl2 hown hlo' hright ?_ hnodup
      rw [hafter, lockSegs_entry]
      rfl
    rw [if_neg hright] at hafter ⊢
    rw [if_neg (Int.not_le.mpr ((hrange.start_lt_iff h.inRange).mpr hlo'))]
    exact h.left_only exist newFl2 hown hlo' (hsep'.mono (by omega)) hafter hnodup

end LinuxKernel.Fs
