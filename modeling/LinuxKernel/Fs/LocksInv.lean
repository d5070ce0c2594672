import LinuxKernel.Fs.LocksApply

/-!
# The invariant of POSIX locks

The locks of each inode are grouped by owner; the locks of an owner are sorted, disjoint and
merged; and locks of different owners do not conflict.  A call that returns 0 gives all offsets of
the request its type, for its owner only.
-/

namespace LinuxKernel.Fs

open Lib List

section Grouped

variable {Owner : Type}

/-- The locks of each owner are next to each other. -/
def Grouped (locks : List (FileLock Owner)) : Prop :=
  ∃ groups : List (Owner × List (FileLock Owner)),
    locks = groups.flatMap Prod.snd ∧ (groups.map Prod.fst).Nodup ∧
      ∀ g ∈ groups, g.2 ≠ [] ∧ ∀ fl ∈ g.2, fl.flOwner = g.1

/-- The locks of one owner, between others. -/
structure OwnerSplit (o : Owner) (locks pre own post : List (FileLock Owner)) : Prop where
  eq : locks = pre ++ (own ++ post)
  ofOwn : ∀ fl ∈ own, fl.flOwner = o
  ofPre : ∀ fl ∈ pre, fl.flOwner ≠ o
  ofPost : ∀ fl ∈ post, fl.flOwner ≠ o
  nil : own = [] → post = []
  regroup : ∀ out, (∀ fl ∈ out, fl.flOwner = o) → Grouped (pre ++ (out ++ post))

theorem mem_groups_owner {o : Owner} {groups : List (Owner × List (FileLock Owner))}
    (hgroups : ∀ g ∈ groups, g.2 ≠ [] ∧ ∀ fl ∈ g.2, fl.flOwner = g.1)
    (ho : o ∉ groups.map Prod.fst) : ∀ fl ∈ groups.flatMap Prod.snd, fl.flOwner ≠ o := by
  intro fl hfl heq
  obtain ⟨g, hg, hmem⟩ := mem_flatMap.mp hfl
  refine ho (mem_map.mpr ⟨g, hg, ?_⟩)
  rw [← heq, (hgroups g hg).2 fl hmem]

theorem Grouped.split {locks : List (FileLock Owner)} (h : Grouped locks) (o : Owner) :
    ∃ pre own post, OwnerSplit o locks pre own post := by
  obtain ⟨groups, rfl, hnodup, hgroups⟩ := h
  by_cases ho : o ∈ groups.map Prod.fst
  · obtain ⟨⟨o', own⟩, hmem, rfl⟩ := mem_map.mp ho
    obtain ⟨gs₁, gs₂, rfl⟩ := append_of_mem hmem
    rw [map_append, map_cons, perm_middle.nodup_iff] at hnodup
    obtain ⟨hnot, hnodup'⟩ := nodup_cons.mp hnodup
    rw [mem_append, not_or] at hnot
    have hgs1 : ∀ g ∈ gs₁, g.2 ≠ [] ∧ ∀ fl ∈ g.2, fl.flOwner = g.1 :=
      fun g hg => hgroups g (mem_append_left _ hg)
    have hgs2 : ∀ g ∈ gs₂, g.2 ≠ [] ∧ ∀ fl ∈ g.2, fl.flOwner = g.1 :=
      fun g hg => hgroups g (mem_append_right _ (mem_cons_of_mem _ hg))
    obtain ⟨hne, hown⟩ := hgroups (o', own) hmem
    refine ⟨gs₁.flatMap Prod.snd, own, gs₂.flatMap Prod.snd, ?_, hown,
      mem_groups_owner hgs1 hnot.1, mem_groups_owner hgs2 hnot.2, ?_, ?_⟩
    · rw [flatMap_append, flatMap_cons]
    · exact fun hnil => absurd hnil hne
    intro out hout
    by_cases hnil : out = []
    · refine ⟨gs₁ ++ gs₂, ?_, ?_, ?_⟩
      · rw [hnil, flatMap_append, nil_append]
      · rw [map_append]
        exact hnodup'
      · exact forall_mem_append.mpr ⟨hgs1, hgs2⟩
    refine ⟨gs₁ ++ (o', out) :: gs₂, ?_, ?_, ?_⟩
    · rw [flatMap_append, flatMap_cons]
    · rw [map_append, map_cons, perm_middle.nodup_iff]
      exact hnodup
    · exact forall_mem_append.mpr ⟨hgs1, forall_mem_cons.mpr ⟨⟨hnil, hout⟩, hgs2⟩⟩
  refine ⟨groups.flatMap Prod.snd, [], [], ?_, nofun,
    mem_groups_owner hgroups ho, nofun, fun _ => rfl, ?_⟩
  · simp
  intro out hout
  by_cases hnil : out = []
  · refine ⟨groups, ?_, hnodup, hgroups⟩
    rw [hnil, append_nil, append_nil]
  refine ⟨groups ++ [(o, out)], ?_, ?_, ?_⟩
  · simp
  · rw [map_append, map_singleton, nodup_append]
    refine ⟨hnodup, pairwise_singleton _ o, ?_⟩
    rintro a ha b hb rfl
    rw [mem_singleton.mp hb] at ha
    exact ho ha
  · exact forall_mem_append.mpr ⟨hgroups, forall_mem_singleton.mpr ⟨hnil, hout⟩⟩

theorem nodup_replace {news l₁ l l₂ out : List Nat} (h : (news ++ (l₁ ++ (l ++ l₂))).Nodup)
    (hout : out.Nodup) (hsub : ∀ a ∈ out, a ∈ l ∨ a ∈ news) : (l₁ ++ (out ++ l₂)).Nodup := by
  simp only [nodup_append, mem_append] at h ⊢
  grind

theorem valAt_after {request : FileLock Owner} {own : List (FileLock Owner)}
    (hreq : request.InRange) (hsep : SepFrom 0 (lockSegs own)) (x : Nat) :
    valAt (request.after own) x =
      if request.flStart ≤ x ∧ (x : Int) ≤ request.flEnd then
        request.flType.held
      else valAt (lockSegs own) x := by
  obtain ⟨hstart, hle, -⟩ := hreq
  rw [FileLock.after, valAt_put hsep (by unfold FileLock.seg; dsimp only; omega)]
  congr 1
  unfold FileLock.seg
  dsimp only
  exact propext (by omega)

end Grouped

variable {Owner : Type} [DecidableEq Owner]

def locksOf (locks : List (FileLock Owner)) (o : Owner) : List (FileLock Owner) :=
  locks.filter (fun fl => fl.flOwner = o)

/-- The type of the lock of an owner at an offset. -/
def typeAt (locks : List (FileLock Owner)) (o : Owner) (x : Nat) : Option LockType :=
  valAt (lockSegs (locksOf locks o)) x

/-- The invariant of `flc_posix`. -/
structure PosixOk (locks : List (FileLock Owner)) : Prop where
  grouped : Grouped locks
  inRange : ∀ fl ∈ locks, fl.InRange
  held : ∀ fl ∈ locks, fl.flType ≠ .unlck
  sorted : ∀ o, SepFrom 0 (lockSegs (locksOf locks o))
  merged : ∀ o, Merged (lockSegs (locksOf locks o))
  compatible : ∀ fl₁ ∈ locks, ∀ fl₂ ∈ locks, posixLocksConflict fl₁ fl₂ = false

variable {o o' : Owner} {locks pre own post : List (FileLock Owner)}

theorem filter_owner_nil (h : ∀ fl ∈ own, fl.flOwner ≠ o) :
    own.filter (fun fl => fl.flOwner = o) = [] :=
  filter_eq_nil_iff.mpr (fun fl hfl => by simpa using h fl hfl)

variable {out : List (FileLock Owner)} {request fl₁ fl₂ fl : FileLock Owner}

variable (h : OwnerSplit o locks pre own post)

include h

theorem OwnerSplit.locksOf (hout : ∀ fl ∈ out, fl.flOwner = o) :
    Fs.locksOf (pre ++ (out ++ post)) o = out := by
  unfold Fs.locksOf
  rw [filter_append, filter_append, filter_owner_nil h.ofPre, filter_owner_nil h.ofPost,
    filter_eq_self.mpr fun fl hfl => decide_eq_true (hout fl hfl), append_nil, nil_append]

theorem OwnerSplit.locksOf_self : Fs.locksOf locks o = own :=
  h.eq ▸ h.locksOf h.ofOwn

omit [DecidableEq Owner] in
theorem OwnerSplit.mem_locks (hfl : fl ∈ own) : fl ∈ locks :=
  h.eq ▸ mem_append_right _ (mem_append_left _ hfl)

theorem OwnerSplit.locksOf_ne (hout : ∀ fl ∈ out, fl.flOwner = o) (hne : o' ≠ o) :
    Fs.locksOf (pre ++ (out ++ post)) o' = Fs.locksOf locks o' := by
  have hskip : ∀ {l : List (FileLock Owner)}, (∀ fl ∈ l, fl.flOwner = o) →
      l.filter (fun fl => fl.flOwner = o') = [] := fun hl =>
    filter_owner_nil (fun fl hfl heq => hne (heq.symm.trans (hl fl hfl)))
  unfold Fs.locksOf
  rw [h.eq]
  simp only [filter_append, hskip hout, hskip h.ofOwn]

omit h

/-- Where the loops of `__posix_lock_file()` find the owner's locks. -/
theorem OwnerSplit.walk (h : OwnerSplit request.flOwner locks pre own post) :
    locks.takeWhile (fun fl => !posixSameOwner request fl) = pre ∧
      locks.dropWhile (fun fl => !posixSameOwner request fl) = own ++ post := by
  have hpre : ∀ fl ∈ pre, (!posixSameOwner request fl) = true := by
    intro fl hfl
    simp [posixSameOwner, Ne.symm (h.ofPre fl hfl)]
  rw [h.eq, takeWhile_append_of_pos hpre, dropWhile_append_of_pos hpre]
  cases own with
  | nil =>
    rw [h.nil rfl]
    simp
  | cons fl own =>
    have hfl : (!posixSameOwner request fl) = false := by
      simp [posixSameOwner, h.ofOwn fl mem_cons_self]
    rw [cons_append, takeWhile_cons, dropWhile_cons, hfl]
    simp

theorem posixLocksConflict_iff (h1 : fl₁.InRange) (h2 : fl₂.InRange) :
    posixLocksConflict fl₁ fl₂ = true ↔
      fl₁.flOwner ≠ fl₂.flOwner ∧
        (∃ x, (fl₁.seg.lo ≤ x ∧ x < fl₁.seg.hi) ∧ fl₂.seg.lo ≤ x ∧ x < fl₂.seg.hi) ∧
        (fl₂.flType = .wrlck ∨ fl₁.flType = .wrlck) := by
  have hoverlap : locksOverlap fl₁ fl₂ = true ↔
      ∃ x, (fl₁.seg.lo ≤ x ∧ x < fl₁.seg.hi) ∧ fl₂.seg.lo ≤ x ∧ x < fl₂.seg.hi := by
    obtain ⟨h11, h12, -⟩ := h1
    obtain ⟨h21, h22, -⟩ := h2
    unfold locksOverlap FileLock.seg
    rw [decide_eq_true_iff]
    dsimp only
    constructor
    · intro h
      exact ⟨max fl₁.flStart.toNat fl₂.flStart.toNat, by omega⟩
    · rintro ⟨x, hx⟩
      omega
  unfold posixLocksConflict
  rw [← hoverlap]
  simp only [posixSameOwner, locksConflict]
  by_cases howner : fl₁.flOwner = fl₂.flOwner
  · simp [howner]
  · by_cases hover : locksOverlap fl₁ fl₂ = true <;> simp [howner, hover]

theorem posixLocksConflict_symm (h1 : fl₁.InRange) (h2 : fl₂.InRange)
    (h : posixLocksConflict fl₁ fl₂ = false) : posixLocksConflict fl₂ fl₁ = false := by
  rw [← Bool.not_eq_true] at h ⊢
  rw [posixLocksConflict_iff h1 h2] at h
  rw [posixLocksConflict_iff h2 h1]
  rintro ⟨howner, ⟨x, hx2, hx1⟩, htype⟩
  exact h ⟨.symm howner, ⟨x, hx1, hx2⟩, htype.symm⟩

theorem not_conflict_of_owner (h : fl₁.flOwner = fl₂.flOwner) :
    posixLocksConflict fl₁ fl₂ = false := by
  simp [posixLocksConflict, posixSameOwner, h]

theorem PosixOk.of_put (h : PosixOk locks) (hsplit : OwnerSplit request.flOwner locks pre own post)
    (hreq : request.InRange)
    (hconflict : request.flType ≠ .unlck → ∀ fl ∈ locks, posixLocksConflict request fl = false)
    (hout : OwnLocks request.flOwner out) (hsegs : lockSegs out = request.after own) :
    PosixOk (pre ++ (out ++ post)) := by
  have hlt : request.seg.lo < request.seg.hi := Nat.lt_succ_of_le (Int.toNat_le_toNat hreq.le)
  have hsep := h.sorted request.flOwner
  have hmerged := h.merged request.flOwner
  rw [hsplit.locksOf_self] at hsep hmerged
  have hother : ∀ fl, fl ∈ pre ∨ fl ∈ post → fl ∈ locks := by
    intro fl hfl
    rw [hsplit.eq]
    simp only [mem_append]
    tauto
  have hmem : ∀ fl ∈ pre ++ (out ++ post), fl ∈ out ∨ fl ∈ locks := by
    intro fl hfl
    simp only [mem_append] at hfl
    rcases hfl with hfl | hfl | hfl
    · exact .inr (hother fl (.inl hfl))
    · exact .inl hfl
    · exact .inr (hother fl (.inr hfl))
  -- a lock that has been changed, and a lock of another owner
  have hnew : ∀ fl ∈ out, ∀ fl' ∈ locks, posixLocksConflict fl fl' = false := by
    intro fl hfl fl' hfl'
    rw [← Bool.not_eq_true, posixLocksConflict_iff (hout.inRange fl hfl) (h.inRange fl' hfl')]
    rintro ⟨howner, ⟨x, hx, hx'⟩, htype⟩
    have hsepOut : SepFrom 0 (lockSegs out) := by
      rw [hsegs]
      exact hsep.put (Nat.zero_le _) hlt _
    have hval : valAt (lockSegs out) x = some fl.flType :=
      valAt_of_mem hsepOut (mem_map_of_mem hfl) hx.1 hx.2
    rw [hsegs, FileLock.after, valAt_put hsep hlt] at hval
    split at hval
    · next hin =>
      have htype' := (LockType.held_eq_some (hout.held fl hfl)).mp hval
      have hno := hconflict (htype' ▸ hout.held fl hfl) fl' hfl'
      rw [← Bool.not_eq_true, posixLocksConflict_iff hreq (h.inRange fl' hfl')] at hno
      refine hno ⟨?_, ⟨x, hin, hx'⟩, htype' ▸ htype⟩
      rw [← hout.owner fl hfl]
      exact howner
    obtain ⟨s, hs, hlo, hhi, hval⟩ := mem_of_valAt hval
    obtain ⟨fl₀, hfl0, rfl⟩ := mem_map.mp hs
    have hmem0 := hsplit.mem_locks hfl0
    have hno := h.compatible fl₀ hmem0 fl' hfl'
    rw [← Bool.not_eq_true, posixLocksConflict_iff (h.inRange fl₀ hmem0)
      (h.inRange fl' hfl')] at hno
    have htype0 : fl₀.flType = fl.flType := hval
    refine hno ⟨?_, ⟨x, ⟨hlo, hhi⟩, hx'⟩, htype0 ▸ htype⟩
    rw [hsplit.ofOwn fl₀ hfl0, ← hout.owner fl hfl]
    exact howner
  refine ⟨hsplit.regroup out hout.owner, ?_, ?_, ?_, ?_, ?_⟩
  · intro fl hfl
    exact (hmem fl hfl).elim (hout.inRange fl) (h.inRange fl)
  · intro fl hfl
    exact (hmem fl hfl).elim (hout.held fl) (h.held fl)
  · intro o
    by_cases ho : o = request.flOwner
    · rw [ho, hsplit.locksOf hout.owner, hsegs]
      exact hsep.put (Nat.zero_le _) hlt _
    · rw [hsplit.locksOf_ne hout.owner ho]
      exact h.sorted o
  · intro o
    by_cases ho : o = request.flOwner
    · rw [ho, hsplit.locksOf hout.owner, hsegs]
      exact hmerged.put hsep hlt _
    · rw [hsplit.locksOf_ne hout.owner ho]
      exact h.merged o
  intro fl₁ hfl1 fl₂ hfl2
  rcases hmem fl₁ hfl1 with h1 | h1
  · rcases hmem fl₂ hfl2 with h2 | h2
    · exact not_conflict_of_owner ((hout.owner fl₁ h1).trans (hout.owner fl₂ h2).symm)
    · exact hnew fl₁ h1 fl₂ h2
  · rcases hmem fl₂ hfl2 with h2 | h2
    · exact posixLocksConflict_symm (hout.inRange fl₂ h2) (h.inRange fl₁ h1) (hnew fl₂ h2 fl₁ h1)
    · exact h.compatible fl₁ h1 fl₂ h2

/-- What `__posix_lock_file()` does to the locks of an inode without a conflict. -/
structure Requested (locks : List (FileLock Owner)) (request : FileLock Owner)
    (news : List Nat) (ret : LockRet) (locks' : List (FileLock Owner))
    (woken : List Nat) : Prop where
  ok : PosixOk locks'
  types : ∀ o x,
      typeAt locks' o x =
        if ret = .ok ∧ o = request.flOwner ∧ request.flStart ≤ x ∧ (x : Int) ≤ request.flEnd then
          request.flType.held
        else typeAt locks o x
  unchanged : ret ≠ .ok → locks' = locks
  nodup : (addrs locks').Nodup
  sub : ∀ fl ∈ locks', fl.addr ∈ addrs locks ∨ fl.addr ∈ news
  kept :
    ∀ fl ∈ locks, fl.addr ∈ woken ∨ ∃ fl' ∈ locks', fl'.addr = fl.addr ∧ fl'.flOwner = fl.flOwner

theorem Requested.refl (h : PosixOk locks) (hnodup : (addrs locks).Nodup) (request : FileLock Owner)
    (news : List Nat) {ret : LockRet}
    (htypes : ret = .ok → ∀ x : Nat,
        request.flStart ≤ x → (x : Int) ≤ request.flEnd →
          typeAt locks request.flOwner x = request.flType.held) (woken : List Nat) :
    Requested locks request news ret locks woken where
  ok := h
  types := by
    intro o x
    split
    · next hx =>
      obtain ⟨hret, rfl, hlo, hhi⟩ := hx
      exact htypes hret x hlo hhi
    · rfl
  unchanged := fun _ => rfl
  nodup := hnodup
  sub := fun _ hfl => .inl (mem_map_of_mem hfl)
  kept := fun fl hfl => .inr ⟨fl, hfl, rfl, rfl⟩

theorem applyRequest_requested (h : PosixOk locks) (hreq : request.InRange)
    (hconflict :
      request.flType ≠ .unlck → ∀ fl ∈ locks, posixLocksConflict request fl = false) (exist : Bool)
    {newFl newFl2 : Option Nat} (hnodup : (newFl.toList ++ newFl2.toList ++ addrs locks).Nodup) :
    ∃ ret locks' woken, applyRequest locks request exist newFl newFl2 = (ret, locks', woken) ∧
        Requested locks request (newFl.toList ++ newFl2.toList) ret locks' woken := by
  obtain ⟨pre, own, post, hsplit⟩ := h.grouped.split request.flOwner
  obtain ⟨htake, hdrop⟩ := hsplit.walk
  have hlocks : (addrs locks).Nodup := hnodup.sublist (sublist_append_right _ _)
  have hown := hsplit.locksOf_self
  have hsep := h.sorted request.flOwner
  rw [hown] at hsep
  have hownLocks : OwnLocks request.flOwner own :=
    ⟨hsplit.ofOwn, fun fl hfl => h.inRange fl (hsplit.mem_locks hfl),
      fun fl hfl => h.held fl (hsplit.mem_locks hfl)⟩
  have hstart : Walk.Start ⟨pre, request, false, none, newFl, []⟩ post :=
    ⟨rfl, rfl, hreq, fun fl hfl => hsplit.ofPost fl (mem_of_mem_head? hfl)⟩
  have hnodup' : (newFl.toList ++ newFl2.toList ++ addrs (pre ++ (own ++ post))).Nodup := by
    rw [← hsplit.eq]
    exact hnodup
  unfold applyRequest
  simp only [htake, hdrop]
  rcases hstart.run exist newFl2 hownLocks hsep hnodup' with
    hrun | ⟨ret, -, hrun, hafter⟩ | ⟨out, woken, hplaced⟩
  · refine ⟨.enolck, locks, [], ?_, .refl h hlocks request _ (by rintro ⟨⟩) _⟩
    rw [hrun, ← hsplit.eq]
  · refine ⟨ret, locks, [], ?_, .refl h hlocks request _ ?_ _⟩
    · rw [hrun, ← hsplit.eq]
    · intro _ x hlo hhi
      rw [typeAt, hown, ← hafter, valAt_after hreq hsep, if_pos ⟨hlo, hhi⟩]
  refine ⟨.ok, pre ++ (out ++ post), woken, hplaced.returns,
    h.of_put hsplit hreq hconflict hplaced.ownLocks hplaced.segs_eq, ?_,
    fun hne => absurd rfl hne, ?_, ?_, ?_⟩
  · intro o x
    unfold typeAt
    by_cases ho : o = request.flOwner
    · rw [ho, hsplit.locksOf hplaced.ownLocks.owner, hplaced.segs_eq, valAt_after hreq hsep, hown]
      simp
    · rw [hsplit.locksOf_ne hplaced.ownLocks.owner ho, if_neg (fun hx => ho hx.2.1)]
  · rw [addrs_append, addrs_append] at hnodup' ⊢
    exact nodup_replace hnodup' hplaced.nodup hplaced.sub
  · intro fl hfl
    rw [hsplit.eq]
    simp only [mem_append, addrs_append] at hfl ⊢
    rcases hfl with hfl | hfl | hfl
    · exact .inl (.inl (mem_map_of_mem hfl))
    · exact (hplaced.sub _ (mem_map_of_mem hfl)).imp (fun hmem => .inr (.inl hmem)) mem_append.mp
    · exact .inl (.inr (.inr (mem_map_of_mem hfl)))
  intro fl hfl
  rw [hsplit.eq] at hfl
  rcases mem_append.mp hfl with hpre | hfl
  · exact .inr ⟨fl, mem_append_left _ hpre, rfl, rfl⟩
  rcases mem_append.mp hfl with hfl | hpost
  · rcases hplaced.kept fl.addr (.inl (mem_map_of_mem hfl)) with
      hmem | hmem
    · obtain ⟨fl', hfl', haddr⟩ := mem_map.mp hmem
      refine .inr ⟨fl', by simp [hfl'], haddr, ?_⟩
      rw [hplaced.ownLocks.owner fl' hfl', hsplit.ofOwn fl hfl]
    · exact .inl hmem
  · exact .inr ⟨fl, by simp [hpost], rfl, rfl⟩

end LinuxKernel.Fs
