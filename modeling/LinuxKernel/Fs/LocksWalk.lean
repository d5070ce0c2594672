import LinuxKernel.Fs.Locks
import LinuxKernel.Lib.SegPut

/-!
# The loop over the locks of an owner

What `__posix_lock_file()` makes of the locks of one owner, as an operation on the map from
offsets to lock types.  Up to the first change of the list the loop only looks for the place; from
then on (`Walk.Added`) all that follows begins behind the start of the request.
-/

namespace LinuxKernel.Fs

open Lib List FileLock WalkEnd

theorem loff_eq {x : Int} (hlo : -1 ≤ x) (hhi : x ≤ offsetMax) : loff x = x := by
  unfold loff offsetMax at *
  rw [Int.bmod_eq_of_le] <;> omega

variable {Owner : Type}

/-- The offsets of a lock are offsets, and there is one. -/
structure FileLock.InRange (fl : FileLock Owner) : Prop where
  start : 0 ≤ fl.flStart
  le : fl.flStart ≤ fl.flEnd
  stop : fl.flEnd ≤ offsetMax

def FileLock.seg (fl : FileLock Owner) : Seg LockType where
  lo := fl.flStart.toNat
  hi := fl.flEnd.toNat + 1
  val := fl.flType

/-- The map that a list of locks stands for. -/
def lockSegs (locks : List (FileLock Owner)) : List (Seg LockType) :=
  locks.map FileLock.seg

def addrs (locks : List (FileLock Owner)) : List Nat :=
  locks.map FileLock.addr

/-- The type that the offsets of a request get. -/
def LockType.held : LockType → Option LockType
  | .unlck => none
  | type => some type

theorem LockType.held_eq_some {a b : LockType} (hb : b ≠ .unlck) : a.held = some b ↔ a = b := by
  cases a <;> cases b <;> simp_all [LockType.held]

@[simp]
theorem lockSegs_nil : lockSegs ([] : List (FileLock Owner)) = [] :=
  rfl

variable {fl : FileLock Owner} {locks l₁ l₂ : List (FileLock Owner)}

@[simp]
theorem lockSegs_cons : lockSegs (fl :: locks) = fl.seg :: lockSegs locks :=
  rfl

@[simp]
theorem lockSegs_append : lockSegs (l₁ ++ l₂) = lockSegs l₁ ++ lockSegs l₂ :=
  map_append

@[simp]
theorem addrs_nil : addrs ([] : List (FileLock Owner)) = [] :=
  rfl

@[simp]
theorem addrs_cons : addrs (fl :: locks) = fl.addr :: addrs locks :=
  rfl

@[simp]
theorem addrs_append : addrs (l₁ ++ l₂) = addrs l₁ ++ addrs l₂ :=
  map_append

section Modify

variable {locks : List (FileLock Owner)} (f : FileLock Owner → FileLock Owner)

@[simp]
theorem modifyLock_append (addr : Nat) (l₁ l₂ : List (FileLock Owner)) :
    modifyLock addr f (l₁ ++ l₂) = modifyLock addr f l₁ ++ modifyLock addr f l₂ :=
  map_append

theorem modifyLock_of_not_mem {addr : Nat} (h : addr ∉ addrs locks) :
    modifyLock addr f locks = locks := by
  induction locks with
  | nil => rfl
  | cons fl locks ih =>
    rw [addrs_cons, mem_cons, not_or] at h
    rw [modifyLock, map_cons, if_neg (Ne.symm h.1)]
    exact congrArg _ (ih h.2)

end Modify

variable {fl : FileLock Owner}

@[simp]
theorem joinLock_addr (fl request lock : FileLock Owner) :
    (joinLock fl request lock).addr = lock.addr :=
  rfl

section Tests

variable {request : FileLock Owner} (hfl : fl.InRange) (hreq : request.InRange)

include hfl hreq

theorem FileLock.InRange.end_lt_iff :
    fl.flEnd < loff (request.flStart - 1) ↔ fl.seg.hi < request.seg.lo := by
  obtain ⟨h1, h2, -⟩ := hfl
  obtain ⟨h3, h4, h5⟩ := hreq
  rw [loff_eq (by omega) (by omega)]
  simp only [seg]
  omega

theorem FileLock.InRange.end_lt_start_iff :
    fl.flEnd < request.flStart ↔ fl.seg.hi ≤ request.seg.lo := by
  obtain ⟨h1, h2, -⟩ := hfl
  have h3 := hreq.start
  simp only [seg]
  omega

theorem FileLock.InRange.start_lt_iff :
    fl.flStart < request.flStart ↔ fl.seg.lo < request.seg.lo := by
  have h1 := hfl.start
  have h2 := hreq.start
  simp only [seg]
  omega

omit hreq in
theorem FileLock.InRange.end_lt_end_iff :
    fl.flEnd < request.flEnd ↔ fl.seg.hi < request.seg.hi := by
  obtain ⟨h1, h2, -⟩ := hfl
  simp only [seg]
  omega

theorem joinLock_start (hle : request.seg.lo ≤ fl.seg.lo) (lock : FileLock Owner) :
    (joinLock fl request lock).flStart = request.flStart := by
  have hle' : request.flStart ≤ fl.flStart :=
    Int.not_lt.mp (mt (hfl.start_lt_iff hreq).mp (not_lt.mpr hle))
  unfold joinLock
  dsimp only
  split <;> omega

theorem FileLock.InRange.join (lock : FileLock Owner) :
    (joinLock fl request lock).InRange ∧
      (joinLock fl request lock).seg =
        ⟨min request.seg.lo fl.seg.lo, max request.seg.hi fl.seg.hi, lock.flType⟩ := by
  obtain ⟨h1, h2, h3⟩ := hfl
  obtain ⟨h4, h5, h6⟩ := hreq
  unfold joinLock seg
  refine ⟨⟨?_, ?_, ?_⟩, ?_⟩
  · dsimp only
    split <;> omega
  · dsimp only
    split <;> split <;> omega
  · dsimp only
    split <;> omega
  · dsimp only
    congr 1
    · split <;> omega
    · split <;> omega

theorem FileLock.InRange.trimEnd (hlt : fl.seg.lo < request.seg.lo) :
    (trimEnd request fl).InRange ∧
      (Fs.trimEnd request fl).seg = ⟨fl.seg.lo, request.seg.lo, fl.flType⟩ := by
  have hlt' := (hfl.start_lt_iff hreq).mpr hlt
  obtain ⟨h1, h2, h3⟩ := hfl
  obtain ⟨h4, h5, h6⟩ := hreq
  have hend : loff (request.flStart - 1) = request.flStart - 1 := loff_eq (by omega) (by omega)
  unfold Fs.trimEnd seg
  rw [hend]
  refine ⟨⟨h1, ?_, ?_⟩, ?_⟩
  · dsimp only
    omega
  · dsimp only
    omega
  · dsimp only
    congr 1
    omega

theorem FileLock.InRange.trimStart (hlt : request.seg.hi < fl.seg.hi) :
    (trimStart request fl).InRange ∧
      (Fs.trimStart request fl).seg = ⟨request.seg.hi, fl.seg.hi, fl.flType⟩ := by
  have hlt' := hreq.end_lt_end_iff.mpr hlt
  obtain ⟨h1, h2, h3⟩ := hfl
  obtain ⟨h4, h5, h6⟩ := hreq
  have hstart : loff (request.flEnd + 1) = request.flEnd + 1 := loff_eq (by omega) (by omega)
  unfold Fs.trimStart seg
  rw [hstart]
  refine ⟨⟨?_, ?_, h3⟩, ?_⟩
  · dsimp only
    omega
  · dsimp only
    omega
  · dsimp only
    congr 1
    omega

end Tests

variable {w w' : Walk Owner} {left : Option (FileLock Owner)} {pre : List (FileLock Owner)}

section Trim

variable {mid rest : List (FileLock Owner)}

theorem modifyLock_at (hnodup : (addrs (pre ++ fl :: rest)).Nodup)
    (f : FileLock Owner → FileLock Owner) :
    modifyLock fl.addr f (pre ++ fl :: rest) = pre ++ f fl :: rest := by
  rw [addrs_append, addrs_cons] at hnodup
  obtain ⟨-, hrest, hdisj⟩ := nodup_append.mp hnodup
  have hpre : fl.addr ∉ addrs pre := fun hmem =>
    hdisj _ hmem _ mem_cons_self rfl
  rw [modifyLock_append, modifyLock_of_not_mem _ hpre, modifyLock, map_cons, if_pos rfl]
  exact congrArg (pre ++ f fl :: ·) (modifyLock_of_not_mem f (nodup_cons.mp hrest).1)

theorem trimLeft_eq (request : FileLock Owner)
    (hnodup : (addrs (pre ++ (left.toList ++ rest))).Nodup) (woken : List Nat) :
    trimLeft request (left.map addr) (pre ++ (left.toList ++ rest)) woken =
      (pre ++ (left.toList.map (trimEnd request) ++ rest), woken ++ addrs left.toList) := by
  cases left with
  | none => simp [trimLeft]
  | some fl =>
    exact congrArg (fun locks => (locks, woken ++ [fl.addr]))
      (modifyLock_at hnodup (trimEnd request))

variable (hleft : w.left = left.map FileLock.addr)

include hleft

theorem left_ne (hnodup : (addrs (pre ++ (left.toList ++ rest))).Nodup) (hmem : fl ∈ rest) :
    w.left ≠ some fl.addr := by
  rw [addrs_append, addrs_append] at hnodup
  have hdisj := (nodup_append.mp (nodup_append.mp hnodup).2.1).2.2
  rw [hleft]
  cases left with
  | none => rintro ⟨⟩
  | some fl' =>
    intro heq
    exact hdisj fl'.addr mem_cons_self fl.addr (mem_map_of_mem hmem) (Option.some.inj heq)

theorem trimSides_right (hnodup : (addrs (pre ++ (left.toList ++ (mid ++ fl :: rest)))).Nodup)
    (newFl2 : Option Nat) :
    trimSides w (some fl) newFl2 (pre ++ (left.toList ++ mid)) (fl :: rest) =
      (pre ++ (left.toList.map (trimEnd w.request) ++ (mid ++ trimStart w.request fl :: rest)),
        w.woken ++ [fl.addr] ++ addrs left.toList) := by
  have hne : w.left ≠ some fl.addr := left_ne hleft hnodup (by simp)
  have hassoc : ∀ fl' : FileLock Owner, pre ++ (left.toList ++ mid) ++ fl' :: rest =
      pre ++ (left.toList ++ (mid ++ fl' :: rest)) := by
    simp
  rw [trimSides, if_neg hne, modifyLock_at (hassoc fl ▸ hnodup), hassoc, hleft,
    trimLeft_eq w.request]
  simpa [trimStart] using hnodup

omit hleft

theorem trimSides_split (hleft : w.left = some fl.addr) {addr : Nat}
    (hnodup : (addr :: addrs (pre ++ (mid ++ fl :: rest))).Nodup) :
    trimSides w (some fl) (some addr) pre (mid ++ fl :: rest) =
      (pre ++
          (trimEnd w.request { fl with addr := addr } :: (mid ++ trimStart w.request fl :: rest)),
        w.woken ++ [fl.addr] ++ [addr]) := by
  have hperm : (addrs (pre ++ ({ fl with addr := addr } :: mid) ++ fl :: rest)).Nodup := by
    refine (List.Perm.nodup_iff ?_).mpr hnodup
    simp
  have hright : modifyLock fl.addr (trimStart w.request)
          (pre ++ ({ fl with addr := addr } :: mid) ++ fl :: rest) =
        pre ++ { fl with addr := addr } :: (mid ++ trimStart w.request fl :: rest) := by
    rw [modifyLock_at hperm, append_assoc, cons_append]
  have hlist : pre ++ ([{ fl with addr := addr }] ++ (mid ++ fl :: rest)) =
      pre ++ ({ fl with addr := addr } :: mid) ++ fl :: rest := by
    simp
  have hperm' : (addrs (pre ++ { fl with addr := addr } ::
      (mid ++ trimStart w.request fl :: rest))).Nodup := by
    simpa [trimStart] using hperm
  rw [trimSides, if_pos hleft]
  simp only [Option.toList_some, map_cons, map_nil]
  rw [hlist, hright, trimLeft]
  exact congrArg (fun locks => (locks, w.woken ++ [fl.addr] ++ [addr]))
    (modifyLock_at hperm' (trimEnd w.request))

end Trim

variable {post own l₁ l₂ : List (FileLock Owner)} (exist : Bool) (newFl2 : Option Nat)

section Own

structure OwnLocks (o : Owner) (locks : List (FileLock Owner)) : Prop where
  owner : ∀ fl ∈ locks, fl.flOwner = o
  inRange : ∀ fl ∈ locks, fl.InRange
  held : ∀ fl ∈ locks, fl.flType ≠ .unlck

variable {o : Owner} {request : FileLock Owner}

theorem ownLocks_cons {locks : List (FileLock Owner)} :
    OwnLocks o (fl :: locks) ↔
      (fl.flOwner = o ∧ fl.InRange ∧ fl.flType ≠ .unlck) ∧ OwnLocks o locks := by
  constructor
  · rintro ⟨howner, hrange, hheld⟩
    rw [forall_mem_cons] at howner hrange hheld
    exact ⟨⟨howner.1, hrange.1, hheld.1⟩, ⟨howner.2, hrange.2, hheld.2⟩⟩
  · rintro ⟨⟨howner, hrange, hheld⟩, hlocks⟩
    exact ⟨forall_mem_cons.mpr ⟨howner, hlocks.owner⟩, forall_mem_cons.mpr ⟨hrange, hlocks.inRange⟩,
      forall_mem_cons.mpr ⟨hheld, hlocks.held⟩⟩

theorem ownLocks_nil (o : Owner) : OwnLocks o ([] : List (FileLock Owner)) :=
  ⟨nofun, nofun, nofun⟩

theorem ownLocks_append : OwnLocks o (l₁ ++ l₂) ↔ OwnLocks o l₁ ∧ OwnLocks o l₂ := by
  induction l₁ with
  | nil => exact ⟨fun h => ⟨ownLocks_nil o, h⟩, fun h => h.2⟩
  | cons fl l₁ ih =>
    rw [cons_append, ownLocks_cons, ih, ownLocks_cons, and_assoc (b := OwnLocks o l₁)]

/-- The entry of the list that a request becomes. -/
def FileLock.entry (request : FileLock Owner) : List (FileLock Owner) :=
  if request.flType = .unlck then [] else [request]

theorem lockSegs_entry :
    lockSegs request.entry = newSeg request.seg.lo request.seg.hi request.flType.held := by
  unfold entry
  cases htype : request.flType <;> simp [LockType.held, newSeg, seg, htype]

def FileLock.after (request : FileLock Owner) (own : List (FileLock Owner)) : List (Seg LockType) :=
  put request.seg.lo request.seg.hi request.flType.held (lockSegs own)

/-- What the call makes of the owner's locks if the loop goes on from `w`: `old` are these locks
now, `segs` the map afterwards. -/
structure Applied (w : Walk Owner) (pre old post : List (FileLock Owner))
    (segs : List (Seg LockType))
    (result : LockRet × List (FileLock Owner) × List Nat)
    (out : List (FileLock Owner)) (woken : List Nat) : Prop where
  returns : result = (.ok, pre ++ (out ++ post), woken)
  ownLocks : OwnLocks w.request.flOwner out
  sub : (addrs out).Sublist (addrs old)
  kept : ∀ a, a ∈ addrs old ∨ a ∈ w.woken → a ∈ addrs out ∨ a ∈ woken
  segs_eq : lockSegs out = segs

theorem Applied.delete {pre old old' post out : List (FileLock Owner)}
    {segs segs' : List (Seg LockType)} {result : LockRet × List (FileLock Owner) × List Nat}
    {woken : List Nat} (h : Applied w' pre old' post segs' result out woken) (fl : FileLock Owner)
    (l₁ l₂ : List Nat) (hold' : addrs old' = l₁ ++ l₂) (hold : addrs old = l₁ ++ fl.addr :: l₂)
    (howner : w'.request.flOwner = w.request.flOwner) (hwoken : w'.woken = w.woken ++ [fl.addr])
    (hsegs : segs' = segs) : Applied w pre old post segs result out woken where
  returns := h.returns
  ownLocks := howner ▸ h.ownLocks
  sub := by
    refine h.sub.trans ?_
    rw [hold, hold']
    exact (List.Sublist.refl l₁).append (sublist_cons_self _ l₂)
  kept := by
    intro a ha
    refine h.kept a ?_
    rw [hold', hwoken]
    rw [hold] at ha
    simp only [mem_append, mem_cons, not_mem_nil, or_false] at ha ⊢
    tauto
  segs_eq := h.segs_eq.trans hsegs

/-- The state of the loop after the request became an entry, or an unlock request found a lock. -/
structure Walk.Added (w : Walk Owner) (pre : List (FileLock Owner))
    (left : Option (FileLock Owner)) (post : List (FileLock Owner)) : Prop where
  front : w.front = pre ++ (left.toList ++ w.request.entry)
  added : w.added = true
  left_eq : w.left = left.map FileLock.addr
  inRange : w.request.InRange
  leftOwn : OwnLocks w.request.flOwner left.toList
  leftLt : ∀ fl ∈ left, fl.seg.lo < w.request.seg.lo
  post : ∀ fl ∈ post.head?, fl.flOwner ≠ w.request.flOwner

theorem FileLock.InRange.entry {request : FileLock Owner} (h : request.InRange) :
    OwnLocks request.flOwner request.entry := by
  unfold FileLock.entry
  split
  · exact ownLocks_nil _
  · next htype =>
    exact ownLocks_cons.mpr ⟨⟨rfl, h, htype⟩, ownLocks_nil _⟩

theorem Walk.left_ownLocks (hreq : w.request.InRange)
    (hown : OwnLocks w.request.flOwner left.toList)
    (hlt : ∀ fl ∈ left, fl.seg.lo < w.request.seg.lo) :
    OwnLocks w.request.flOwner (left.toList.map (trimEnd w.request)) := by
  cases left with
  | none => exact hown
  | some fl =>
    obtain ⟨⟨howner, hrange, hheld⟩, -⟩ := ownLocks_cons.mp hown
    refine ownLocks_cons.mpr ⟨⟨howner, ?_, hheld⟩, ownLocks_nil _⟩
    exact (hrange.trimEnd hreq (hlt fl rfl)).1

theorem addrs_trimEnd (locks : List (FileLock Owner)) :
    addrs (locks.map (trimEnd request)) = addrs locks := by
  unfold addrs
  rw [map_map]
  rfl

theorem not_split {right : Option (FileLock Owner)}
    (hne : ∀ fl ∈ right, w.left ≠ some fl.addr) :
    ¬ (right.isSome = true ∧ w.left = right.map addr ∧ newFl2 = none) := by
  rintro ⟨hsome, hleft, -⟩
  obtain ⟨fl, rfl⟩ := Option.isSome_iff_exists.mp hsome
  exact hne fl rfl hleft

theorem finish_added (hadded : w.added = true)
    {right : Option (FileLock Owner)} (hne : ∀ fl ∈ right, w.left ≠ some fl.addr)
    (rest : List (FileLock Owner)) :
    (done w right rest).finish exist newFl2 = (.ok, trimSides w right newFl2 w.front rest) := by
  rw [finish, finishWalk, if_neg (not_split newFl2 hne), if_pos hadded]

theorem Walk.Added.stop (h : w.Added pre left post) (hown : OwnLocks w.request.flOwner own)
    (hafter : w.request.after own =
      newSeg w.request.seg.lo w.request.seg.hi w.request.flType.held ++ lockSegs own)
    (hnodup : (addrs (w.front ++ (own ++ post))).Nodup) :
    ∃ out woken, Applied w pre (left.toList ++ (w.request.entry ++ own)) post
        (lockSegs (left.toList.map (trimEnd w.request)) ++ w.request.after own)
        ((done w none (own ++ post)).finish exist newFl2) out woken := by
  refine ⟨left.toList.map (trimEnd w.request) ++ (w.request.entry ++ own),
    w.woken ++ addrs left.toList, ?_, ?_, ?_, ?_, ?_⟩
  · have hnone : ∀ fl ∈ (none : Option (FileLock Owner)), w.left ≠ some fl.addr := nofun
    rw [finish_added exist newFl2 h.added hnone, h.front, trimSides, h.left_eq, append_assoc,
      append_assoc, trimLeft_eq w.request]
    · simp
    · simpa [h.front] using hnodup
  · exact ownLocks_append.mpr ⟨left_ownLocks h.inRange h.leftOwn h.leftLt,
      ownLocks_append.mpr ⟨h.inRange.entry, hown⟩⟩
  · simp [addrs_trimEnd]
  · rintro a (ha | ha)
    · exact .inl (by simpa [addrs_trimEnd] using ha)
    · exact .inr (mem_append_left _ ha)
  · rw [lockSegs_append, lockSegs_append, lockSegs_entry, hafter]

theorem Walk.Added.right (h : w.Added pre left post)
    (hown : OwnLocks w.request.flOwner (fl :: own)) (hlt : w.request.seg.hi < fl.seg.hi)
    (hafter : w.request.after (fl :: own) =
        newSeg w.request.seg.lo w.request.seg.hi w.request.flType.held ++
          ⟨w.request.seg.hi, fl.seg.hi, fl.flType⟩ :: lockSegs own)
    (hnodup : (addrs (w.front ++ (fl :: own ++ post))).Nodup) :
    ∃ out woken, Applied w pre (left.toList ++ (w.request.entry ++ fl :: own)) post
        (lockSegs (left.toList.map (trimEnd w.request)) ++ w.request.after (fl :: own))
        ((done w (some fl) (fl :: own ++ post)).finish exist newFl2) out
        woken := by
  obtain ⟨⟨howner, hrange, hheld⟩, hown'⟩ := ownLocks_cons.mp hown
  obtain ⟨hrange', hseg⟩ := hrange.trimStart h.inRange hlt
  have hnodup' :
      (addrs (pre ++ (left.toList ++ (w.request.entry ++ fl :: (own ++ post))))).Nodup := by
    simpa [h.front] using hnodup
  have hne : ∀ fl' ∈ some fl, w.left ≠ some fl'.addr := by
    rintro fl' ⟨⟩
    exact left_ne h.left_eq hnodup' (by simp)
  refine ⟨left.toList.map (trimEnd w.request) ++ (w.request.entry ++ trimStart w.request fl :: own),
    w.woken ++ [fl.addr] ++ addrs left.toList, ?_, ?_, ?_, ?_, ?_⟩
  · rw [finish_added exist newFl2 h.added hne, h.front, cons_append,
      trimSides_right h.left_eq hnodup' newFl2]
    simp
  · exact ownLocks_append.mpr ⟨left_ownLocks h.inRange h.leftOwn h.leftLt,
      ownLocks_append.mpr ⟨h.inRange.entry, ownLocks_cons.mpr ⟨⟨howner, hrange', hheld⟩, hown'⟩⟩⟩
  · simp [addrs_trimEnd, trimStart]
  · rintro a (ha | ha)
    · exact .inl (by simpa [addrs_trimEnd, trimStart] using ha)
    · exact .inr (by simp [ha])
  · rw [lockSegs_append, hafter, lockSegs_append, lockSegs_entry, lockSegs_cons, hseg]

theorem Walk.overlap_eq_self (hstart : ¬ fl.flStart < w.request.flStart)
    (hkeep : w.added = true ∨ w.request.flType ≠ .unlck) : w.overlap fl = w := by
  have hadded : (w.added || decide (w.request.flType = .unlck)) = w.added := by
    rcases hkeep with hadded | htype
    · rw [hadded, Bool.true_or]
    · rw [decide_eq_false htype, Bool.or_false]
  unfold Walk.overlap
  rw [if_neg hstart, hadded]

end Own

section Added

variable [DecidableEq Owner]

theorem walkLoop_end (hpost : ∀ fl ∈ post.head?, fl.flOwner ≠ w.request.flOwner) :
    walkLoop w post = .done w none post := by
  cases post with
  | nil => rfl
  | cons fl post =>
    have hne : w.request.flOwner ≠ fl.flOwner := .symm (hpost fl rfl)
    rw [walkLoop, if_pos (by simp [posixSameOwner, hne])]

/-- All locks that follow begin behind the start of the request. -/
theorem Walk.Added.run (h : w.Added pre left post) (hown : OwnLocks w.request.flOwner own)
    (hsep : SepFrom w.request.seg.lo (lockSegs own))
    (hnodup : (addrs (w.front ++ (own ++ post))).Nodup) :
    ∃ out woken, Applied w pre (left.toList ++ (w.request.entry ++ own)) post
        (lockSegs (left.toList.map (trimEnd w.request)) ++ w.request.after own)
        ((walkLoop w (own ++ post)).finish exist newFl2) out woken := by
  induction own generalizing w with
  | nil =>
    rw [nil_append, walkLoop_end h.post]
    exact h.stop exist newFl2 hown (append_nil _).symm hnodup
  | cons fl own ih =>
    obtain ⟨⟨howner, hrange, hheld⟩, hown'⟩ := ownLocks_cons.mp hown
    obtain ⟨hlo, hlt, hsep'⟩ := hsep
    have hsep'' := hsep'.mono (le_of_lt (lt_of_le_of_lt hlo hlt))
    have hafter : w.request.after (fl :: own) = put w.request.seg.lo w.request.seg.hi
        w.request.flType.held (fl.seg :: lockSegs own) := rfl
    have hstart : ¬ fl.flStart < w.request.flStart := by
      rw [hrange.start_lt_iff h.inRange]
      omega
    have hval : w.request.flType.held = some fl.seg.val ↔
        w.request.flType = fl.flType := LockType.held_eq_some hheld
    simp only [put, hval] at hafter
    rw [cons_append, walkLoop, if_neg (by simp [posixSameOwner, howner])]
    simp only [InRange.end_lt_iff, InRange.end_lt_start_iff, InRange.end_lt_end_iff, hrange,
      h.inRange]
    by_cases htype : w.request.flType = fl.flType
    · rw [if_pos htype, if_neg (by omega)] at hafter ⊢
      by_cases hgap : w.request.seg.hi < fl.seg.lo
      · rw [if_pos hgap] at hafter ⊢
        exact h.stop exist newFl2 hown hafter hnodup
      -- the request takes the place of the old lock
      rw [if_neg hgap] at hafter ⊢
      rw [if_pos h.added]
      obtain ⟨hjoin, hseg⟩ := hrange.join h.inRange w.request
      have hsame := joinLock_start hrange h.inRange hlo w.request
      have hnotUnlck : w.request.flType ≠ .unlck := htype ▸ hheld
      have hentry : w.request.entry = [w.request] := if_neg hnotUnlck
      have hentry' : (joinLock fl w.request w.request).entry =
          [joinLock fl w.request w.request] := if_neg hnotUnlck
      have hnodup' : (addrs ((pre ++ left.toList) ++ w.request :: (fl :: own ++ post))).Nodup := by
        simpa [h.front, hentry] using hnodup
      have hfront : modifyLock w.request.addr (fun _ => joinLock fl w.request w.request) w.front =
            pre ++ (left.toList ++ [joinLock fl w.request w.request]) := by
        rw [h.front, hentry, ← append_assoc]
        refine (modifyLock_at ?_ _).trans (append_assoc _ _ _)
        exact hnodup'.sublist (by simp)
      rw [hfront]
      have hlo' : (joinLock fl w.request w.request).seg.lo = w.request.seg.lo := by
        rw [hseg]
        exact min_eq_left hlo
      have hadded : Walk.Added
          { w with
            front :=
              pre ++ (left.toList ++ [joinLock fl w.request w.request])
            request := joinLock fl w.request w.request
            woken := w.woken ++ [fl.addr] } pre left post :=
        { h with
          front := by rw [hentry']
          inRange := hjoin
          leftLt := by
            rw [hlo']
            exact h.leftLt }
      obtain ⟨out, woken, happlied⟩ := ih hadded hown' (hlo' ▸ hsep'')
          ((show (addrs _).Nodup from hnodup').sublist (by simp))
      refine ⟨out, woken, happlied.delete fl (addrs (left.toList ++ [w.request])) (addrs own)
        (by simp [hentry']) (by simp [hentry]) rfl rfl ?_⟩
      rw [hafter]
      unfold FileLock.after trimEnd
      dsimp only
      rw [hseg, hsame]
      rfl
    rw [if_neg htype, if_neg (by omega)] at hafter ⊢
    by_cases hbehind : w.request.seg.hi ≤ fl.seg.lo
    · rw [if_pos hbehind] at hafter ⊢
      exact h.stop exist newFl2 hown hafter hnodup
    rw [if_neg hbehind] at hafter ⊢
    rw [piece, if_neg (by omega), nil_append] at hafter
    rw [Walk.overlap_eq_self hstart (.inl h.added)]
    by_cases hright : w.request.seg.hi < fl.seg.hi
    · rw [if_pos hright] at hafter ⊢
      exact h.right exist newFl2 hown hright hafter hnodup
    rw [if_neg hright] at hafter ⊢
    rw [if_pos (Int.not_lt.mp hstart), if_pos h.added]
    obtain ⟨out, woken, happlied⟩ := ih (w := { w with woken := w.woken ++ [fl.addr] })
        { h with } hown' hsep''
        (hnodup.sublist (by simp))
    refine ⟨out, woken, happlied.delete fl
      (addrs (left.toList ++ w.request.entry)) (addrs own)
      (by simp) (by simp) rfl rfl ?_⟩
    rw [hafter]
    rfl

end Added

section Fresh

/-- What the call makes of the owner's locks with new locks from `news`. -/
structure Placed (w : Walk Owner) (pre old post : List (FileLock Owner))
    (news : List Nat) (segs : List (Seg LockType))
    (result : LockRet × List (FileLock Owner) × List Nat)
    (out : List (FileLock Owner)) (woken : List Nat) : Prop where
  returns : result = (.ok, pre ++ (out ++ post), woken)
  ownLocks : OwnLocks w.request.flOwner out
  nodup : (addrs out).Nodup
  sub : ∀ a ∈ addrs out, a ∈ addrs old ∨ a ∈ news
  kept : ∀ a, a ∈ addrs old ∨ a ∈ w.woken → a ∈ addrs out ∨ a ∈ woken
  segs_eq : lockSegs out = segs

variable {result : LockRet × List (FileLock Owner) × List Nat}
  {out old old' : List (FileLock Owner)} {woken news : List Nat} {segs segs' : List (Seg LockType)}
  {addr : Nat}

theorem Applied.placed (h : Applied w' pre old' post segs' result out woken)
    (howner : w'.request.flOwner = w.request.flOwner) (hnodup : (addrs old').Nodup)
    (hsub : ∀ a ∈ addrs old', a ∈ addrs old ∨ a ∈ news)
    (hkept : ∀ a, a ∈ addrs old ∨ a ∈ w.woken → a ∈ addrs old' ∨ a ∈ w'.woken)
    (hsegs : segs' = segs) : Placed w pre old post news segs result out woken where
  returns := h.returns
  ownLocks := howner ▸ h.ownLocks
  nodup := hnodup.sublist h.sub
  sub := fun a ha => hsub a (h.sub.subset ha)
  kept := fun a ha => h.kept a (hkept a ha)
  segs_eq := h.segs_eq.trans hsegs

theorem Placed.of_perm (hreturns : result = (.ok, pre ++ (out ++ post), woken))
    (hown : OwnLocks w.request.flOwner out) (hperm : (addrs out).Perm (news ++ addrs old))
    (hnodup : (news ++ addrs old).Nodup) (hwoken : w.woken ⊆ woken) (hsegs : lockSegs out = segs) :
    Placed w pre old post news segs result out woken where
  returns := hreturns
  ownLocks := hown
  nodup := hperm.nodup_iff.mpr hnodup
  sub := fun _ ha => (mem_append.mp (hperm.mem_iff.mp ha)).symm
  kept := by
    rintro a (ha | ha)
    · exact .inl (hperm.mem_iff.mpr (mem_append_right _ ha))
    · exact .inr (hwoken ha)
  segs_eq := hsegs

/-- The state of the loop at locks behind the start of a request for a lock, with nothing changed
yet. -/
structure Walk.Fresh (w : Walk Owner) (pre : List (FileLock Owner))
    (left : Option (FileLock Owner)) (post : List (FileLock Owner)) : Prop where
  front : w.front = pre ++ left.toList
  added : w.added = false
  left_eq : w.left = left.map FileLock.addr
  inRange : w.request.InRange
  type : w.request.flType ≠ .unlck
  leftOwn : OwnLocks w.request.flOwner left.toList
  leftLt : ∀ fl ∈ left, fl.seg.lo < w.request.seg.lo
  post : ∀ fl ∈ post.head?, fl.flOwner ≠ w.request.flOwner

@[simp]
theorem Walk.newLock_addr : (w.newLock addr).addr = addr :=
  rfl

/-- There is no memory and nothing has changed, or the request is in its place. -/
def Walk.Ends (w : Walk Owner) (pre old own post : List (FileLock Owner))
    (news : List Nat) (segs : List (Seg LockType))
    (result : LockRet × List (FileLock Owner) × List Nat) : Prop :=
  result = (.enolck, w.front ++ (own ++ post), w.woken) ∨
    ∃ out woken, Placed w pre old post news segs result out woken

/-- The new lock of a request in front of the rest of the list. -/
def Walk.withNew (w : Walk Owner) (addr : Nat) : Walk Owner :=
  { w with
    front := w.front ++ [w.newLock addr]
    request := w.newLock addr
    added := true
    newFl := none }

theorem finish_withNew (hadded : w.added = false) (htype : w.request.flType ≠ .unlck)
    {right : Option (FileLock Owner)}
    (hne : ∀ fl ∈ right, w.left ≠ some fl.addr) (rest : List (FileLock Owner)) :
    (done w right rest).finish exist newFl2 =
      w.newFl.elim (.enolck, w.front ++ rest, w.woken) fun addr =>
        (done (w.withNew addr) right rest).finish exist newFl2 := by
  rw [finish, finishWalk, if_neg (not_split newFl2 hne), hadded, if_neg Bool.false_ne_true,
    if_neg htype]
  cases w.newFl with
  | none => rfl
  | some addr =>
    have hne' : ∀ fl ∈ right, (w.withNew addr).left ≠ some fl.addr := hne
    rw [Option.elim_some, finish_added exist newFl2 rfl hne']
    refine congrArg (Prod.mk LockRet.ok) ?_
    have hlist : (w.withNew addr).front ++ rest = w.front ++ w.newLock addr :: rest :=
      append_assoc _ _ _
    cases right with
    | none =>
      rw [trimSides, trimSides, hlist]
      rfl
    | some fl =>
      rw [trimSides, trimSides, if_neg (hne fl rfl), if_neg (hne' fl rfl), hlist]
      rfl

theorem Walk.Fresh.withNew (h : w.Fresh pre left post) (addr : Nat) :
    (w.withNew addr).Added pre left post where
  front := by
    have hentry : (w.withNew addr).request.entry = [w.newLock addr] := if_neg h.type
    rw [hentry, ← append_assoc, ← h.front]
    rfl
  added := rfl
  left_eq := h.left_eq
  inRange := { h.inRange with }
  leftOwn := h.leftOwn
  leftLt := h.leftLt
  post := h.post

end Fresh

variable [DecidableEq Owner]

theorem Walk.Fresh.join (h : w.Fresh pre left post)
    (hown : OwnLocks w.request.flOwner (fl :: own)) (htype : w.request.flType = fl.flType)
    (hsep : SepFrom fl.seg.hi (lockSegs own)) (hleft : left = none ∨ w.request.seg.lo ≤ fl.seg.lo)
    (hnodup : (addrs (w.front ++ (fl :: own ++ post))).Nodup) (news : List Nat) :
    ∃ out woken, Placed w pre (left.toList ++ fl :: own) post news
        (lockSegs (left.toList.map (trimEnd w.request)) ++
          put (min w.request.seg.lo fl.seg.lo) (max w.request.seg.hi fl.seg.hi)
            w.request.flType.held (lockSegs own))
        ((walkLoop
            { w with
              front := w.front ++ [joinLock fl w.request fl]
              request := joinLock fl w.request fl
              added := true }
            (own ++ post)).finish exist newFl2)
        out woken := by
  obtain ⟨⟨howner, hrange, hheld⟩, hown'⟩ := ownLocks_cons.mp hown
  obtain ⟨hjoin, hseg⟩ := hrange.join h.inRange fl
  have hentry : (joinLock fl w.request fl).entry = [joinLock fl w.request fl] := if_neg hheld
  have hlt := Nat.lt_succ_of_le (Int.toNat_le_toNat hrange.le)
  have hadded : Walk.Added
      { w with
        front := w.front ++ [joinLock fl w.request fl]
        request := joinLock fl w.request fl
        added := true } pre left post :=
    { front := by
        dsimp only
        rw [h.front, hentry, append_assoc]
      added := rfl
      left_eq := h.left_eq
      inRange := hjoin
      leftOwn := howner.symm ▸ h.leftOwn
      leftLt := by
        intro fl' hfl'
        have hlt' := h.leftLt fl' hfl'
        rw [hseg]
        rcases hleft with rfl | hle
        · cases hfl'
        · rw [min_eq_left hle]
          exact hlt'
      post := howner.symm ▸ h.post }
  have hsep' : SepFrom (joinLock fl w.request fl).seg.lo (lockSegs own) := by
    rw [hseg]
    refine hsep.mono ?_
    exact (min_le_right _ _).trans (le_of_lt hlt)
  obtain ⟨out, woken, happlied⟩ :=
    hadded.run exist newFl2 (howner.symm ▸ hown') hsep' (by simpa using hnodup)
  refine ⟨out, woken, happlied.placed howner ?_ ?_ ?_ ?_⟩
  · rw [h.front] at hnodup
    refine hnodup.sublist ?_
    simp [hentry]
  · intro a ha
    exact .inl (by simpa [hentry] using ha)
  · intro a ha
    simpa [hentry] using ha
  have hafter : (joinLock fl w.request fl).after own =
      put (min w.request.seg.lo fl.seg.lo) (max w.request.seg.hi fl.seg.hi)
        w.request.flType.held (lockSegs own) := by
    unfold FileLock.after
    rw [hseg, htype]
    rfl
  have htrim : left.toList.map (trimEnd (joinLock fl w.request fl)) =
      left.toList.map (trimEnd w.request) := by
    rcases hleft with rfl | hle
    · rfl
    · unfold trimEnd
      rw [joinLock_start hrange h.inRange hle]
  rw [hafter, htrim]

theorem Walk.Fresh.placed (h : w.Fresh pre left post)
    (hown : OwnLocks w.request.flOwner own) (hsep : SepFrom w.request.seg.lo (lockSegs own))
    {addr : Nat} (hnodup : (addr :: addrs (w.front ++ (own ++ post))).Nodup) :
    ∃ out woken, Placed w pre (left.toList ++ own) post [addr]
        (lockSegs (left.toList.map (trimEnd w.request)) ++ w.request.after own)
        ((walkLoop (w.withNew addr) (own ++ post)).finish exist newFl2) out woken := by
  have hentry : (w.withNew addr).request.entry = [w.newLock addr] := if_neg h.type
  have hnodup' : (addrs ((w.withNew addr).front ++ (own ++ post))).Nodup := by
    rw [Walk.withNew, append_assoc, singleton_append, addrs_append, addrs_cons,
      perm_middle.nodup_iff]
    simpa using hnodup
  obtain ⟨out, woken, happlied⟩ := (h.withNew addr).run exist newFl2 hown hsep hnodup'
  refine ⟨out, woken, happlied.placed rfl ?_ ?_ ?_ rfl⟩
  · rw [(h.withNew addr).front] at hnodup'
    refine hnodup'.sublist ?_
    simp
  all_goals
    intro a ha
    simp only [hentry, addrs_append, addrs_cons, addrs_nil, mem_append,
      mem_cons, not_mem_nil, or_false, newLock_addr] at ha ⊢
    tauto

theorem walkLoop_withNew (hadded : w.added = false) (htype : w.request.flType ≠ .unlck)
    {locks : List (FileLock Owner)}
    (hlocks : ∀ fl ∈ locks.head?, w.request.flOwner = fl.flOwner →
      w.left ≠ some fl.addr ∧ w.request.flStart ≤ fl.flStart ∧
        ¬ fl.flEnd < loff (w.request.flStart - 1) ∧ ¬ fl.flEnd < w.request.flStart ∧
        (w.request.flType = fl.flType → w.request.flEnd < loff (fl.flStart - 1))) :
    (walkLoop w locks).finish exist newFl2 =
      w.newFl.elim (.enolck, w.front ++ locks, w.woken) fun addr =>
        (walkLoop (w.withNew addr) locks).finish exist newFl2 := by
  have hdone := fun right hne => @finish_withNew _ w exist newFl2 hadded htype right hne locks
  cases locks with
  | nil => exact hdone none nofun
  | cons fl rest =>
    by_cases howner : w.request.flOwner = fl.flOwner
    · obtain ⟨hleft, hstart, hend, hend', hgap⟩ := hlocks fl rfl howner
      have hoverlap := Walk.overlap_eq_self (Int.not_lt.mpr hstart) (.inr htype)
      have hoverlap' : ∀ addr, (w.withNew addr).overlap fl = w.withNew addr :=
        fun addr => Walk.overlap_eq_self (w := w.withNew addr) (Int.not_lt.mpr hstart) (.inl rfl)
      have hrequest : ∀ addr, (w.withNew addr).request = w.newLock addr := fun _ => rfl
      simp only [walkLoop, hoverlap, hoverlap', hrequest, Walk.newLock, posixSameOwner,
        decide_eq_true howner, Bool.not_true, Bool.false_eq_true, if_false, if_neg hend,
        if_neg hend', if_pos hstart]
      by_cases hsame : w.request.flType = fl.flType
      · simp only [if_pos hsame, if_pos (hgap hsame)]
        exact hdone none nofun
      simp only [if_neg hsame]
      by_cases hbehind : w.request.flEnd < fl.flStart
      · simp only [if_pos hbehind]
        exact hdone none nofun
      simp only [if_neg hbehind]
      by_cases hright : w.request.flEnd < fl.flEnd
      · simp only [if_pos hright]
        refine hdone (some fl) ?_
        rintro fl' ⟨⟩
        exact hleft
      · simp only [if_neg hright, hadded, Bool.false_eq_true, if_false]
        cases w.newFl with
        | none => rfl
        | some addr => rfl
    · have hother : (!posixSameOwner w.request fl) = true := by simp [posixSameOwner, howner]
      have hother' : ∀ addr, (!posixSameOwner (w.withNew addr).request fl) = true := fun _ => hother
      simp only [walkLoop, if_pos hother, hother', if_true]
      exact hdone none nofun

theorem Walk.Fresh.run (h : w.Fresh pre left post)
    (hown : OwnLocks w.request.flOwner own) (hsep : SepFrom w.request.seg.lo (lockSegs own))
    (hnodup : (w.newFl.toList ++ addrs (w.front ++ (own ++ post))).Nodup) :
    w.Ends pre (left.toList ++ own) own post w.newFl.toList
      (lockSegs (left.toList.map (trimEnd w.request)) ++ w.request.after own)
      ((walkLoop w (own ++ post)).finish exist newFl2) := by
  have hsub : (addrs (w.front ++ (own ++ post))).Nodup :=
    hnodup.sublist (sublist_append_right _ _)
  by_cases hjoin : ∃ fl ∈ own.head?, w.request.flType = fl.flType ∧ ¬ w.request.seg.hi < fl.seg.lo
  · obtain ⟨fl, hfl, htype, hgap⟩ := hjoin
    obtain ⟨own, rfl⟩ := head?_eq_some_iff.mp hfl
    obtain ⟨⟨howner, hrange, hheld⟩, -⟩ := ownLocks_cons.mp hown
    obtain ⟨hlo, hlt, hsep'⟩ := hsep
    have hval : w.request.flType.held = some fl.seg.val := (LockType.held_eq_some hheld).mpr htype
    rw [FileLock.after, lockSegs_cons, put, if_pos hval, if_neg (by omega), if_neg hgap,
      cons_append, walkLoop, if_neg (by simp [posixSameOwner, howner]), if_pos htype,
      if_neg (by rw [hrange.end_lt_iff h.inRange]; omega),
      if_neg (mt (h.inRange.end_lt_iff hrange).mp hgap), h.added, if_neg Bool.false_ne_true]
    exact .inr (h.join exist newFl2 hown htype hsep' (.inr hlo) hsub _)
  rw [walkLoop_withNew exist newFl2 h.added h.type]
  · cases hnew : w.newFl with
    | none => exact .inl rfl
    | some addr =>
      rw [hnew] at hnodup
      exact .inr (h.placed exist newFl2 hown hsep hnodup)
  intro fl hfl howner
  cases own with
  | nil => exact absurd howner.symm (h.post fl hfl)
  | cons fl' own =>
    cases hfl
    obtain ⟨⟨-, hrange, -⟩, -⟩ := ownLocks_cons.mp hown
    obtain ⟨hlo, hlt, -⟩ := hsep
    have hstart : ¬ fl.flStart < w.request.flStart := by
      rw [hrange.start_lt_iff h.inRange]
      omega
    rw [h.front, append_assoc] at hsub
    refine ⟨left_ne h.left_eq hsub (by simp), Int.not_lt.mp hstart, ?_, ?_, fun htype => ?_⟩
    · rw [hrange.end_lt_iff h.inRange]
      omega
    · rw [hrange.end_lt_start_iff h.inRange]
      omega
    · rw [h.inRange.end_lt_iff hrange]
      by_contra hgap
      exact hjoin ⟨fl, rfl, htype, hgap⟩

end LinuxKernel.Fs
