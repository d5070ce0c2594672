import LinuxKernel.Lib.Graphs

/-!
# Epoll files that watch each other

`epoll_ctl()` lets an epoll file watch another one only if `ep_loop_check()` does not come back to
the first from the second.  The check goes down through the watched epoll files, enters none twice,
and gives up when it is nested too deeply.
-/

namespace LinuxKernel.Fs

open Lib List

def epMaxNests : Nat :=
  4

/-- What a check for loops leaves behind: the `visited` flags, the list of files that have it, and
`tfile_check_list`. -/
structure Search (File : Type) where
  visited : File → Bool
  visitedList : List File
  tfileCheckList : List File

/-- The epoll files, each with the files it watches and their descriptors, in the order of the
tree. -/
structure Epolls (File : Type) where
  rbr : File → List (File × Nat)
  search : Search File

section Code

variable {File : Type} [DecidableEq File] (isFileEpoll : File → Bool)

/-- `visited = 1` and `list_add()`. -/
def Search.visit (s : Search File) (file : File) : Search File :=
  { s with
    visited := fun x => if x = file then true else s.visited x
    visitedList := file :: s.visitedList }

/-- `ep_call_nested()` finds the cookie in the list of the current task, or the list is too long.
-/
def nestedRefused (cookie : File) : Nat → List File → Bool
  | _, [] => false
  | callNests, c :: calls =>
    c = cookie || epMaxNests < callNests + 1 || nestedRefused cookie (callNests + 1) calls

/-- `ep_call_nested()`; `calls` are the cookies, the latest first. -/
def epCallNested (calls : List File) (cookie : File)
    (nproc : List File → Search File → Option (Int × Search File)) (s : Search File) :
    Option (Int × Search File) :=
  if nestedRefused cookie 0 calls then some (-1, s) else nproc (cookie :: calls) s

/-- The loop of `ep_loop_check_proc()` over the watched files. -/
def loopCheckItems (call : File → Search File → Option (Int × Search File)) :
    List (File × Nat) → Search File → Option (Int × Search File)
  | [], s => some (0, s)
  | (file, _) :: items, s =>
    if isFileEpoll file then
      if s.visited file then loopCheckItems call items s
      else
        match call file s with
        | none => none
        | some (error, s') =>
          if error ≠ 0 then some (error, s') else loopCheckItems call items s'
    else
      loopCheckItems call items
        { s with
          tfileCheckList :=
            if file ∈ s.tfileCheckList then s.tfileCheckList else file :: s.tfileCheckList }

/-- `ep_loop_check_proc()`, with a bound on its recursion. -/
def epLoopCheckProc (rbr : File → List (File × Nat)) :
    Nat → File → List File → Search File → Option (Int × Search File)
  | 0, _, _, _ => none
  | fuel + 1, file, calls, s =>
    loopCheckItems isFileEpoll
      (fun tovisit => epCallNested calls tovisit (epLoopCheckProc rbr fuel tovisit))
      (rbr file) (s.visit file)

/-- The loop of `ep_loop_check()` over `visited_list`. -/
def Search.clearVisited (s : Search File) : Search File :=
  { s with
    visited := fun x => if x ∈ s.visitedList then false else s.visited x
    visitedList := [] }

/-- `ep_loop_check()`.  No call passes with more than `EP_MAX_NESTS` others in the list, which
bounds the recursion. -/
def epLoopCheck (sys : Epolls File) (ep file : File) : Option (Int × Search File) :=
  match epCallNested [] ep (epLoopCheckProc isFileEpoll sys.rbr (epMaxNests + 1) file)
    sys.search with
  | none => none
  | some (ret, s) => some (ret, s.clearVisited)

/-- `EPOLL_CTL_ADD` and `EPOLL_CTL_DEL`. -/
inductive CtlOp where
  | add
  | del

/-- What `epoll_ctl()` returns, at last the errors of `ep_insert()`. -/
inductive CtlResult where
  | ok | einval | eloop | eexist | enoent
  | insertError (error : Int)
  deriving DecidableEq

/-- What follows `ep_find()`.  `insert` is the outcome of `ep_insert()`: an error, or the place of
the new item in the tree. -/
def ctlItems (op : CtlOp) (insert : Except Int Nat) (file : File) (fd : Nat)
    (items : List (File × Nat)) : CtlResult × List (File × Nat) :=
  match op with
  | .add =>
    if (file, fd) ∈ items then (.eexist, items)
    else
      match insert with
      | .error error => (.insertError error, items)
      | .ok i => (.ok, items.take i ++ (file, fd) :: items.drop i)
  | .del => if (file, fd) ∈ items then (.ok, items.erase (file, fd)) else (.enoent, items)

/-- `epoll_ctl()` on the epoll file `f` and the target `tf`. -/
def epollCtl (sys : Epolls File) (op : CtlOp) (insert : Except Int Nat) (f tf : File)
    (fd : Nat) : Option (CtlResult × Epolls File) :=
  let change (s : Search File) : CtlResult × Epolls File :=
    let r := ctlItems op insert tf fd (sys.rbr f)
    (r.1, { rbr := fun x => if x = f then r.2 else sys.rbr x
            search := { s with tfileCheckList := [] } })
  if f = tf ∨ isFileEpoll f = false then some (.einval, sys)
  else
    match op, isFileEpoll tf with
    | .add, true =>
      match epLoopCheck isFileEpoll sys f tf with
      | none => none
      | some (ret, s) =>
        if ret ≠ 0 then some (.eloop, { sys with search := { s with tfileCheckList := [] } })
        else some (change s)
    | _, _ => some (change sys.search)

end Code

variable {File : Type} [DecidableEq File] {isFileEpoll : File → Bool} {ep file cookie x f : File}
  {rbr : File → List (File × Nat)} {s s' s'' : Search File} {error : Int} {calls : List File}
  {n fuel : Nat}

def Watches (isFileEpoll : File → Bool) (rbr : File → List (File × Nat)) (a b : File) : Prop :=
  isFileEpoll b = true ∧ ∃ fd, (b, fd) ∈ rbr a

/-- What part of the search did: the files it visited are on the list, `ep` is not among them, and
without an error all that they watch is visited. -/
structure Searched (isFileEpoll : File → Bool) (rbr : File → List (File × Nat)) (ep : File)
    (s : Search File) (error : Int) (s' : Search File) : Prop where
  mono : ∀ x, s.visited x = true → s'.visited x = true
  listed : (∀ x, s.visited x = true → x ∈ s.visitedList) →
    ∀ x, s'.visited x = true → x ∈ s'.visitedList
  avoids : s.visited ep = false → s'.visited ep = false
  closed : error = 0 → ∀ x, s'.visited x = true →
    s.visited x = true ∨ ∀ y, Watches isFileEpoll rbr x y → s'.visited y = true

omit [DecidableEq File] in
theorem Searched.refl (error : Int) (hsame : s'.visited = s.visited)
    (hlist : s'.visitedList = s.visitedList) : Searched isFileEpoll rbr ep s error s' := by
  constructor
  all_goals simp +contextual [hsame, hlist]

omit [DecidableEq File] in
theorem Searched.trans (h : Searched isFileEpoll rbr ep s 0 s')
    (h' : Searched isFileEpoll rbr ep s' error s'') : Searched isFileEpoll rbr ep s error s'' := by
  refine ⟨fun x hx => h'.mono x (h.mono x hx), fun hs => h'.listed (h.listed hs),
    fun hs => h'.avoids (h.avoids hs), fun herror x hx => ?_⟩
  rcases h'.closed herror x hx with hold | hnew
  · rcases h.closed rfl x hold with hfirst | hsecond
    · exact .inl hfirst
    · exact .inr fun y hy => h'.mono y (hsecond y hy)
  · exact .inr hnew

/-- The search below `f` returns; without an error it has visited `f`. -/
def SearchesBelow (isFileEpoll : File → Bool) (rbr : File → List (File × Nat)) (ep f : File)
    (s : Search File) (r : Option (Int × Search File)) : Prop :=
  ∃ error s', r = some (error, s') ∧ Searched isFileEpoll rbr ep s error s' ∧
    (error = 0 → s'.visited f = true)

/-- A call let through has a cookie that is not in the list, which is short. -/
theorem not_nestedRefused (h : nestedRefused cookie n calls = false) :
    cookie ∉ calls ∧ (n ≤ epMaxNests → n + calls.length ≤ epMaxNests) := by
  induction calls generalizing n with
  | nil => exact ⟨not_mem_nil, fun hn => hn⟩
  | cons c calls ih =>
    simp only [nestedRefused, Bool.or_eq_false_iff, decide_eq_false_iff_not] at h
    obtain ⟨⟨hc, hn⟩, hrest⟩ := h
    obtain ⟨hmem, hlen⟩ := ih hrest
    refine ⟨fun hcookie => ?_, fun _ => ?_⟩
    · rcases mem_cons.mp hcookie with heq | hmem'
      · exact hc heq.symm
      · exact hmem hmem'
    · have := hlen (by omega)
      simp only [length_cons]
      omega

theorem Search.visit_visited : (s.visit file).visited x = true ↔ x = file ∨ s.visited x = true := by
  simp [Search.visit]

theorem loopCheckItems_searched {call : File → Search File → Option (Int × Search File)}
    (hcall : ∀ f s, s.visited f = false → SearchesBelow isFileEpoll rbr ep f s (call f s))
    (items : List (File × Nat)) (s : Search File) :
    ∃ error s', loopCheckItems isFileEpoll call items s = some (error, s') ∧
      Searched isFileEpoll rbr ep s error s' ∧
      (error = 0 → ∀ i ∈ items, isFileEpoll i.1 = true → s'.visited i.1 = true) := by
  induction items generalizing s with
  | nil => exact ⟨0, s, rfl, .refl 0 rfl rfl, fun _ => nofun⟩
  | cons item items ih =>
    obtain ⟨f, fd⟩ := item
    -- the rest of the loop, from the state that the first file leaves
    have hnext : ∀ s₁, Searched isFileEpoll rbr ep s 0 s₁ →
        (isFileEpoll f = true → s₁.visited f = true) →
        ∃ error s', loopCheckItems isFileEpoll call items s₁ = some (error, s') ∧
          Searched isFileEpoll rbr ep s error s' ∧
          (error = 0 → ∀ i ∈ (f, fd) :: items, isFileEpoll i.1 = true → s'.visited i.1 = true) := by
      intro s₁ hs1 hf
      obtain ⟨error, s', hloop, hs', hitems⟩ := ih s₁
      refine ⟨error, s', hloop, hs1.trans hs', fun herror => ?_⟩
      exact forall_mem_cons.mpr ⟨fun hepoll => hs'.mono f (hf hepoll), hitems herror⟩
    rw [loopCheckItems]
    by_cases hepoll : isFileEpoll f = true
    · rw [if_pos hepoll]
      by_cases hvisited : s.visited f = true
      · rw [if_pos hvisited]
        exact hnext s (.refl 0 rfl rfl) fun _ => hvisited
      rw [if_neg hvisited]
      obtain ⟨error, s₁, hs1, hsearched, hf⟩ := hcall f s (Bool.eq_false_iff.mpr hvisited)
      rw [hs1]
      dsimp only
      by_cases herror : error = 0
      · subst herror
        rw [if_neg (by simp)]
        exact hnext s₁ hsearched fun _ => hf rfl
      · rw [if_pos herror]
        exact ⟨error, s₁, rfl, hsearched, fun h0 => absurd h0 herror⟩
    · rw [if_neg hepoll]
      exact hnext _ (.refl 0 rfl rfl) fun h => absurd h hepoll

/-- The search below an unvisited file.  The recursion ends because the list of calls grows; `ep`
is not entered because it is in that list. -/
theorem epLoopCheckProc_searched (hfuel : epMaxNests + 2 ≤ fuel + calls.length)
    (hshort : calls.length ≤ epMaxNests + 1) (hep : ep ∈ calls) (hne : file ≠ ep)
    (s : Search File) :
    SearchesBelow isFileEpoll rbr ep file s
      (epLoopCheckProc isFileEpoll rbr fuel file calls s) := by
  induction fuel generalizing calls file s with
  | zero => omega
  | succ fuel ih =>
    have hcall : ∀ f s, s.visited f = false → SearchesBelow isFileEpoll rbr ep f s
        (epCallNested calls f (epLoopCheckProc isFileEpoll rbr fuel f) s) := by
      intro f s hf
      unfold epCallNested
      by_cases hrefused : nestedRefused f 0 calls = true
      · rw [if_pos hrefused]
        exact ⟨-1, s, rfl, .refl (-1) rfl rfl, by simp⟩
      rw [if_neg hrefused]
      obtain ⟨hmem, hlen⟩ := not_nestedRefused (Bool.eq_false_iff.mpr hrefused)
      have hcalls := hlen (Nat.zero_le _)
      have hcons := @length_cons _ f calls
      exact ih (by omega) (by omega) (mem_cons_of_mem f hep) (ne_of_mem_of_not_mem hep hmem).symm s
    rw [epLoopCheckProc]
    obtain ⟨error, s', hloop, hs', hitems⟩ :=
      loopCheckItems_searched hcall (rbr file) (s.visit file)
    refine ⟨error, s', hloop, ⟨?_, ?_, ?_, ?_⟩, fun _ => hs'.mono file (if_pos rfl)⟩
    · exact fun x hx => hs'.mono x (Search.visit_visited.mpr (.inr hx))
    · refine fun hs => hs'.listed fun x hx => ?_
      exact mem_cons.mpr ((Search.visit_visited.mp hx).imp_right (hs x))
    · refine fun hs => hs'.avoids ?_
      simpa [Search.visit, hne.symm] using hs
    intro herror x hx
    rcases hs'.closed herror x hx with hold | hnew
    · rcases Search.visit_visited.mp hold with rfl | hold
      · refine .inr fun y hy => ?_
        obtain ⟨hepoll, fd, hfd⟩ := hy
        exact hitems herror (y, fd) hfd hepoll
      · exact .inl hold
    · exact .inr hnew

/-- No flag is set between two checks. -/
def Search.Clear (s : Search File) : Prop :=
  ∀ x, s.visited x = false

variable {sys sys' : Epolls File} {fd fuel n : Nat} {items : List (File × Nat)}

theorem epLoopCheck_spec (isFileEpoll : File → Bool) (h : sys.search.Clear) (hne : file ≠ ep) :
    ∃ ret s', epLoopCheck isFileEpoll sys ep file = some (ret, s') ∧ s'.Clear ∧
      ((∃ n, Trail (Watches isFileEpoll sys.rbr) n file ep) → ret ≠ 0) := by
  obtain ⟨ret, s, hproc, hs, hfile⟩ : SearchesBelow isFileEpoll sys.rbr ep file sys.search
      (epLoopCheckProc isFileEpoll sys.rbr (epMaxNests + 1) file [ep] sys.search) :=
    epLoopCheckProc_searched (by simp) (by simp) mem_cons_self hne sys.search
  refine ⟨ret, s.clearVisited, ?_, ?_, ?_⟩
  · unfold epLoopCheck epCallNested
    rw [nestedRefused, if_neg (by simp), hproc]
  · intro x
    unfold Search.clearVisited
    dsimp only
    split
    · rfl
    next hx =>
    by_contra hvisited
    refine hx (hs.listed ?_ x (by simpa using hvisited))
    intro y hy
    rw [h y] at hy
    cases hy
  rintro ⟨n, htrail⟩ hret
  have hclosed : ∀ x, s.visited x = true →
      ∀ y, Watches isFileEpoll sys.rbr x y → s.visited y = true := by
    intro x hx
    rcases hs.closed hret x hx with hold | hnew
    · rw [h x] at hold
      cases hold
    · exact hnew
  have hep := htrail.closed hclosed (hfile hret)
  rw [hs.avoids (h ep)] at hep
  cases hep

theorem mem_ctlItems {op : CtlOp} {insert : Except Int Nat} {i : File × Nat}
    (h : i ∈ (ctlItems op insert file fd items).2) : i ∈ items ∨ op = .add ∧ i.1 = file := by
  unfold ctlItems at h
  cases op with
  | add =>
    dsimp only at h
    split at h
    · exact .inl h
    cases insert with
    | error error => exact .inl h
    | ok n =>
      rcases mem_append.mp h with htake | hrest
      · exact .inl (mem_of_mem_take htake)
      · rcases mem_cons.mp hrest with rfl | hdrop
        · exact .inr ⟨rfl, rfl⟩
        · exact .inl (mem_of_mem_drop hdrop)
  | del =>
    dsimp only at h
    split at h
    · exact .inl (mem_of_mem_erase h)
    · exact .inl h

/-- Only an addition that the check let through makes a new watch between epoll files. -/
theorem epollCtl_spec (isFileEpoll : File → Bool) (h : sys.search.Clear) (op : CtlOp)
    (insert : Except Int Nat) (f tf : File) (fd : Nat) :
    ∃ r sys', epollCtl isFileEpoll sys op insert f tf fd = some (r, sys') ∧ sys'.search.Clear ∧
      ((∀ a b, Watches isFileEpoll sys'.rbr a b → Watches isFileEpoll sys.rbr a b) ∨
        op = .add ∧ isFileEpoll tf = true ∧ f ≠ tf ∧
          (∃ s', epLoopCheck isFileEpoll sys f tf = some (0, s')) ∧
          ∀ a b, Watches isFileEpoll sys'.rbr a b →
            Watches isFileEpoll sys.rbr a b ∨ a = f ∧ b = tf) := by
  -- the watches behind the insertion or removal
  have hchange : ∀ a b, Watches isFileEpoll
        (fun x => if x = f then (ctlItems op insert tf fd (sys.rbr f)).2 else sys.rbr x) a b →
      Watches isFileEpoll sys.rbr a b ∨ op = .add ∧ a = f ∧ b = tf := by
    rintro a b ⟨hb, fd', hmem⟩
    dsimp only at hmem
    split at hmem
    next ha =>
      rcases mem_ctlItems hmem with hold | ⟨hop, hnew⟩
      · exact .inl ⟨hb, fd', ha ▸ hold⟩
      · exact .inr ⟨hop, ha, hnew⟩
    · exact .inl ⟨hb, fd', hmem⟩
  unfold epollCtl
  dsimp only
  split
  · exact ⟨_, sys, rfl, h, .inl fun _ _ hab => hab⟩
  next hgo =>
  rw [not_or] at hgo
  split
  · next htf =>
    obtain ⟨ret, s', hcheck, hclear, -⟩ := epLoopCheck_spec isFileEpoll h (.symm hgo.1)
    rw [hcheck]
    dsimp only
    by_cases hret : ret = 0
    · rw [if_neg (not_not.mpr hret)]
      refine ⟨_, _, rfl, hclear, .inr ⟨rfl, htf, hgo.1, ⟨s', by rw [hret]⟩, fun a b hab => ?_⟩⟩
      exact (hchange a b hab).imp_right And.right
    · rw [if_pos hret]
      exact ⟨_, _, rfl, hclear, .inl fun _ _ hab => hab⟩
  · next hother =>
    refine ⟨_, _, rfl, h, .inl fun a b hab => (hchange a b hab).resolve_right ?_⟩
    rintro ⟨hop, -, rfl⟩
    exact hother hop hab.1

variable (isFileEpoll) in
/-- What holds between two calls. -/
structure Epolls.Ok (sys : Epolls File) : Prop where
  clear : sys.search.Clear
  noCycle : ∀ n, NoCycle (Watches isFileEpoll sys.rbr) n

theorem epollCtl_ok (h : sys.Ok isFileEpoll) (op : CtlOp) (insert : Except Int Nat) (f tf : File)
    (fd : Nat) :
    ∃ r sys', epollCtl isFileEpoll sys op insert f tf fd = some (r, sys') ∧
      sys'.Ok isFileEpoll := by
  obtain ⟨r, sys', heq, hclear, hnew⟩ := epollCtl_spec isFileEpoll h.clear op insert f tf fd
  refine ⟨r, sys', heq, hclear, fun n => ?_⟩
  rcases hnew with hold | ⟨-, -, hne, ⟨s', hcheck⟩, hnew⟩
  · exact (h.noCycle n).mono hold
  · -- the new watch cannot close a cycle
    intro k x hk hcycle
    obtain ⟨j, -, htrail⟩ := (h.noCycle n).closed_by hnew hk hcycle
    obtain ⟨ret, s'', hret, -, hfound⟩ := epLoopCheck_spec isFileEpoll h.clear hne.symm
    rw [hcheck] at hret
    cases hret
    exact hfound ⟨j, htrail⟩ rfl

variable (isFileEpoll) in
/-- The epoll files after some calls, from none that watches anything. -/
inductive Reached : Epolls File → Prop
  | init : Reached ⟨fun _ => [], fun _ => false, [], []⟩
  | ctl {sys sys' : Epolls File} (h : Reached sys) (op : CtlOp) (insert : Except Int Nat)
      (f tf : File) (fd : Nat) {r : CtlResult}
      (hctl : epollCtl isFileEpoll sys op insert f tf fd = some (r, sys')) : Reached sys'

theorem Reached.ok (h : Reached isFileEpoll sys) : sys.Ok isFileEpoll := by
  induction h with
  | init =>
    refine ⟨fun x => rfl, fun n k a hk hcycle => ?_⟩
    cases hcycle with
    | cons hab _ => obtain ⟨-, fd, ⟨⟩⟩ := hab
  | ctl h op insert f tf fd hctl ih =>
    obtain ⟨r, sys', heq, hok⟩ := epollCtl_ok ih op insert f tf fd
    rw [heq] at hctl
    cases hctl
    exact hok

/-- No epoll file watches itself through others; the check returns, finds every way back and leaves
no flag set. -/
theorem epoll_noCycle (h : Reached isFileEpoll sys) :
    (∀ n, NoCycle (Watches isFileEpoll sys.rbr) n) ∧
      ∀ ep file, file ≠ ep →
        ∃ ret s', epLoopCheck isFileEpoll sys ep file = some (ret, s') ∧
          ((∃ n, Trail (Watches isFileEpoll sys.rbr) n file ep) → ret ≠ 0) ∧
          ∀ x, s'.visited x = false := by
  refine ⟨h.ok.noCycle, fun ep file hne => ?_⟩
  obtain ⟨ret, s', hcheck, hclear, hfound⟩ := epLoopCheck_spec isFileEpoll h.ok.clear hne
  exact ⟨ret, s', hcheck, hfound, hclear⟩

/-- After one epoll file was added to another, the way back is refused. -/
theorem epoll_noCycle_pair :
    ∃ sys : Epolls Bool, Reached (fun _ => true) sys ∧ Watches (fun _ => true) sys.rbr false true ∧
      (∀ n, NoCycle (Watches (fun _ => true) sys.rbr) n) ∧
      (epLoopCheck (fun _ => true) sys true false).map Prod.fst = some (-1) := by
  have hreached := @Reached.ctl Bool _ (fun _ => true) _ _ .init .add (.ok 0) false true 3 _ rfl
  exact ⟨_, hreached, ⟨rfl, 3, by decide⟩, (epoll_noCycle hreached).1, by decide⟩

theorem loopCheckItems_enters {call : File → Search File → Option (Int × Search File)}
    (hone : ∀ i ∈ items, isFileEpoll i.1 = true → i.1 = f)
    (hf : isFileEpoll f = true ∧ ∃ fd, (f, fd) ∈ items) (hvisited : s.visited f = false)
    (h : loopCheckItems isFileEpoll call items s = some (0, s')) :
    ∃ s₁ s₂, s₁.visited = s.visited ∧ call f s₁ = some (0, s₂) := by
  induction items generalizing s with
  | nil => obtain ⟨-, fd, ⟨⟩⟩ := hf
  | cons item items ih =>
    obtain ⟨g, gd⟩ := item
    rw [forall_mem_cons] at hone
    rw [loopCheckItems] at h
    by_cases hg : isFileEpoll g = true
    · obtain rfl : g = f := hone.1 hg
      rw [if_pos hg, if_neg (Bool.eq_false_iff.mp hvisited)] at h
      cases hcall : call g s with
      | none => simp [hcall] at h
      | some r =>
        rw [hcall] at h
        by_cases herror : r.1 = 0
        · exact ⟨s, r.2, rfl, hcall.trans (by rw [← herror])⟩
        · simp [herror, Prod.ext_iff] at h
    · rw [if_neg hg] at h
      obtain ⟨hepoll, fd, hmem⟩ := hf
      have hrest := (mem_cons.mp hmem).resolve_left fun heq => hg (by cases heq; exact hepoll)
      have henters := fun hv => ih hone.2 ⟨hepoll, fd, hrest⟩ hv h
      exact henters hvisited

/-- Where no epoll file watches two others, the check follows the chain below the target to its
end: no file of it was visited before. -/
theorem epLoopCheckProc_depth
    (hone : ∀ a b b', Watches isFileEpoll rbr a b → Watches isFileEpoll rbr a b' → b = b')
    (hcycle : ∀ n, NoCycle (Watches isFileEpoll rbr) n)
    (habove : ∀ y, s.visited y = true → ∃ n, Trail (Watches isFileEpoll rbr) (n + 1) y file)
    (hshort : calls.length ≤ epMaxNests + 1)
    (h : epLoopCheckProc isFileEpoll rbr fuel file calls s = some (0, s'))
    (htrail : Trail (Watches isFileEpoll rbr) n file x) : n + calls.length ≤ epMaxNests + 1 := by
  induction fuel generalizing n file calls s s' with
  | zero => cases h
  | succ fuel ih =>
    cases htrail with
    | nil => omega
    | @cons n _ f _ hab hbc =>
      have hvisit : ∀ y, (s.visit file).visited y = true →
          ∃ n, Trail (Watches isFileEpoll rbr) (n + 1) y f := by
        intro y hy
        rcases Search.visit_visited.mp hy with rfl | hy
        · exact ⟨0, .cons hab (.nil f)⟩
        · obtain ⟨n, hn⟩ := habove y hy
          exact ⟨n + 1, hn.append (.cons hab (.nil f))⟩
      have hf : (s.visit file).visited f = false := by
        refine Bool.eq_false_iff.mpr fun hf => ?_
        obtain ⟨n, hn⟩ := hvisit f hf
        exact hcycle (n + 1) n f n.lt_succ_self hn
      obtain ⟨s₁, s₂, hsame, hcall⟩ := loopCheckItems_enters
        (fun i hi hepoll => hone file i.1 f ⟨hepoll, i.2, hi⟩ hab) hab hf h
      unfold epCallNested at hcall
      split at hcall
      · cases hcall
      next hrefused =>
      have hlen := (not_nestedRefused (Bool.eq_false_iff.mpr hrefused)).2 (Nat.zero_le _)
      have hcons := @length_cons _ f calls
      have hdepth := ih (hsame ▸ hvisit) (by omega) hcall hbc
      omega

variable (isFileEpoll) in
/-- The epoll files after calls that add an epoll file only to one that neither watches nor is
watched by another, so that chains grow at the upper end. -/
inductive ReachedUpwards : Epolls File → Prop
  | init : ReachedUpwards ⟨fun _ => [], fun _ => false, [], []⟩
  | ctl {sys sys' : Epolls File} (h : ReachedUpwards sys) (op : CtlOp) (insert : Except Int Nat)
      (f tf : File) (fd : Nat) {r : CtlResult}
      (hfresh : op = .add → isFileEpoll tf = true → ∀ x,
        ¬ Watches isFileEpoll sys.rbr x f ∧ ¬ Watches isFileEpoll sys.rbr f x)
      (hctl : epollCtl isFileEpoll sys op insert f tf fd = some (r, sys')) : ReachedUpwards sys'

variable (isFileEpoll) in
/-- No epoll file watches two others, and no chain is too long. -/
structure Epolls.Chained (sys : Epolls File) : Prop where
  one : ∀ a b b', Watches isFileEpoll sys.rbr a b → Watches isFileEpoll sys.rbr a b' → b = b'
  bounded : ∀ n x y, Trail (Watches isFileEpoll sys.rbr) n x y → n ≤ epMaxNests + 1

theorem ReachedUpwards.reached (h : ReachedUpwards isFileEpoll sys) : Reached isFileEpoll sys := by
  induction h with
  | init => exact .init
  | ctl _ op insert f tf fd _ hctl ih => exact .ctl ih op insert f tf fd hctl

theorem ReachedUpwards.chained (h : ReachedUpwards isFileEpoll sys) : sys.Chained isFileEpoll := by
  induction h with
  | init =>
    refine ⟨fun a b _ hab => ?_, fun n x y htrail => ?_⟩
    · obtain ⟨-, fd, ⟨⟩⟩ := hab
    · cases htrail with
      | nil => exact Nat.zero_le _
      | cons hab _ => obtain ⟨-, fd, ⟨⟩⟩ := hab
  | @ctl sys sys' hreached op insert f tf fd _ hfresh hctl ih =>
    have hok := hreached.reached.ok
    obtain ⟨_, _, heq, -, hnew⟩ := epollCtl_spec isFileEpoll hok.clear op insert f tf fd
    rw [heq] at hctl
    cases hctl
    rcases hnew with hold | ⟨hop, htf, hne, ⟨s', hcheck⟩, hnew⟩
    · exact ⟨fun a b b' hab hab' => ih.one a b b' (hold a b hab) (hold a b' hab'),
        fun n x y htrail => ih.bounded n x y (htrail.mono hold)⟩
    have hfresh := hfresh hop htf
    refine ⟨fun a b b' hab hab' => ?_, fun n x y htrail => ?_⟩
    · by_cases ha : a = f
      · subst ha
        have hb := (hnew a b hab).resolve_left (hfresh b).2
        have hb' := (hnew a b' hab').resolve_left (hfresh b').2
        rw [hb.2, hb'.2]
      · exact ih.one a b b' ((hnew a b hab).resolve_right fun h => ha h.1)
          ((hnew a b' hab').resolve_right fun h => ha h.1)
    -- nothing watches `f`, so that only the first link of a chain can be the new one
    have hunwatched : ∀ a b, Watches isFileEpoll sys'.rbr a b → b ≠ f := by
      rintro a b hab rfl
      rcases hnew a b hab with hold | ⟨-, heq⟩
      · exact (hfresh a).1 hold
      · exact hne heq
    cases htrail with
    | nil => exact Nat.zero_le _
    | @cons n _ z _ hxz hzy =>
      have hbelow : Trail (Watches isFileEpoll sys.rbr) n z y := by
        rcases hzy.cases_edge hnew with hold | ⟨i, j, -, hzf, -⟩
        · exact hold
        · exact absurd rfl
            (hzf.closed (P := (· ≠ f)) (fun a _ => hunwatched a) (hunwatched x z hxz))
      rcases hnew x z hxz with hold | ⟨rfl, rfl⟩
      · exact ih.bounded _ x y (.cons hold hbelow)
      · unfold epLoopCheck epCallNested at hcheck
        rw [nestedRefused, if_neg Bool.false_ne_true] at hcheck
        cases hproc : epLoopCheckProc isFileEpoll sys.rbr (epMaxNests + 1) z [x] sys.search with
        | none => simp [hproc] at hcheck
        | some r =>
          obtain ⟨ret, s⟩ := r
          rw [hproc] at hcheck
          cases hcheck
          refine epLoopCheckProc_depth ih.one hok.noCycle (fun y hy => ?_) (by simp) hproc hbelow
          simp [hok.clear y] at hy

/-- Chains that grow at the upper end have at most `EP_MAX_NESTS + 1` links. -/
theorem epoll_chain_bounded (h : ReachedUpwards isFileEpoll sys) :
    ∀ n x y, Trail (Watches isFileEpoll sys.rbr) n x y → n ≤ epMaxNests + 1 :=
  h.chained.bounded

/-- File 1 comes to watch 2, then 0 to watch 1. -/
theorem epoll_chain_bounded_three :
    ∃ sys : Epolls (Fin 3), ReachedUpwards (fun _ => true) sys ∧
      Watches (fun _ => true) sys.rbr 0 1 ∧ Watches (fun _ => true) sys.rbr 1 2 ∧
      ∀ n x y, Trail (Watches (fun _ => true) sys.rbr) n x y → n ≤ epMaxNests + 1 := by
  have hone := @ReachedUpwards.ctl (Fin 3) _ (fun _ => true) _ _ .init .add (.ok 0) 1 2 3 _
    (fun _ _ x => ⟨by simp [Watches], by simp [Watches]⟩) rfl
  have htwo := hone.ctl .add (.ok 0) 0 1 3 (fun _ _ x => ?_) rfl
  · exact ⟨_, htwo, ⟨rfl, 3, by decide⟩, ⟨rfl, 3, by decide⟩, epoll_chain_bounded htwo⟩
  · constructor
    · rintro ⟨-, fd, hfd⟩
      revert hfd
      dsimp only
      split <;> simp [ctlItems]
    · rintro ⟨-, fd, ⟨⟩⟩

/-- Of the epoll files `0`, …, `n` each comes to watch the next, from the top down. -/
def chainDown : Nat → Epolls Nat
  | 0 => ⟨fun _ => [], fun _ => false, [], []⟩
  | n + 1 =>
    match epollCtl (fun _ => true) (chainDown n) .add (.ok 0) n (n + 1) 3 with
    | none => chainDown n
    | some r => r.2

theorem reached_chainDown (n : Nat) : Reached (fun _ => true) (chainDown n) := by
  induction n with
  | zero => exact .init
  | succ n ih =>
    rw [chainDown]
    split
    · exact ih
    next r hctl => exact .ctl ih .add (.ok 0) n (n + 1) 3 hctl

/-- A chain that grows at its lower end is too long: nothing is below the new target, and no
ordinary file on `tfile_check_list` starts a check upwards. -/
theorem chainDown_too_long :
    Reached (fun _ => true) (chainDown 6) ∧
      (∀ n < epMaxNests + 2, Watches (fun _ => true) (chainDown 6).rbr n (n + 1)) ∧
      ∀ n < epMaxNests + 2, (epLoopCheck (fun _ => true) (chainDown n) n (n + 1)).map
        (fun r => (r.1, r.2.tfileCheckList)) = some (0, []) :=
  ⟨reached_chainDown 6, fun n hn => ⟨rfl, 3, by revert n; decide⟩, by decide⟩

end LinuxKernel.Fs
