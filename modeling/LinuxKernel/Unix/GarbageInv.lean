import LinuxKernel.Unix.Marking

/-!
# What the collector finds and what it leaves

From every configuration of sockets `unix_gc` comes to its purge with exactly the unreachable
sockets on `gc_candidates`.  The counters are not all as they were: a reference from such a socket
to a candidate that was kept is not counted again, since its flag is cleared too early.
-/

namespace LinuxKernel.Unix

open Lib List

variable {σ : Type} {all cands : List σ} {w : World σ}

section Config

variable [DecidableEq σ]

/-- The sockets before a run of the collector; `all` lists them. -/
structure Config (all : List σ) (w : World σ) : Prop where
  nodup : all.Nodup
  complete : ∀ x, x ∈ all
  /-- The counters are the numbers of queued references. -/
  inflight : ∀ u, w.inflight u = refsFrom w.refs all u
  fileCount : ∀ u, 1 ≤ w.inflight u → w.inflight u ≤ w.fileCount u
  linked : ∀ u, u ∈ w.inflightList ↔ 1 ≤ w.inflight u
  linked_nodup : w.inflightList.Nodup
  candidate : ∀ u, w.candidate u = false
  maybeCycle : ∀ u, w.maybeCycle u = false
  passed : w.passed = []
  candidates : w.candidates = []
  notCycle : w.notCycle = []
  hitlist : w.hitlist = []

/-- A socket that is not in flight or has an outer reference. -/
def World.Root (w : World σ) (x : σ) : Prop :=
  ¬ 1 ≤ w.inflight x ∨ w.inflight x < w.fileCount x

/-- The candidates, in the order of the list in flight. -/
def World.selected (w : World σ) : List σ :=
  w.inflightList.filter fun u => w.fileCount u = w.inflight u

/-- A socket in flight that is not reachable. -/
def World.Garbage (w : World σ) (u : σ) : Prop :=
  1 ≤ w.inflight u ∧ ¬ ReachableFrom w.refs w.Root u

theorem Config.mem_selected (h : Config all w) (u : σ) : u ∈ w.selected ↔ ¬ w.Root u := by
  unfold World.selected World.Root
  rw [mem_filter, h.linked, decide_eq_true_iff]
  have hfile := h.fileCount u
  omega

end Config

variable {w' : World σ}

variable [DecidableEq σ]

/-- The candidates of a list have been selected. -/
structure Selected (w : World σ) (l : List σ) (w' : World σ) : Prop where
  candidates : w'.candidates = w.candidates ++ l.filter fun u => w.fileCount u = w.inflight u
  candidate : ∀ u, w'.candidate u = (w.candidate u ||
    decide (u ∈ l.filter fun u => w.fileCount u = w.inflight u))
  maybeCycle : ∀ u, w'.maybeCycle u = (w.maybeCycle u ||
    decide (u ∈ l.filter fun u => w.fileCount u = w.inflight u))
  fileCount : w'.fileCount = w.fileCount
  inflight : w'.inflight = w.inflight
  queue : w'.queue = w.queue
  passed : w'.passed = w.passed
  notCycle : w'.notCycle = w.notCycle
  hitlist : w'.hitlist = w.hitlist
  linked : ∀ u ∈ w.inflightList, u ∈ w'.inflightList ∨
    u ∈ l.filter fun u => w.fileCount u = w.inflight u

theorem update_true (f : σ → Bool) (u v : σ) (l : List σ) :
    (Function.update f u true v || decide (v ∈ l)) = (f v || decide (v ∈ u :: l)) := by
  rw [Function.update_apply]
  by_cases hv : v = u <;> simp [hv]

theorem selected_foldl (w : World σ) (l : List σ) : Selected w l (l.foldl selectOne w) := by
  induction l generalizing w with
  | nil =>
    exact ⟨(append_nil _).symm, fun u => (Bool.or_false _).symm,
      fun u => (Bool.or_false _).symm, rfl, rfl, rfl, rfl, rfl, rfl, fun _ => .inl⟩
  | cons u l ih =>
    have hrest := ih (selectOne w u)
    rw [foldl_cons]
    by_cases hu : w.fileCount u = w.inflight u
    · have hone : selectOne w u = _ := if_pos hu
      have hfilter : (u :: l).filter (fun u => decide (w.fileCount u = w.inflight u)) =
          u :: l.filter fun u => decide (w.fileCount u = w.inflight u) :=
        filter_cons_of_pos (decide_eq_true hu)
      rw [hone] at hrest ⊢
      refine { hrest with
        candidates := ?_, candidate := fun v => ?_, maybeCycle := fun v => ?_
        linked := fun v hv => ?_ }
      · rw [hrest.candidates, hfilter, append_assoc]
        rfl
      · rw [hrest.candidate, hfilter]
        exact update_true _ u v _
      · rw [hrest.maybeCycle, hfilter]
        exact update_true _ u v _
      · rw [hfilter]
        by_cases hvu : v = u
        · exact .inr (hvu ▸ mem_cons_self)
        · exact (hrest.linked v ((mem_erase_of_ne hvu).mpr hv)).imp_right (mem_cons_of_mem u)
    have hone : selectOne w u = w := if_neg hu
    have hfilter : (u :: l).filter (fun u => decide (w.fileCount u = w.inflight u)) =
        l.filter fun u => decide (w.fileCount u = w.inflight u) :=
      filter_cons_of_neg (by simp [hu])
    rw [hone] at hrest ⊢
    refine { hrest with candidates := ?_, candidate := ?_, maybeCycle := ?_, linked := ?_ }
    all_goals rw [hfilter]
    exacts [hrest.candidates, hrest.candidate, hrest.maybeCycle, hrest.linked]

/-- The references from outside to a socket. -/
def World.outer (w : World σ) (all : List σ) (u : σ) : Nat :=
  refsFrom w.refs (all.filter fun x => x ∉ w.selected) u

theorem count_flatMap_candidateRefs (h : ∀ u, w.candidate u = decide (u ∈ cands)) (xs : List σ)
    (u : σ) :
    (xs.flatMap w.candidateRefs).count u = if u ∈ cands then refsFrom w.refs xs u else 0 := by
  induction xs with
  | nil =>
    rw [refsFrom_nil]
    exact (ite_self 0).symm
  | cons x xs ih =>
    rw [flatMap_cons, count_append, count_candidateRefs h, ih, refsFrom_cons]
    split_ifs <;> rfl

theorem Config.nodup_selected (h : Config all w) : w.selected.Nodup :=
  h.linked_nodup.filter _

theorem Config.perm_all (h : Config all w) {l : List σ} (hl : l.Nodup) :
    (l ++ all.filter fun x => decide (x ∉ l)).Perm all := by
  refine (perm_ext_iff_of_nodup ?_ h.nodup).mpr fun x => ?_
  · refine nodup_append.mpr ⟨hl, h.nodup.filter _, fun x hx y hy heq => ?_⟩
    have hnot := of_decide_eq_true (mem_filter.mp hy).2
    exact hnot (heq ▸ hx)
  · refine ⟨fun _ => h.complete x, fun hx => mem_append.mpr ?_⟩
    by_cases hmem : x ∈ l
    · exact .inl hmem
    · exact .inr (mem_filter.mpr ⟨hx, decide_eq_true hmem⟩)

theorem Config.inflight_eq (h : Config all w) (u : σ) :
    w.inflight u = refsFrom w.refs w.selected u + w.outer all u := by
  rw [h.inflight u, ← refsFrom_perm (h.perm_all h.nodup_selected), refsFrom_append]
  unfold World.outer
  push_cast
  rfl

/-- The first loop of `unix_gc` makes the selected sockets candidates. -/
theorem Config.selecting (h : Config all w) :
    (selectCandidates w).candidates = w.selected ∧
      (∀ u, (selectCandidates w).candidate u = decide (u ∈ w.selected)) ∧
      ∀ u, (selectCandidates w).maybeCycle u = decide (u ∈ w.selected) := by
  have hselected := selected_foldl w w.inflightList
  refine ⟨hselected.candidates.trans ?_, fun u => (hselected.candidate u).trans ?_,
    fun u => (hselected.maybeCycle u).trans ?_⟩
  · rw [h.candidates, nil_append]
    rfl
  · rw [h.candidate, Bool.false_or]
    rfl
  · rw [h.maybeCycle, Bool.false_or]
    rfl

/-- The second loop takes the references between candidates off. -/
theorem Config.dropping (h : Config all w) :
    dropReferences (selectCandidates w) = (selectCandidates w).addRefs (-1)
      (w.selected.flatMap (selectCandidates w).candidateRefs) := by
  unfold dropReferences
  rw [h.selecting.1]
  exact foldl_scanChildren_addInflight _ (-1) _

/-- The invariant of the third loop holds when it starts. -/
theorem Config.marking (h : Config all w) :
    Marking w w.selected (w.outer all) (ReachableFrom w.refs w.Root)
      (dropReferences (selectCandidates w)) := by
  have hselected := selected_foldl w w.inflightList
  obtain ⟨hcands, hcandidate, hmaybe⟩ := h.selecting
  have hpassed : (selectCandidates w).passed = [] := hselected.passed.trans h.passed
  have hnone : (selectCandidates w).notCycle = [] := hselected.notCycle.trans h.notCycle
  have hinflight : (selectCandidates w).inflight = w.inflight := hselected.inflight
  have hqueue : (selectCandidates w).queue = w.queue := hselected.queue
  have hlists : (selectCandidates w).passed ++ (selectCandidates w).candidates = w.selected := by
    rw [hpassed, hcands]
    rfl
  have hcount : ∀ u, (w.selected.flatMap (selectCandidates w).candidateRefs).count u =
      if u ∈ w.selected then refsFrom w.refs w.selected u else 0 := by
    intro u
    rw [count_flatMap_candidateRefs hcandidate]
    unfold World.refs
    rw [hqueue]
  rw [h.dropping]
  refine ⟨⟨hlists ▸ h.nodup_selected, fun u => ?_⟩, hqueue, hcandidate, hselected.hitlist,
    hselected.linked, ?_, fun u hu => ?_, fun u hu => ?_,
    fun u hu => absurd (hpassed ▸ hu) not_mem_nil, fun u hu => absurd (hnone ▸ hu) not_mem_nil⟩
  all_goals dsimp only [World.addRefs]
  · rw [hlists, hmaybe, decide_eq_true_iff]
  · rw [hlists, hnone, append_nil]
  · rw [hcount, if_pos hu, hinflight, h.inflight_eq u, hnone, refsFrom_nil]
    omega
  · rw [hcount, if_neg hu, hinflight]
    omega

/-- The sockets of a list went back to the list in flight. -/
structure Restored (w : World σ) (l : List σ) (w' : World σ) : Prop where
  candidate : ∀ u, w'.candidate u = (w.candidate u && decide (u ∉ l))
  inflight : w'.inflight = w.inflight
  queue : w'.queue = w.queue
  candidates : w'.candidates = w.candidates
  hitlist : w'.hitlist = w.hitlist
  inflightList : w'.inflightList = w.inflightList ++ l

theorem restored_foldl (w : World σ) (l : List σ) : Restored w l (l.foldl restoreOne w) := by
  induction l generalizing w with
  | nil => exact ⟨fun u => by simp, rfl, rfl, rfl, rfl, (append_nil _).symm⟩
  | cons u l ih =>
    have hrest := ih (restoreOne w u)
    refine { hrest with
      candidate := fun v => ?_, inflightList := hrest.inflightList.trans (append_assoc _ _ _) }
    rw [foldl_cons, hrest.candidate]
    have hupdate : (restoreOne w u).candidate v = if v = u then false else w.candidate v :=
      Function.update_apply _ _ _ _
    rw [hupdate]
    by_cases hv : v = u <;> simp [hv]

/-- A buffer has a reference to a socket of the list. -/
def hits (garbage : List σ) (skb : Skb σ) : Bool :=
  skb.refs.any fun u => u ∈ garbage

/-- The state in which `unix_gc` comes to its purge. -/
structure Collected (w w' : World σ) : Prop where
  nodup : w'.candidates.Nodup
  garbage : ∀ u, u ∈ w'.candidates ↔ w.Garbage u
  inflight : ∀ u, w'.inflight u = w.inflight u -
    (if u ∈ w.selected ∧ u ∉ w'.candidates then refsFrom w.refs w'.candidates u else 0 : Nat)
  hitlist : w'.hitlist = w'.candidates.flatMap fun x => (w.queue x).skbs.filter (hits w'.candidates)
  queue : ∀ x, w'.queue x =
    if x ∈ w'.candidates then (w.queue x).keep fun skb => !hits w'.candidates skb else w.queue x
  linked : ∀ u ∈ w.inflightList, u ∈ w'.inflightList ∨ u ∈ w'.candidates

theorem Marking.restored {outer : σ → Nat} {live : σ → Prop}
    (hmark : Marking w cands outer live w') (hnodup : cands.Nodup) (hend : w'.candidates = []) :
    (restoreInflight w').candidates = w'.passed ∧
      (∀ u, (restoreInflight w').candidate u = decide (u ∈ w'.passed)) ∧
      (restoreInflight w').inflight = w'.inflight ∧
      (restoreInflight w').queue = w.queue ∧
      (restoreInflight w').hitlist = w.hitlist ∧
      ∀ u ∈ w.inflightList, u ∈ (restoreInflight w').inflightList ∨ u ∈ w'.passed := by
  have hrestored := restored_foldl
    { w' with passed := [], candidates := w'.passed ++ w'.candidates } w'.notCycle
  have hperm := hmark.perm
  rw [hend, append_nil] at hperm
  have hdisjoint := (nodup_append.mp (hperm.nodup_iff.mpr hnodup)).2.2
  refine ⟨?_, fun u => ?_, hrestored.inflight, hrestored.queue.trans hmark.queue,
    hrestored.hitlist.trans hmark.hitlist, fun u hu => ?_⟩
  · refine hrestored.candidates.trans ?_
    simp only [hend, append_nil]
  swap
  · have hlist : (restoreInflight w').inflightList = _ := hrestored.inflightList
    have hlinked := hmark.linked u hu
    rw [← hperm.mem_iff, mem_append] at hlinked
    rw [hlist, mem_append]
    tauto
  refine (hrestored.candidate u).trans ?_
  simp only [hmark.candidate u, ← Bool.decide_and]
  refine decide_eq_decide.mpr ?_
  rw [← hperm.mem_iff, mem_append]
  constructor
  · rintro ⟨hu, hnot⟩
    exact hu.resolve_right hnot
  · intro hu
    exact ⟨Or.inl hu, fun hkept => hdisjoint u hu u hkept rfl⟩

section End

variable (h : Config all w)
  (hmark : Marking w w.selected (w.outer all) (ReachableFrom w.refs w.Root) w')
  (hend : w'.candidates = [])

include h hmark hend

/-- What is before the cursor in the end is not reachable, the rest is. -/
theorem Config.garbage_iff (u : σ) : u ∈ w'.passed ↔ w.Garbage u := by
  have hperm := hmark.perm
  rw [hend, append_nil] at hperm
  have hselected : ∀ x, x ∈ w.selected ↔ x ∈ w'.passed ∨ x ∈ w'.notCycle := fun x => by
    rw [← hperm.mem_iff, mem_append]
  constructor
  · intro hu
    have hsel := (hselected u).mpr (.inl hu)
    have hroot := (h.mem_selected u).mp hsel
    refine ⟨Decidable.of_not_not fun hne => hroot (.inl hne), fun hreach => ?_⟩
    -- The sockets that are not in front of the cursor hold the roots and are closed.
    refine hreach.of_closed (P := fun x => x ∉ w'.passed) (fun x hx hpassed => ?_)
      (fun x y hx hy hpassed => ?_) hu
    · exact (h.mem_selected x).mp ((hselected x).mpr (.inl hpassed)) hx
    have hysel := (hselected y).mpr (.inl hpassed)
    have hquiet := hmark.quiet y hpassed
    rw [hmark.count y hysel] at hquiet
    have hout : w.outer all y = 0 := by omega
    have hkept : refsFrom w.refs w'.notCycle y = 0 := by omega
    by_cases hxsel : x ∈ w.selected
    · exact refsFrom_eq_zero.mp hkept x (((hselected x).mp hxsel).resolve_left hx) hy
    · refine refsFrom_eq_zero.mp hout x (mem_filter.mpr ⟨h.complete x, ?_⟩) hy
      exact decide_eq_true hxsel
  · rintro ⟨-, hreach⟩
    have hsel := (h.mem_selected u).mpr fun hroot => hreach (.root hroot)
    refine ((hselected u).mp hsel).resolve_right fun hkept => hreach ?_
    exact hmark.alive u hkept

theorem Config.inflight_collected (u : σ) :
    w'.inflight u + (if u ∈ w'.passed then refsFrom w.refs w'.passed u else 0 : Nat) =
      w.inflight u -
        (if u ∈ w.selected ∧ u ∉ w'.passed then refsFrom w.refs w'.passed u else 0 : Nat) := by
  have hperm := hmark.perm
  rw [hend, append_nil] at hperm
  have hrefs := refsFrom_perm hperm w.refs u
  rw [refsFrom_append] at hrefs
  have hstart := h.inflight_eq u
  by_cases hu : u ∈ w.selected
  · have hcount := hmark.count u hu
    by_cases hpassed : u ∈ w'.passed
    · rw [if_pos hpassed, if_neg fun hboth => hboth.2 hpassed]
      omega
    · rw [if_neg hpassed, if_pos ⟨hu, hpassed⟩]
      omega
  · have hother := hmark.other u hu
    have hpassed : u ∉ w'.passed := fun hmem =>
      hu (hperm.mem_iff.mp (mem_append_left _ hmem))
    rw [if_neg hpassed, if_neg fun hboth => hu hboth.1]
    omega

theorem Config.collected : Collected w (fillHitlist (restoreInflight w')) := by
  obtain ⟨hcands, hflag, hinflight, hqueue, hhits, hlinked⟩ := hmark.restored h.nodup_selected hend
  have hnodup : w'.passed.Nodup := (nodup_append.mp hmark.nodup).1
  have hpurged : Purged (restoreInflight w') w'.passed (fillHitlist (restoreInflight w')) := by
    unfold fillHitlist
    rw [hcands]
    exact purged_foldl _ hnodup
  have hfinal : (fillHitlist (restoreInflight w')).candidates = w'.passed :=
    hpurged.candidates.trans hcands
  have hrefs : (restoreInflight w').refs = w.refs := by
    funext x
    unfold World.refs
    rw [hqueue]
  have hhit : (restoreInflight w').hit = hits w'.passed := by
    funext skb
    unfold World.hit hits
    refine congrArg (List.any skb.refs) (funext fun u => ?_)
    exact hflag u
  refine ⟨?_, fun u => ?_, fun u => ?_, ?_, fun x => ?_, fun u hu => ?_⟩
  · rw [hfinal]
    exact hnodup
  · rw [hfinal]
    exact h.garbage_iff hmark hend u
  · rw [hfinal, ← h.inflight_collected hmark hend u, hpurged.inflight]
    show (restoreInflight w').inflight u + 1 * _ = _
    rw [hinflight, Int.one_mul, count_flatMap_candidateRefs hflag, hrefs]
  · rw [hfinal, hpurged.hitlist, hhits, h.hitlist, hhit, hqueue]
    rfl
  · rw [hfinal, hpurged.queue x, hhit, hqueue]
  · rw [hfinal, hpurged.inflightList]
    exact hlinked u hu

end End

theorem unixGc_returns (h : Config all w) : ∃ w', Returns (unixGc w) w' ∧ Collected w w' := by
  have houter : ∀ v ∈ w.selected, 0 < w.outer all v → ReachableFrom w.refs w.Root v := by
    intro v _ hv
    obtain ⟨x, hx, hvx⟩ := refsFrom_pos.mp hv
    have hnot := of_decide_eq_true (mem_filter.mp hx).2
    have hroot : w.Root x := Classical.not_not.mp fun hne => hnot ((h.mem_selected x).mpr hne)
    exact .step (.root hroot) hvx
  obtain ⟨w₁, ⟨n, hn⟩, hmark, hend⟩ :=
    restoreLoop_returns houter (fun x y hx hy => .step hx hy) h.marking
  have hloop : Returns (unixGc w) (fillHitlist (restoreInflight w₁)) := by
    refine ⟨n, fun fuel hfuel => ?_⟩
    exact congrArg (Option.map _) (hn fuel hfuel)
  exact ⟨_, hloop, h.collected hmark hend⟩

/-- The collector is exact.  From every configuration `unix_gc` comes to its purge; left on
`gc_candidates` are the sockets in flight not reachable from one that is not in flight or has an
outer reference.  The buffers queued on these that refer to one of them have gone to the hitlist,
and all others are where they were. -/
theorem unix_gc_exact (h : Config all w) :
    ∃ w', Returns (unixGc w) w' ∧
      (∀ u, u ∈ w'.candidates ↔ 1 ≤ w.inflight u ∧ ¬ ReachableFrom w.refs w.Root u) ∧
      (w'.hitlist =
        w'.candidates.flatMap fun x => (w.queue x).skbs.filter (hits w'.candidates)) ∧
      ∀ x, w'.queue x =
        if x ∈ w'.candidates then (w.queue x).keep fun skb => !hits w'.candidates skb
        else w.queue x := by
  obtain ⟨w', hret, hcollected⟩ := unixGc_returns h
  exact ⟨w', hret, hcollected.garbage, hcollected.hitlist, hcollected.queue⟩

/-- Three sockets.  The queue of socket 1 holds files of itself and of socket 2; that of socket 0,
which is in use, another file of socket 2. -/
def sharedChild : World (Fin 3) where
  fileCount u := if u = 2 then 2 else 1
  inflight u := if u = 0 then 0 else if u = 1 then 1 else 2
  queue u :=
    if u = 0 then .data [⟨some [some 2]⟩]
    else if u = 1 then .data [⟨some [some 1, some 2]⟩] else .data []
  candidate _ := false
  maybeCycle _ := false
  inflightList := [1, 2]
  passed := []
  candidates := []
  notCycle := []
  hitlist := []

theorem config_sharedChild : Config [0, 1, 2] sharedChild :=
  ⟨by decide, by decide, by decide, by decide, by decide, by decide, fun _ => rfl, fun _ => rfl,
    rfl, rfl, rfl, rfl⟩

theorem unix_gc_exact_sharedChild :
    ∃ w', Returns (unixGc sharedChild) w' ∧
      (∀ u, u ∈ w'.candidates ↔
        1 ≤ sharedChild.inflight u ∧ ¬ ReachableFrom sharedChild.refs sharedChild.Root u) ∧
      w'.hitlist =
        w'.candidates.flatMap fun x => (sharedChild.queue x).skbs.filter (hits w'.candidates) :=
  (unix_gc_exact config_sharedChild).imp fun _ h => ⟨h.1, h.2.1, h.2.2.1⟩

/-- The references to a socket in the receive queues and on the hitlist. -/
def World.pending (w : World σ) (all : List σ) (u : σ) : Nat :=
  refsFrom w.refs all u + (w.hitlist.flatMap Skb.refs).count u

/-- `unix_notinflight` of one file after the other meets no empty link and no counter below one. -/
def ReleasesOk : World σ → List σ → Prop
  | _, [] => True
  | w, u :: us => 1 ≤ w.inflight u ∧ ∃ w', unixNotinflight w u = some w' ∧ ReleasesOk w' us

theorem releasesOk_of_linked {us : List σ} (hcount : ∀ u, us.count u ≤ w.inflight u)
    (hlinked : ∀ u, 1 ≤ w.inflight u → u ∈ w.inflightList ∨ u ∈ w.candidates) :
    ReleasesOk w us := by
  induction us generalizing w with
  | nil => trivial
  | cons u us ih =>
    have hu := hcount u
    rw [count_cons_self] at hu
    have hone : 1 ≤ w.inflight u := by omega
    have hdec : ∀ v, (addInflight (-1) w u).inflight v = w.inflight v + -1 * [u].count v := by
      intro v
      rw [addInflight_eq]
      rfl
    have hcount' : ∀ v, us.count v ≤ (addInflight (-1) w u).inflight v := by
      intro v
      have hv := hcount v
      rw [← singleton_append, count_append] at hv
      rw [hdec]
      omega
    have hlinked' : ∀ v, 1 ≤ (addInflight (-1) w u).inflight v →
        v ∈ w.inflightList ∨ v ∈ w.candidates := by
      intro v hv
      rw [hdec] at hv
      exact hlinked v (by omega)
    refine ⟨hone, ?_⟩
    unfold unixNotinflight
    rw [if_pos (hlinked u hone)]
    dsimp only
    split_ifs with hzero
    · refine ⟨_, rfl, ih hcount' fun v hv => ?_⟩
      have hne : v ≠ u := by
        rintro rfl
        exact absurd (hv.trans_eq hzero) (by decide)
      exact (hlinked' v hv).imp (mem_erase_of_ne hne).mpr (mem_erase_of_ne hne).mpr
    · exact ⟨_, rfl, ih hcount' hlinked'⟩

/-- The accounting at the purge: the counters are as they were, they are the numbers of pending
references, and these can be released in any order. -/
structure Accounted (all : List σ) (w w' : World σ) : Prop where
  inflight : ∀ u, w'.inflight u = w.inflight u
  pending : ∀ u, w'.inflight u = w'.pending all u
  release : ∀ us, (∀ u, us.count u ≤ w'.pending all u) → ReleasesOk w' us

/-- No buffer is lost on the way to the purge. -/
theorem Collected.pending_eq (hcollected : Collected w w') (h : Config all w) (u : σ) :
    w'.pending all u = refsFrom w.refs all u := by
  have hperm := h.perm_all hcollected.nodup
  have hhits : (w'.hitlist.flatMap Skb.refs).count u = refsFrom (fun x =>
      ((w.queue x).skbs.filter (hits w'.candidates)).flatMap Skb.refs) w'.candidates u := by
    rw [hcollected.hitlist, flatMap_assoc]
    rfl
  have hsplit : refsFrom w.refs w'.candidates u = refsFrom _ w'.candidates u + _ :=
    refsFrom_add (a := fun x => ((w.queue x).skbs.filter (hits w'.candidates)).flatMap Skb.refs)
      (b := w'.refs) fun x hx => by
        unfold World.refs
        rw [hcollected.queue x, if_pos hx, Queue.skbs_keep, ← count_append, ← flatMap_append]
        exact ((filter_append_perm _ _).flatMap_right _).symm.count_eq u
  have hrest : refsFrom w'.refs (all.filter fun x => decide (x ∉ w'.candidates)) u =
      refsFrom w.refs (all.filter fun x => decide (x ∉ w'.candidates)) u := by
    refine congrArg (List.count u) (flatMap_congr fun x hx => ?_)
    unfold World.refs
    rw [hcollected.queue x, if_neg (of_decide_eq_true (mem_filter.mp hx).2)]
  unfold World.pending
  rw [← refsFrom_perm hperm, ← refsFrom_perm hperm, refsFrom_append, refsFrom_append, hhits, hsplit,
    hrest]
  omega

/-- The accounting is right exactly when no garbage refers to a kept socket in flight without an
outer reference. -/
theorem unix_gc_counters_iff (h : Config all w) :
    ∃ w', Returns (unixGc w) w' ∧ (Accounted all w w' ↔
      ∀ x y, w.Garbage x → y ∈ w.refs x → ¬ w.Root y → w.Garbage y) := by
  obtain ⟨w', hret, hcollected⟩ := unixGc_returns h
  refine ⟨w', hret, ⟨fun hsame x y hx hy hroot => ?_, fun hclosed => ?_⟩⟩
  · rw [← hcollected.garbage]
    by_contra hnot
    have heq := hsame.inflight y
    rw [hcollected.inflight y, if_pos ⟨(h.mem_selected y).mpr hroot, hnot⟩] at heq
    have hzero : refsFrom w.refs w'.candidates y = 0 := by omega
    exact refsFrom_eq_zero.mp hzero x ((hcollected.garbage x).mpr hx) hy
  have hkept : ∀ u, w'.inflight u = w.inflight u := by
    intro u
    rw [hcollected.inflight u]
    split_ifs with hlive
    · have hzero : refsFrom w.refs w'.candidates u = 0 := by
        refine refsFrom_eq_zero.mpr fun x hx hu => hlive.2 ?_
        exact (hcollected.garbage u).mpr (hclosed x u ((hcollected.garbage x).mp hx) hu
          ((h.mem_selected u).mp hlive.1))
      omega
    · omega
  have hpending : ∀ u, w'.inflight u = w'.pending all u := by
    intro u
    rw [hkept, h.inflight, hcollected.pending_eq h]
  refine ⟨hkept, hpending, fun us hus => releasesOk_of_linked (fun u => ?_) fun u hu => ?_⟩
  · rw [hpending]
    exact_mod_cast hus u
  · exact hcollected.linked u ((h.linked u).mpr (hkept u ▸ hu))

/-- The same sockets, but socket 2 is in use too. -/
def heldChild : World (Fin 3) :=
  { sharedChild with fileCount := fun u => if u = 2 then 3 else 1 }

theorem unix_gc_counters_iff_heldChild :
    ∃ w', Returns (unixGc heldChild) w' ∧ Accounted [0, 1, 2] heldChild w' := by
  have hconfig : Config [0, 1, 2] heldChild :=
    ⟨by decide, by decide, by decide, by decide, by decide, by decide, fun _ => rfl, fun _ => rfl,
      rfl, rfl, rfl, rfl⟩
  refine (unix_gc_counters_iff hconfig).imp fun w' h => ⟨h.1, h.2.mpr fun x y hx hy hroot => ?_⟩
  have hself : ∀ x y, 1 ≤ heldChild.inflight x → y ∈ heldChild.refs x → ¬ heldChild.Root y →
      y = x := by
    unfold World.Root
    decide
  exact hself x y hx.1 hy hroot ▸ hx

/-- Socket 2 has one reference less at the purge, though both are still queued or on the hitlist.
The purge takes it off the list in flight, and the file in the queue of socket 0 then meets the
empty link. -/
theorem unix_gc_loses_count :
    Config [0, 1, 2] sharedChild ∧
      (unixGc sharedChild 4).map (fun w => (w.inflight 2, w.candidates)) = some (1, [1]) ∧
      sharedChild.inflight 2 = 2 ∧
      ((unixGc sharedChild 4).bind purgeHitlist).isSome = true ∧
      (((unixGc sharedChild 4).bind purgeHitlist).bind (unixNotinflight · 2)).isNone = true :=
  ⟨config_sharedChild, by decide, by decide, by decide, by decide⟩

end LinuxKernel.Unix
