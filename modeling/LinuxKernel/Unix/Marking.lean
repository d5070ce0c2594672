import LinuxKernel.Unix.Scan
import Mathlib.Data.List.Sort

/-!
# Marking the sockets that are no garbage

The candidates lose the references from candidates.  The third loop of `unix_gc` gives the
references from a candidate back when one to it is still counted.  Its invariant: the counters hold
the references from outside and from the sockets found alive, and what lies in front of the cursor
has none.
-/

namespace LinuxKernel.Unix

open Lib List

variable {σ : Type} [DecidableEq σ] {w w' w'' : World σ} {l r : List σ}

/-- `UNIX_GC_MAYBE_CYCLE` marks the sockets in `gc_candidates`. -/
structure Flagged (w : World σ) : Prop where
  nodup : (w.passed ++ w.candidates).Nodup
  maybe : ∀ u, w.maybeCycle u = true ↔ u ∈ w.passed ++ w.candidates

/-- The sockets of a list got a reference; those in `gc_candidates` moved to its end. -/
structure Moved (w : World σ) (l : List σ) (w' : World σ) : Prop where
  inflight : ∀ u, w'.inflight u = w.inflight u + l.count u
  perm : (w'.passed ++ w'.candidates).Perm (w.passed ++ w.candidates)
  passed : ∀ v ∈ w'.passed, v ∈ w.passed ∧ v ∉ l
  maybeCycle : w'.maybeCycle = w.maybeCycle
  notCycle : w'.notCycle = w.notCycle
  queue : w'.queue = w.queue
  candidate : w'.candidate = w.candidate
  hitlist : w'.hitlist = w.hitlist
  inflightList : w'.inflightList = w.inflightList

theorem Moved.flagged (h : Moved w l w') (hw : Flagged w) : Flagged w' := by
  refine ⟨h.perm.nodup_iff.mpr hw.nodup, fun u => ?_⟩
  rw [h.maybeCycle, hw.maybe, h.perm.mem_iff]

theorem Moved.nil (w : World σ) : Moved w [] w :=
  ⟨fun u => by simp, .refl _, fun v hv => ⟨hv, not_mem_nil⟩, rfl, rfl, rfl, rfl, rfl, rfl⟩

theorem Moved.trans (h : Moved w l w') (h' : Moved w' r w'') : Moved w (l ++ r) w'' := by
  refine ⟨fun u => ?_, h'.perm.trans h.perm, fun v hv => ?_, h'.maybeCycle.trans h.maybeCycle,
    h'.notCycle.trans h.notCycle, h'.queue.trans h.queue, h'.candidate.trans h.candidate,
    h'.hitlist.trans h.hitlist, h'.inflightList.trans h.inflightList⟩
  · rw [h'.inflight, h.inflight, count_append]
    omega
  · obtain ⟨hv', hr⟩ := h'.passed v hv
    obtain ⟨hw, hl⟩ := h.passed v hv'
    exact ⟨hw, fun hmem => (mem_append.mp hmem).elim hl hr⟩

theorem perm_move {a b : List σ} {u : σ} (hnodup : (a ++ b).Nodup) (hu : u ∈ a ++ b) :
    (a.erase u ++ (b.erase u ++ [u])).Perm (a ++ b) := by
  obtain ⟨ha, hb, hdisjoint⟩ := nodup_append.mp hnodup
  rw [← append_assoc]
  obtain hu | hu := mem_append.mp hu
  · have hub : u ∉ b := fun hmem => hdisjoint u hu u hmem rfl
    rw [erase_of_not_mem hub]
    exact (perm_append_singleton _ _).trans ((perm_cons_erase hu).symm.append_right b)
  · have hua : u ∉ a := fun hmem => hdisjoint u hmem u hu rfl
    rw [erase_of_not_mem hua, append_assoc]
    refine .append_left a ?_
    exact (perm_append_singleton _ _).trans (perm_cons_erase hu).symm

theorem moved_incInflightMoveTail (hw : Flagged w) (u : σ) :
    Moved w [u] (incInflightMoveTail w u) := by
  have hcount : ∀ v, (addInflight 1 w u).inflight v = w.inflight v + List.count v [u] := by
    intro v
    rw [addInflight_eq]
    exact congrArg (w.inflight v + ·) (Int.one_mul _)
  unfold incInflightMoveTail
  simp only
  split_ifs with hmaybe
  · have hu : u ∈ w.passed ++ w.candidates := (hw.maybe u).mp hmaybe
    refine ⟨hcount, perm_move hw.nodup hu, fun v hv => ?_, rfl, rfl, rfl, rfl, rfl, rfl⟩
    have hv' := (List.Nodup.mem_erase_iff (nodup_append.mp hw.nodup).1).mp hv
    exact ⟨hv'.2, fun hmem => hv'.1 (mem_singleton.mp hmem)⟩
  · refine ⟨hcount, .refl _, fun v hv => ⟨hv, fun hmem => hmaybe ?_⟩, rfl, rfl, rfl, rfl, rfl, rfl⟩
    rw [← mem_singleton.mp hmem]
    exact (hw.maybe v).mpr (mem_append_left _ hv)

theorem moved_foldl (hw : Flagged w) (l : List σ) : Moved w l (l.foldl incInflightMoveTail w) := by
  induction l generalizing w with
  | nil => exact .nil w
  | cons u l ih =>
    have hu := moved_incInflightMoveTail hw u
    exact hu.trans (ih (hu.flagged hw))

theorem plain_incInflightMoveTail : @Plain σ incInflightMoveTail := by
  refine ⟨fun w u => ?_, fun w u => ?_, fun w u skbs => ?_⟩
  all_goals unfold incInflightMoveTail
  · dsimp only
    split_ifs <;> rfl
  · dsimp only
    split_ifs <;> rfl
  · rw [apply_ite (World.addHits · skbs)]
    rfl

variable {start : World σ} {cands : List σ} {outer : σ → Nat} {live : σ → Prop} {u : σ}
  {rest : List σ}

/-- The invariant of the third loop of `unix_gc`. -/
structure Marking (start : World σ) (cands : List σ) (outer : σ → Nat) (live : σ → Prop)
    (w : World σ) : Prop extends Flagged w where
  queue : w.queue = start.queue
  candidate : ∀ u, w.candidate u = decide (u ∈ cands)
  hitlist : w.hitlist = start.hitlist
  linked : ∀ u ∈ start.inflightList, u ∈ w.inflightList ∨ u ∈ cands
  perm : (w.passed ++ w.candidates ++ w.notCycle).Perm cands
  count : ∀ u ∈ cands, w.inflight u = outer u + refsFrom start.refs w.notCycle u
  other : ∀ u, u ∉ cands → w.inflight u = start.inflight u
  quiet : ∀ u ∈ w.passed, w.inflight u ≤ 0
  alive : ∀ u ∈ w.notCycle, live u

theorem count_candidateRefs (h : ∀ u, w.candidate u = decide (u ∈ cands)) (x u : σ) :
    (w.candidateRefs x).count u = if u ∈ cands then (w.refs x).count u else 0 := by
  unfold World.candidateRefs
  by_cases hu : u ∈ cands
  · rw [if_pos hu, count_filter]
    rw [h u, decide_eq_true hu]
  · rw [if_neg hu]
    refine count_eq_zero.mpr fun hmem => hu ?_
    have hflag := (mem_filter.mp hmem).2
    rw [h u] at hflag
    exact of_decide_eq_true hflag

variable (hcands : w.candidates = u :: rest)

include hcands

/-- The cursor passes a socket without a reference. -/
theorem Marking.pass (h : Marking start cands outer live w) (hu : w.inflight u ≤ 0) :
    Marking start cands outer live (passCursor w u rest) := by
  have hlist : w.passed ++ [u] ++ rest = w.passed ++ w.candidates := by
    rw [hcands, append_assoc]
    rfl
  have hflagged : Flagged (passCursor w u rest) := by
    refine ⟨?_, fun v => ?_⟩
    · exact hlist ▸ h.nodup
    · refine (h.maybe v).trans ?_
      rw [← hlist]
      rfl
  refine ⟨hflagged, h.queue, h.candidate, h.hitlist, h.linked, ?_, h.count, h.other, ?_, h.alive⟩
  · have hperm := h.perm
    rw [← hlist] at hperm
    exact hperm
  · exact forall_mem_append.mpr ⟨h.quiet, forall_mem_singleton.mpr hu⟩

/-- The socket behind the cursor goes to `not_cycle_list`. -/
def detach (w : World σ) (u : σ) (rest : List σ) : World σ :=
  { w with
    candidates := rest
    notCycle := w.notCycle ++ [u]
    maybeCycle := Function.update w.maybeCycle u false }

omit [DecidableEq σ] in
theorem Flagged.notMem (h : Flagged w) : u ∉ w.passed ∧ u ∉ rest ∧ (w.passed ++ rest).Nodup := by
  have hnodup := h.nodup
  rw [hcands, nodup_middle, nodup_cons, mem_append, not_or] at hnodup
  exact ⟨hnodup.1.1, hnodup.1.2, hnodup.2⟩

theorem keepSocket_eq (h : Flagged w) : keepSocket (passCursor w u rest) u =
      ((detach w u rest).candidateRefs u).foldl incInflightMoveTail (detach w u rest) := by
  have hpassed : (w.passed ++ [u]).erase u = w.passed := by
    rw [erase_append_right _ (h.notMem hcands).1, erase_cons_head, append_nil]
  unfold keepSocket passCursor
  simp only [hpassed]
  exact scanChildren_false plain_incInflightMoveTail _ u

theorem Flagged.detach (h : Flagged w) : Flagged (detach w u rest) := by
  obtain ⟨hpassed, hrest, hnodup⟩ := h.notMem hcands
  refine ⟨hnodup, fun v => ?_⟩
  have hmaybe := h.maybe v
  rw [hcands, mem_append, mem_cons] at hmaybe
  have hupdate : (Unix.detach w u rest).maybeCycle v =
      if v = u then false else w.maybeCycle v := Function.update_apply _ _ _ _
  rw [hupdate]
  by_cases hv : v = u
  · rw [if_pos hv, hv]
    refine ⟨nofun, fun hmem => ?_⟩
    exact absurd hmem fun hmem => (mem_append.mp hmem).elim hpassed hrest
  · rw [if_neg hv, hmaybe]
    refine ⟨fun hmem => mem_append.mpr (hmem.imp_right (Or.resolve_left · hv)), fun hmem => ?_⟩
    exact (mem_append.mp hmem).imp_right Or.inr

variable (houter : ∀ v ∈ cands, 0 < outer v → live v)
  (hstep : ∀ x y, live x → y ∈ start.refs x → live y)

include houter hstep

/-- A socket with a reference left is alive. -/
theorem Marking.live_of_pos (h : Marking start cands outer live w) (hu : 0 < w.inflight u) :
    live u := by
  have hucand : u ∈ cands := by
    refine h.perm.mem_iff.mp (mem_append_left _ (mem_append_right _ ?_))
    rw [hcands]
    exact mem_cons_self
  have hcount := h.count u hucand
  by_cases hout : 0 < outer u
  · exact houter u hucand hout
  · obtain ⟨x, hx, hux⟩ := refsFrom_pos.mp (show 0 < refsFrom start.refs w.notCycle u by omega)
    exact hstep x u (h.alive x hx) hux

/-- A socket with a reference leaves the candidates. -/
theorem Marking.keep (h : Marking start cands outer live w) (hu : 0 < w.inflight u) :
    Marking start cands outer live (keepSocket (passCursor w u rest) u) ∧
      (keepSocket (passCursor w u rest) u).passed.length +
        (keepSocket (passCursor w u rest) u).candidates.length <
          w.passed.length + w.candidates.length := by
  have hflagged := h.toFlagged.detach hcands
  have hmoved := moved_foldl hflagged ((detach w u rest).candidateRefs u)
  have halive := h.live_of_pos hcands houter hstep hu
  have hcount : ∀ v, ((detach w u rest).candidateRefs u).count v =
      if v ∈ cands then (start.refs u).count v else 0 := by
    intro v
    have hrefs := count_candidateRefs h.candidate u v
    rw [World.refs, h.queue] at hrefs
    exact hrefs
  rw [keepSocket_eq hcands h.toFlagged]
  refine ⟨⟨hmoved.flagged hflagged, hmoved.queue.trans h.queue, fun v => ?_,
    hmoved.hitlist.trans h.hitlist, fun v hv => ?_, ?_, fun v hv => ?_, fun v hv => ?_,
    fun v hv => ?_, fun v hv => ?_⟩, ?_⟩
  · rw [hmoved.candidate]
    exact h.candidate v
  · rw [hmoved.inflightList]
    exact h.linked v hv
  · rw [hmoved.notCycle]
    refine (hmoved.perm.append_right _).trans (.trans ?_ h.perm)
    rw [hcands]
    show (w.passed ++ rest ++ (w.notCycle ++ [u])).Perm (w.passed ++ u :: rest ++ w.notCycle)
    rw [← append_assoc, append_assoc w.passed (u :: rest), cons_append]
    refine (perm_append_singleton _ _).trans ?_
    rw [append_assoc]
    exact perm_middle.symm
  · rw [hmoved.inflight, hmoved.notCycle, hcount v, if_pos hv]
    show w.inflight v + _ = outer v + (refsFrom start.refs (w.notCycle ++ [u]) v : Int)
    rw [h.count v hv, refsFrom_append, refsFrom_singleton]
    push_cast
    omega
  · rw [hmoved.inflight, hcount v, if_neg hv]
    exact (Int.add_zero _).trans (h.other v hv)
  · obtain ⟨hpassed, hnot⟩ := hmoved.passed v hv
    rw [hmoved.inflight, count_eq_zero.mpr hnot]
    exact le_of_eq_of_le (Int.add_zero _) (h.quiet v hpassed)
  · rw [hmoved.notCycle] at hv
    exact forall_mem_append.mpr ⟨h.alive, forall_mem_singleton.mpr halive⟩ v hv
  · have hlength := hmoved.perm.length_eq
    rw [length_append, length_append] at hlength
    rw [hlength, hcands, length_cons]
    show w.passed.length + rest.length < _
    omega

omit hcands in
/-- The third loop ends, with its invariant. -/
theorem restoreLoop_returns {w : World σ} (h : Marking start cands outer live w) :
    ∃ w', Returns (fun fuel => restoreLoop fuel w) w' ∧ Marking start cands outer live w' ∧
      w'.candidates = [] := by
  cases hcands : w.candidates with
  | nil =>
    refine ⟨w, .of_end fun fuel => ?_, h, hcands⟩
    simp only [restoreLoop, hcands]
  | cons u rest =>
    by_cases hu : 0 < w.inflight u
    · have hkeep := h.keep hcands houter hstep hu
      have hless := hkeep.2
      obtain ⟨w', hr, hw', hend⟩ := restoreLoop_returns hkeep.1
      refine ⟨w', hr.of_pass fun fuel => ?_, hw', hend⟩
      simp only [restoreLoop, hcands]
      exact if_pos hu
    · have hpass := h.pass hcands (Int.not_lt.mp hu)
      obtain ⟨w', hr, hw', hend⟩ := restoreLoop_returns hpass
      refine ⟨w', hr.of_pass fun fuel => ?_, hw', hend⟩
      simp only [restoreLoop, hcands]
      exact if_neg hu
termination_by (w.passed.length + w.candidates.length, w.candidates.length)
decreasing_by
  · exact Prod.Lex.left _ _ hless
  have hsame : (passCursor w u rest).passed.length + (passCursor w u rest).candidates.length =
      w.passed.length + w.candidates.length := by
    rw [hcands]
    show (w.passed ++ [u]).length + rest.length = _
    rw [length_append, length_cons, length_cons, length_nil]
    omega
  rw [hsame, hcands]
  exact Prod.Lex.right _ (Nat.lt_succ_self _)

end LinuxKernel.Unix
