import LinuxKernel.Unix.Garbage

/-!
# What the scans of the receive queues do

A scan calls its function for each reference from the socket to a candidate, in order.  With
a hitlist it also moves the buffers that have such a reference.
-/

namespace LinuxKernel.Unix

open Lib List Function World

variable {σ : Type}

/-- The sockets that the files of a buffer refer to. -/
def Skb.refs (skb : Skb σ) : List σ :=
  match skb.fp with
  | none => []
  | some fds => fds.reduceOption

/-- The buffers that are queued on a socket or on an embryo of it. -/
def Queue.skbs : Queue σ → List (Skb σ)
  | .data skbs => skbs
  | .listen embryos => embryos.flatten

/-- The references that are queued on a socket. -/
def World.refs (w : World σ) (x : σ) : List σ :=
  (w.queue x).skbs.flatMap Skb.refs

variable {w : World σ}

/-- A buffer has a reference to a candidate. -/
def World.hit (w : World σ) (skb : Skb σ) : Bool :=
  skb.refs.any w.candidate

/-- Buffers are put behind the hitlist. -/
def World.addHits (w : World σ) (skbs : List (Skb σ)) : World σ :=
  { w with hitlist := w.hitlist ++ skbs }

/-- Some of the buffers of a queue stay in it. -/
def Queue.keep (p : Skb σ → Bool) : Queue σ → Queue σ
  | .data skbs => .data (skbs.filter p)
  | .listen embryos => .listen (embryos.map (List.filter p))

/-- The references from a socket to the candidates. -/
def World.candidateRefs (w : World σ) (x : σ) : List σ :=
  (w.refs x).filter w.candidate

theorem addHits_nil (w : World σ) : w.addHits [] = w := by
  unfold addHits
  rw [append_nil]

@[simp] theorem addHits_candidate (w : World σ) (skbs : List (Skb σ)) :
    (w.addHits skbs).candidate = w.candidate := rfl

@[simp] theorem addHits_hit (w : World σ) (skbs : List (Skb σ)) :
    (w.addHits skbs).hit = w.hit := rfl

theorem addHits_addHits (w : World σ) (a b : List (Skb σ)) :
    (w.addHits a).addHits b = w.addHits (a ++ b) := by
  unfold addHits
  rw [← append_assoc]

theorem Queue.skbs_keep (p : Skb σ → Bool) (q : Queue σ) : (q.keep p).skbs = q.skbs.filter p := by
  cases q with
  | data skbs => rfl
  | listen embryos => exact filter_flatten.symm

theorem Queue.keep_true (q : Queue σ) : (q.keep fun _ => true) = q := by
  cases q with
  | data skbs => exact congrArg data (filter_true skbs)
  | listen embryos =>
    exact congrArg listen ((map_congr_left fun _ _ => filter_true _).trans (map_id _))

section Scan

variable {func : World σ → σ → World σ}

/-- The function of a scan leaves what the scan looks at, and never looks at the hitlist. -/
structure Plain (func : World σ → σ → World σ) : Prop where
  candidate : ∀ w u, (func w u).candidate = w.candidate
  queue : ∀ w u, (func w u).queue = w.queue
  addHits : ∀ w u skbs, func (w.addHits skbs) u = (func w u).addHits skbs

variable (h : Plain func)

include h

theorem Plain.foldl (l : List σ) (w : World σ) :
    (l.foldl func w).candidate = w.candidate ∧ (l.foldl func w).queue = w.queue := by
  induction l generalizing w with
  | nil => exact ⟨rfl, rfl⟩
  | cons u l ih =>
    have hrest := ih (func w u)
    rw [h.candidate, h.queue] at hrest
    exact hrest

theorem Plain.foldl_hit (l : List σ) (w : World σ) : (l.foldl func w).hit = w.hit :=
  funext fun skb => congrArg (List.any skb.refs) (h.foldl l w).1

theorem Plain.foldl_addHits (l : List σ) (w : World σ) (skbs : List (Skb σ)) :
    l.foldl func (w.addHits skbs) = (l.foldl func w).addHits skbs := by
  induction l generalizing w with
  | nil => rfl
  | cons u l ih =>
    rw [foldl_cons, h.addHits, ih]
    rfl

theorem scanFds_eq (w : World σ) (fds : List (Option σ)) :
    scanFds func w fds = ((fds.reduceOption.filter w.candidate).foldl func w,
      fds.reduceOption.any w.candidate) := by
  induction fds generalizing w with
  | nil => rfl
  | cons fd fds ih =>
    cases fd with
    | none => exact ih w
    | some u =>
      have hrest := ih (func w u)
      rw [h.candidate] at hrest
      rw [reduceOption_cons_of_some]
      by_cases hu : w.candidate u = true
      · rw [filter_cons_of_pos hu, any_cons, hu, Bool.true_or, foldl_cons]
        refine (if_pos hu).trans ?_
        rw [hrest]
      · rw [filter_cons_of_neg hu, any_cons, eq_false_of_ne_true hu, Bool.false_or]
        exact (if_neg hu).trans (ih w)

variable (purge : Bool)

theorem scanInflight_cons (w : World σ) (skb : Skb σ) (skbs : List (Skb σ)) :
    scanInflight func purge w (skb :: skbs) =
      let w' := (skb.refs.filter w.candidate).foldl func w
      if purge && w.hit skb then scanInflight func purge (w'.addHits [skb]) skbs
      else ((scanInflight func purge w' skbs).1, skb :: (scanInflight func purge w' skbs).2) := by
  obtain ⟨fp⟩ := skb
  cases fp with
  | none =>
    have hhit : w.hit (.mk none) = false := rfl
    rw [hhit, Bool.and_false]
    rfl
  | some fds =>
    rw [Bool.and_comm]
    simp only [scanInflight, scanFds_eq h]
    rfl

theorem scanInflight_eq (w : World σ) (skbs : List (Skb σ)) :
    scanInflight func purge w skbs =
      ((((skbs.flatMap Skb.refs).filter w.candidate).foldl func w).addHits
          (skbs.filter fun skb => purge && w.hit skb),
        skbs.filter fun skb => !(purge && w.hit skb)) := by
  induction skbs generalizing w with
  | nil => exact Prod.ext (addHits_nil w).symm rfl
  | cons skb skbs ih =>
    rw [scanInflight_cons h, flatMap_cons, filter_append, foldl_append, filter_cons, filter_cons]
    simp only [ih, h.foldl_addHits, addHits_addHits, addHits_candidate, addHits_hit,
      (h.foldl _ w).1, h.foldl_hit]
    cases purge && w.hit skb <;> rfl

theorem scanEmbryos_eq (w : World σ) (embryos : List (List (Skb σ))) :
    scanEmbryos func purge w embryos =
      ((((embryos.flatten.flatMap Skb.refs).filter w.candidate).foldl func w).addHits
          (embryos.flatten.filter fun skb => purge && w.hit skb),
        embryos.map (List.filter fun skb => !(purge && w.hit skb))) := by
  induction embryos generalizing w with
  | nil => exact Prod.ext (addHits_nil w).symm rfl
  | cons embryo embryos ih =>
    rw [flatten_cons, flatMap_append, filter_append, filter_append, foldl_append]
    simp only [scanEmbryos, scanInflight_eq h, ih, h.foldl_addHits, addHits_addHits,
      addHits_candidate, addHits_hit, (h.foldl _ w).1, h.foldl_hit]
    rfl

variable [DecidableEq σ]

theorem scanChildren_eq (w : World σ) (x : σ) : scanChildren func purge w x =
    (((w.candidateRefs x).foldl func w).addHits
      ((w.queue x).skbs.filter fun skb => purge && w.hit skb)).setQueue x
        ((w.queue x).keep fun skb => !(purge && w.hit skb)) := by
  unfold scanChildren candidateRefs refs
  cases w.queue x <;> simp only [scanInflight_eq h, scanEmbryos_eq h, Queue.skbs, Queue.keep]

theorem scanChildren_false (w : World σ) (x : σ) :
    scanChildren func false w x = (w.candidateRefs x).foldl func w := by
  rw [scanChildren_eq h]
  simp only [Bool.false_and, Bool.not_false, filter_false, addHits_nil, Queue.keep_true, setQueue]
  rw [← (h.foldl _ w).2, update_eq_self]

end Scan

variable [DecidableEq σ] (w) (d : Int)

/-- The counters change by `d` for each socket of a list. -/
def World.addRefs (w : World σ) (d : Int) (l : List σ) : World σ :=
  { w with inflight := fun u => w.inflight u + d * l.count u }

theorem plain_addInflight : @Plain σ (addInflight d) :=
  ⟨fun _ _ => rfl, fun _ _ => rfl, fun _ _ _ => rfl⟩

theorem addRefs_nil : w.addRefs d [] = w := by
  unfold addRefs
  simp only [count_nil, Int.natCast_zero, Int.mul_zero, Int.add_zero]

theorem addRefs_addRefs (l r : List σ) : (w.addRefs d l).addRefs d r = w.addRefs d (l ++ r) := by
  unfold addRefs
  congr 1
  funext u
  simp only
  rw [count_append, Int.natCast_add, Int.mul_add, Int.add_assoc]

theorem addInflight_eq (u : σ) : addInflight d w u = w.addRefs d [u] := by
  unfold addInflight addRefs
  congr 1
  funext v
  rw [count_singleton, update_apply]
  by_cases hv : v = u
  · simp [hv]
  · simp [hv, Ne.symm hv]

theorem foldl_addInflight (l : List σ) : l.foldl (addInflight d) w = w.addRefs d l := by
  induction l generalizing w with
  | nil => exact (addRefs_nil w d).symm
  | cons u l ih =>
    rw [foldl_cons, ih, addInflight_eq, addRefs_addRefs]
    rfl

theorem foldl_scanChildren_addInflight (xs : List σ) :
    xs.foldl (scanChildren (addInflight d) false) w = w.addRefs d (xs.flatMap w.candidateRefs) := by
  induction xs generalizing w with
  | nil => exact (addRefs_nil w d).symm
  | cons x xs ih =>
    rw [foldl_cons, scanChildren_false (plain_addInflight d), foldl_addInflight, ih, flatMap_cons,
      ← addRefs_addRefs]
    rfl

variable {xs : List σ} {x : σ}

theorem scanChildren_true : scanChildren incInflight true w x =
      ((w.addRefs 1 (w.candidateRefs x)).addHits ((w.queue x).skbs.filter w.hit)).setQueue x
        ((w.queue x).keep fun skb => !w.hit skb) := by
  refine (scanChildren_eq (plain_addInflight 1) true w x).trans ?_
  rw [foldl_addInflight]
  rfl

/-- The buffers of the sockets of a list have gone to the hitlist. -/
structure Purged (w : World σ) (xs : List σ) (w' : World σ) : Prop where
  inflight : w'.inflight = (w.addRefs 1 (xs.flatMap w.candidateRefs)).inflight
  hitlist : w'.hitlist = w.hitlist ++ xs.flatMap fun x => (w.queue x).skbs.filter w.hit
  queue : ∀ x, w'.queue x = if x ∈ xs then (w.queue x).keep fun skb => !w.hit skb else w.queue x
  candidates : w'.candidates = w.candidates
  inflightList : w'.inflightList = w.inflightList

theorem purged_foldl (hnodup : xs.Nodup) :
    Purged w xs (xs.foldl (scanChildren incInflight true) w) := by
  induction xs generalizing w with
  | nil =>
    refine ⟨?_, (append_nil _).symm, fun x => ?_, rfl, rfl⟩
    · rw [flatMap_nil, addRefs_nil]
      rfl
    · rw [if_neg not_mem_nil]
      rfl
  | cons x xs ih =>
    rw [nodup_cons] at hnodup
    have hrest := ih (scanChildren incInflight true w x) hnodup.2
    rw [foldl_cons]
    rw [scanChildren_true] at hrest ⊢
    have hother : ∀ y ∈ xs, update w.queue x
        ((w.queue x).keep fun skb => !w.hit skb) y = w.queue y := by
      intro y hy
      have hne : y ≠ x := fun heq => hnodup.1 (heq ▸ hy)
      exact update_of_ne hne _ _
    refine ⟨?_, ?_, fun y => ?_, hrest.candidates, hrest.inflightList⟩
    · rw [hrest.inflight, flatMap_cons, ← addRefs_addRefs]
      refine congrArg (fun l => ((w.addRefs 1 (w.candidateRefs x)).addRefs 1 l).inflight) ?_
      refine flatMap_congr fun y hy => ?_
      refine congrArg (fun q : Queue σ => (q.skbs.flatMap Skb.refs).filter w.candidate) ?_
      exact hother y hy
    · rw [hrest.hitlist, flatMap_cons, ← append_assoc]
      refine congrArg (fun l => (w.hitlist ++ (w.queue x).skbs.filter w.hit) ++ l) ?_
      refine flatMap_congr fun y hy => ?_
      exact congrArg (fun q : Queue σ => q.skbs.filter w.hit) (hother y hy)
    rw [hrest.queue y]
    by_cases hy : y ∈ xs
    · rw [if_pos hy, if_pos (mem_cons_of_mem x hy)]
      exact congrArg (Queue.keep fun skb => !w.hit skb) (hother y hy)
    rw [if_neg hy]
    by_cases hyx : y = x
    · rw [hyx, if_pos mem_cons_self]
      exact update_self _ _ _
    · rw [if_neg fun hmem => (mem_cons.mp hmem).elim hyx hy]
      exact update_of_ne hyx _ _

end LinuxKernel.Unix
