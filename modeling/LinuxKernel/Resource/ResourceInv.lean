import LinuxKernel.Resource.ResourceInsert

/-!
# Every resource tree is well formed

Each operation of the resource tree returns and keeps the tree, from the empty tree on.  An
operation that reports a conflict or an error leaves memory as it was.
-/

namespace LinuxKernel.Resources

open Lib List

section Ranges

variable {mem : Mem} {kids : Nat → List Nat} {top root new res start stop : Nat} {x : Nat}

/-- A new range holds the children, and lies between the neighbours and in the parent. -/
structure Room (mem : Mem) (kids : Nat → List Nat) (res start stop : Nat) : Prop where
  inner : ∀ c ∈ kids res, start ≤ mem.start c ∧ mem.stop c ≤ stop
  outer : ∀ a, res ∈ kids a → start ≤ stop ∧ mem.start a ≤ start ∧ stop ≤ mem.stop a
  before : ∀ a pre post, kids a = pre ++ res :: post → ∀ c ∈ pre, mem.stop c < start
  after : ∀ a pre post, kids a = pre ++ res :: post → ∀ c ∈ post, stop < mem.start c

theorem setRange_start :
    (mem.setRange res start stop).start x = if x = res then start else mem.start x :=
  Function.update_apply _ _ _ _

theorem setRange_stop :
    (mem.setRange res start stop).stop x = if x = res then stop else mem.stop x :=
  Function.update_apply _ _ _ _

theorem pairwise_setRange {l : List Nat} (h : l.Pairwise mem.Before) (hnodup : l.Nodup)
    (hbefore : ∀ pre post, l = pre ++ res :: post → ∀ c ∈ pre, mem.stop c < start)
    (hafter : ∀ pre post, l = pre ++ res :: post → ∀ c ∈ post, stop < mem.start c) :
    l.Pairwise (mem.setRange res start stop).Before := by
  have hpair : ∀ c d, c ≠ res → d ≠ res → mem.Before c d →
      (mem.setRange res start stop).Before c d := by
    intro c d hc hd hcd
    unfold Mem.Before
    rw [setRange_start, setRange_stop, if_neg hc, if_neg hd]
    exact hcd
  have hsame : ∀ {l : List Nat}, res ∉ l → l.Pairwise mem.Before →
      l.Pairwise (mem.setRange res start stop).Before := by
    intro l hres hl
    exact hl.imp_of_mem fun {c d} hc hd hcd =>
      hpair c d (fun heq => hres (heq ▸ hc)) (fun heq => hres (heq ▸ hd)) hcd
  by_cases hmem : res ∈ l
  · obtain ⟨pre, post, rfl⟩ := append_of_mem hmem
    rw [nodup_middle, nodup_cons, mem_append, not_or] at hnodup
    obtain ⟨⟨hpre, hpost⟩, -⟩ := hnodup
    rw [pairwise_append, pairwise_cons] at h
    obtain ⟨hl, ⟨-, hr⟩, hacross⟩ := h
    refine pairwise_append.mpr ⟨hsame hpre hl,
      pairwise_cons.mpr ⟨fun d hd => ?_, hsame hpost hr⟩, fun c hc d hd => ?_⟩
    · unfold Mem.Before
      have hne : d ≠ res := fun heq => hpost (heq ▸ hd)
      rw [setRange_start, setRange_stop, if_pos rfl, if_neg hne]
      exact hafter pre post rfl d hd
    have hne : c ≠ res := fun heq => hpre (heq ▸ hc)
    obtain rfl | hd := mem_cons.mp hd
    · unfold Mem.Before
      rw [setRange_start, setRange_stop, if_pos rfl, if_neg hne]
      exact hbefore pre post rfl c hc
    · refine hpair c d hne (fun heq => hpost (heq ▸ hd)) ?_
      exact hacross c hc d (mem_cons_of_mem _ hd)
  · exact hsame hmem h

theorem Ranges.setRange (h : Ranges mem kids) (hnodup : ∀ a, (kids a).Nodup)
    (hroom : Room mem kids res start stop) : Ranges (mem.setRange res start stop) kids := by
  refine ⟨fun a c hc => ?_, fun a c hc => ?_, fun a => ?_⟩
  · have houter := hroom.outer a
    have hproper := h.proper a c hc
    simp only [setRange_start, setRange_stop]
    grind
  · have houter := hroom.outer a
    have hinner := hroom.inner c
    have hinside := h.inside a c hc
    simp only [Mem.Within, setRange_start, setRange_stop] at hinside ⊢
    grind
  · exact pairwise_setRange (h.sorted a) (hnodup a) (hroom.before a) (hroom.after a)

theorem Tree.setRange (h : Tree top mem kids) (hroom : Room mem kids res start stop) :
    Tree top (mem.setRange res start stop) kids :=
  ⟨{ h.links with }, h.ranges.setRange h.links.nodup hroom, h.acyclic, h.root⟩

variable {c : Nat}

theorem Room.grow (h : Tree top mem kids) (hnew : Loose top kids new)
    (hstart : start ≤ mem.start new) (hstop : mem.stop new ≤ stop) :
    Room mem kids new start stop := by
  have hnot : ∀ a pre post, kids a ≠ pre ++ new :: post := by
    intro a pre post heq
    exact hnew.unlinked a (heq ▸ mem_append_right _ mem_cons_self)
  refine ⟨fun c hc => ?_, fun a ha => absurd ha (hnew.unlinked a),
    fun a pre post heq => absurd heq (hnot a pre post),
    fun a pre post heq => absurd heq (hnot a pre post)⟩
  have hin := h.ranges.inside new c hc
  exact ⟨hstart.trans hin.1, hin.2.trans hstop⟩

/-- How far the new resource can still grow inside `root`. -/
def slack (mem : Mem) (root new : Nat) : Nat :=
  (mem.start new - mem.start root) + (mem.stop root - mem.stop new)

/-- The resource grows over one that it overlaps. -/
def growOver (mem : Mem) (new conflict : Nat) : Mem :=
  mem.setRange new
    (if mem.start conflict < mem.start new then mem.start conflict else mem.start new)
    (if mem.stop conflict > mem.stop new then mem.stop conflict else mem.stop new)

/-- The loop of `insert_resource_expand_to_fit` ends: every pass grows the resource. -/
theorem expandLoop_returns (h : Tree top mem kids) (hnew : Loose top kids new)
    (hunder : Under kids top root) :
    ∃ mem' kids', Returns (fun fuel => expandLoop root new fuel mem) mem' ∧
      Tree top mem' kids' := by
  generalize hn : slack mem root new = n
  induction n using Nat.strongRecOn generalizing mem with
  | ind n ih =>
    obtain ⟨r, hr, hinserted⟩ := insertResource_returns h hnew hunder
    cases hinserted with
    | @linked mem' kids' h' =>
      exact ⟨mem', kids', .of_succ (hr.bind (.of_some _)), h'⟩
    | refused =>
      exact ⟨mem, kids, .of_succ (hr.bind (.of_end fun _ => if_pos rfl)), h⟩
    | @overlaps c hwithin hc hover =>
      by_cases hcr : c = root
      · exact ⟨mem, kids, .of_succ (hr.bind (.of_end fun _ => if_pos hcr)), h⟩
      have hless : slack (growOver mem new c) root new < slack mem root new := by
        obtain ⟨hns, hne⟩ := hwithin
        obtain ⟨hcs, hce⟩ := h.ranges.within_of_under hc
        unfold slack growOver
        simp only [setRange_start, setRange_stop, if_neg (h.ne_of_under hnew hunder), if_true]
        split_ifs <;> omega
      have hroom : Tree top (growOver mem new c) kids := by
        refine h.setRange (.grow h hnew ?_ ?_)
        all_goals split_ifs <;> omega
      obtain ⟨mem', kids', hr', h'⟩ := ih _ (hn ▸ hless) hroom rfl
      refine ⟨mem', kids', .of_succ (hr.bind ?_), h'⟩
      simp only [if_neg hcr]
      exact hr'

variable {old size : Nat}

theorem releaseResource_returns (h : Tree top mem kids) (hold : old ∈ kids root) :
    ∃ mem' kids', Returns (releaseResource mem old) (mem', true) ∧ Tree top mem' kids' := by
  obtain ⟨pre, post, hroot⟩ := append_of_mem hold
  have hnodup := h.links.nodup root
  rw [hroot, nodup_middle, nodup_cons, mem_append, not_or] at hnodup
  have hsub : ∀ a, ∀ c ∈ setKids kids root (pre ++ post) a, c ∈ kids a := by
    intro a c hc
    by_cases ha : a = root
    · rw [ha, setKids_self] at hc
      rw [ha, hroot, mem_append]
      exact (mem_append.mp hc).imp_right (mem_cons_of_mem old)
    · rwa [setKids_of_ne ha] at hc
  have hloop : Returns (releaseResource mem old)
      ((mem.write (slotAfter root ([] ++ pre)) (mem.sibling old)).setParent old none, true) := by
    have hfrom : kids root = [] ++ (pre ++ old :: post) := hroot
    unfold releaseResource
    rw [h.links.parent root old hold]
    exact releaseLoop_returns h.links hfrom hnodup.1.1
  refine ⟨_, setKids kids root (pre ++ post), hloop, ⟨h.links.remove hroot, ?_,
    h.acyclic.mono hsub, ?_⟩⟩
  · have hsublist : (pre ++ post).Sublist (kids root) := by
      rw [hroot]
      exact (List.Sublist.refl pre).append (sublist_cons_self old post)
    exact (h.ranges.sublist hsublist).congr (write_start _ _ _) (write_stop _ _ _)
  · have hne : top ≠ old := fun heq => h.root_notMem root (heq ▸ hold)
    refine (Function.update_of_ne hne _ _).trans ?_
    rw [write_parent]
    exact h.root

variable {p : Option Nat} {l pre post : List Nat}

theorem childrenFit_returns (h : LinkedTo mem.sibling none p l) :
    ∃ b, Returns (fun fuel => childrenFit mem start stop fuel p) b ∧
      (b = true → ∀ c ∈ l, start ≤ mem.start c ∧ mem.stop c ≤ stop) := by
  induction l generalizing p with
  | nil =>
    have hp : p = none := h
    refine ⟨true, .of_end fun fuel => ?_, nofun⟩
    rw [hp]
    rfl
  | cons t l ih =>
    obtain ⟨hp, hl⟩ := h
    by_cases hout : mem.start t < start ∨ mem.stop t > stop
    · refine ⟨false, .of_end fun fuel => ?_, nofun⟩
      rw [hp]
      exact if_pos hout
    obtain ⟨b, hb, hfit⟩ := ih hl
    refine ⟨b, hb.of_pass fun fuel => ?_, fun htrue c hc => ?_⟩
    · rw [hp]
      exact if_neg hout
    · obtain rfl | hc := mem_cons.mp hc
      · omega
      · exact hfit htrue c hc

theorem neighboursFit_returns {pre post : List Nat} (h : Links mem kids)
    (hroot : kids root = pre ++ res :: post) :
    ∃ b, Returns (neighboursFit mem res root start stop) b ∧
      (b = true → mem.start root ≤ start ∧ stop ≤ mem.stop root ∧
        (∀ c ∈ pre.getLast?, mem.stop c < start) ∧ ∀ c ∈ post.head?, stop < mem.start c) := by
  have hsplit : kids root = pre ++ (([] ++ [res]) ++ post) := hroot
  obtain ⟨hpre, -, hnext⟩ := h.run hsplit rfl
  have hres : res ∉ pre := by
    have hnodup := h.nodup root
    rw [hroot, nodup_middle, nodup_cons, mem_append, not_or] at hnodup
    exact hnodup.1.1
  by_cases hparent : start < mem.start root ∨ stop > mem.stop root
  · exact ⟨false, .of_end fun fuel => if_pos hparent, nofun⟩
  by_cases hsibling : ∃ sibling ∈ mem.sibling res, mem.start sibling ≤ stop
  · refine ⟨false, .of_end fun fuel => ?_, nofun⟩
    exact (if_neg hparent).trans (if_pos hsibling)
  have hafter : ∀ c ∈ post.head?, stop < mem.start c := by
    intro c hc
    exact Nat.lt_of_not_le fun hle => hsibling ⟨c, hnext ▸ hc, hle⟩
  obtain rfl | ⟨l, x, rfl⟩ := pre.eq_nil_or_concat'
  · refine ⟨true, .of_end fun fuel => ?_, fun _ => ⟨by omega, by omega, nofun, hafter⟩⟩
    exact ((if_neg hparent).trans (if_neg hsibling)).trans (if_pos hpre)
  have hchild := hpre.ne_some (concat_ne_nil x l) hres
  refine ⟨decide (mem.stop x < start), ?_, fun htrue => ?_⟩
  · unfold neighboursFit
    simp only [if_neg hparent, if_neg hsibling, if_neg hchild]
    exact (findPrev_returns hpre hres).map _
  · refine ⟨by omega, by omega, fun c hc => ?_, hafter⟩
    rw [getLast?_concat] at hc
    cases hc
    exact of_decide_eq_true htrue

theorem Ranges.before_of_last (h : Ranges mem kids) (hroot : kids root = pre ++ post)
    (hlast : ∀ c ∈ pre.getLast?, mem.stop c < start) : ∀ c ∈ pre, mem.stop c < start := by
  obtain rfl | ⟨l, x, rfl⟩ := pre.eq_nil_or_concat'
  · nofun
  intro c hc
  have hx : mem.stop x < start := hlast x (by rw [getLast?_concat]; rfl)
  obtain hc | hc := mem_append.mp hc
  · have hsorted := h.sorted root
    rw [hroot, pairwise_append, pairwise_append] at hsorted
    have hcx : mem.stop c < mem.start x := hsorted.1.2.2 c hc x mem_cons_self
    have hproper := h.proper root x (hroot ▸ mem_append_left _ (mem_append_right _ mem_cons_self))
    omega
  · rw [mem_singleton.mp hc]
    exact hx

/-- The checks against parent and neighbours, for correct links. -/
theorem outsideFits_returns (h : Tree top mem kids)
    (hres : mem.parent res = none ∨ ∃ a, res ∈ kids a) :
    ∃ b, Returns (outsideFits mem res start stop) b ∧ (b = true → ∀ a pre post,
      kids a = pre ++ res :: post → mem.start a ≤ start ∧ stop ≤ mem.stop a ∧
        (∀ c ∈ pre, mem.stop c < start) ∧ ∀ c ∈ post, stop < mem.start c) := by
  obtain hnone | ⟨a, ha⟩ := hres
  · refine ⟨true, .of_end fun fuel => ?_, fun _ a pre post heq => ?_⟩
    · unfold outsideFits
      rw [hnone]
    · have hparent := h.links.parent a res (heq ▸ mem_append_right _ mem_cons_self)
      rw [hnone] at hparent
      cases hparent
  obtain ⟨pre, post, hroot⟩ := append_of_mem ha
  obtain ⟨b, hb, -⟩ := @neighboursFit_returns mem kids a res start stop pre post h.links hroot
  refine ⟨b, ?_, fun htrue a' pre' post' heq => ?_⟩
  · unfold outsideFits
    rw [h.links.parent a res ha]
    exact hb
  obtain rfl := h.links.parent_unique ha (heq ▸ mem_append_right _ mem_cons_self)
  obtain ⟨b', hb', hfit⟩ :=
    @neighboursFit_returns mem kids a res start stop pre' post' h.links heq
  obtain ⟨hstart, hstop, hlast, hhead⟩ := hfit ((hb'.unique hb).trans htrue)
  have hsplit : kids a = (pre' ++ [res]) ++ post' := by
    rw [heq, append_assoc]
    rfl
  exact ⟨hstart, hstop, h.ranges.before_of_last heq hlast, h.ranges.after hsplit hhead⟩

theorem adjustResource_returns (h : Tree top mem kids)
    (hres : mem.parent res = none ∨ ∃ a, res ∈ kids a) (hproper : start ≤ rangeEnd start size) :
    ∃ mem' b, Returns (adjustResource mem res start size) (mem', b) ∧ Tree top mem' kids ∧
      (b = false → mem' = mem) := by
  obtain ⟨b, hb, hout⟩ := @outsideFits_returns mem kids top res start (rangeEnd start size) h hres
  obtain ⟨b', hb', hin⟩ := @childrenFit_returns mem start (rangeEnd start size) _ _
    (h.links.linked res)
  cases b with
  | false => exact ⟨mem, false, hb.bind (.of_some _), h, fun _ => rfl⟩
  | true =>
    cases b' with
    | false => exact ⟨mem, false, hb.bind (hb'.map _), h, fun _ => rfl⟩
    | true =>
      refine ⟨mem.setRange res start (rangeEnd start size), true, hb.bind (hb'.map _),
        h.setRange ⟨hin rfl, fun a ha => ?_, fun a pre post heq => ?_, fun a pre post heq => ?_⟩,
        nofun⟩
      · obtain ⟨pre, post, heq⟩ := append_of_mem ha
        have hfit := hout rfl a pre post heq
        exact ⟨hproper, hfit.1, hfit.2.1⟩
      · exact (hout rfl a pre post heq).2.2.1
      · exact (hout rfl a pre post heq).2.2.2

end Ranges

/-- A resource is found in the list of children of another one. -/
def IsChild (mem : Mem) (a c : Nat) : Prop :=
  ∃ l, LinkedTo mem.sibling none (mem.child a) l ∧ c ∈ l

/-- A resource lies in the tree of `top`. -/
def Present (top : Nat) (mem : Mem) (a : Nat) : Prop :=
  Relation.ReflTransGen (IsChild mem) top a

/-- The calls of the resource tree. -/
inductive Op
  | request (root new : Nat)
  | insert (root new : Nat)
  | expand (root new : Nat)
  | release (old : Nat)
  | adjust (res start size : Nat)
deriving DecidableEq

/-- A call, with whether it reports success. -/
def Op.run (mem : Mem) : Op → Nat → Option (Mem × Bool)
  | .request root new => fun fuel =>
    (requestResource mem root new fuel).map fun r => (r.1, r.2.isNone)
  | .insert root new => fun fuel =>
    (insertResource mem root new fuel).map fun r => (r.1, r.2.isNone)
  | .expand root new => fun fuel =>
    (insertResourceExpandToFit mem root new fuel).map fun mem' => (mem', true)
  | .release old => releaseResource mem old
  | .adjust res start size => adjustResource mem res start size

/-- A resource to be linked is neither the root nor a child. -/
def Unlinked (top : Nat) (mem : Mem) (new : Nat) : Prop :=
  new ≠ top ∧ ∀ a, ¬ IsChild mem a new

/-- The calls that may be made: resources are linked below the tree's, those released are in it,
and an adjusted range is proper. -/
def Op.Allowed (top : Nat) (mem : Mem) : Op → Prop
  | .request root new => Present top mem root ∧ Unlinked top mem new
  | .insert root new => Present top mem root ∧ Unlinked top mem new
  | .expand root new => Present top mem root ∧ (mem.parent new = none → Unlinked top mem new)
  | .release old => Present top mem old ∧ old ≠ top
  | .adjust res start size =>
    (Present top mem res ∨ Unlinked top mem res ∧ mem.parent res = none) ∧
      start ≤ rangeEnd start size

/-- The memories reached from a root without children. -/
inductive Reach (top : Nat) : Mem → Prop
  | start {mem : Mem} (hparent : ∀ a, mem.parent a = none) (hchild : ∀ a, mem.child a = none) :
      Reach top mem
  | step {mem mem' : Mem} {op : Op} {b : Bool} (h : Reach top mem) (hop : op.Allowed top mem)
      (hrun : Returns (op.run mem) (mem', b)) :
      Reach top mem'

variable {mem : Mem} {kids : Nat → List Nat} {top new a c : Nat}

theorem Links.isChild_iff (h : Links mem kids) : IsChild mem a c ↔ c ∈ kids a := by
  constructor
  · rintro ⟨l, hl, hc⟩
    rwa [(h.linked a).unique hl]
  · exact fun hc => ⟨kids a, h.linked a, hc⟩

theorem Links.under_of_present (h : Links mem kids) (ha : Present top mem a) :
    Under kids top a := by
  induction ha with
  | refl => exact .top
  | tail _ hc ih => exact .kid ih (h.isChild_iff.mp hc)

theorem Links.loose_of_unlinked (h : Links mem kids) (hnew : Unlinked top mem new) :
    Loose top kids new :=
  ⟨fun a ha => hnew.2 a (h.isChild_iff.mpr ha), hnew.1⟩

theorem Under.eq_or_mem (h : Under kids top a) : a = top ∨ ∃ b, a ∈ kids b := by
  cases h with
  | top => exact .inl rfl
  | kid _ hc => exact .inr ⟨_, hc⟩

/-- What a call guarantees. -/
def Op.Keeps (top : Nat) (mem : Mem) (op : Op) : Prop :=
  ∃ mem' b, Returns (op.run mem) (mem', b) ∧ (∃ kids, Tree top mem' kids) ∧ (b = false → mem' = mem)

theorem Op.keeps_of_allowed {op : Op} (h : Tree top mem kids) (hop : op.Allowed top mem) :
    op.Keeps top mem := by
  cases op with
  | request root new =>
    obtain ⟨r, hr, hrequested⟩ := requestResource_returns h.links root new
    cases hrequested with
    | linked happroach hafter =>
      have h' := h.linkAt (h.links.loose_of_unlinked hop.2) (h.links.under_of_present hop.1)
        happroach hafter
      exact ⟨_, true, hr.map _, ⟨_, h'⟩, nofun⟩
    | refused _ | conflict _ _ _ => exact ⟨_, false, hr.map _, ⟨kids, h⟩, fun _ => rfl⟩
  | insert root new =>
    obtain ⟨r, hr, hinserted⟩ := insertResource_returns h (h.links.loose_of_unlinked hop.2)
      (h.links.under_of_present hop.1)
    cases hinserted with
    | linked h' => exact ⟨_, true, hr.map _, ⟨_, h'⟩, nofun⟩
    | refused | overlaps _ _ _ => exact ⟨_, false, hr.map _, ⟨kids, h⟩, fun _ => rfl⟩
  | expand root new =>
    by_cases hnone : mem.parent new = none
    · obtain ⟨mem', kids', hr, h'⟩ := expandLoop_returns h
        (h.links.loose_of_unlinked (hop.2 hnone)) (h.links.under_of_present hop.1)
      refine ⟨mem', true, ?_, ⟨kids', h'⟩, nofun⟩
      simp only [Op.run, insertResourceExpandToFit, hnone, ne_eq, not_true_eq_false, if_false]
      exact hr.map _
    · refine ⟨mem, true, .of_end fun fuel => ?_, ⟨kids, h⟩, nofun⟩
      simp only [Op.run, insertResourceExpandToFit, ne_eq, hnone, not_false_eq_true, if_true,
        Option.map_some]
  | release old =>
    obtain heq | ⟨a, ha⟩ := (h.links.under_of_present hop.1).eq_or_mem
    · exact absurd heq hop.2
    · obtain ⟨mem', kids', hr, h'⟩ := releaseResource_returns h ha
      exact ⟨mem', true, hr, ⟨kids', h'⟩, nofun⟩
  | adjust res start size =>
    have hres : mem.parent res = none ∨ ∃ a, res ∈ kids a := by
      obtain hpresent | hloose := hop.1
      · refine (h.links.under_of_present hpresent).eq_or_mem.imp_left ?_
        rintro rfl
        exact h.root
      · exact .inl hloose.2
    obtain ⟨mem', b, hr, h', hsame⟩ := adjustResource_returns h hres hop.2
    exact ⟨mem', b, hr, ⟨kids, h'⟩, hsame⟩

theorem Tree.start (hparent : ∀ a, mem.parent a = none) (hchild : ∀ a, mem.child a = none) :
    Tree top mem fun _ => [] := by
  refine ⟨⟨hchild, nofun, fun a => nodup_nil⟩, ⟨nofun, nofun, fun a => .nil⟩, ?_, hparent top⟩
  exact ⟨fun a => .intro a nofun⟩

theorem Reach.tree (h : Reach top mem) : ∃ kids, Tree top mem kids := by
  induction h with
  | start hparent hchild => exact ⟨_, .start hparent hchild⟩
  | step _ hop hrun ih =>
    obtain ⟨kids, h⟩ := ih
    obtain ⟨mem', b, hr, htree, -⟩ := Op.keeps_of_allowed h hop
    obtain ⟨rfl, rfl⟩ := Prod.mk.inj (hrun.unique hr)
    exact htree

/-- In every reachable tree the children of each resource lie inside it, sorted and disjoint, with
consistent links.  Every call returns with such a tree, and one that reports a conflict or an error
leaves memory as it was. -/
theorem resource_tree_reachable (h : Reach top mem) :
    (∃ kids, Tree top mem kids) ∧ ∀ op : Op, op.Allowed top mem → op.Keeps top mem := by
  obtain ⟨kids, htree⟩ := h.tree
  exact ⟨⟨kids, htree⟩, fun op hop => Op.keeps_of_allowed htree hop⟩

theorem Reach.unlinked (h : Reach top mem) (hne : new ≠ top) (hparent : mem.parent new = none) :
    Unlinked top mem new := by
  obtain ⟨kids, htree⟩ := h.tree
  refine ⟨hne, fun a hchild => ?_⟩
  have hlinked := htree.links.parent a new (htree.links.isChild_iff.mp hchild)
  rw [hparent] at hlinked
  cases hlinked

/-- A root from 0 to 100 without children, and resources from 10 to 20, 30 to 40 and 5 to 50. -/
def emptyRoot : Mem where
  start := ([0, 10, 30, 5].getD · 0)
  stop := ([100, 20, 40, 50].getD · 0)
  parent _ := none
  sibling _ := none
  child _ := none

/-- Two resources are requested, and one that covers both is inserted above them. -/
theorem resource_tree_reachable_inserted : ∃ mem, mem.child 0 = some 3 ∧ mem.child 3 = some 1 ∧
    mem.sibling 1 = some 2 ∧ (∃ kids, Tree 0 mem kids) ∧
      ∀ op : Op, op.Allowed 0 mem → op.Keeps 0 mem := by
  have h₀ : Reach 0 emptyRoot := .start (fun _ => rfl) fun _ => rfl
  have h₁ := @Reach.step 0 emptyRoot _ (.request 0 1) true h₀
    ⟨.refl, h₀.unlinked (by decide) rfl⟩ (.of_end fun _ => rfl)
  have h₂ := @Reach.step 0 _ _ (.request 0 2) true h₁
    ⟨.refl, h₁.unlinked (by decide) rfl⟩ (.of_succ (.of_end fun _ => rfl))
  have h₃ := @Reach.step 0 _ _ (.insert 0 3) true h₂
    ⟨.refl, h₂.unlinked (by decide) rfl⟩ (.of_succ (.of_succ (.of_end fun _ => rfl)))
  exact ⟨_, rfl, rfl, rfl, resource_tree_reachable h₃⟩

end LinuxKernel.Resources
