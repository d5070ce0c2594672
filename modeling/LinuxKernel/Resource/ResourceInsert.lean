import Mathlib.Order.WellFounded
import LinuxKernel.Resource.ResourceLoops

/-!
# Inserting resources

`__insert_resource` keeps the tree: the new resource is linked below the resource that the
descent ends in, or takes over some of the children of it.  A conflict leaves memory as it
was.
-/

namespace LinuxKernel.Resources

open Lib List Function

variable {mem : Mem} {kids : Nat → List Nat} {top root new : Nat} {pre post : List Nat}

section Tree

variable {mem' : Mem} {kids' : Nat → List Nat} {a t stop : Nat} {run : List Nat}

/-- The resources form a forest, and `top` is a root of it. -/
structure Tree (top : Nat) (mem : Mem) (kids : Nat → List Nat) : Prop where
  links : Links mem kids
  ranges : Ranges mem kids
  acyclic : Acyclic kids
  root : mem.parent top = none

/-- A resource that is not linked, apart from the root. -/
structure Loose (top : Nat) (kids : Nat → List Nat) (new : Nat) : Prop where
  unlinked : ∀ a, new ∉ kids a
  ne : new ≠ top

theorem Under.trans (h : Under kids top a) (ha : Under kids a root) : Under kids top root := by
  induction ha with
  | top => exact h
  | kid _ hc ih => exact .kid ih hc

theorem Tree.root_notMem (h : Tree top mem kids) (a : Nat) : top ∉ kids a := by
  intro hmem
  have hparent := h.links.parent a top hmem
  rw [h.root] at hparent
  cases hparent

theorem Tree.notUnder (h : Tree top mem kids) (hnew : Loose top kids new) (ha : Under kids top a) :
    ¬ Under kids new a := by
  induction ha with
  | top =>
    intro hu
    cases hu with
    | top => exact hnew.ne rfl
    | kid _ hc => exact h.root_notMem _ hc
  | @kid b c _ hc ih =>
    intro hu
    cases hu with
    | top => exact hnew.unlinked b hc
    | kid hu hc' =>
      rw [h.links.parent_unique hc' hc] at hu
      exact ih hu

theorem Tree.ne_of_under (h : Tree top mem kids) (hnew : Loose top kids new)
    (ha : Under kids top a) : a ≠ new :=
  fun heq => h.notUnder hnew ha (heq ▸ .top)

theorem Ranges.congr (h : Ranges mem kids) (hstart : mem'.start = mem.start)
    (hstop : mem'.stop = mem.stop) : Ranges mem' kids := by
  have hbefore : mem'.Before = mem.Before := by
    funext c d
    simp only [Mem.Before, hstart, hstop]
  have hwithin : mem'.Within = mem.Within := by
    funext c d
    simp only [Mem.Within, hstart, hstop]
  constructor
  all_goals simp only [hstart, hstop, hwithin, hbefore]
  exacts [h.proper, h.inside, h.sorted]

theorem Ranges.after (h : Ranges mem kids) (hroot : kids root = pre ++ post)
    (hafter : ∀ c ∈ post.head?, stop < mem.start c) : ∀ c ∈ post, stop < mem.start c := by
  cases post with
  | nil => nofun
  | cons t post =>
    intro c hc
    obtain rfl | hc := mem_cons.mp hc
    · exact hafter c rfl
    have hsorted := h.sorted root
    rw [hroot, pairwise_append, pairwise_cons] at hsorted
    have htc : mem.stop t < mem.start c := hsorted.2.1.1 c hc
    have hnt := hafter t rfl
    have ht := h.proper root t (hroot ▸ mem_append_right _ mem_cons_self)
    exact lt_of_lt_of_le hnt (ht.trans htc.le)

theorem Ranges.within_of_under (h : Ranges mem kids) (ha : Under kids top a) :
    mem.Within a top := by
  induction ha with
  | top => exact ⟨le_refl _, le_refl _⟩
  | @kid b c _ hc ih =>
    have hcb := h.inside b c hc
    exact ⟨ih.1.trans hcb.1, hcb.2.trans ih.2⟩

theorem Ranges.between (h : Ranges mem kids) (hroot : kids root = pre ++ (run ++ post))
    (hne : root ≠ new) (hproper : mem.start new ≤ mem.stop new) (hinside : mem.Within new root)
    (hpre : ∀ c ∈ pre, mem.Before c new) (hrun : ∀ c ∈ run, mem.Within c new)
    (hpost : ∀ c ∈ post, mem.Before new c) :
    Ranges mem (setKids (setKids kids new run) root (pre ++ new :: post)) := by
  have hsub : run.Sublist (kids root) := by
    rw [hroot]
    exact (sublist_append_left run post).trans (sublist_append_right pre _)
  have hnew : Ranges mem (setKids kids new run) :=
    h.set (fun c hc => h.proper root c (hsub.subset hc)) hrun ((h.sorted root).sublist hsub)
  have hcut : Ranges mem (setKids (setKids kids new run) root (pre ++ post)) := by
    refine hnew.sublist ?_
    rw [setKids_of_ne hne, hroot]
    exact (List.Sublist.refl pre).append (sublist_append_right run post)
  have hall := hcut.insert (setKids_self root _) hproper hinside hpre hpost
  unfold setKids at hall ⊢
  rwa [update_idem] at hall

end Tree

section Insert

variable {first last : Nat} {mid : List Nat}

theorem Tree.linkAt (h : Tree top mem kids) (hnew : Loose top kids new)
    (hunder : Under kids top root) (happroach : Approach mem kids root new pre post)
    (hafter : ∀ c ∈ post.head?, mem.Before new c) :
    Tree top (linkAt mem root new (slotAfter root pre) post.head?)
      (setKids kids root (pre ++ new :: post)) := by
  have hpost := h.ranges.after happroach.split hafter
  refine ⟨h.links.insert happroach.split hnew.unlinked, ?_,
    h.acyclic.insert happroach.split (h.notUnder hnew hunder), ?_⟩
  · exact (h.ranges.insert happroach.split happroach.proper happroach.inside happroach.before
      hpost).congr (write_start _ _ _) (write_stop _ _ _)
  · refine (update_of_ne hnew.ne.symm _ _).trans ?_
    rw [write_parent]
    exact h.root

/-- The memory in which `new` has taken over the resources of a run. -/
def takenOver (mem : Mem) (root new first last : Nat) (pre run : List Nat) : Mem :=
  (adopt ((((mem.setParent new (some root)).setSibling new (mem.sibling last)).setChild new
    (some first)).setSibling last none) new run).write (slotAfter root pre) (some new)

theorem takenOver_fields (mem : Mem) (root new first last : Nat) (pre run : List Nat) (x : Nat) :
    (takenOver mem root new first last pre run).sibling x =
        (if slotAfter root pre = .sibling x then some new
        else if x = last then none
        else if x = new then mem.sibling last else mem.sibling x) ∧
      (takenOver mem root new first last pre run).child x =
        (if slotAfter root pre = .child x then some new
        else if x = new then some first else mem.child x) ∧
      (takenOver mem root new first last pre run).parent x =
        (if x ∈ run then some new else if x = new then some root else mem.parent x) := by
  refine ⟨?_, ?_, ?_⟩
  · refine (write_sibling _ _ _ x).trans ?_
    congr 1
    refine (update_apply _ _ _ _).trans ?_
    congr 1
    exact update_apply _ _ _ _
  · refine (write_child _ _ _ x).trans ?_
    congr 1
    exact update_apply _ _ _ _
  · unfold takenOver
    rw [write_parent]
    refine congrArg (ite (x ∈ run) (some new)) ?_
    exact update_apply _ _ _ _

variable (h : Links mem kids) (hroot : kids root = pre ++ ((mid ++ [last]) ++ post))

include h hroot

theorem Links.run (hfirst : (mid ++ [last]).head? = some first) :
    LinkedTo mem.sibling (some first) (mem.child root) pre ∧
      LinkedTo mem.sibling post.head? (some first) (mid ++ [last]) ∧
      mem.sibling last = post.head? := by
  have hchain := h.linked root
  rw [hroot] at hchain
  obtain ⟨p, hpre, hrest⟩ := linkedTo_append.mp hchain
  obtain ⟨q, hrun, hpost⟩ := linkedTo_append.mp hrest
  have hp : p = some first := (hrun.eq_head?_of_ne_nil (concat_ne_nil _ _)).trans hfirst
  have hq : q = post.head? := hpost.eq_head?
  subst hp hq
  obtain ⟨m, -, hm⟩ := linkedTo_append.mp hrun
  exact ⟨hpre, hrun, hm.2⟩

theorem Links.run_ne (hnew : ∀ a, new ∉ kids a) :
    (∀ x ∈ mid ++ [last], x ∉ pre ∧ x ≠ new) ∧ (∀ x ∈ pre, x ≠ new) ∧ last ∉ mid := by
  have hnodup := h.nodup root
  rw [hroot] at hnodup
  have hsplit := nodup_append.mp hnodup
  have hrun := (nodup_append.mp hsplit.2.1).1
  refine ⟨fun x hx => ⟨fun hp => ?_, fun heq => ?_⟩, fun x hx heq => ?_, fun hlast => ?_⟩
  · exact hsplit.2.2 x hp x (mem_append_left _ hx) rfl
  · refine hnew root ?_
    rw [← heq, hroot]
    exact mem_append_right _ (mem_append_left _ hx)
  · refine hnew root ?_
    rw [← heq, hroot]
    exact mem_append_left _ hx
  · exact (nodup_append.mp hrun).2.2 last hlast last mem_cons_self rfl

variable (hfirst : (mid ++ [last]).head? = some first) (hnew : ∀ a, new ∉ kids a) (hne : root ≠ new)

include hfirst hnew hne

theorem takeOver_returns :
    Returns (takeOver mem root new first last)
      (takenOver mem root new first last pre (mid ++ [last])) := by
  obtain ⟨hpre, hrun, -⟩ := h.run hroot hfirst
  obtain ⟨hrunNe, hpreNe, hlast⟩ := h.run_ne hroot hnew
  let cut := (((mem.setParent new (some root)).setSibling new (mem.sibling last)).setChild new
    (some first)).setSibling last none
  have hsibling : ∀ x, x ≠ last → x ≠ new → cut.sibling x = mem.sibling x := by
    intro x hx hxn
    exact (update_of_ne hx _ _).trans (update_of_ne hxn _ _)
  have hcut : LinkedTo cut.sibling none (some first) (mid ++ [last]) := by
    have hnone : cut.sibling last = none := update_self _ _ _
    rw [← hnone]
    refine hrun.turn fun x hx => hsibling x (fun heq => hlast (heq ▸ hx)) ?_
    exact (hrunNe x (mem_append_left _ hx)).2
  have hfront : LinkedTo cut.sibling (some first) (cut.child root) pre := by
    have hchild : cut.child root = mem.child root := update_of_ne hne _ _
    rw [hchild]
    refine hpre.congr fun x hx => hsibling x (fun heq => ?_) (hpreNe x hx)
    exact (hrunNe last (mem_append_right _ mem_cons_self)).1 (heq ▸ hx)
  have hfirstPre : first ∉ pre := (hrunNe first (mem_of_mem_head? hfirst)).1
  exact (adoptLoop_returns hcut).bind
    (@replaceFirst_returns (adopt cut new (mid ++ [last])) root new pre first hfront hfirstPre)

theorem Links.takenOver :
    Links (takenOver mem root new first last pre (mid ++ [last]))
      (setKids (setKids kids new (mid ++ [last])) root (pre ++ new :: post)) := by
  obtain ⟨-, hrun, hnext⟩ := h.run hroot hfirst
  obtain ⟨hrunNe, hpreNe, hlast⟩ := h.run_ne hroot hnew
  have hfields := takenOver_fields mem root new first last pre (mid ++ [last])
  have hslot : ∀ x, x ∉ pre → slotAfter root pre ≠ .sibling x := fun x hx heq =>
    hx (mem_of_slotAfter heq)
  have hlastRun : last ∈ mid ++ [last] := mem_append_right _ mem_cons_self
  have hnewPre : new ∉ pre := fun hx => hpreNe new hx rfl
  have hrewrites : Rewrites mem (Resources.takenOver mem root new first last pre (mid ++ [last]))
      root pre (fun x => x = new ∨ x ∈ mid ++ [last]) (· = new) := by
    refine ⟨fun x hx hs => ?_, fun x hx hs => ?_⟩
    · have hxl : x ≠ last := fun heq => hx (.inr (heq ▸ hlastRun))
      rw [(hfields x).1, if_neg hs.symm, if_neg hxl, if_neg fun heq => hx (.inl heq)]
    · rw [(hfields x).2.1, if_neg hs.symm, if_neg hx]
  refine h.between hroot hnew hne hrewrites (read_write _ _ _) ?_ ?_ (fun x hx => ?_) ?_
    fun x hx hxr => ?_
  · rw [(hfields new).1, if_neg (hslot new hnewPre), if_neg (hrunNe last hlastRun).2.symm,
      if_pos rfl, hnext]
  · rw [(hfields new).2.1, if_neg fun heq => hne (eq_root_of_slotAfter heq).1.symm, if_pos rfl]
    have hnone : (Resources.takenOver mem root new first last pre (mid ++ [last])).sibling last =
        none := by
      rw [(hfields last).1, if_neg (hslot last (hrunNe last hlastRun).1), if_pos rfl]
    rw [← hnone]
    refine hrun.turn fun x hx => ?_
    have hx' := hrunNe x (mem_append_left _ hx)
    have hxl : x ≠ last := fun heq => hlast (heq ▸ hx)
    rw [(hfields x).1, if_neg (hslot x hx'.1), if_neg hxl, if_neg hx'.2]
  · rw [(hfields x).2.2, if_pos hx]
  · rw [(hfields new).2.2, if_neg fun hx => (hrunNe new hx).2 rfl, if_pos rfl]
  · rw [(hfields x).2.2, if_neg hxr, if_neg hx]

omit h hroot hfirst hnew hne

theorem Tree.takenOver (h : Tree top mem kids) (hnew : Loose top kids new)
    (hunder : Under kids top root)
    (happroach : Approach mem kids root new pre ((mid ++ [last]) ++ post))
    (hfirst : (mid ++ [last]).head? = some first) (hrun : ∀ c ∈ mid ++ [last], mem.Within c new)
    (hafter : ∀ c ∈ post.head?, mem.Before new c) :
    Tree top (takenOver mem root new first last pre (mid ++ [last]))
      (setKids (setKids kids new (mid ++ [last])) root (pre ++ new :: post)) := by
  have hne := h.ne_of_under hnew hunder
  have hunlinked := hnew.unlinked
  have hsplit : kids root = pre ++ (mid ++ [last]) ++ post := by
    rw [happroach.split, ← append_assoc]
  have hpost := h.ranges.after hsplit hafter
  refine ⟨h.links.takenOver happroach.split hfirst hunlinked hne, ?_,
    h.acyclic.between hsplit hunlinked hne.symm, ?_⟩
  · exact (h.ranges.between happroach.split hne happroach.proper happroach.inside
      happroach.before hrun hpost).congr (write_start _ _ _) (write_stop _ _ _)
  have htop : top ∉ mid ++ [last] := by
    intro hmem
    refine h.root_notMem root ?_
    rw [happroach.split]
    exact mem_append_right _ (mem_append_left _ hmem)
  rw [(takenOver_fields mem root new first last pre (mid ++ [last]) top).2.2, if_neg htop,
    if_neg hnew.ne.symm]
  exact h.root

end Insert

/-- Where the descent of `__insert_resource` from `top` ends. -/
inductive Descended (mem : Mem) (kids : Nat → List Nat) (top new : Nat) : Mem × Descent → Prop
  | refused (h : ¬ (mem.start new ≤ mem.stop new ∧ mem.Within new top)) :
      Descended mem kids top new (mem, .done (some top))
  | linked {root : Nat} {pre post : List Nat} (hunder : Under kids top root)
      (h : Approach mem kids root new pre post) (hafter : ∀ c ∈ post.head?, mem.Before new c) :
      Descended mem kids top new (linkAt mem root new (slotAfter root pre) post.head?, .done none)
  | overlap {root first : Nat} {pre post : List Nat} (hunder : Under kids top root)
      (h : Approach mem kids root new pre (first :: post)) :
      Descended mem kids top new (mem, .overlap root first)

/-- The descent from a child that holds the new resource is one from its parent. -/
theorem Descended.up {t : Nat} {r : Mem × Descent} (h : Descended mem kids t new r)
    (ht : t ∈ kids top) (hholds : mem.start new ≤ mem.stop new ∧ mem.Within new t) :
    Descended mem kids top new r := by
  have htop : Under kids top t := .kid .top ht
  cases h with
  | refused h => exact absurd hholds h
  | linked hunder h hafter => exact .linked (htop.trans hunder) h hafter
  | overlap hunder h => exact .overlap (htop.trans hunder) h

theorem descend_returns (hlinks : Links mem kids) (hacyclic : Acyclic kids)
    (hnew : ∀ a, new ∉ kids a) (top : Nat) :
    ∃ r, Returns (fun fuel => descend mem new fuel top) r ∧ Descended mem kids top new r := by
  induction top using hacyclic.induction with
  | h top ih =>
    obtain ⟨r, hr, hrequested⟩ := requestResource_returns hlinks top new
    cases hrequested with
    | refused h =>
      refine ⟨_, .of_succ (hr.bind (.of_end fun fuel => ?_)), .refused h⟩
      exact if_pos rfl
    | linked h hafter =>
      exact ⟨_, .of_succ (hr.bind (.of_some _)), .linked .top h hafter⟩
    | @conflict pre post t h hstart hstop =>
      have ht : t ∈ kids top := h.split ▸ mem_append_right _ mem_cons_self
      have htop : t ≠ top := by
        rintro rfl
        exact hacyclic.irrefl.irrefl t ht
      have htnew : t ≠ new := fun heq => hnew top (heq ▸ ht)
      by_cases hpart : mem.start t > mem.start new ∨ mem.stop t < mem.stop new
      · refine ⟨_, .of_succ (hr.bind (.of_end fun fuel => ?_)), .overlap .top h⟩
        simp only [descendFrom, if_neg htop, if_neg htnew, if_pos hpart]
      by_cases hsame : mem.start t = mem.start new ∧ mem.stop t = mem.stop new
      · refine ⟨_, .of_succ (hr.bind (.of_end fun fuel => ?_)), .overlap .top h⟩
        simp only [descendFrom, if_neg htop, if_neg htnew, if_neg hpart, if_pos hsame]
      obtain ⟨r', hr', hdescended⟩ := ih t ht
      have hrest : Returns (fun fuel => descendFrom mem new top (descend mem new fuel)
          (mem, some t)) r' := by
        simp only [descendFrom, if_neg htop, if_neg htnew, if_neg hpart, if_neg hsame]
        exact hr'
      have hholds : mem.Within new t := by
        simpa only [Mem.Within, not_or, not_lt] using hpart
      exact ⟨r', .of_succ (hr.bind hrest), hdescended.up ht ⟨h.proper, hholds⟩⟩

/-- The outcomes of a call that links `new` below `root`. -/
inductive Inserted (top : Nat) (mem : Mem) (kids : Nat → List Nat) (root new : Nat) :
    Mem × Option Nat → Prop
  | linked {mem' : Mem} {kids' : Nat → List Nat} (h : Tree top mem' kids') :
      Inserted top mem kids root new (mem', none)
  | refused : Inserted top mem kids root new (mem, some root)
  | overlaps {c : Nat} (hnew : mem.Within new root) (hc : Under kids root c)
      (h : mem.start c < mem.start new ∨ mem.stop c > mem.stop new) :
      Inserted top mem kids root new (mem, some c)

theorem insertResource_returns (h : Tree top mem kids) (hnew : Loose top kids new)
    (hunder : Under kids top root) :
    ∃ r, Returns (insertResource mem root new) r ∧ Inserted top mem kids root new r := by
  have hunlinked := hnew.unlinked
  obtain ⟨r, hr, hdescended⟩ := descend_returns h.links h.acyclic hunlinked root
  cases hdescended with
  | refused _ => exact ⟨_, hr.bind (.of_some _), .refused⟩
  | linked hbelow happroach hafter =>
    exact ⟨_, hr.bind (.of_some _), .linked (h.linkAt hnew (hunder.trans hbelow) happroach hafter)⟩
  | @overlap parent first pre post hbelow happroach =>
    have hchain := h.links.linked parent
    rw [happroach.split] at hchain
    obtain ⟨p, -, hrest⟩ := linkedTo_append.mp hchain
    obtain ⟨r', hr', hcovered⟩ := @coverLoop_returns mem new first post p hrest
    cases hcovered with
    | @overlaps c hc hover =>
      have hkid : c ∈ kids parent := happroach.split ▸ mem_append_right _ hc
      have hparent := h.ranges.within_of_under hbelow
      refine ⟨_, hr.bind (hr'.bind (.of_some _)), .overlaps ?_ (hbelow.kid hkid) hover⟩
      exact ⟨hparent.1.trans happroach.inside.1, happroach.inside.2.trans hparent.2⟩
    | @covers mid post' last hsplit hrun hafter =>
      rw [hsplit] at happroach
      have hfirst : (mid ++ [last]).head? = some first := by
        have hhead := congrArg List.head? hsplit
        rw [head?_append_of_ne_nil _ (concat_ne_nil last mid)] at hhead
        exact hhead.symm
      have hroot := hunder.trans hbelow
      have htake := takeOver_returns h.links happroach.split hfirst hunlinked
        (h.ne_of_under hnew hroot)
      exact ⟨_, hr.bind (hr'.bind (htake.map _)),
        .linked (h.takenOver hnew hroot happroach hfirst hrun hafter)⟩

end LinuxKernel.Resources
