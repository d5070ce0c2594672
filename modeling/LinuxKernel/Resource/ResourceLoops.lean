import LinuxKernel.Resource.Relink

/-!
# What the loops over resources find

The loops go along the children of a resource.  Each of them returns, and what it returns
is said by a split of the list of these children.
-/

namespace LinuxKernel.Resources

open Lib List

variable {mem : Mem} {kids : Nat → List Nat} {root new : Nat} {pre post : List Nat}

/-- The new resource lies in `root`, behind its first children. -/
structure Approach (mem : Mem) (kids : Nat → List Nat) (root new : Nat) (pre post : List Nat) :
    Prop where
  split : kids root = pre ++ post
  proper : mem.start new ≤ mem.stop new
  inside : mem.Within new root
  before : ∀ c ∈ pre, mem.Before c new

/-- The first of the remaining children also lies before the new resource. -/
theorem Approach.step {t : Nat} (h : Approach mem kids root new pre (t :: post))
    (hbefore : mem.Before t new) : Approach mem kids root new (pre ++ [t]) post := by
  refine ⟨?_, h.proper, h.inside, fun c hc => ?_⟩
  · rw [h.split, append_assoc]
    rfl
  · obtain hc | hc := mem_append.mp hc
    · exact h.before c hc
    · rw [mem_singleton.mp hc]
      exact hbefore

/-- The outcomes of `__request_resource`. -/
inductive Requested (mem : Mem) (kids : Nat → List Nat) (root new : Nat) : Mem × Option Nat → Prop
  | refused (h : ¬ (mem.start new ≤ mem.stop new ∧ mem.Within new root)) :
      Requested mem kids root new (mem, some root)
  | linked {pre post : List Nat} (h : Approach mem kids root new pre post)
      (hafter : ∀ c ∈ post.head?, mem.Before new c) :
      Requested mem kids root new (linkAt mem root new (slotAfter root pre) post.head?, none)
  | conflict {pre post : List Nat} {t : Nat} (h : Approach mem kids root new pre (t :: post))
      (hstart : mem.start t ≤ mem.stop new) (hstop : mem.start new ≤ mem.stop t) :
      Requested mem kids root new (mem, some t)

theorem requestLoop_returns (hlinks : Links mem kids) (h : Approach mem kids root new pre post) :
    ∃ r, Returns (fun fuel => requestLoop mem root new fuel (slotAfter root pre)) r ∧
      Requested mem kids root new r := by
  induction post generalizing pre with
  | nil =>
    have hread := read_slotAfter (h.split ▸ hlinks.linked root)
    refine ⟨_, .of_end fun fuel => ?_, .linked h nofun⟩
    simp only [requestLoop, hread]
    rfl
  | cons t post ih =>
    have hread := read_slotAfter (h.split ▸ hlinks.linked root)
    by_cases hafter : mem.start t > mem.stop new
    · refine ⟨_, .of_end fun fuel => ?_, .linked h fun c hc => ?_⟩
      · simp only [requestLoop, hread, head?_cons, if_pos hafter]
      · cases hc
        exact hafter
    by_cases hbefore : mem.stop t < mem.start new
    · obtain ⟨r, hr, hrequested⟩ := ih (h.step hbefore)
      rw [slotAfter_concat] at hr
      refine ⟨r, hr.of_pass fun fuel => ?_, hrequested⟩
      simp only [requestLoop, hread, head?_cons, if_neg hafter, if_pos hbefore]
    · refine ⟨_, .of_end fun fuel => ?_,
        .conflict h (Nat.le_of_not_lt hafter) (Nat.le_of_not_lt hbefore)⟩
      simp only [requestLoop, hread, head?_cons, if_neg hafter, if_neg hbefore]

theorem requestResource_returns (hlinks : Links mem kids) (root new : Nat) :
    ∃ r, Returns (requestResource mem root new) r ∧ Requested mem kids root new r := by
  by_cases hproper : mem.stop new < mem.start new
  · refine ⟨_, .of_end fun fuel => if_pos hproper, .refused fun h => ?_⟩
    exact absurd h.1 (Nat.not_le_of_lt hproper)
  by_cases hstart : mem.start new < mem.start root
  · refine ⟨_, .of_end fun fuel => ?_, .refused fun h => ?_⟩
    · exact (if_neg hproper).trans (if_pos hstart)
    · exact absurd h.2.1 (Nat.not_le_of_lt hstart)
  by_cases hstop : mem.stop new > mem.stop root
  · refine ⟨_, .of_end fun fuel => ?_, .refused fun h => ?_⟩
    · exact ((if_neg hproper).trans (if_neg hstart)).trans (if_pos hstop)
    · exact absurd h.2.2 (Nat.not_le_of_lt hstop)
  have happroach : Approach mem kids root new [] (kids root) :=
    ⟨rfl, Nat.le_of_not_lt hproper, ⟨Nat.le_of_not_lt hstart, Nat.le_of_not_lt hstop⟩, nofun⟩
  obtain ⟨r, hr, hrequested⟩ := requestLoop_returns hlinks happroach
  refine ⟨r, ?_, hrequested⟩
  unfold requestResource
  simp only [if_neg hproper, if_neg hstart, if_neg hstop]
  exact hr

variable {mid : List Nat}

section Release

variable {old : Nat}

theorem releaseLoop_returns (hlinks : Links mem kids)
    (hroot : kids root = pre ++ (mid ++ old :: post)) (hmid : old ∉ mid) :
    Returns (fun fuel => releaseLoop mem old fuel (slotAfter root pre))
      ((mem.write (slotAfter root (pre ++ mid)) (mem.sibling old)).setParent old none, true) := by
  induction mid generalizing pre with
  | nil =>
    have hread := read_slotAfter (hroot ▸ hlinks.linked root)
    refine .of_end fun fuel => ?_
    rw [append_nil]
    simp only [releaseLoop, hread, nil_append, head?_cons, if_pos]
  | cons t mid ih =>
    have hread := read_slotAfter (hroot ▸ hlinks.linked root)
    rw [mem_cons, not_or] at hmid
    have hsplit : kids root = (pre ++ [t]) ++ (mid ++ old :: post) := by
      rw [hroot, append_assoc]
      rfl
    have hrest := ih hsplit hmid.2
    rw [append_assoc, singleton_append, slotAfter_concat] at hrest
    refine hrest.of_pass fun fuel => ?_
    simp only [releaseLoop, hread, cons_append, head?_cons, if_neg (Ne.symm hmid.1)]

end Release

variable {first last t target x : Nat} {l : List Nat} {p : Option Nat}

/-- What the second loop of `__insert_resource` finds from the conflict on. -/
inductive Covered (mem : Mem) (new : Nat) (l : List Nat) : Except Nat Nat → Prop
  | overlaps {c : Nat} (hc : c ∈ l) (h : mem.start c < mem.start new ∨ mem.stop c > mem.stop new) :
      Covered mem new l (.error c)
  | covers {mid post : List Nat} {last : Nat} (hsplit : l = (mid ++ [last]) ++ post)
      (hinside : ∀ c ∈ mid ++ [last], mem.Within c new)
      (hafter : ∀ c ∈ post.head?, mem.Before new c) :
      Covered mem new l (.ok last)

theorem Covered.cons {r : Except Nat Nat} (h : Covered mem new l r) (ht : mem.Within t new) :
    Covered mem new (t :: l) r := by
  cases h with
  | overlaps hc h => exact .overlaps (mem_cons_of_mem t hc) h
  | @covers mid post last hsplit hinside hafter =>
    have hall : ∀ c ∈ (t :: mid) ++ [last], mem.Within c new :=
      forall_mem_cons.mpr ⟨ht, hinside⟩
    exact .covers (congrArg (List.cons t) hsplit) hall hafter

theorem coverLoop_returns (h : LinkedTo mem.sibling none p (t :: l)) :
    ∃ r, Returns (fun fuel => coverLoop mem new fuel t) r ∧ Covered mem new (t :: l) r := by
  induction l generalizing t p with
  | nil =>
    have hnext : mem.sibling t = none := h.2
    by_cases hover : mem.start t < mem.start new ∨ mem.stop t > mem.stop new
    · refine ⟨_, .of_end fun fuel => ?_, .overlaps mem_cons_self hover⟩
      simp only [coverLoop, if_pos hover]
    · have hinside : ∀ c ∈ [] ++ [t], mem.Within c new :=
        forall_mem_singleton.mpr (by simpa only [Mem.Within, not_or, not_lt] using hover)
      refine ⟨_, .of_end fun fuel => ?_, .covers (append_nil _).symm hinside nofun⟩
      simp only [coverLoop, if_neg hover, hnext]
  | cons s l ih =>
    have hnext : mem.sibling t = some s := h.2.1
    by_cases hover : mem.start t < mem.start new ∨ mem.stop t > mem.stop new
    · refine ⟨_, .of_end fun fuel => ?_, .overlaps mem_cons_self hover⟩
      simp only [coverLoop, if_pos hover]
    have hinside : mem.Within t new := by
      simpa only [Mem.Within, not_or, not_lt] using hover
    by_cases hafter : mem.start s > mem.stop new
    · have hall : ∀ c ∈ [] ++ [t], mem.Within c new := forall_mem_singleton.mpr hinside
      refine ⟨_, .of_end fun fuel => ?_, .covers rfl hall fun c hc => ?_⟩
      · simp only [coverLoop, if_neg hover, hnext, if_pos hafter]
      · cases hc
        exact hafter
    · obtain ⟨r, hr, hcovered⟩ := ih h.2
      refine ⟨r, hr.of_pass fun fuel => ?_, hcovered.cons hinside⟩
      simp only [coverLoop, if_neg hover, hnext, if_neg hafter]

/-- The resources of a list have got `new` as their parent. -/
def adopt (mem : Mem) (new : Nat) (l : List Nat) : Mem :=
  { mem with parent := fun x => if x ∈ l then some new else mem.parent x }

theorem adopt_cons (new a : Nat) (l : List Nat) :
    adopt (mem.setParent a (some new)) new l = adopt mem new (a :: l) := by
  unfold adopt Mem.setParent
  congr 1
  funext x
  simp only [Function.update_apply, mem_cons]
  grind

theorem adoptLoop_returns (h : LinkedTo mem.sibling none p l) :
    Returns (fun fuel => adoptLoop new fuel mem p) (adopt mem new l) := by
  induction l generalizing p mem with
  | nil =>
    have hp : p = none := h
    refine .of_end fun fuel => ?_
    rw [hp]
    simp only [adoptLoop, adopt, not_mem_nil, if_false]
  | cons a l ih =>
    obtain ⟨hp, hl⟩ := h
    have hrest : Returns (fun fuel => adoptLoop new fuel (mem.setParent a (some new))
        (mem.sibling a)) (adopt mem new (a :: l)) := by
      rw [← adopt_cons]
      exact ih hl
    refine hrest.of_pass fun fuel => ?_
    rw [hp]
    rfl

theorem findPrev_returns (h : LinkedTo mem.sibling (some target) p (pre ++ [x]))
    (hpre : target ∉ pre ++ [x]) : Returns (fun fuel => findPrev mem target fuel p) x := by
  induction pre generalizing p with
  | nil =>
    obtain ⟨hp, hnext⟩ := h
    have hx : mem.sibling x = some target := hnext
    refine .of_end fun fuel => ?_
    rw [hp]
    exact if_pos hx
  | cons a pre ih =>
    obtain ⟨hp, hrest⟩ := h
    rw [cons_append, mem_cons, not_or] at hpre
    have hne := hrest.ne_some (concat_ne_nil x pre) hpre.2
    refine (ih hrest hpre.2).of_pass fun fuel => ?_
    rw [hp]
    exact if_neg hne

/-- The end of `__insert_resource` writes the place of the first one taken over. -/
theorem replaceFirst_returns (h : LinkedTo mem.sibling (some first) (mem.child root) pre)
    (hpre : first ∉ pre) :
    Returns (replaceFirst mem root new first) (mem.write (slotAfter root pre) (some new)) := by
  obtain rfl | ⟨l, x, rfl⟩ := pre.eq_nil_or_concat'
  · exact .of_end fun fuel => if_pos h
  have hne := h.ne_some (concat_ne_nil x l) hpre
  unfold replaceFirst
  simp only [if_neg hne, slotAfter_concat]
  exact (findPrev_returns h hpre).map _

end LinuxKernel.Resources
