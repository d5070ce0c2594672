import LinuxKernel.Resource.Forest

/-!
# Changes of the links

The three ways in which the pointers change: a resource is linked between the children of
another one, it is unlinked, and it takes over a run of children.
-/

namespace LinuxKernel.Resources

open Lib List Function

variable {mem mem' : Mem} {kids : Nat → List Nat} {root new : Nat} {pre mid post l : List Nat}

section Slots

section Write

variable (mem) (p : Slot) (q : Option Nat)

theorem write_sibling (x : Nat) :
    (mem.write p q).sibling x = if p = .sibling x then q else mem.sibling x := by
  cases p <;> simp [Mem.write, Mem.setChild, Mem.setSibling, update_apply, eq_comm]

theorem write_child (x : Nat) :
    (mem.write p q).child x = if p = .child x then q else mem.child x := by
  cases p <;> simp [Mem.write, Mem.setChild, Mem.setSibling, update_apply, eq_comm]

theorem read_write : (mem.write p q).read p = q := by
  cases p with
  | child a => exact update_self _ _ _
  | sibling a => exact update_self _ _ _

theorem write_parent : (mem.write p q).parent = mem.parent := by
  cases p <;> rfl

theorem write_start : (mem.write p q).start = mem.start := by
  cases p <;> rfl

theorem write_stop : (mem.write p q).stop = mem.stop := by
  cases p <;> rfl

end Write

variable {x a : Nat} {rest : List Nat} {moved grown : Nat → Prop}

theorem mem_of_slotAfter (h : slotAfter root pre = .sibling x) : x ∈ pre := by
  obtain rfl | ⟨l, y, rfl⟩ := pre.eq_nil_or_concat'
  · cases h
  · rw [slotAfter_concat] at h
    cases h
    exact mem_append_right _ mem_cons_self

theorem eq_root_of_slotAfter (h : slotAfter root pre = .child x) : x = root ∧ pre = [] := by
  obtain rfl | ⟨l, y, rfl⟩ := pre.eq_nil_or_concat'
  · cases h
    exact ⟨rfl, rfl⟩
  · rw [slotAfter_concat] at h
    cases h

/-- The memory differs in the place behind the first children of `root`, in the siblings of
resources that moved and in the children of those that got new ones. -/
structure Rewrites (mem mem' : Mem) (root : Nat) (pre : List Nat) (moved grown : Nat → Prop) :
    Prop where
  sibling : ∀ x, ¬ moved x → .sibling x ≠ slotAfter root pre → mem'.sibling x = mem.sibling x
  child : ∀ x, ¬ grown x → .child x ≠ slotAfter root pre → mem'.child x = mem.child x

variable (h : Rewrites mem mem' root pre moved grown)

include h

/-- The children of the resource, with the new rest behind the first ones. -/
theorem Rewrites.chain {q : Option Nat} {tail : List Nat} (hlinks : Links mem kids)
    (hroot : kids root = pre ++ rest) (hmoved : ∀ x ∈ pre, ¬ moved x) (hself : ¬ grown root)
    (hread : mem'.read (slotAfter root pre) = q) (htail : LinkedTo mem'.sibling none q tail) :
    LinkedTo mem'.sibling none (mem'.child root) (pre ++ tail) := by
  have hchain := hlinks.linked root
  have hnodup := hlinks.nodup root
  rw [hroot] at hchain hnodup
  obtain ⟨m, hpre, -⟩ := linkedTo_append.mp hchain
  refine linkedTo_append.mpr ⟨q, ?_, htail⟩
  refine linkedTo_slotAfter hpre (nodup_append.mp hnodup).1 (fun hne => ?_)
    (fun x hx hslot => h.sibling x (hmoved x hx) hslot) hread
  refine h.child root hself fun heq => hne ?_
  exact (eq_root_of_slotAfter heq.symm).2

theorem Rewrites.tail (hlinks : Links mem kids) (hroot : kids root = pre ++ (mid ++ post))
    (hmoved : ∀ x ∈ post, ¬ moved x) : LinkedTo mem'.sibling none post.head? post := by
  have hchain := hlinks.linked root
  have hnodup := hlinks.nodup root
  rw [hroot] at hchain hnodup
  obtain ⟨m, -, hrest⟩ := linkedTo_append.mp hchain
  obtain ⟨m', -, htail⟩ := linkedTo_append.mp hrest
  rw [← htail.eq_head?]
  refine htail.congr fun x hx => h.sibling x (hmoved x hx) fun heq => ?_
  have hpre := mem_of_slotAfter heq.symm
  exact (nodup_append.mp hnodup).2.2 x hpre x (mem_append_right _ hx) rfl

theorem Rewrites.other (hlinks : Links mem kids) (hroot : kids root = pre ++ rest)
    (hne : a ≠ root) (hself : ¬ grown a) (hmoved : ∀ x ∈ kids a, ¬ moved x) :
    LinkedTo mem'.sibling none (mem'.child a) (kids a) := by
  rw [h.child a hself fun heq => hne (eq_root_of_slotAfter heq.symm).1]
  refine (hlinks.linked a).congr fun x hx => h.sibling x (hmoved x hx) fun heq => hne ?_
  have hpre := mem_of_slotAfter heq.symm
  exact hlinks.parent_unique hx (hroot ▸ mem_append_left _ hpre)

end Slots

variable {old : Nat}

/-- The pointers agree with the list of children of one resource. -/
structure Lists (mem : Mem) (a : Nat) (l : List Nat) : Prop where
  linked : LinkedTo mem.sibling none (mem.child a) l
  parent : ∀ c ∈ l, mem.parent c = some a
  nodup : l.Nodup

theorem Links.of_set {a : Nat} (hself : Lists mem' a l)
    (hother : ∀ b, b ≠ a → Lists mem' b (kids b)) : Links mem' (setKids kids a l) := by
  have hlists : ∀ b, Lists mem' b (setKids kids a l b) := by
    intro b
    by_cases hb : b = a
    · rw [hb, setKids_self]
      exact hself
    · rw [setKids_of_ne hb]
      exact hother b hb
  exact ⟨fun b => (hlists b).linked, fun b => (hlists b).parent, fun b => (hlists b).nodup⟩

theorem Links.insert (h : Links mem kids) (hroot : kids root = pre ++ post)
    (hnew : ∀ a, new ∉ kids a) :
    Links (linkAt mem root new (slotAfter root pre) post.head?)
      (setKids kids root (pre ++ new :: post)) := by
  have hkid : ∀ a, ∀ x ∈ kids a, x ≠ new := fun a x hx heq => hnew a (heq ▸ hx)
  have hpre : ∀ x ∈ pre, x ∈ kids root := fun x hx => hroot ▸ mem_append_left _ hx
  have hpost : ∀ x ∈ post, x ∈ kids root := fun x hx => hroot ▸ mem_append_right _ hx
  have hslot : slotAfter root pre ≠ .sibling new := fun heq =>
    hnew root (hpre new (mem_of_slotAfter heq))
  have hsibling : ∀ x, (linkAt mem root new (slotAfter root pre) post.head?).sibling x =
      if slotAfter root pre = .sibling x then some new
      else if x = new then post.head? else mem.sibling x := by
    intro x
    refine (write_sibling _ _ _ x).trans ?_
    congr 1
    exact update_apply _ _ _ _
  have hrewrites : Rewrites mem (linkAt mem root new (slotAfter root pre) post.head?) root pre
      (· = new) fun _ => False := by
    refine ⟨fun x hx hs => ?_, fun x _ hs => ?_⟩
    · rw [hsibling, if_neg hs.symm, if_neg hx]
    · exact (write_child _ _ _ x).trans (if_neg hs.symm)
  have hparent : ∀ x, x ≠ new →
      (linkAt mem root new (slotAfter root pre) post.head?).parent x = mem.parent x := by
    intro x hx
    refine (update_of_ne hx _ _).trans ?_
    rw [write_parent]
    rfl
  have hroot' : kids root = pre ++ ([] ++ post) := hroot
  refine .of_set ⟨?_, fun c hc => ?_, ?_⟩ fun b hb => ⟨?_, fun c hc => ?_, h.nodup b⟩
  · refine hrewrites.chain h hroot (fun x hx => hkid root x (hpre x hx)) id
      (read_write _ _ _) ⟨rfl, ?_⟩
    rw [hsibling, if_neg hslot, if_pos rfl]
    exact hrewrites.tail h hroot' fun x hx => hkid root x (hpost x hx)
  · by_cases hcn : c = new
    · rw [hcn]
      exact update_self _ _ _
    · rw [hparent c hcn]
      refine h.parent root c ?_
      obtain hc | hc := mem_append.mp hc
      · exact hpre c hc
      · exact hpost c ((mem_cons.mp hc).resolve_left hcn)
  · have hnodup := h.nodup root
    rw [hroot] at hnodup
    refine nodup_middle.mpr (nodup_cons.mpr ⟨?_, hnodup⟩)
    rw [← hroot]
    exact hnew root
  · exact hrewrites.other h hroot hb id (hkid b)
  · rw [hparent c (hkid b c hc)]
    exact h.parent b c hc

theorem Links.remove (h : Links mem kids) (hroot : kids root = pre ++ old :: post) :
    Links ((mem.write (slotAfter root pre) (mem.sibling old)).setParent old none)
      (setKids kids root (pre ++ post)) := by
  have hrewrites : Rewrites mem
      ((mem.write (slotAfter root pre) (mem.sibling old)).setParent old none) root pre
      (fun _ => False) fun _ => False := by
    refine ⟨fun x _ hs => ?_, fun x _ hs => ?_⟩
    · exact (write_sibling _ _ _ x).trans (if_neg hs.symm)
    · exact (write_child _ _ _ x).trans (if_neg hs.symm)
  have hparent : ∀ x, x ≠ old →
      ((mem.write (slotAfter root pre) (mem.sibling old)).setParent old none).parent x =
        mem.parent x := by
    intro x hx
    refine (update_of_ne hx _ _).trans ?_
    rw [write_parent]
  have hroot' : kids root = pre ++ ([old] ++ post) := hroot
  have hnodup := h.nodup root
  rw [hroot, nodup_middle, nodup_cons] at hnodup
  have hold : old ∈ kids root := hroot ▸ mem_append_right _ mem_cons_self
  have hnext : mem.sibling old = post.head? := by
    have hchain := h.linked root
    rw [hroot] at hchain
    obtain ⟨m, -, -, htail⟩ := linkedTo_append.mp hchain
    exact htail.eq_head?
  refine .of_set ⟨?_, fun c hc => ?_, hnodup.2⟩ fun b hb => ⟨?_, fun c hc => ?_, h.nodup b⟩
  · refine hrewrites.chain h hroot (fun _ _ => id) id ((read_write _ _ _).trans hnext) ?_
    exact hrewrites.tail h hroot' fun _ _ => id
  · rw [hparent c fun heq => hnodup.1 (heq ▸ hc)]
    refine h.parent root c ?_
    rw [hroot, mem_append]
    exact (mem_append.mp hc).imp_right (mem_cons_of_mem old)
  · exact hrewrites.other h hroot hb id fun _ _ => id
  · rw [hparent c fun heq => hb (h.parent_unique (heq ▸ hc) hold)]
    exact h.parent b c hc

theorem Links.between (h : Links mem kids) (hroot : kids root = pre ++ (mid ++ post))
    (hnew : ∀ a, new ∉ kids a) (hne : root ≠ new)
    (hrewrites : Rewrites mem mem' root pre (fun x => x = new ∨ x ∈ mid) (· = new))
    (hread : mem'.read (slotAfter root pre) = some new) (hnext : mem'.sibling new = post.head?)
    (hmid : LinkedTo mem'.sibling none (mem'.child new) mid)
    (hadopted : ∀ x ∈ mid, mem'.parent x = some new) (hlinked : mem'.parent new = some root)
    (hparent : ∀ x, x ≠ new → x ∉ mid → mem'.parent x = mem.parent x) :
    Links mem' (setKids (setKids kids new mid) root (pre ++ new :: post)) := by
  have hkid : ∀ a, ∀ x ∈ kids a, x ≠ new := fun a x hx heq => hnew a (heq ▸ hx)
  have hnodup := h.nodup root
  rw [hroot] at hnodup
  have hmem : ∀ x ∈ mid, x ∈ kids root := fun x hx =>
    hroot ▸ mem_append_right _ (mem_append_left _ hx)
  have hsplit := nodup_append.mp hnodup
  have hright := nodup_append.mp hsplit.2.1
  have houter : ∀ x ∈ pre ++ post, x ∈ kids root ∧ x ∉ mid := by
    intro x hx
    obtain hx | hx := mem_append.mp hx
    · exact ⟨hroot ▸ mem_append_left _ hx, fun hxm => hsplit.2.2 x hx x (mem_append_left _ hxm) rfl⟩
    · exact ⟨hroot ▸ mem_append_right _ (mem_append_right _ hx),
        fun hxm => hright.2.2 x hxm x hx rfl⟩
  have hstays : ∀ x ∈ pre ++ post, ¬ (x = new ∨ x ∈ mid) := by
    rintro x hx (heq | hxm)
    · exact hkid root x (houter x hx).1 heq
    · exact (houter x hx).2 hxm
  refine .of_set ⟨?_, fun c hc => ?_, ?_⟩ fun b hb => ?_
  · refine hrewrites.chain h hroot (fun x hx => hstays x (mem_append_left _ hx)) hne hread ⟨rfl, ?_⟩
    rw [hnext]
    exact hrewrites.tail h hroot fun x hx => hstays x (mem_append_right _ hx)
  · by_cases hcn : c = new
    · rw [hcn]
      exact hlinked
    have hcs : c ∈ pre ++ post := by
      obtain hc | hc := mem_append.mp hc
      · exact mem_append_left _ hc
      · exact mem_append_right _ ((mem_cons.mp hc).resolve_left hcn)
    rw [hparent c hcn (houter c hcs).2]
    exact h.parent root c (houter c hcs).1
  · refine nodup_middle.mpr (nodup_cons.mpr ⟨fun hn => ?_, ?_⟩)
    · exact hkid root new (houter new hn).1 rfl
    · refine nodup_append.mpr ⟨hsplit.1, hright.2.1, fun x hx y hy => ?_⟩
      exact hsplit.2.2 x hx y (mem_append_right _ hy)
  by_cases hbn : b = new
  · rw [hbn, setKids_self]
    exact ⟨hmid, hadopted, hright.1⟩
  rw [setKids_of_ne hbn]
  have hout : ∀ x ∈ kids b, x ∉ mid := fun x hx hxm =>
    hb (h.parent_unique hx (hmem x hxm))
  refine ⟨?_, fun c hc => ?_, h.nodup b⟩
  · exact hrewrites.other h hroot hb hbn fun x hx hmoved =>
      hmoved.elim (hkid b x hx) (hout x hx)
  · rw [hparent c (hkid b c hc) (hout c hc)]
    exact h.parent b c hc

end LinuxKernel.Resources
