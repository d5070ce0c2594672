import Mathlib.Data.List.Count

/-!
# Red-black trees and their contexts

Binary trees with coloured nodes, the contexts that remain when a subtree is cut out,
and the balance conditions of red-black trees.

A construction that exists in two mirror images is stated once, for a direction.
-/

namespace LinuxKernel.Lib

open List

inductive Color where
  | red
  | black
deriving DecidableEq

inductive Dir where
  | left
  | right
deriving DecidableEq

def Dir.flip : Dir → Dir
  | .left => .right
  | .right => .left

@[simp] theorem Dir.flip_flip (d : Dir) : d.flip.flip = d := by
  cases d <;> rfl

@[simp] theorem Dir.flip_ne (d : Dir) : d.flip ≠ d := by
  cases d <;> nofun

@[simp] theorem Dir.ne_flip (d : Dir) : d ≠ d.flip :=
  (Dir.flip_ne d).symm

theorem Dir.eq_or_eq_flip (d e : Dir) : e = d ∨ e = d.flip := by
  cases d <;> cases e <;> simp [Dir.flip]

inductive ColorTree (K : Type) where
  | nil
  | node (color : Color) (left : ColorTree K) (key : K) (right : ColorTree K)

namespace ColorTree

variable {K : Type}

/-- The tree with `a` on the side `d` and `b` on the other side. -/
def mk : Dir → Color → ColorTree K → K → ColorTree K → ColorTree K
  | .left, c, a, x, b => node c a x b
  | .right, c, a, x, b => node c b x a

theorem mk_flip (d : Dir) (c : Color) (a : ColorTree K) (x : K) (b : ColorTree K) :
    mk d.flip c a x b = mk d c b x a := by
  cases d <;> rfl

theorem exists_mk (d : Dir) (c : Color) (l : ColorTree K) (x : K) (r : ColorTree K) :
    ∃ a b, node c l x r = mk d c a x b := by
  cases d with
  | left => exact ⟨l, r, rfl⟩
  | right => exact ⟨r, l, rfl⟩

theorem mk_eq_mk (d e : Dir) (c : Color) (l : ColorTree K) (x : K) (r : ColorTree K) :
    ∃ a b, mk d c l x r = mk e c a x b := by
  rcases Dir.eq_or_eq_flip d e with rfl | rfl
  · exact ⟨l, r, rfl⟩
  · exact ⟨r, l, (mk_flip d c r x l).symm⟩

/-- The keys in order. -/
def toList : ColorTree K → List K
  | nil => []
  | node _ l x r => l.toList ++ x :: r.toList

/-- The colour of the root; an empty tree is black. -/
def color : ColorTree K → Color
  | nil => .black
  | node c _ _ _ => c

/-- The tree with another colour of its root. -/
def paint (c : Color) : ColorTree K → ColorTree K
  | nil => nil
  | node _ l x r => node c l x r

@[simp] theorem paint_mk (c c' : Color) (d : Dir) (a : ColorTree K) (x : K) (b : ColorTree K) :
    (mk d c' a x b).paint c = mk d c a x b := by
  cases d <;> rfl

@[simp] theorem color_mk (d : Dir) (c : Color) (a : ColorTree K) (x : K) (b : ColorTree K) :
    (mk d c a x b).color = c := by
  cases d <;> rfl

@[simp] theorem toList_paint (c : Color) (t : ColorTree K) : (t.paint c).toList = t.toList := by
  cases t <;> rfl

theorem paint_color (t : ColorTree K) : t.paint t.color = t := by
  cases t <;> rfl

theorem toList_rotate (d : Dir) (c₁ c₂ c₃ c₄ : Color) (a b e : ColorTree K) (x y : K) :
    (mk d c₃ a x (mk d c₄ b y e)).toList = (mk d c₁ (mk d c₂ a x b) y e).toList := by
  cases d <;> simp [mk, toList]

theorem toList_rotate_twice (d : Dir) (c₁ c₂ c₃ c₄ c₅ c₆ : Color) (a b s u : ColorTree K)
    (x y z : K) :
    (mk d c₄ (mk d.flip c₅ a y s) x (mk d c₆ b z u)).toList =
      (mk d c₁ (mk d.flip c₂ (mk d.flip c₃ b x a) y s) z u).toList := by
  cases d <;> simp [mk, toList, Dir.flip]

theorem toList_mk_congr (d : Dir) {c c' : Color} {a a' b b' : ColorTree K} (x : K)
    (ha : a.toList = a'.toList) (hb : b.toList = b'.toList) :
    (mk d c a x b).toList = (mk d c' a' x b').toList := by
  cases d <;> simp [mk, toList, ha, hb]

theorem toList_mk_perm (d : Dir) (c : Color) (a : ColorTree K) (x : K) (b : ColorTree K) :
    (mk d c a x b).toList.Perm (x :: (a.toList ++ b.toList)) := by
  cases d with
  | left => exact perm_middle
  | right => exact perm_middle.trans ((perm_append_comm).cons x)

/-- The colour conditions and the black height. -/
inductive Balanced : ColorTree K → Color → Nat → Prop where
  | nil : Balanced nil .black 0
  | red {l r : ColorTree K} {x : K} {n : Nat}
      (hl : Balanced l .black n) (hr : Balanced r .black n) :
      Balanced (node .red l x r) .red n
  | black {l r : ColorTree K} {x : K} {n : Nat} {c₁ c₂ : Color}
      (hl : Balanced l c₁ n) (hr : Balanced r c₂ n) :
      Balanced (node .black l x r) .black (n + 1)

section Balance

variable {t a b : ColorTree K} {c c₁ c₂ : Color} {d : Dir} {x : K} {n : Nat}

theorem Balanced.color_eq (h : t.Balanced c n) : t.color = c := by
  cases h <;> rfl

theorem Balanced.mk_red (ha : a.Balanced .black n) (hb : b.Balanced .black n) :
    (mk d .red a x b).Balanced .red n := by
  cases d with
  | left => exact .red ha hb
  | right => exact .red hb ha

theorem Balanced.mk_black (ha : a.Balanced c₁ n) (hb : b.Balanced c₂ n) :
    (mk d .black a x b).Balanced .black (n + 1) := by
  cases d with
  | left => exact .black ha hb
  | right => exact .black hb ha

theorem Balanced.of_mk_red (h : (mk d .red a x b).Balanced c n) :
    c = .red ∧ a.Balanced .black n ∧ b.Balanced .black n := by
  cases d with
  | left =>
    cases h with
    | red hl hr => exact ⟨rfl, hl, hr⟩
  | right =>
    cases h with
    | red hl hr => exact ⟨rfl, hr, hl⟩

theorem Balanced.of_mk_black (h : (mk d .black a x b).Balanced c n) :
    ∃ m c₁ c₂, n = m + 1 ∧ c = .black ∧ a.Balanced c₁ m ∧ b.Balanced c₂ m := by
  cases d with
  | left =>
    cases h with
    | black hl hr => exact ⟨_, _, _, rfl, rfl, hl, hr⟩
  | right =>
    cases h with
    | black hl hr => exact ⟨_, _, _, rfl, rfl, hr, hl⟩

theorem Balanced.paint_eq (h : t.Balanced c n) : t.paint c = t := by
  rw [← h.color_eq, paint_color]

theorem Balanced.paint_black (h : t.Balanced .red n) :
    (t.paint .black).Balanced .black (n + 1) := by
  cases h with
  | red hl hr => exact .black hl hr

theorem Balanced.exists_mk_red (h : t.Balanced .red n) (d : Dir) :
    ∃ a x b, t = mk d .red a x b := by
  cases h with
  | red _ _ =>
    obtain ⟨a, b, hab⟩ := ColorTree.exists_mk d .red _ _ _
    exact ⟨a, _, b, hab⟩

theorem Balanced.exists_mk_black (h : t.Balanced .black (n + 1)) (d : Dir) :
    ∃ a x b, t = mk d .black a x b := by
  cases h with
  | black _ _ =>
    obtain ⟨a, b, hab⟩ := ColorTree.exists_mk d .black _ _ _
    exact ⟨a, _, b, hab⟩

def NoRedRed : ColorTree K → Prop
  | nil => True
  | node c l _ r =>
    (c = .red → l.color = .black ∧ r.color = .black) ∧ l.NoRedRed ∧ r.NoRedRed

/-- The numbers of black nodes on the paths down to an empty tree. -/
def blackPaths : ColorTree K → List Nat
  | nil => [0]
  | node .red l _ r => l.blackPaths ++ r.blackPaths
  | node .black l _ r => (l.blackPaths ++ r.blackPaths).map (· + 1)

/-- The red-black trees, by their root, their nodes and their paths. -/
structure RedBlack (t : ColorTree K) : Prop where
  root : t.color = .black
  noRedRed : t.NoRedRed
  paths : ∀ m ∈ t.blackPaths, ∀ n ∈ t.blackPaths, m = n

theorem Balanced.noRedRed (h : t.Balanced c n) : t.NoRedRed := by
  induction h with
  | nil => trivial
  | red hl hr ihl ihr => exact ⟨fun _ => ⟨hl.color_eq, hr.color_eq⟩, ihl, ihr⟩
  | black hl hr ihl ihr => exact ⟨nofun, ihl, ihr⟩

theorem Balanced.blackPaths_eq (h : t.Balanced c n) : ∀ m ∈ t.blackPaths, m = n := by
  induction h with
  | nil => exact fun m hm => mem_singleton.mp hm
  | red hl hr ihl ihr =>
    intro m hm
    exact (mem_append.mp hm).elim (ihl m) (ihr m)
  | black hl hr ihl ihr =>
    intro m hm
    obtain ⟨k, hk, rfl⟩ := mem_map.mp hm
    rw [(mem_append.mp hk).elim (ihl k) (ihr k)]

theorem Balanced.redBlack (h : t.Balanced .black n) : t.RedBlack where
  root := h.color_eq
  noRedRed := h.noRedRed
  paths m hm m' hm' := (h.blackPaths_eq m hm).trans (h.blackPaths_eq m' hm').symm

end Balance

end ColorTree

/-- A node with the subtree on the side `dir` cut out. -/
structure Frame (K : Type) where
  dir : Dir
  color : Color
  key : K
  sib : ColorTree K

variable {K : Type}

def Frame.fill (f : Frame K) (t : ColorTree K) : ColorTree K :=
  ColorTree.mk f.dir f.color t f.key f.sib

/-- The nodes above a subtree, from the lowest up. -/
abbrev Ctx (K : Type) := List (Frame K)

namespace Ctx

/-- The tree with the subtree put back. -/
def fill : Ctx K → ColorTree K → ColorTree K
  | [], t => t
  | f :: up, t => fill up (f.fill t)

/-- All keys of the context, in no particular order. -/
def keys : Ctx K → List K
  | [] => []
  | f :: up => f.key :: f.sib.toList ++ keys up

/-- A tree of this colour and black height makes a red-black tree with a black root. -/
inductive Hole : Ctx K → Color → Nat → Prop where
  | root {n : Nat} : Hole [] .black n
  | red {d : Dir} {x : K} {s : ColorTree K} {up : Ctx K} {n : Nat}
      (hs : s.Balanced .black n) (hup : Hole up .red n) :
      Hole (⟨d, .red, x, s⟩ :: up) .black n
  | black {d : Dir} {x : K} {s : ColorTree K} {up : Ctx K} {c c' : Color} {n : Nat}
      (hs : s.Balanced c' n) (hup : Hole up .black (n + 1)) :
      Hole (⟨d, .black, x, s⟩ :: up) c n

variable {up up' : Ctx K} {t t' : ColorTree K} {c : Color} {n : Nat}

theorem Hole.above {f : Frame K} (h : Hole (f :: up) c n) (ht : t.Balanced c n) :
    ∃ c' m, Hole up c' m ∧ (f.fill t).Balanced c' m := by
  cases h with
  | red hs hup => exact ⟨_, _, hup, .mk_red ht hs⟩
  | black hs hup => exact ⟨_, _, hup, .mk_black ht hs⟩

/-- A hole filled with what it asks for gives a balanced tree. -/
theorem Hole.fill (h : Hole up c n) (ht : t.Balanced c n) :
    ∃ m, (Ctx.fill up t).Balanced .black m := by
  induction up generalizing t c n with
  | nil =>
    cases h with
    | root => exact ⟨_, ht⟩
  | cons f up ih =>
    obtain ⟨c', m, hup, hf⟩ := h.above ht
    exact ih hup hf

theorem Hole.of_fill (h : (Ctx.fill up t).Balanced .black n) :
    ∃ c m, Hole up c m ∧ t.Balanced c m := by
  induction up generalizing t with
  | nil => exact ⟨.black, n, .root, h⟩
  | cons f up ih =>
    obtain ⟨c, m, hup, hf⟩ := ih h
    obtain ⟨d, c', x, s⟩ := f
    cases c' with
    | red =>
      obtain ⟨rfl, ht, hs⟩ := ColorTree.Balanced.of_mk_red hf
      exact ⟨_, _, .red hs hup, ht⟩
    | black =>
      obtain ⟨m', c₁, c₂, rfl, rfl, ht, hs⟩ := ColorTree.Balanced.of_mk_black hf
      exact ⟨_, _, .black hs hup, ht⟩

theorem Hole.to_black (h : Hole up c n) : Hole up .black n := by
  cases h with
  | root => exact .root
  | red hs hup => exact .red hs hup
  | black hs hup => exact .black hs hup

theorem fill_append : fill (up ++ up') t = fill up' (fill up t) := by
  induction up generalizing t with
  | nil => rfl
  | cons f up ih => exact ih

theorem keys_append : keys (up ++ up') = keys up ++ keys up' := by
  induction up with
  | nil => rfl
  | cons f up ih => simp [keys, ih]

theorem keys_fill (up : Ctx K) (t : ColorTree K) :
    (fill up t).toList.Perm (t.toList ++ keys up) := by
  induction up generalizing t with
  | nil =>
    rw [keys, append_nil]
    exact .refl _
  | cons f up ih =>
    refine (ih (f.fill t)).trans ?_
    refine ((ColorTree.toList_mk_perm _ _ _ _ _).append_right _).trans ?_
    rw [keys]
    simp only [cons_append, append_assoc]
    exact perm_middle.symm

/-- The keys before the hole, in order. -/
def before : Ctx K → List K
  | [] => []
  | ⟨.left, _, _, _⟩ :: up => before up
  | ⟨.right, _, x, s⟩ :: up => before up ++ (s.toList ++ [x])

/-- The keys after the hole, in order. -/
def after : Ctx K → List K
  | [] => []
  | ⟨.left, _, x, s⟩ :: up => x :: (s.toList ++ after up)
  | ⟨.right, _, _, _⟩ :: up => after up

theorem toList_fill_eq : (fill up t).toList = before up ++ (t.toList ++ after up) := by
  induction up generalizing t with
  | nil => exact (append_nil _).symm
  | cons f up ih =>
    obtain ⟨d, c, x, s⟩ := f
    rw [fill, ih]
    cases d <;> simp [Frame.fill, ColorTree.mk, ColorTree.toList, before, after]

theorem toList_fill_congr (h : t.toList = t'.toList) (up : Ctx K) :
    (fill up t).toList = (fill up t').toList := by
  rw [toList_fill_eq, toList_fill_eq, h]

theorem exists_fill {x : K} (h : x ∈ t.toList) : ∃ up c l r, t = fill up (.node c l x r) := by
  induction t with
  | nil => cases h
  | node c l y r ihl ihr =>
    rcases mem_append.mp h with hl | hr
    · obtain ⟨up, c', l', r', heq⟩ := ihl hl
      refine ⟨up ++ [⟨.left, c, y, r⟩], c', l', r', ?_⟩
      rw [fill_append, ← heq]
      rfl
    rcases mem_cons.mp hr with rfl | hr
    · exact ⟨[], c, l, r, rfl⟩
    · obtain ⟨up, c', l', r', heq⟩ := ihr hr
      refine ⟨up ++ [⟨.right, c, y, l⟩], c', l', r', ?_⟩
      rw [fill_append, ← heq]
      rfl

end Ctx

end LinuxKernel.Lib
