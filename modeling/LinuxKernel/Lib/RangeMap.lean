import Mathlib.Data.List.Pairwise

/-!
# Maps between numbers given by ranges

A finite partial map between numbers, given by ranges that are moved as a whole.  When no two
ranges meet on either side the map is injective and reading it backwards inverts it.  A map can be
moved through another one whose ranges contain its targets.
-/

namespace LinuxKernel.Lib

open List

/-- The numbers from `src` on are moved to those from `dst` on. -/
structure MovedRange where
  src : Nat
  dst : Nat
  len : Nat

namespace MovedRange

def Has (s : MovedRange) (n : Nat) : Prop :=
  s.src ≤ n ∧ n < s.src + s.len

instance (s : MovedRange) (n : Nat) : Decidable (s.Has n) :=
  inferInstanceAs (Decidable (_ ∧ _))

def move (s : MovedRange) (n : Nat) : Nat :=
  s.dst + (n - s.src)

def flip (s : MovedRange) : MovedRange :=
  ⟨s.dst, s.src, s.len⟩

/-- Two ranges have no number in common on either side. -/
structure Apart (s s' : MovedRange) : Prop where
  src : s.src + s.len ≤ s'.src ∨ s'.src + s'.len ≤ s.src
  dst : s.dst + s.len ≤ s'.dst ∨ s'.dst + s'.len ≤ s.dst

variable {s s' : MovedRange} {n : Nat} {p p' : MovedRange}

theorem Apart.symm (h : s.Apart s') : s'.Apart s :=
  ⟨h.src.symm, h.dst.symm⟩

instance : Std.Symm Apart :=
  ⟨fun _ _ => Apart.symm⟩

theorem Apart.flip (h : s.Apart s') : s.flip.Apart s'.flip :=
  ⟨h.dst, h.src⟩

/-- The targets of `s` are moved by `p` as a whole. -/
def Covers (p s : MovedRange) : Prop :=
  p.src ≤ s.dst ∧ s.dst + s.len ≤ p.src + p.len

/-- The range `s` followed by `p`. -/
def through (p s : MovedRange) : MovedRange :=
  ⟨s.src, p.move s.dst, s.len⟩

theorem Apart.through (h : s.Apart s') (hp : p.Covers s) (hp' : p'.Covers s')
    (hsame : p = p' ∨ p.Apart p') : (p.through s).Apart (p'.through s') := by
  refine ⟨h.src, ?_⟩
  obtain ⟨-, hdst⟩ := h
  obtain ⟨hlo, hhi⟩ := hp
  obtain ⟨hlo', hhi'⟩ := hp'
  simp only [MovedRange.through, move]
  rcases hsame with rfl | ⟨-, happart⟩
  · omega
  · omega

end MovedRange

/-- The value at a number, from the first range that has it. -/
def moveBy : List MovedRange → Nat → Option Nat
  | [], _ => none
  | s :: l, n => if s.Has n then some (s.move n) else moveBy l n

variable {l l' parent : List MovedRange} {n m : Nat}

theorem exists_of_moveBy (h : moveBy l n = some m) : ∃ s ∈ l, s.Has n ∧ m = s.move n := by
  induction l with
  | nil => cases h
  | cons s l ih =>
    rw [moveBy] at h
    split at h
    · next hs => exact ⟨s, mem_cons_self, hs, (Option.some.inj h).symm⟩
    · obtain ⟨s', hs', hrest⟩ := ih h
      exact ⟨s', mem_cons_of_mem _ hs', hrest⟩

variable (h : l.Pairwise MovedRange.Apart)

include h

theorem moveBy_of_mem {s : MovedRange} (hs : s ∈ l) (hn : s.Has n) :
    moveBy l n = some (s.move n) := by
  induction l with
  | nil => cases hs
  | cons s' l ih =>
    obtain ⟨hhead, htail⟩ := pairwise_cons.mp h
    rw [moveBy]
    rcases mem_cons.mp hs with rfl | hs
    · rw [if_pos hn]
    rw [if_neg, ih htail hs]
    intro hn'
    obtain ⟨hsrc, -⟩ := hhead s hs
    obtain ⟨hlo, hhi⟩ := hn
    obtain ⟨hlo', hhi'⟩ := hn'
    omega

theorem pairwise_flip : (l.map MovedRange.flip).Pairwise MovedRange.Apart :=
  pairwise_map.mpr (h.imp .flip)

theorem moveBy_flip (hm : moveBy l n = some m) : moveBy (l.map MovedRange.flip) m = some n := by
  obtain ⟨s, hs, hn, rfl⟩ := exists_of_moveBy hm
  have hflip : s.flip.Has (s.move n) ∧ s.flip.move (s.move n) = n := by
    simp only [MovedRange.Has, MovedRange.flip, MovedRange.move] at hn ⊢
    omega
  rw [moveBy_of_mem (pairwise_flip h) (mem_map_of_mem hs) hflip.1, hflip.2]

omit h

/-- Each range of `l'` is one of `l`, moved by a range of `parent`. -/
def MovedThrough (parent : List MovedRange) (s s' : MovedRange) : Prop :=
  ∃ p ∈ parent, p.Covers s ∧ s' = p.through s

theorem exists_of_forall₂ {R : MovedRange → MovedRange → Prop} (h : List.Forall₂ R l l')
    {t : MovedRange} (ht : t ∈ l') : ∃ s ∈ l, R s t := by
  induction h with
  | nil => cases ht
  | cons hs h ih =>
    rcases mem_cons.mp ht with rfl | ht
    · exact ⟨_, mem_cons_self, hs⟩
    · obtain ⟨s, hmem, hrest⟩ := ih ht
      exact ⟨s, mem_cons_of_mem _ hmem, hrest⟩

variable (hparent : parent.Pairwise MovedRange.Apart) (hl : List.Forall₂ (MovedThrough parent) l l')

include hparent hl

theorem pairwise_through (h : l.Pairwise MovedRange.Apart) : l'.Pairwise MovedRange.Apart := by
  have hsame : ∀ p ∈ parent, ∀ p' ∈ parent, p = p' ∨ p.Apart p' := by
    intro p hp p' hp'
    by_cases heq : p = p'
    · exact .inl heq
    · exact .inr (hparent.forall hp hp' heq)
  induction hl with
  | nil => exact .nil
  | cons hs hl ih =>
    obtain ⟨hhead, htail⟩ := pairwise_cons.mp h
    refine pairwise_cons.mpr ⟨fun t ht => ?_, ih htail⟩
    obtain ⟨p, hp, hcov, rfl⟩ := hs
    obtain ⟨s', hs', p', hp', hcov', rfl⟩ := exists_of_forall₂ hl ht
    exact (hhead s' hs').through hcov hcov' (hsame p hp p' hp')

theorem moveBy_through : moveBy l' n = (moveBy l n).bind (moveBy parent) := by
  induction hl with
  | nil => rfl
  | @cons s s' l l' hs hl ih =>
    obtain ⟨p, hp, hcov, rfl⟩ := hs
    have hiff : (p.through s).Has n ↔ s.Has n := Iff.rfl
    rw [moveBy, moveBy]
    by_cases hn : s.Has n
    · have hmove : p.Has (s.move n) ∧ (p.through s).move n = p.move (s.move n) := by
        obtain ⟨hlo, hhi⟩ := hcov
        obtain ⟨hlo', hhi'⟩ := hn
        simp only [MovedRange.Has, MovedRange.through, MovedRange.move]
        omega
      rw [if_pos (hiff.mpr hn), if_pos hn, Option.bind_some, moveBy_of_mem hparent hp hmove.1,
        hmove.2]
    · rw [if_neg (mt hiff.mp hn), if_neg hn]
      exact ih

end LinuxKernel.Lib
