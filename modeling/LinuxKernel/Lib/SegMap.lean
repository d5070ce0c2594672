import Mathlib.Algebra.Ring.Nat
import Mathlib.Data.List.Chain

/-!
# Maps given by lists of intervals

A finite map from numbers to values, given by half-open intervals in increasing order with their
values.  `fill` gives a value to those points of an interval that have none, `below` and `above`
cut the map at a point, and `merge` joins intervals that touch and have the same value.
-/

namespace LinuxKernel.Lib

open List

universe u

/-- A half-open interval with a value. -/
@[ext]
structure Seg (α : Type u) where
  lo : Nat
  hi : Nat
  val : α
deriving DecidableEq

variable {α : Type u}

def valAt : List (Seg α) → Nat → Option α
  | [], _ => none
  | s :: l, x => if s.lo ≤ x ∧ x < s.hi then some s.val else valAt l x

/-- Intervals from `b` on, not empty, in order, without overlaps. -/
def SepFrom : Nat → List (Seg α) → Prop
  | _, [] => True
  | b, s :: l => b ≤ s.lo ∧ s.lo < s.hi ∧ SepFrom s.hi l

/-- No two neighbours could be one interval. -/
def Merged (l : List (Seg α)) : Prop :=
  l.IsChain (fun a b => a.hi = b.lo → a.val ≠ b.val)

/-- The number of points with a value. -/
def extent (l : List (Seg α)) : Nat :=
  (l.map (fun s => s.hi - s.lo)).sum

@[simp]
theorem extent_nil : extent ([] : List (Seg α)) = 0 :=
  rfl

@[simp]
theorem extent_cons (s : Seg α) (l : List (Seg α)) : extent (s :: l) = s.hi - s.lo + extent l :=
  rfl

@[simp]
theorem extent_append (l₁ l₂ : List (Seg α)) : extent (l₁ ++ l₂) = extent l₁ + extent l₂ := by
  simp [extent]

variable {l : List (Seg α)} {b x b' top : Nat}

theorem SepFrom.mono (h : SepFrom b l) (hb : b' ≤ b) : SepFrom b' l := by
  cases l with
  | nil => trivial
  | cons s l => exact ⟨le_trans hb h.1, h.2⟩

theorem SepFrom.mem (h : SepFrom b l) {s : Seg α} (hs : s ∈ l) : b ≤ s.lo := by
  induction l generalizing b with
  | nil => cases hs
  | cons a l ih =>
    obtain ⟨hb, hlt, hl⟩ := h
    rcases mem_cons.mp hs with rfl | hs
    · exact hb
    · have := ih hl hs
      omega

theorem SepFrom.pairwise (h : SepFrom b l) : l.Pairwise (fun s s' => s.hi ≤ s'.lo) := by
  induction l generalizing b with
  | nil => exact .nil
  | cons s l ih => exact .cons (fun _ => h.2.2.mem) (ih h.2.2)

theorem extent_pos (h : SepFrom b l) (hne : l ≠ []) : 0 < extent l := by
  cases l with
  | nil => exact absurd rfl hne
  | cons s l =>
    have hlt := h.2.1
    rw [extent_cons]
    omega

theorem valAt_of_lt (h : SepFrom b l) (hx : x < b) : valAt l x = none := by
  induction l generalizing b with
  | nil => rfl
  | cons s l ih =>
    obtain ⟨hb, hlt, hl⟩ := h
    rw [valAt, if_neg (by omega)]
    exact ih hl (by omega)

theorem valAt_eq_none (h : ∀ s ∈ l, s.lo ≤ x → s.hi ≤ x) : valAt l x = none := by
  induction l with
  | nil => rfl
  | cons s l ih =>
    rw [forall_mem_cons] at h
    rw [valAt, if_neg (by omega)]
    exact ih h.2

theorem valAt_append (l₁ l₂ : List (Seg α)) (x : Nat) :
    valAt (l₁ ++ l₂) x = (valAt l₁ x).or (valAt l₂ x) := by
  induction l₁ with
  | nil => rfl
  | cons s l₁ ih =>
    rw [cons_append, valAt, valAt]
    split
    · rfl
    · exact ih

section Fill

/-- The interval, if there is one. -/
def piece (lo hi : Nat) (v : α) : List (Seg α) :=
  if lo < hi then [⟨lo, hi, v⟩] else []

theorem valAt_piece (lo hi : Nat) (v : α) (x : Nat) :
    valAt (piece lo hi v) x = if lo ≤ x ∧ x < hi then some v else none := by
  unfold piece
  split
  · rfl
  · rw [if_neg (by omega)]
    rfl

/-- Give `v` to all points from `lo` to `hi` without a value. -/
def fill (hi : Nat) (v : α) : Nat → List (Seg α) → List (Seg α)
  | lo, [] => piece lo hi v
  | lo, s :: l =>
    if hi ≤ s.lo then piece lo hi v ++ s :: l
    else if s.hi ≤ lo then s :: fill hi v lo l
    else piece lo s.lo v ++ s :: fill hi v (min s.hi hi) l

variable {lo : Nat} {l : List (Seg α)} {b hi : Nat}

theorem fill_of_le (h : hi ≤ lo) (v : α) (l : List (Seg α)) : fill hi v lo l = l := by
  induction l generalizing lo with
  | nil => exact if_neg (by omega)
  | cons s l ih =>
    unfold fill
    split
    · rw [piece, if_neg (by omega), nil_append]
    · split
      · rw [ih h]
      · rw [piece, if_neg (by omega), nil_append, ih (by omega)]

theorem SepFrom.piece_append (hb : b ≤ lo) (v : α) (h : SepFrom (max b hi) l) :
    SepFrom b (piece lo hi v ++ l) := by
  unfold piece
  split
  · next hlt => exact ⟨hb, hlt, h.mono (le_max_right b hi)⟩
  · exact h.mono (le_max_left b hi)

theorem SepFrom.fill (h : SepFrom b l) (hi : Nat) (v : α) (hb : b ≤ lo) :
    SepFrom b (fill hi v lo l) := by
  induction l generalizing b lo with
  | nil =>
    have hnil : SepFrom b (piece lo hi v ++ []) := .piece_append hb v trivial
    rwa [append_nil] at hnil
  | cons s l ih =>
    obtain ⟨hs, hlt, hl⟩ := h
    unfold Lib.fill
    split
    · next hle => exact .piece_append hb v ⟨max_le hs hle, hlt, hl⟩
    split
    · next hle => exact ⟨hs, hlt, ih hl hle⟩
    have hrest : SepFrom s.hi (Lib.fill hi v (min s.hi hi) l) := by
      rcases le_total s.hi hi with hcap | hcap
      · rw [min_eq_left hcap]
        exact ih hl (le_refl _)
      · rw [min_eq_right hcap, fill_of_le (le_refl hi)]
        exact hl
    exact .piece_append hb v ⟨max_le hs (le_refl _), hlt, hrest⟩

theorem length_le_fill (lo hi : Nat) (v : α) (l : List (Seg α)) :
    l.length ≤ (fill hi v lo l).length := by
  induction l generalizing lo with
  | nil => exact Nat.zero_le _
  | cons s l ih =>
    unfold fill
    split
    · simp
    · split
      · exact Nat.succ_le_succ (ih lo)
      · have := ih (min s.hi hi)
        simp only [length_append, length_cons]
        omega

theorem valAt_fill (h : SepFrom b l) (lo hi : Nat) (v : α) (x : Nat) :
    valAt (fill hi v lo l) x = (valAt l x).or (if lo ≤ x ∧ x < hi then some v else none) := by
  induction l generalizing b lo with
  | nil => exact valAt_piece lo hi v x
  | cons s l ih =>
    obtain ⟨-, hlt, hl⟩ := h
    have hnone : x < s.hi → valAt l x = none := valAt_of_lt hl
    have hrest := ih hl lo
    have hbehind := ih hl (min s.hi hi)
    simp only [fill, apply_ite (valAt · x), valAt_append, valAt_piece, valAt]
    grind

end Fill

section Cut

def below (x : Nat) : List (Seg α) → List (Seg α)
  | [] => []
  | s :: l =>
    if s.hi ≤ x then s :: below x l
    else if s.lo < x then [⟨s.lo, x, s.val⟩]
    else []

def above (x : Nat) : List (Seg α) → List (Seg α)
  | [] => []
  | s :: l =>
    if s.hi ≤ x then above x l
    else if s.lo < x then ⟨x, s.hi, s.val⟩ :: l
    else s :: l

variable {b : Nat} {l r : List (Seg α)} {x y : Nat} {s : Seg α}

theorem valAt_below (h : SepFrom b l) (x y : Nat) :
    valAt (below x l) y = if y < x then valAt l y else none := by
  induction l generalizing b with
  | nil => exact (ite_self none).symm
  | cons s l ih =>
    obtain ⟨-, hlt, hl⟩ := h
    have hnone : y < s.hi → valAt l y = none := valAt_of_lt hl
    have hrest := ih hl
    simp only [below, apply_ite (valAt · y), valAt]
    grind

theorem valAt_above (h : SepFrom b l) (x y : Nat) :
    valAt (above x l) y = if x ≤ y then valAt l y else none := by
  induction l generalizing b with
  | nil => exact (ite_self none).symm
  | cons s l ih =>
    obtain ⟨-, hlt, hl⟩ := h
    have hnone : y < s.hi → valAt l y = none := valAt_of_lt hl
    have hrest := ih hl
    simp only [above, apply_ite (valAt · y), valAt]
    grind

theorem SepFrom.above (h : SepFrom b l) (x : Nat) : SepFrom (max b x) (above x l) := by
  induction l generalizing b with
  | nil => trivial
  | cons s l ih =>
    obtain ⟨hs, hlt, hl⟩ := h
    unfold Lib.above
    split
    · exact (ih hl).mono (by omega)
    · split
      · exact ⟨by change max b x ≤ x; omega, by change x < s.hi; omega, hl⟩
      · exact ⟨by omega, hlt, hl⟩

theorem SepFrom.below_append (h : SepFrom b l) (hr : SepFrom (max b x) r) :
    SepFrom b (below x l ++ r) := by
  induction l generalizing b with
  | nil => exact hr.mono (by omega)
  | cons s l ih =>
    obtain ⟨hs, hlt, hl⟩ := h
    unfold below
    split
    · exact ⟨hs, hlt, ih hl (hr.mono (by omega))⟩
    · split
      · next hlo => exact ⟨hs, hlo, hr.mono (le_max_right b x)⟩
      · exact hr.mono (by omega)

theorem hi_le_of_mem_below (h : s ∈ below x l) : s.hi ≤ x := by
  induction l with
  | nil => cases h
  | cons t l ih =>
    unfold below at h
    split at h
    · next hle =>
      rcases mem_cons.mp h with rfl | h
      · exact hle
      · exact ih h
    · split at h
      · rw [mem_singleton.mp h]
      · cases h

theorem extent_below_above (h : SepFrom b l) (x : Nat) :
    extent (below x l) + extent (above x l) = extent l := by
  induction l generalizing b with
  | nil => rfl
  | cons s l ih =>
    obtain ⟨-, hlt, hl⟩ := h
    unfold below above
    split
    · rw [extent_cons, extent_cons, Nat.add_assoc, ih hl]
    · split
      · rw [extent_cons, extent_cons, extent_cons, extent_nil]
        dsimp only
        omega
      · rw [extent_nil, Nat.zero_add]

theorem above_above (hle : x ≤ y) (l : List (Seg α)) : above y (above x l) = above y l := by
  induction l with
  | nil => rfl
  | cons s l ih =>
    simp only [above, apply_ite (above y)]
    grind

theorem head_below (h : s ∈ (below x l).head?) : ∃ t ∈ l.head?, s.lo = t.lo ∧ s.val = t.val := by
  cases l with
  | nil => cases h
  | cons t l =>
    refine ⟨t, rfl, ?_⟩
    unfold below at h
    split at h
    · cases h
      exact ⟨rfl, rfl⟩
    · split at h
      · cases h
        exact ⟨rfl, rfl⟩
      · cases h

theorem Merged.below (h : Merged l) (x : Nat) : Merged (below x l) := by
  induction l with
  | nil => exact .nil
  | cons s l ih =>
    obtain ⟨hhead, hl⟩ := isChain_cons.mp h
    unfold Lib.below
    split
    · refine isChain_cons.mpr ⟨?_, ih hl⟩
      intro t ht
      obtain ⟨t', ht', hlo, hval⟩ := head_below ht
      rw [hlo, hval]
      exact hhead t' ht'
    · split
      · exact .singleton _
      · exact .nil

theorem Merged.above (h : Merged l) (x : Nat) : Merged (above x l) := by
  induction l with
  | nil => exact .nil
  | cons s l ih =>
    obtain ⟨hhead, hl⟩ := isChain_cons.mp h
    unfold Lib.above
    split
    · exact ih hl
    · split
      · exact isChain_cons.mpr ⟨hhead, hl⟩
      · exact h

theorem Merged.below_append_above (h : Merged l) (hsep : SepFrom b l) {lo hi : Nat}
    (hlt : lo < hi) : Merged (Lib.below lo l ++ Lib.above hi l) := by
  refine isChain_append.mpr ⟨h.below lo, h.above hi, ?_⟩
  intro s hs t ht htouch
  have hs' := hi_le_of_mem_below (mem_of_mem_getLast? hs)
  have ht' := (hsep.above hi).mem (mem_of_mem_head? ht)
  omega

end Cut

section MapVals

variable {β : Type u} {f : α → β}

def mapVals (f : α → β) (l : List (Seg α)) : List (Seg β) :=
  l.map (fun s => ⟨s.lo, s.hi, f s.val⟩)

theorem valAt_mapVals : valAt (mapVals f l) x = (valAt l x).map f := by
  induction l with
  | nil => rfl
  | cons s l ih =>
    rw [mapVals, map_cons, valAt, valAt]
    split
    · rfl
    · exact ih

theorem extent_mapVals : extent (mapVals f l) = extent l := by
  induction l with
  | nil => rfl
  | cons s l ih =>
    rw [extent_cons, ← ih]
    rfl

theorem SepFrom.mapVals_append (f : α → α) {l r : List (Seg α)} (h : SepFrom b (l ++ r)) :
    SepFrom b (mapVals f l ++ r) := by
  induction l generalizing b with
  | nil => exact h
  | cons s l ih => exact ⟨h.1, h.2.1, ih h.2.2⟩

end MapVals

section Merge

theorem SepFrom.join {a c : Seg α} (h : SepFrom b (a :: c :: l)) :
    SepFrom b (⟨a.lo, c.hi, a.val⟩ :: l) := by
  obtain ⟨hb, hlt, hac, hc, hl⟩ := h
  exact ⟨hb, by dsimp only; omega, hl⟩

variable [DecidableEq α]

/-- Join the interval `a` with what touches it and has the same value. -/
def mergeFrom (a : Seg α) : List (Seg α) → List (Seg α)
  | [] => [a]
  | b :: l =>
    if a.hi = b.lo ∧ a.val = b.val then mergeFrom ⟨a.lo, b.hi, a.val⟩ l
    else a :: mergeFrom b l

variable {l : List (Seg α)} {b : Nat} {a : Seg α}

theorem valAt_mergeFrom (h : SepFrom b (a :: l)) (x : Nat) :
    valAt (mergeFrom a l) x = valAt (a :: l) x := by
  induction l generalizing a b with
  | nil => rfl
  | cons c l ih =>
    have hjoin := h.join
    obtain ⟨hb, hlt, hac⟩ := h
    have hc := hac.2.1
    unfold mergeFrom
    split
    · next hmerge =>
      rw [ih hjoin]
      simp only [valAt, hmerge.2]
      by_cases hin : a.lo ≤ x ∧ x < a.hi
      · rw [if_pos hin, if_pos (by omega)]
      · rw [if_neg hin]
        congr 1
        exact propext (by omega)
    · rw [valAt, valAt, ih hac]

theorem SepFrom.mergeFrom (h : SepFrom b (a :: l)) : SepFrom b (mergeFrom a l) := by
  induction l generalizing a b with
  | nil => exact h
  | cons c l ih =>
    unfold Lib.mergeFrom
    split
    · exact ih h.join
    · exact ⟨h.1, h.2.1, ih h.2.2⟩

theorem extent_mergeFrom (h : SepFrom b (a :: l)) : extent (mergeFrom a l) = extent (a :: l) := by
  induction l generalizing a b with
  | nil => rfl
  | cons c l ih =>
    have hjoin := h.join
    obtain ⟨hb, hlt, hac⟩ := h
    have hc := hac.2.1
    unfold mergeFrom
    split
    · rw [ih hjoin]
      simp only [extent_cons]
      omega
    · rw [extent_cons, extent_cons, ih hac]

theorem head_mergeFrom {s : Seg α} (h : s ∈ (mergeFrom a l).head?) :
    s.lo = a.lo ∧ s.val = a.val := by
  induction l generalizing a with
  | nil =>
    cases h
    exact ⟨rfl, rfl⟩
  | cons c l ih =>
    unfold mergeFrom at h
    split at h
    · exact ih (a := ⟨a.lo, c.hi, a.val⟩) h
    · cases h
      exact ⟨rfl, rfl⟩

theorem merged_mergeFrom : Merged (mergeFrom a l) := by
  induction l generalizing a with
  | nil => exact .singleton a
  | cons c l ih =>
    unfold mergeFrom
    split
    · exact ih
    · next hne =>
      refine isChain_cons.mpr ⟨?_, ih⟩
      intro s hs htouch hval
      obtain ⟨hlo, hval'⟩ := head_mergeFrom hs
      exact hne ⟨htouch.trans hlo, hval.trans hval'⟩

theorem mergeFrom_ne_nil : mergeFrom a l ≠ [] := by
  induction l generalizing a with
  | nil => exact cons_ne_nil _ _
  | cons c l ih =>
    unfold mergeFrom
    split
    · exact ih
    · exact cons_ne_nil _ _

theorem length_mergeFrom_le (a : Seg α) (l : List (Seg α)) :
    (mergeFrom a l).length ≤ l.length + 1 := by
  induction l generalizing a with
  | nil => exact le_refl 1
  | cons c l ih =>
    unfold mergeFrom
    split
    · exact Nat.le_succ_of_le (ih _)
    · exact Nat.succ_le_succ (ih c)

end Merge

theorem extent_le (h : SepFrom b l) (hb : b ≤ top) (htop : ∀ s ∈ l, s.hi ≤ top) :
    extent l ≤ top - b := by
  induction l generalizing b with
  | nil => exact Nat.zero_le _
  | cons s l ih =>
    obtain ⟨hs, hlt, hl⟩ := h
    have hstop := htop s mem_cons_self
    have := ih hl hstop (fun t ht => htop t (mem_cons_of_mem _ ht))
    rw [extent_cons]
    omega

end LinuxKernel.Lib
