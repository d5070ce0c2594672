import Mathlib.Algebra.Order.Ring.Int

/-!
# Pieces that fill an interval

Pieces are lists of values, each with the place where it starts.  Pieces that follow one
another inside an interval and together are as long as the interval leave no gap.
-/

namespace LinuxKernel.Lib

open List

universe u

variable {α : Type u}

def pieceEnd (piece : Int × List α) : Int :=
  piece.1 + piece.2.length

def pieceTotal (pieces : List (Int × List α)) : Int :=
  (pieces.map fun piece => (piece.2.length : Int)).sum

@[simp] theorem pieceTotal_nil : pieceTotal ([] : List (Int × List α)) = 0 :=
  rfl

@[simp] theorem pieceTotal_cons (piece : Int × List α) (pieces : List (Int × List α)) :
    pieceTotal (piece :: pieces) = piece.2.length + pieceTotal pieces := by
  unfold pieceTotal
  rw [map_cons, sum_cons]

@[simp] theorem pieceTotal_append (pieces more : List (Int × List α)) :
    pieceTotal (pieces ++ more) = pieceTotal pieces + pieceTotal more := by
  unfold pieceTotal
  rw [map_append, sum_append]

/-- Each piece starts behind the one before. -/
def InOrder (pieces : List (Int × List α)) : Prop :=
  pieces.Pairwise fun p q => pieceEnd p ≤ q.1

/-- The pieces follow one another from `a` without a gap. -/
def Tiles (a : Int) : List (Int × List α) → Prop
  | [] => True
  | piece :: pieces => piece.1 = a ∧ Tiles (pieceEnd piece) pieces

variable {a : Int} {pieces : List (Int × List α)} {b : Int}

variable (horder : InOrder pieces) (hstart : ∀ p ∈ pieces, a ≤ p.1)
  (hend : ∀ p ∈ pieces, pieceEnd p ≤ b)

include horder hstart hend

/-- Pieces in order do not overlap, so they fit in an interval with them. -/
theorem pieceTotal_le (hab : a ≤ b) : pieceTotal pieces ≤ b - a := by
  induction pieces generalizing a with
  | nil =>
    rw [pieceTotal_nil]
    omega
  | cons p pieces ih =>
    obtain ⟨hafter, horder'⟩ := pairwise_cons.mp horder
    have hpa := hstart p mem_cons_self
    have hpb := hend p mem_cons_self
    have hrest := ih horder' hafter (fun q hq => hend q (mem_cons_of_mem p hq)) hpb
    rw [pieceTotal_cons]
    unfold pieceEnd at hrest
    omega

theorem tiles_of_pieceTotal (htotal : pieceTotal pieces = b - a) : Tiles a pieces := by
  induction pieces generalizing a with
  | nil => trivial
  | cons p pieces ih =>
    obtain ⟨hafter, horder'⟩ := pairwise_cons.mp horder
    have hpa := hstart p mem_cons_self
    have hpb := hend p mem_cons_self
    have hends : ∀ q ∈ pieces, pieceEnd q ≤ b := fun q hq => hend q (mem_cons_of_mem p hq)
    have hrest := pieceTotal_le horder' hafter hends hpb
    rw [pieceTotal_cons] at htotal
    have heq : p.1 = a := by
      unfold pieceEnd at hrest
      omega
    refine ⟨heq, ih horder' hafter hends ?_⟩
    unfold pieceEnd
    omega

omit horder hstart hend

theorem Tiles.getElem?_flatMap (h : Tiles a pieces) {k : Nat} {x : α}
    (hx : (pieces.flatMap Prod.snd)[k]? = some x) :
    ∃ p ∈ pieces, ∃ j : Nat, a + k = p.1 + j ∧ p.2[j]? = some x := by
  induction pieces generalizing a k with
  | nil => cases hx
  | cons p pieces ih =>
    obtain ⟨hpa, hrest⟩ := h
    rw [flatMap_cons] at hx
    by_cases hk : k < p.2.length
    · rw [getElem?_append_left hk] at hx
      exact ⟨p, mem_cons_self, k, by omega, hx⟩
    · rw [getElem?_append_right (by omega)] at hx
      obtain ⟨q, hq, j, hplace, hj⟩ := ih hrest hx
      refine ⟨q, mem_cons_of_mem p hq, j, ?_, hj⟩
      unfold pieceEnd at hplace
      omega

end LinuxKernel.Lib
