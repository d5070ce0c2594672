import LinuxKernel.Lib.SegMap

/-!
# Overwriting an interval

One pass over a map that gives all points of an interval a value, or takes their
values away.  The new interval is joined with the intervals of the same value
that it touches.
-/

namespace LinuxKernel.Lib

open List

universe u

variable {α : Type u}

/-- The interval with its new value. -/
def newSeg (lo hi : Nat) : Option α → List (Seg α)
  | none => []
  | some v => [⟨lo, hi, v⟩]

theorem mem_newSeg {lo hi : Nat} {v : Option α} {s : Seg α} (h : s ∈ newSeg lo hi v) :
    s.lo = lo ∧ v = some s.val := by
  cases v with
  | none => cases h
  | some v =>
    cases mem_singleton.mp h
    exact ⟨rfl, rfl⟩

theorem valAt_newSeg (lo hi : Nat) (v : Option α) (x : Nat) :
    valAt (newSeg lo hi v) x = if lo ≤ x ∧ x < hi then v else none := by
  cases v with
  | none => exact (ite_self none).symm
  | some v => rfl

variable {l : List (Seg α)}

section Membership

variable {x : Nat}

theorem valAt_of_mem {b : Nat} (h : SepFrom b l) {s : Seg α} (hs : s ∈ l) (hlo : s.lo ≤ x)
    (hhi : x < s.hi) : valAt l x = some s.val := by
  induction l generalizing b with
  | nil => cases hs
  | cons t l ih =>
    obtain ⟨-, -, hl⟩ := h
    rw [valAt]
    rcases mem_cons.mp hs with rfl | hs
    · rw [if_pos ⟨hlo, hhi⟩]
    · have hle := hl.mem hs
      rw [if_neg (by omega)]
      exact ih hl hs

theorem mem_of_valAt {v : α} (h : valAt l x = some v) :
    ∃ s ∈ l, s.lo ≤ x ∧ x < s.hi ∧ s.val = v := by
  induction l with
  | nil => cases h
  | cons s l ih =>
    rw [valAt] at h
    split at h
    · next hx =>
      exact ⟨s, mem_cons_self, hx.1, hx.2, Option.some.inj h⟩
    · obtain ⟨t, ht, hx⟩ := ih h
      exact ⟨t, mem_cons_of_mem s ht, hx⟩

end Membership

variable {lo b hi : Nat} {v : Option α}

theorem SepFrom.newSeg_append (hb : b ≤ lo) (hlt : lo < hi) (v : Option α) (h : SepFrom hi l) :
    SepFrom b (newSeg lo hi v ++ l) := by
  cases v with
  | none => exact h.mono (by omega)
  | some v => exact ⟨hb, hlt, h⟩

theorem head_newSeg_append {t : Seg α} (ht : t ∈ (newSeg lo hi v ++ l).head?) :
    (v = some t.val ∧ t.lo = lo) ∨ t ∈ l.head? := by
  cases v with
  | none => exact .inr ht
  | some v =>
    cases ht
    exact .inl ⟨rfl, rfl⟩

theorem Merged.newSeg_append (h : Merged l) (lo : Nat)
    (hhead : ∀ t ∈ l.head?, hi = t.lo → v ≠ some t.val) : Merged (newSeg lo hi v ++ l) := by
  cases v with
  | none => exact h
  | some v =>
    refine isChain_cons.mpr ⟨?_, h⟩
    intro t ht htouch hval
    exact hhead t ht htouch (congrArg some hval)

theorem Merged.piece_append (h : Merged l) (lo : Nat) {v : α}
    (hhead : ∀ t ∈ l.head?, hi = t.lo → v ≠ t.val) : Merged (piece lo hi v ++ l) := by
  unfold piece
  split
  · exact isChain_cons.mpr ⟨hhead, h⟩
  · exact h

variable [DecidableEq α]

/-- Overwrite the points from `lo` up to `hi`. -/
def put (lo hi : Nat) (v : Option α) : List (Seg α) → List (Seg α)
  | [] => newSeg lo hi v
  | s :: l =>
    if v = some s.val then
      if s.hi < lo then s :: put lo hi v l
      else if hi < s.lo then newSeg lo hi v ++ s :: l
      else put (min lo s.lo) (max hi s.hi) v l
    else if s.hi ≤ lo then s :: put lo hi v l
    else if hi ≤ s.lo then newSeg lo hi v ++ s :: l
    else
      piece s.lo lo s.val ++ if hi < s.hi then newSeg lo hi v ++ ⟨hi, s.hi, s.val⟩ :: l
        else put lo hi v l

variable {t : Seg α}

/-- `put` changes the value inside of its interval only. -/
theorem valAt_put (h : SepFrom b l) (hlt : lo < hi) (v : Option α) (x : Nat) :
    valAt (put lo hi v l) x = if lo ≤ x ∧ x < hi then v else valAt l x := by
  induction l generalizing b lo hi with
  | nil => exact valAt_newSeg lo hi v x
  | cons s l ih =>
    obtain ⟨-, hs, hl⟩ := h
    have hnone : x < s.hi → valAt l x = none := valAt_of_lt hl
    have hrest := ih hl hlt
    have hjoin := ih hl (show min lo s.lo < max hi s.hi by omega)
    simp only [put, apply_ite (valAt · x), valAt_append, valAt_newSeg, valAt_piece, valAt]
    grind

theorem SepFrom.put (h : SepFrom b l) (hb : b ≤ lo) (hlt : lo < hi) (v : Option α) :
    SepFrom b (put lo hi v l) := by
  induction l generalizing b lo hi with
  | nil =>
    have hnew : SepFrom b (newSeg lo hi v ++ []) := .newSeg_append hb hlt v trivial
    rwa [append_nil] at hnew
  | cons s l ih =>
    obtain ⟨hbs, hs, hl⟩ := h
    unfold Lib.put
    split
    · split
      · exact ⟨hbs, hs, ih hl (by omega) hlt⟩
      · split
        · exact .newSeg_append hb hlt v ⟨by omega, hs, hl⟩
        · exact ih (hl.mono (by omega)) (by omega) (by omega)
    split
    · next hle => exact ⟨hbs, hs, ih hl hle hlt⟩
    split
    · next hle => exact .newSeg_append hb hlt v ⟨hle, hs, hl⟩
    · refine .piece_append hbs s.val ?_
      split
      · next hright =>
        exact .newSeg_append (by omega) hlt v ⟨le_refl hi, hright, hl⟩
      · exact ih (hl.mono (by omega)) (by omega) hlt

theorem head_put_of_sep (h : SepFrom lo l) (ht : t ∈ (put lo hi v l).head?) :
    (v = some t.val ∧ t.lo = lo) ∨ hi ≤ t.lo := by
  induction l generalizing hi with
  | nil =>
    obtain ⟨hlo, hval⟩ := mem_newSeg (mem_of_mem_head? ht)
    exact .inl ⟨hval, hlo⟩
  | cons s l ih =>
    obtain ⟨hlo, hs, hl⟩ := h
    have hl' : SepFrom lo l := hl.mono (by omega)
    unfold put at ht
    split at ht
    · rw [if_neg (by omega)] at ht
      split at ht
      · next hlt =>
        refine (head_newSeg_append ht).imp_right ?_
        rintro ⟨⟩
        omega
      · rw [min_eq_left hlo] at ht
        exact (ih hl' ht).imp_right (le_trans (le_max_left _ _))
    rw [if_neg (by omega)] at ht
    split at ht
    · next hle =>
      refine (head_newSeg_append ht).imp_right ?_
      rintro ⟨⟩
      exact hle
    rw [piece, if_neg (by omega), nil_append] at ht
    split at ht
    · refine (head_newSeg_append ht).imp_right ?_
      rintro ⟨⟩
      exact le_refl hi
    · exact ih hl' ht

/-- The first interval is the new one, the old first one, or behind the overwritten points. -/
theorem head_put (h : SepFrom b l) (ht : t ∈ (put lo hi v l).head?) :
    (v = some t.val ∧ t.lo = lo) ∨ (∃ s ∈ l.head?, t.lo = s.lo ∧ t.val = s.val) ∨ hi ≤ t.lo := by
  cases l with
  | nil =>
    obtain ⟨hlo, hval⟩ := mem_newSeg (mem_of_mem_head? ht)
    exact .inl ⟨hval, hlo⟩
  | cons s l =>
    obtain ⟨-, hs, hl⟩ := h
    have hself : t = s → ∃ s' ∈ (s :: l).head?, t.lo = s'.lo ∧ t.val = s'.val :=
      fun heq => ⟨s, rfl, heq ▸ ⟨rfl, rfl⟩⟩
    unfold put at ht
    split at ht
    · next hv =>
      split at ht
      · exact .inr (.inl (hself (Option.some.inj ht).symm))
      split at ht
      · refine (head_newSeg_append ht).imp_right ?_
        exact fun ht => .inl (hself (Option.some.inj ht).symm)
      -- the joined interval starts like the new or like the old one
      rcases head_put_of_sep (hl.mono (by omega)) ht with ⟨hval, hlo⟩ | hhi
      · rcases le_total lo s.lo with hle | hle
        · exact .inl ⟨hval, by omega⟩
        · have hval' : t.val = s.val := Option.some.inj (hval.symm.trans hv)
          exact .inr (.inl ⟨s, rfl, by omega, hval'⟩)
      · exact .inr (.inr (by omega))
    split at ht
    · exact .inr (.inl (hself (Option.some.inj ht).symm))
    split at ht
    · refine (head_newSeg_append ht).imp_right ?_
      exact fun ht => .inl (hself (Option.some.inj ht).symm)
    by_cases hlo : s.lo < lo
    · rw [piece, if_pos hlo] at ht
      cases ht
      exact .inr (.inl ⟨s, rfl, rfl, rfl⟩)
    rw [piece, if_neg hlo, nil_append] at ht
    split at ht
    · refine (head_newSeg_append ht).imp_right ?_
      rintro ⟨⟩
      exact .inr (le_refl hi)
    · exact (head_put_of_sep (hl.mono (by omega)) ht).imp_right .inr

theorem Merged.put (h : Merged l) (hsep : SepFrom b l) (hlt : lo < hi) (v : Option α) :
    Merged (put lo hi v l) := by
  induction l generalizing b lo hi with
  | nil =>
    have hnew : Merged (newSeg lo hi v ++ []) := .newSeg_append .nil lo (by rintro t ⟨⟩)
    rwa [append_nil] at hnew
  | cons s l ih =>
    obtain ⟨-, hs, hl⟩ := hsep
    obtain ⟨hhead, hmerged⟩ := isChain_cons.mp h
    -- an interval that stays in front of the rest
    have hkeep : s.hi ≤ lo → (s.hi = lo → v ≠ some s.val) → Merged (s :: Lib.put lo hi v l) := by
      intro hle hval
      refine isChain_cons.mpr ⟨?_, ih hmerged hl hlt⟩
      intro t ht htouch
      rcases head_put hl ht with ⟨hv, hlo⟩ | ⟨s', hs', hlo, hv⟩ | hhi
      · intro heq
        exact hval (htouch.trans hlo) (heq ▸ hv)
      · rw [hv]
        exact hhead s' hs' (htouch.trans hlo)
      · omega
    unfold Lib.put
    split
    · split
      · next hlo => exact hkeep (by omega) (by omega)
      · split
        · refine h.newSeg_append lo ?_
          rintro t ⟨⟩ htouch
          omega
        · exact ih hmerged hl (by omega)
    next hv =>
    split
    · next hle => exact hkeep hle (fun _ => hv)
    split
    · refine h.newSeg_append lo ?_
      rintro t ⟨⟩ -
      exact hv
    refine .piece_append ?_ s.lo ?_
    · split
      · refine .newSeg_append ?_ lo ?_
        · exact isChain_cons.mpr ⟨hhead, hmerged⟩
        · rintro t ⟨⟩ -
          exact hv
      · exact ih hmerged hl hlt
    intro t ht htouch heq
    split at ht
    · rcases head_newSeg_append ht with ⟨hv', -⟩ | ht
      · exact hv (heq ▸ hv')
      · cases ht
        exact ne_of_lt hlt htouch
    · rcases head_put_of_sep (hl.mono (by omega)) ht with ⟨hv', -⟩ | hhi
      · exact hv (heq ▸ hv')
      · omega

end LinuxKernel.Lib
