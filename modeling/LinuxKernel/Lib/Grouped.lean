import Mathlib.Data.List.Sort
import Mathlib.Data.List.TakeWhile

/-!
# Sequences in groups of equal keys

A sequence that is ordered by a key falls into groups of equal keys.  The leaders are
the first element of each group.  An element that joins goes to the end of its group.
-/

namespace LinuxKernel.Lib

open List

variable {α β : Type} [LinearOrder β] {key key' : α → β} {s t : List α} {n m : α}

/-- The first element for each key. -/
def leaders (key : α → β) : List α → List α
  | [] => []
  | n :: s => n :: (leaders key s).filter fun m => key m ≠ key n

/-- The elements are ordered by their keys. -/
abbrev KeySorted (key : α → β) (s : List α) : Prop :=
  s.Pairwise fun a b => key a ≤ key b

/-- The element is put after all whose key is not larger. -/
def insertLast (key : α → β) (n : α) (s : List α) : List α :=
  s.takeWhile (fun m => key m ≤ key n) ++ n :: s.dropWhile fun m => key m ≤ key n

theorem leaders_sublist (key : α → β) (s : List α) : (leaders key s).Sublist s := by
  induction s with
  | nil => exact .refl []
  | cons n s ih => exact (filter_sublist.trans ih).cons_cons n

theorem leaders_append (s t : List α) :
    leaders key (s ++ t) =
      leaders key s ++ (leaders key t).filter fun n => ∀ m ∈ s, key m ≠ key n := by
  induction s with
  | nil => simp [leaders]
  | cons n s ih =>
    simp only [cons_append, leaders, ih, filter_append, filter_filter]
    congr 2
    refine filter_congr fun m _ => ?_
    rw [Bool.eq_iff_iff, Bool.and_eq_true, decide_eq_true_iff, decide_eq_true_iff,
      decide_eq_true_iff, forall_mem_cons, ne_comm]

theorem exists_leader (h : m ∈ s) : ∃ l ∈ leaders key s, key l = key m := by
  induction s with
  | nil => cases h
  | cons n s ih =>
    by_cases hkey : key n = key m
    · exact ⟨n, mem_cons_self, hkey⟩
    · obtain rfl | hm := mem_cons.mp h
      · exact absurd rfl hkey
      · obtain ⟨l, hl, hlm⟩ := ih hm
        refine ⟨l, mem_cons_of_mem n (mem_filter.mpr ⟨hl, ?_⟩), hlm⟩
        simpa [hlm] using Ne.symm hkey

theorem leaders_eq_nil_iff : leaders key s = [] ↔ s = [] := by
  cases s with
  | nil => exact iff_of_true rfl rfl
  | cons n s => exact iff_of_false (cons_ne_nil _ _) (cons_ne_nil _ _)

theorem leaders_pairwise : (leaders key s).Pairwise fun a b => key a ≠ key b := by
  induction s with
  | nil => exact .nil
  | cons n s ih =>
    refine pairwise_cons.mpr ⟨fun m hm => ?_, ih.filter _⟩
    obtain ⟨-, hne⟩ := mem_filter.mp hm
    exact .symm (of_decide_eq_true hne)

theorem mem_leaders_of_forall_ne (h : ∀ a ∈ s, key a ≠ key m) : m ∈ leaders key (s ++ m :: t) := by
  rw [leaders_append, leaders]
  refine mem_append_right _ (mem_filter.mpr ⟨mem_cons_self, ?_⟩)
  simpa using h

theorem leaders_congr (h : ∀ a ∈ s, key' a = key a) : leaders key' s = leaders key s := by
  induction s with
  | nil => rfl
  | cons n s ih =>
    obtain ⟨hn, hs⟩ := forall_mem_cons.mp h
    rw [leaders, leaders, ih hs]
    congr 1
    refine filter_congr fun m hm => ?_
    rw [hn, hs m ((leaders_sublist key s).subset hm)]

theorem leaders_follower (h : ∃ a ∈ s, key a = key n) :
    leaders key (s ++ n :: t) = leaders key (s ++ t) := by
  obtain ⟨a, ha, hkey⟩ := h
  rw [leaders_append, leaders_append, leaders,
    filter_cons_of_neg (by simpa using ⟨a, ha, hkey⟩), filter_filter]
  congr 1
  refine filter_congr fun b _ => ?_
  rw [Bool.eq_iff_iff, Bool.and_eq_true, decide_eq_true_iff, decide_eq_true_iff]
  constructor
  · exact fun hb => hb.1
  · exact fun hb => ⟨hb, fun heq => hb a ha (hkey.trans heq.symm)⟩

/-- The only element of its key is a leader, and nothing else changes. -/
theorem leaders_single (hbefore : ∀ a ∈ s, key a ≠ key n) (hafter : ∀ b ∈ t, key b ≠ key n) :
    ∃ rest, leaders key (s ++ n :: t) = leaders key s ++ n :: rest ∧
      leaders key (s ++ t) = leaders key s ++ rest := by
  refine ⟨_, ?_, leaders_append s t⟩
  have hself : (leaders key t).filter (fun m => key m ≠ key n) = leaders key t := by
    refine filter_eq_self.mpr fun b hb => ?_
    exact decide_eq_true (hafter b ((leaders_sublist key t).subset hb))
  rw [leaders_append, leaders, hself, filter_cons_of_pos (by simpa using hbefore)]

theorem leaders_succ (hbefore : ∀ a ∈ s, key a ≠ key n) (hkey : key m = key n) :
    ∃ rest, leaders key (s ++ n :: m :: t) = leaders key s ++ n :: rest ∧
      leaders key (s ++ m :: t) = leaders key s ++ m :: rest := by
  refine ⟨((leaders key t).filter fun b => key b ≠ key n).filter fun b =>
    ∀ a ∈ s, key a ≠ key b, ?_, ?_⟩
  · have hgroup : leaders key (n :: m :: t) =
        n :: (leaders key t).filter fun b => key b ≠ key n := by
      rw [leaders, leaders, filter_cons_of_neg (by simpa using hkey), hkey, filter_filter]
      simp only [Bool.and_self]
    rw [leaders_append, hgroup, filter_cons_of_pos (by simpa using hbefore)]
  · rw [leaders_append, leaders, hkey, filter_cons_of_pos (by simpa [hkey] using hbefore)]

theorem insertLast_perm (n : α) (s : List α) : (insertLast key n s).Perm (n :: s) := by
  refine perm_middle.trans (.cons n ?_)
  rw [takeWhile_append_dropWhile]

theorem keySorted_split (h : KeySorted key s) (n : α) :
    (∀ a ∈ s.takeWhile (fun m => key m ≤ key n), key a ≤ key n) ∧
      ∀ b ∈ s.dropWhile (fun m => key m ≤ key n), key n < key b := by
  constructor
  · intro a ha
    have hle := mem_takeWhile_imp ha
    exact of_decide_eq_true hle
  intro b hb
  induction s with
  | nil => cases hb
  | cons c s ih =>
    obtain ⟨hc, hs⟩ := pairwise_cons.mp h
    by_cases hcn : key c ≤ key n
    · rw [dropWhile_cons, if_pos (decide_eq_true hcn)] at hb
      exact ih hs hb
    · rw [dropWhile_cons, if_neg (by simpa using hcn)] at hb
      obtain rfl | hb := mem_cons.mp hb
      · exact lt_of_not_ge hcn
      · exact lt_of_lt_of_le (lt_of_not_ge hcn) (hc b hb)

theorem keySorted_insertLast (h : KeySorted key s) (n : α) :
    KeySorted key (insertLast key n s) := by
  obtain ⟨hlow, hhigh⟩ := keySorted_split h n
  have hsub := h
  rw [← @takeWhile_append_dropWhile _ (fun m => decide (key m ≤ key n)) s, KeySorted,
    pairwise_append] at hsub
  obtain ⟨htake, hdrop, hcross⟩ := hsub
  refine pairwise_append.mpr ⟨htake, pairwise_cons.mpr ⟨?_, hdrop⟩, ?_⟩
  · exact fun b hb => (hhigh b hb).le
  · intro a ha b hb
    obtain rfl | hb := mem_cons.mp hb
    · exact hlow a ha
    · exact hcross a ha b hb

theorem filter_insertLast (h : KeySorted key s) (n : α) (p : β) :
    (insertLast key n s).filter (fun m => key m = p) = (s ++ [n]).filter fun m => key m = p := by
  obtain ⟨-, hhigh⟩ := keySorted_split h n
  have hsplit := @takeWhile_append_dropWhile _ (fun m => decide (key m ≤ key n)) s
  rw [insertLast, filter_append, filter_append]
  conv_rhs => rw [← hsplit, filter_append]
  by_cases hp : key n = p
  · have hnil : (s.dropWhile fun m => key m ≤ key n).filter (fun m => key m = p) = [] := by
      refine filter_eq_nil_iff.mpr fun b hb => ?_
      have hlt := hhigh b hb
      simpa using fun heq : key b = p => absurd (heq.trans hp.symm) (ne_of_gt hlt)
    rw [filter_cons_of_pos (by simpa using hp), hnil, append_nil,
      filter_cons_of_pos (by simpa using hp), filter_nil]
  · rw [filter_cons_of_neg (by simpa using hp), filter_cons_of_neg (by simpa using hp),
      filter_nil, append_nil]

theorem split_at_key (hlow : ∀ a ∈ s, key a ≤ key n) (hhigh : ∀ b ∈ t.head?, key n < key b) :
    (s ++ t).takeWhile (fun m => key m ≤ key n) = s ∧
      (s ++ t).dropWhile (fun m => key m ≤ key n) = t := by
  have hall : ∀ a ∈ s, decide (key a ≤ key n) = true := fun a ha => decide_eq_true (hlow a ha)
  rw [takeWhile_append_of_pos hall, dropWhile_append_of_pos hall]
  cases t with
  | nil => exact ⟨append_nil s, rfl⟩
  | cons b t =>
    have hb : ¬ decide (key b ≤ key n) = true := by simpa using hhigh b rfl
    rw [takeWhile_cons, dropWhile_cons, if_neg hb, if_neg hb, append_nil]
    exact ⟨rfl, rfl⟩

theorem insertLast_eq (hlow : ∀ a ∈ s, key a ≤ key n) (hhigh : ∀ b ∈ t.head?, key n < key b) :
    insertLast key n (s ++ t) = s ++ n :: t := by
  obtain ⟨htake, hdrop⟩ := split_at_key hlow hhigh
  rw [insertLast, htake, hdrop]

theorem le_getLast_of_sorted (h : KeySorted key s) (hm : m ∈ s) (hne : s ≠ []) :
    key m ≤ key (s.getLast hne) := by
  rw [← dropLast_concat_getLast hne, mem_append, mem_singleton] at hm
  rw [← dropLast_concat_getLast hne, KeySorted, pairwise_append] at h
  obtain hm | rfl := hm
  · exact h.2.2 m hm _ (mem_singleton.mpr rfl)
  · exact le_refl _

theorem exists_key_iff_last_leader (h : KeySorted key s) (hlow : ∀ a ∈ s, key a ≤ key n) :
    (∃ a ∈ s, key a = key n) ↔ ∃ l ∈ (leaders key s).getLast?, key l = key n := by
  constructor
  · rintro ⟨a, ha, hkey⟩
    obtain ⟨l, hl, hla⟩ := @exists_leader _ _ _ key s a ha
    have hne := ne_nil_of_mem hl
    have hlast := getLast_mem hne
    refine ⟨_, getLast?_eq_some_getLast hne, le_antisymm ?_ ?_⟩
    · exact hlow _ ((leaders_sublist key s).subset hlast)
    · have hsorted := h.sublist (leaders_sublist key s)
      rw [← hkey, ← hla]
      exact le_getLast_of_sorted hsorted hl hne
  · rintro ⟨l, hl, hkey⟩
    exact ⟨l, (leaders_sublist key s).subset (mem_of_getLast? hl), hkey⟩

end LinuxKernel.Lib
