/-!
# Chains of pointers

A chain of nodes, each with a pointer to the next one.  A chain that leads from one
pointer to another can be cut and joined like a list, and does not change when the
pointers of its nodes do not.
-/

namespace LinuxKernel.Lib

variable {next next' : Nat → Option Nat} {p q : Option Nat} {l r : List Nat} {a : Nat}

/-- From `p` the nodes of the list follow one another up to `q`. -/
def LinkedTo (next : Nat → Option Nat) (q : Option Nat) : Option Nat → List Nat → Prop
  | p, [] => p = q
  | p, a :: l => p = some a ∧ LinkedTo next q (next a) l

theorem LinkedTo.congr (h : LinkedTo next q p l) (hsame : ∀ a ∈ l, next' a = next a) :
    LinkedTo next' q p l := by
  induction l generalizing p with
  | nil => exact h
  | cons a l ih =>
    refine ⟨h.1, ?_⟩
    rw [hsame a List.mem_cons_self]
    exact ih h.2 fun b hb => hsame b (List.mem_cons_of_mem a hb)

theorem linkedTo_append :
    LinkedTo next q p (l ++ r) ↔ ∃ m, LinkedTo next m p l ∧ LinkedTo next q m r := by
  induction l generalizing p with
  | nil =>
    constructor
    · exact fun h => ⟨p, rfl, h⟩
    · rintro ⟨m, rfl, h⟩
      exact h
  | cons a l ih =>
    constructor
    · rintro ⟨hp, h⟩
      obtain ⟨m, hl, hr⟩ := ih.mp h
      exact ⟨m, ⟨hp, hl⟩, hr⟩
    · rintro ⟨m, ⟨hp, hl⟩, hr⟩
      exact ⟨hp, ih.mpr ⟨m, hl, hr⟩⟩

theorem LinkedTo.turn (h : LinkedTo next q p (l ++ [a])) (hsame : ∀ b ∈ l, next' b = next b) :
    LinkedTo next' (next' a) p (l ++ [a]) := by
  obtain ⟨m, hl, hm, -⟩ := linkedTo_append.mp h
  exact linkedTo_append.mpr ⟨m, hl.congr hsame, hm, rfl⟩

theorem LinkedTo.eq_head?_of_ne_nil (h : LinkedTo next q p l) (hne : l ≠ []) : p = l.head? := by
  cases l with
  | nil => exact absurd rfl hne
  | cons a l => exact h.1

theorem LinkedTo.ne_some (h : LinkedTo next q p l) (hne : l ≠ []) (ha : a ∉ l) : p ≠ some a := by
  rw [h.eq_head?_of_ne_nil hne]
  exact fun heq => ha (List.mem_of_mem_head? heq)

theorem LinkedTo.eq_head? (h : LinkedTo next none p l) : p = l.head? := by
  cases l with
  | nil => exact h
  | cons a l => exact h.1

theorem LinkedTo.unique (hl : LinkedTo next none p l) (hr : LinkedTo next none p r) : l = r := by
  induction l generalizing p r with
  | nil =>
    cases r with
    | nil => rfl
    | cons b r =>
      have hp : p = none := hl
      rw [hp] at hr
      cases hr.1
  | cons a l ih =>
    cases r with
    | nil =>
      have hp : p = none := hr
      rw [hp] at hl
      cases hl.1
    | cons b r =>
      obtain ⟨hpa, hla⟩ := hl
      obtain ⟨hpb, hrb⟩ := hr
      rw [hpa] at hpb
      cases hpb
      rw [ih hla hrb]

end LinuxKernel.Lib
