/-!
# Checks that fail with an error code

Code that validates its input is a sequence of tests, each of which either
returns an error number at once or goes on.  `rejectIf` is one such test and
the lemmas below take an accepted sequence apart, one test at a time.
-/

namespace LinuxKernel.Lib

universe u v w

variable {ε : Type u} {α β : Type v}

/-- Fail with `e` when `c` holds. -/
def rejectIf (c : Prop) [Decidable c] (e : ε) : Except ε PUnit.{v + 1} :=
  if c then .error e else .ok ⟨⟩

@[simp] theorem bind_eq_ok (x : Except ε α) (f : α → Except ε β) (r : β) :
    (x >>= f) = .ok r ↔ ∃ a, x = .ok a ∧ f a = .ok r := by
  cases x with
  | error e =>
    simp [bind, Except.bind]
  | ok a =>
    simp [bind, Except.bind]

@[simp] theorem pure_eq_ok (a r : α) : (pure a : Except ε α) = .ok r ↔ a = r := by
  simp [pure, Except.pure]

@[simp] theorem rejectIf_eq_ok (c : Prop) [Decidable c] (e : ε) (u : PUnit) :
    rejectIf c e = .ok u ↔ ¬ c := by
  unfold rejectIf
  split <;> simp_all

/-- The rules for an accepted sequence in one. -/
theorem ok_iff {ε : Type u} :
    (∀ {α β : Type v} (x : Except ε α) (f : α → Except ε β) (r : β),
      (x >>= f) = .ok r ↔ ∃ a, x = .ok a ∧ f a = .ok r) ∧
    (∀ {α : Type v} (a r : α), (pure a : Except ε α) = .ok r ↔ a = r) ∧
    ∀ (c : Prop) [Decidable c] (e : ε) (u : PUnit.{v + 1}), rejectIf c e = .ok u ↔ ¬ c :=
  ⟨bind_eq_ok, pure_eq_ok, rejectIf_eq_ok⟩

theorem ok_of_toOption_map {e : Except ε α} {γ : Type w} {f : α → γ} {c : γ}
    (h : e.toOption.map f = some c) : ∃ a, e = .ok a ∧ f a = c := by
  cases e with
  | error e => cases h
  | ok a =>
    cases h
    exact ⟨a, rfl, rfl⟩

theorem ok_of_toOption_map_fst {e : Except ε (α × β)} {a : α}
    (h : e.toOption.map Prod.fst = some a) : ∃ b, e = .ok (a, b) := by
  obtain ⟨⟨a', b⟩, he, rfl⟩ := ok_of_toOption_map h
  exact ⟨b, he⟩

variable {E : ε → Prop} {P Q : α → Prop} {R : β → Prop}

/-- A check that ends well has a result with `P`, else an error in `E`. -/
structure Ensures (E : ε → Prop) (x : Except ε α) (P : α → Prop) : Prop where
  of_ok : ∀ {a}, x = .ok a → P a
  of_error : ∀ {e}, x = .error e → E e

variable {a : α} {e : ε} {x : Except ε α} {c : Prop} {f : PUnit → Except ε β}

theorem Ensures.ok (h : P a) : Ensures E (.ok a) P :=
  ⟨fun heq => Except.ok.inj heq ▸ h, nofun⟩

theorem Ensures.error (h : E e) : Ensures E (.error e) P :=
  ⟨nofun, fun heq => Except.error.inj heq ▸ h⟩

theorem Ensures.pure (h : P a) : Ensures E (pure a) P :=
  .ok h

theorem Ensures.throw (h : E e) : Ensures E (throw e) P :=
  .error h

theorem Ensures.bind {f : α → Except ε β} (hx : Ensures E x Q)
    (hf : ∀ a, x = .ok a → Q a → Ensures E (f a) R) : Ensures E (x >>= f) R := by
  cases x with
  | error e => exact .error (hx.of_error rfl)
  | ok a => exact hf a rfl (hx.of_ok rfl)

theorem Ensures.checkIf [Decidable c] (h : c → E e) (hf : ¬ c → Ensures E (f ⟨⟩) R) :
    Ensures E (rejectIf c e >>= f) R := by
  unfold rejectIf
  by_cases hc : c
  · rw [if_pos hc]
    exact .error (h hc)
  · rw [if_neg hc]
    exact hf hc

theorem Ensures.check [Decidable c] (h : E e) (hf : ¬ c → Ensures E (f ⟨⟩) R) :
    Ensures E (rejectIf c e >>= f) R :=
  .checkIf (fun _ => h) hf

theorem Ensures.mono (h : Ensures E x P) (hPQ : ∀ a, x = .ok a → P a → Q a) : Ensures E x Q :=
  ⟨fun heq => hPQ _ heq (h.of_ok heq), h.of_error⟩

end LinuxKernel.Lib
