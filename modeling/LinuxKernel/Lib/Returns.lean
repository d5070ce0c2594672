/-!
# Calls with a bound on their loops

A function whose loops have a bound on the number of passes returns a value when every
large enough bound gives it.
-/

namespace LinuxKernel.Lib

/-- The call returns `b` once the bound on its loops is large enough. -/
def Returns {β : Type} (call : Nat → Option β) (b : β) : Prop :=
  ∃ n, ∀ fuel, n ≤ fuel → call fuel = some b

variable {α β : Type} {call call' : Nat → Option β} {a b : β}

theorem Returns.unique (ha : Returns call a) (hb : Returns call b) : a = b := by
  obtain ⟨n, hn⟩ := ha
  obtain ⟨m, hm⟩ := hb
  have heq := (hn (n + m) (Nat.le_add_right n m)).symm.trans (hm (n + m) (Nat.le_add_left m n))
  exact Option.some.inj heq

theorem Returns.of_succ (h : Returns (fun fuel => call (fuel + 1)) b) : Returns call b := by
  obtain ⟨n, hn⟩ := h
  refine ⟨n + 1, fun fuel hfuel => ?_⟩
  obtain ⟨fuel, rfl⟩ := Nat.exists_eq_add_of_le' hfuel
  exact hn (fuel + n) (Nat.le_add_left n fuel)

theorem Returns.succ (h : Returns call b) : Returns (fun fuel => call (fuel + 1)) b := by
  obtain ⟨n, hn⟩ := h
  exact ⟨n, fun fuel hfuel => hn (fuel + 1) (Nat.le_succ_of_le hfuel)⟩

theorem Returns.of_end (h : ∀ fuel, call (fuel + 1) = some b) : Returns call b :=
  .of_succ ⟨0, fun fuel _ => h fuel⟩

theorem Returns.of_pass (h : Returns call' b) (hpass : ∀ fuel, call (fuel + 1) = call' fuel) :
    Returns call b :=
  .of_succ (funext hpass ▸ h)

theorem Returns.bind {first : Nat → Option α} {rest : α → Nat → Option β} {a : α} {b : β}
    (hfirst : Returns first a) (hrest : Returns (rest a) b) :
    Returns (fun fuel => (first fuel).bind fun x => rest x fuel) b := by
  obtain ⟨n, hn⟩ := hfirst
  obtain ⟨m, hm⟩ := hrest
  refine ⟨n + m, fun fuel hfuel => ?_⟩
  simp only
  rw [hn fuel (Nat.le_trans (Nat.le_add_right n m) hfuel), Option.bind_some]
  exact hm fuel (Nat.le_trans (Nat.le_add_left m n) hfuel)

theorem Returns.map (h : Returns call b) (f : β → α) :
    Returns (fun fuel => (call fuel).map f) (f b) := by
  obtain ⟨n, hn⟩ := h
  exact ⟨n, fun fuel hfuel => congrArg (Option.map f) (hn fuel hfuel)⟩

theorem Returns.of_some (b : β) : Returns (fun _ => some b) b :=
  ⟨0, fun _ _ => rfl⟩

end LinuxKernel.Lib
