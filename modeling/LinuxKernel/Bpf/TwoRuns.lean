import LinuxKernel.Bpf.Safety

/-!
# Programs in two layouts

The same program is loaded in two systems that differ in where the context, the stack, the maps
and the map values are.  `ProgRel` relates the two programs with map pointers in them.  A state
tracks the machines of two runs that a state it stands for does, if an unknown value does not
cover a pointer.
-/

namespace LinuxKernel.Bpf

open Lib

variable {W : World} {ctxSize : Nat}

section Programs

variable (L₁ L₂ : Layout W ctxSize)

/-- The two halves of a 64-bit immediate load, in the two programs. -/
structure LdImmRel (a a' b b' : Insn) : Prop where
  code : b.code = a.code
  dstReg : b.dstReg = a.dstReg
  srcReg : b.srcReg = a.srcReg
  number : a.srcReg = 0 → ldImm64 b b' = ldImm64 a a'
  map : a.srcReg ≠ 0 → ∃ k, ldImm64 a a' = L₁.map k ∧ ldImm64 b b' = L₂.map k

/-- The same program with the map pointers of two systems. -/
structure ProgRel (p₁ p₂ : List Insn) : Prop where
  length : p₂.length = p₁.length
  insn :
    ∀ i, (∀ size, (p₁.getD i default).code ≠ .ld .imm size) → p₂.getD i default = p₁.getD i default
  ldImm : ∀ i, (p₁.getD i default).code = .ld .imm .dw →
      LdImmRel L₁ L₂ (p₁.getD i default) (p₁.getD (i + 1) default)
        (p₂.getD i default) (p₂.getD (i + 1) default)

variable {L₁ L₂} {prog p₁ p₂ : List Insn}

theorem ProgRel.nil : ProgRel L₁ L₂ [] [] := by
  refine ⟨rfl, fun _ _ => rfl, ?_⟩
  intro i h
  simp [default] at h

theorem ProgRel.cons {a b : Insn} {p₁ p₂ : List Insn} (h : ProgRel L₁ L₂ p₁ p₂)
    (hinsn : (∀ size, a.code ≠ .ld .imm size) → b = a)
    (hld : a.code = .ld .imm .dw → LdImmRel L₁ L₂ a (p₁.getD 0 default) b (p₂.getD 0 default)) :
    ProgRel L₁ L₂ (a :: p₁) (b :: p₂) := by
  refine ⟨by simp [h.length], ?_, ?_⟩
  · intro i hi
    cases i with
    | zero => exact hinsn hi
    | succ i => exact h.insn i hi
  · intro i hi
    cases i with
    | zero => exact hld hi
    | succ i => exact h.ldImm i hi

theorem Replaced.progRel {fds : BitVec 32 → Except Errno W.MapId}
    (h1 : Replaced (L₁.mapGet fds) prog p₁) (h2 : Replaced (L₂.mapGet fds) prog p₂) :
    ProgRel L₁ L₂ p₁ p₂ := by
  induction h1 generalizing p₂ with
  | nil =>
    cases h2
    exact .nil
  | keep h1 hldx hstx hld ih =>
    cases h2 with
    | keep h2 => exact (ih h2).cons (fun _ => rfl) fun hc => absurd hc hld
    | number h2 hcode | map h2 hcode => exact absurd hcode hld
  | number h1 hcode hcode1 hsrc ih =>
    cases h2 with
    | keep h2 _ _ hld => exact absurd hcode hld
    | number h2 =>
      refine ((ih h2).cons ?_ ?_).cons ?_ fun _ => ?_
      any_goals simp [hcode, hcode1]
      exact ⟨rfl, rfl, rfl, fun _ => rfl, fun hne => absurd hsrc hne⟩
    | map h2 _ _ hne => exact absurd hsrc hne
  | map h1 hcode hcode1 hsrc hmap1 ih =>
    cases h2 with
    | keep h2 _ _ hld => exact absurd hcode hld
    | number h2 _ _ h0 => exact absurd h0 hsrc
    | map h2 _ _ _ hmap2 =>
      simp only [Layout.mapGet, ok_iff] at hmap1 hmap2
      obtain ⟨k, hk, rfl⟩ := hmap1
      obtain ⟨k', hk', rfl⟩ := hmap2
      obtain rfl : k = k' := Except.ok.inj (hk.symm.trans hk')
      refine ((ih h2).cons ?_ ?_).cons ?_ fun _ => ?_
      any_goals simp [hcode, hcode1]
      refine ⟨rfl, rfl, rfl, fun h0 => absurd h0 hsrc, fun _ => ?_⟩
      exact ⟨k, ldImm64_split _, ldImm64_split _⟩

theorem ProgOk.progRel (h : ProgOk (fun a => ∃ k, a = L₁.map k) prog) :
    ProgRel L₁ L₁ prog prog := by
  refine ⟨rfl, fun _ _ => rfl, fun i hi => ⟨rfl, rfl, rfl, fun _ => rfl, fun hsrc => ?_⟩⟩
  obtain ⟨k, hk⟩ := (h.ldImm i hi).2.resolve_left hsrc
  exact ⟨k, hk, hk⟩

end Programs

/-- `states_equal()` without the rule that an unknown value covers a pointer. -/
def regSafeNoPtr (old cur : RegState) : Bool :=
  old = cur || old.type = .notInit ||
    (old.type = .unknownValue && (cur.type = .unknownValue || cur.type = .constImm))

/-- `states_equal()` with that rule for registers. -/
def statesEqualNoPtr (old cur : VState) : Bool :=
  (List.range maxBpfReg).all (fun i => regSafeNoPtr (old.regs i) (cur.regs i)) &&
    (List.range maxBpfStack).all (slotSafe old cur)

variable {L₁ L₂ : Layout W ctxSize}

theorem RegRel.of_regSafeNoPtr {old cur : RegState} {x y : BitVec 64}
    (h : regSafeNoPtr old cur = true) (hxy : RegRel L₁ L₂ cur x y) :
    RegRel L₁ L₂ old x y ∧ (old.type ≠ .notInit → cur.type ≠ .notInit) := by
  simp only [regSafeNoPtr, Bool.or_eq_true, decide_eq_true_eq, Bool.and_eq_true] at h
  rcases h with (rfl | hnot) | ⟨hunk, hcur | hcur⟩
  · exact ⟨hxy, id⟩
  · exact ⟨by simp [RegRel, hnot], fun hne => absurd hnot hne⟩
  · simp only [RegRel, hcur] at hxy
    exact ⟨by simpa [RegRel, hunk] using hxy, by simp [hcur]⟩
  · simp only [RegRel, hcur] at hxy
    exact ⟨by simp [RegRel, hunk, hxy.1, hxy.2], by simp [hcur]⟩

theorem Tracks.of_statesEqualNoPtr {old cur : VState} {m₁ m₂ : Machine W}
    (heq : statesEqualNoPtr old cur = true) (h : Tracks L₁ L₂ cur m₁ m₂) :
    Tracks L₁ L₂ old m₁ m₂ := by
  simp only [statesEqualNoPtr, Bool.and_eq_true, List.all_eq_true, List.mem_range] at heq
  obtain ⟨hregs, hslots⟩ := heq
  have hslot : ∀ i < maxBpfStack, old.slot i ≠ .invalid → cur.slot i = old.slot i :=
    fun i hi hne => (slotSafe_iff.mp (hslots i hi) hne).1.symm
  refine ⟨h.fp, ?_, ?_, ?_, h.fpW, ?_, ?_⟩
  · intro i hi
    exact ((h.reg i hi).of_regSafeNoPtr (hregs i hi)).1
  · intro i hi hmisc
    exact h.misc i hi ((hslot i hi (by rw [hmisc]; decide)).trans hmisc)
  · intro k hk hsp
    obtain ⟨hcur, hreg⟩ := spilled_of_slotSafe hslots hk hsp
    rw [hreg]
    exact h.spill k hk hcur
  · intro i hi hne
    exact h.regW i hi (((h.reg i hi).of_regSafeNoPtr (hregs i hi)).2 hne)
  · intro i hi hne
    exact h.stackW i hi (by rwa [hslot i hi hne])

end LinuxKernel.Bpf
