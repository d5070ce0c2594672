import LinuxKernel.Bpf.Interp

/-!
# What a verifier state says about a machine

A register state describes the 64-bit word in the register: a pointer type says which object the
word is the address of, `CONST_IMM` says which number it is.  A verifier state describes a machine
when its register states describe the registers, every register and stack byte it takes for
initialised has been written, and every intact spill slot holds the spilled pointer.

`Tracks` says this of two runs in two layouts: numbers are the same in both, and pointers point to
the same place.  A state describes a machine when it tracks it together with itself.
-/

namespace LinuxKernel.Bpf

open Lib Machine

variable {W : World} {ctxSize i k n : Nat} (L : Layout W ctxSize)

/-- The words that a register state describes. -/
def RegOk (r : RegState) (x : BitVec 64) : Prop :=
  match r.type with
  | .notInit => True
  | .unknownValue => True
  | .ptrToCtx => x = L.ctx
  | .constPtrToMap => x = r.mapPtr ∧ ∃ k, x = L.map k
  | .ptrToMapValue => ∃ v, x = L.val v ∧ r.mapPtr = L.map (W.valMap v)
  | .ptrToMapValueOrNull =>
    x = 0 ∨ ∃ v, x = L.val v ∧ r.mapPtr = L.map (W.valMap v)
  | .framePtr => x = L.fp
  | .ptrToStack => x = L.fp + r.imm.signExtend 64
  | .constImm => x = r.imm.signExtend 64

/-- The words that a register state lets two runs have: equal numbers, and pointers to the same
place. -/
def RegRel (L₁ L₂ : Layout W ctxSize) (r : RegState) (x y : BitVec 64) : Prop :=
  match r.type with
  | .notInit => True
  | .unknownValue => x = y
  | .ptrToCtx => x = L₁.ctx ∧ y = L₂.ctx
  | .constPtrToMap => x = r.mapPtr ∧ ∃ k, x = L₁.map k ∧ y = L₂.map k
  | .ptrToMapValue =>
    ∃ v, x = L₁.val v ∧ y = L₂.val v ∧ r.mapPtr = L₁.map (W.valMap v)
  | .ptrToMapValueOrNull =>
    (x = 0 ∧ y = 0) ∨ ∃ v, x = L₁.val v ∧ y = L₂.val v ∧ r.mapPtr = L₁.map (W.valMap v)
  | .framePtr => x = L₁.fp ∧ y = L₂.fp
  | .ptrToStack =>
    x = L₁.fp + r.imm.signExtend 64 ∧ y = L₂.fp + r.imm.signExtend 64
  | .constImm => x = r.imm.signExtend 64 ∧ y = r.imm.signExtend 64

/-- All bytes of stack slot `k` hold a spilled register. -/
def VState.Spilled (s : VState) (k : Nat) : Prop :=
  ∀ j < 8, s.slot (8 * k + j) = .spill

/-- The machines that a verifier state describes. -/
structure Describes (s : VState) (m : Machine W) : Prop where
  fp : m.regs regFP = L.fp ∧ m.regW regFP = true
  reg : ∀ i < maxBpfReg, RegOk L (s.regs i) (m.regs i)
  regW : ∀ i < maxBpfReg, (s.regs i).type ≠ .notInit → m.regW i = true
  stackW : ∀ i < maxBpfStack, s.slot i ≠ .invalid → m.stackW i = true
  spill : ∀ k < maxBpfStack / 8, s.Spilled k → RegOk L (s.spilled k) (loadLE m.stack (8 * k) 8)

/-- The machines of two runs that a verifier state describes; what it takes for initialised is
written in the first. -/
structure Tracks (L₁ L₂ : Layout W ctxSize) (s : VState) (m₁ m₂ : Machine W) : Prop where
  fp : m₁.regs regFP = L₁.fp ∧ m₂.regs regFP = L₂.fp
  reg : ∀ i < maxBpfReg, RegRel L₁ L₂ (s.regs i) (m₁.regs i) (m₂.regs i)
  misc : ∀ i < maxBpfStack, s.slot i = .misc → m₁.stack i = m₂.stack i
  spill : ∀ k < maxBpfStack / 8, s.Spilled k →
      RegRel L₁ L₂ (s.spilled k) (loadLE m₁.stack (8 * k) 8) (loadLE m₂.stack (8 * k) 8)
  fpW : m₁.regW regFP = true
  regW : ∀ i < maxBpfReg, (s.regs i).type ≠ .notInit → m₁.regW i = true
  stackW : ∀ i < maxBpfStack, s.slot i ≠ .invalid → m₁.stackW i = true

/-- What two runs share whatever the verifier knows. -/
structure Aligned (m₁ m₂ : Machine W) : Prop where
  pc : m₁.pc = m₂.pc
  tailCallCnt : m₁.tailCallCnt = m₂.tailCallCnt
  heap : m₁.heap = m₂.heap

variable {L}

variable {r : RegState} {x y : BitVec 64} {cur old s : VState} {m m₁ m₂ m₁' m₂' : Machine W}
  {v : RegState} {L₁ L₂ : Layout W ctxSize}

theorem RegOk.rel (h : RegOk L r x) : RegRel L L r x x := by
  cases ht : r.type <;> simp only [RegOk, RegRel, ht, and_self] at h ⊢
  case ptrToMapValue =>
    obtain ⟨v, rfl, hptr⟩ := h
    exact ⟨v, rfl, rfl, hptr⟩
  case ptrToMapValueOrNull =>
    rcases h with rfl | ⟨v, rfl, hptr⟩
    · exact .inl rfl
    · exact .inr ⟨v, rfl, rfl, hptr⟩
  all_goals exact h

theorem RegRel.left (h : RegRel L L₂ r x y) : RegOk L r x := by
  cases ht : r.type <;> simp only [RegOk, RegRel, ht] at h ⊢
  case constPtrToMap =>
    obtain ⟨hptr, k, hk, -⟩ := h
    exact ⟨hptr, k, hk⟩
  case ptrToMapValue =>
    obtain ⟨v, hx, -, hptr⟩ := h
    exact ⟨v, hx, hptr⟩
  case ptrToMapValueOrNull =>
    rcases h with ⟨hx, -⟩ | ⟨v, hx, -, hptr⟩
    · exact .inl hx
    · exact .inr ⟨v, hx, hptr⟩
  all_goals exact h.1

theorem describes_iff : Describes L s m ↔ Tracks L L s m m := by
  constructor
  · intro h
    exact ⟨⟨h.fp.1, h.fp.1⟩, fun i hi => (h.reg i hi).rel, fun _ _ _ => rfl,
      fun k hk hsp => (h.spill k hk hsp).rel, h.fp.2, h.regW, h.stackW⟩
  · intro h
    exact ⟨⟨h.fp.1, h.fpW⟩, fun i hi => (h.reg i hi).left, h.regW, h.stackW,
      fun k hk hsp => (h.spill k hk hsp).left⟩

theorem RegOk.of_regSafe {old cur : RegState} (h : regSafe old cur = true) (hx : RegOk L cur x) :
    RegOk L old x ∧ (old.type ≠ .notInit → cur.type ≠ .notInit) := by
  simp only [regSafe, Bool.or_eq_true, decide_eq_true_eq, Bool.and_eq_true,
    Bool.not_eq_true', decide_eq_false_iff_not] at h
  rcases h with (heq | hnot) | ⟨hunk, hcur⟩
  · subst heq
    exact ⟨hx, fun hne => hne⟩
  · refine ⟨?_, fun hne => absurd hnot hne⟩
    simp [RegOk, hnot]
  · refine ⟨?_, fun _ => hcur⟩
    simp [RegOk, hunk]

theorem slotSafe_iff :
    slotSafe old cur i = true ↔
      (old.slot i ≠ .invalid →
        old.slot i = cur.slot i ∧ (i % 8 = 0 → old.spilled (i / 8) = cur.spilled (i / 8))) := by
  simp only [slotSafe, Bool.or_eq_true, decide_eq_true_eq, Bool.and_eq_true,
    Bool.not_eq_true', decide_eq_false_iff_not]
  by_cases hinv : old.slot i = .invalid
  · simp [hinv]
  · by_cases hmod : i % 8 = 0 <;> simp [hinv, hmod]

theorem spilled_of_slotSafe (hslots : ∀ i < maxBpfStack, slotSafe old cur i = true)
    (hk : k < maxBpfStack / 8) (hsp : old.Spilled k) :
    cur.Spilled k ∧ old.spilled k = cur.spilled k := by
  have hlt : ∀ j < 8, 8 * k + j < maxBpfStack := by
    intro j hj
    unfold maxBpfStack at hk ⊢
    omega
  have hslot : ∀ j < 8, old.slot (8 * k + j) = cur.slot (8 * k + j) ∧
        ((8 * k + j) % 8 = 0 → old.spilled ((8 * k + j) / 8) = cur.spilled ((8 * k + j) / 8)) := by
    intro j hj
    exact slotSafe_iff.mp (hslots _ (hlt j hj)) (by rw [hsp j hj]; decide)
  refine ⟨?_, ?_⟩
  · intro j hj
    rw [← (hslot j hj).1]
    exact hsp j hj
  · have := (hslot 0 (by decide)).2 (by omega)
    rwa [Nat.add_zero, Nat.mul_div_cancel_left k (by decide)] at this

/-- `states_equal()`: the old state describes what the current one does. -/
theorem Describes.of_statesEqual (heq : statesEqual old cur = true) (h : Describes L cur m) :
    Describes L old m := by
  simp only [statesEqual, Bool.and_eq_true, List.all_eq_true, List.mem_range] at heq
  obtain ⟨hregs, hslots⟩ := heq
  refine ⟨h.fp, ?_, ?_, ?_, ?_⟩
  · intro i hi
    exact (RegOk.of_regSafe (hregs i hi) (h.reg i hi)).1
  · intro i hi hne
    exact h.regW i hi ((RegOk.of_regSafe (hregs i hi) (h.reg i hi)).2 hne)
  · intro i hi hne
    refine h.stackW i hi ?_
    rw [← (slotSafe_iff.mp (hslots i hi) hne).1]
    exact hne
  · intro k hk hsp
    obtain ⟨hcur, hreg⟩ := spilled_of_slotSafe hslots hk hsp
    rw [hreg]
    exact h.spill k hk hcur

theorem Aligned.advance (h : Aligned m₁ m₂) (d : Int) : Aligned (m₁.advance d) (m₂.advance d) :=
  ⟨by simp [Machine.advance, h.pc], h.tailCallCnt, h.heap⟩

theorem Aligned.setReg (h : Aligned m₁ m₂) (r : Nat) (x y : BitVec 64) :
    Aligned (m₁.setReg r x) (m₂.setReg r y) :=
  { h with }

theorem tracks_initRegState (hfp : m₁.regs regFP = L₁.fp ∧ m₂.regs regFP = L₂.fp)
    (hctx : m₁.regs 1 = L₁.ctx ∧ m₂.regs 1 = L₂.ctx) (hfpW : m₁.regW regFP = true)
    (hctxW : m₁.regW 1 = true) : Tracks L₁ L₂ initRegState m₁ m₂ := by
  refine ⟨hfp, fun i hi => ?_, fun i hi hmisc => ?_, fun k hk hsp => ?_, hfpW, fun i hi hne => ?_,
    fun i hi hne => ?_⟩
  · by_cases h10 : i = regFP
    · subst h10
      simpa [initRegState, RegRel] using hfp
    · by_cases h1 : i = 1
      · subst h1
        simpa [initRegState, RegRel, regFP] using hctx
      · simp [initRegState, RegRel, h10, h1]
  · simp [initRegState] at hmisc
  · have := hsp 0 (by decide)
    simp [initRegState] at this
  · by_cases h10 : i = regFP
    · exact h10 ▸ hfpW
    · by_cases h1 : i = 1
      · exact h1 ▸ hctxW
      · simp [initRegState, h10, h1] at hne
  · simp [initRegState] at hne

variable (h : Tracks L₁ L₂ s m₁ m₂)

include h

theorem Tracks.congr (hregs1 : m₁'.regs = m₁.regs) (hstack1 : m₁'.stack = m₁.stack)
    (hregs2 : m₂'.regs = m₂.regs) (hstack2 : m₂'.stack = m₂.stack) (hregW : m₁'.regW = m₁.regW)
    (hstackW : m₁'.stackW = m₁.stackW) : Tracks L₁ L₂ s m₁' m₂' := by
  constructor
  all_goals simp only [hregs1, hregs2, hstack1, hstack2, hregW, hstackW]
  exacts [h.fp, h.reg, h.misc, h.spill, h.fpW, h.regW, h.stackW]

theorem Tracks.advance (d : Int) : Tracks L₁ L₂ s (m₁.advance d) (m₂.advance d) :=
  h.congr rfl rfl rfl rfl rfl rfl

theorem Tracks.setReg {r : Nat} (hr : r ≠ regFP) (hxy : RegRel L₁ L₂ v x y) :
    Tracks L₁ L₂ (s.setReg r v) (m₁.setReg r x) (m₂.setReg r y) := by
  refine ⟨?_, fun i hi => ?_, h.misc, h.spill, ?_, fun i hi => ?_, h.stackW⟩
  · simp only [Machine.setReg, if_neg hr.symm]
    exact h.fp
  · by_cases hir : i = r
    · simp [VState.setReg, Machine.setReg, hir, hxy]
    · simp [VState.setReg, Machine.setReg, hir, h.reg i hi]
  · simp only [Machine.setReg, if_neg hr.symm]
    exact h.fpW
  · by_cases hir : i = r
    · simp [Machine.setReg, hir]
    · simp only [VState.setReg, Machine.setReg, if_neg hir]
      exact h.regW i hi

theorem Tracks.refineReg {r : Nat} (hxy : RegRel L₁ L₂ v (m₁.regs r) (m₂.regs r))
    (hw : v.type ≠ .notInit → m₁.regW r = true) : Tracks L₁ L₂ (s.setReg r v) m₁ m₂ := by
  refine ⟨h.fp, fun i hi => ?_, h.misc, h.spill, h.fpW, fun i hi => ?_, h.stackW⟩
  · by_cases hir : i = r
    · simp [VState.setReg, hir, hxy]
    · simp [VState.setReg, hir, h.reg i hi]
  · by_cases hir : i = r
    · simpa [VState.setReg, hir] using hw
    · simp only [VState.setReg, if_neg hir]
      exact h.regW i hi

theorem Tracks.resetCallerSaved : Tracks L₁ L₂ (Bpf.resetCallerSaved s) m₁.scratch m₂.scratch := by
  refine ⟨h.fp, fun i hi => ?_, h.misc, h.spill, h.fpW, fun i hi => ?_, h.stackW⟩
  · by_cases h5 : i ≤ 5
    · simp [Bpf.resetCallerSaved, h5, RegRel]
    · simp only [Bpf.resetCallerSaved, if_neg h5]
      exact h.reg i hi
  · by_cases h5 : i ≤ 5
    · simp [Bpf.resetCallerSaved, h5]
    · have h15 : ¬ (1 ≤ i ∧ i ≤ 5) := by omega
      simp only [Bpf.resetCallerSaved, scratch, if_neg h5, if_neg h15]
      exact h.regW i hi

theorem Tracks.call (hxy : RegRel L₁ L₂ v x y) : Tracks L₁ L₂ ((Bpf.resetCallerSaved s).setReg 0 v)
      (m₁.scratch.setReg 0 x) (m₂.scratch.setReg 0 y) :=
  h.resetCallerSaved.setReg (by decide) hxy

/-- A write of a spilled pointer, or of the same bytes, keeps the other slots. -/
theorem Tracks.writeStack (hslot : i + n ≤ 8 * (i / 8) + 8) (hn : 0 < n) {t : SlotType}
    (hsp : t = .spill → n = 8 ∧ RegRel L₁ L₂ r x y) (hmisc : t = .misc → x = y) :
    Tracks L₁ L₂
      { s with
        spilled := fun k => if k = i / 8 then r else s.spilled k
        slot := setSlots s.slot i n t }
      (m₁.writeStack i n x) (m₂.writeStack i n y) := by
  refine ⟨h.fp, h.reg, fun j hj hsj => ?_, fun k hk hspk => ?_, h.fpW, h.regW, fun j hj hne => ?_⟩
  · simp only [Machine.writeStack]
    by_cases hin : i ≤ j ∧ j < i + n
    · simp only [setSlots, if_pos hin] at hsj
      rw [storeLE_inside hin, storeLE_inside hin, hmisc hsj]
    · simp only [setSlots, if_neg hin] at hsj
      rw [storeLE_outside hin, storeLE_outside hin]
      exact h.misc j hj hsj
  · by_cases hki : k = i / 8
    · -- the slot that was written is intact only after a spill
      have hi : setSlots s.slot i n t i = .spill := by
        have := hspk (i % 8) (by omega)
        have hidx : 8 * k + i % 8 = i := by omega
        rwa [hidx] at this
      have ht : t = .spill := by
        simpa [setSlots, hn] using hi
      obtain ⟨rfl, hr⟩ := hsp ht
      have hstart : 8 * k = i := by omega
      simp [writeStack, if_pos hki, hstart, loadLE_storeLE]
      exact hr
    have hold : s.Spilled k := by
      intro j hj
      have := hspk j hj
      simpa [setSlots, show ¬ (i ≤ 8 * k + j ∧ 8 * k + j < i + n) by omega] using this
    simp only [Machine.writeStack, if_neg hki]
    rw [loadLE_storeLE_disjoint (by omega), loadLE_storeLE_disjoint (by omega)]
    exact h.spill k hk hold
  · by_cases hin : i ≤ j ∧ j < i + n
    · simp [Machine.writeStack, hin]
    · simp only [Machine.writeStack, setSlots, if_neg hin] at hne ⊢
      exact h.stackW j hj hne

end LinuxKernel.Bpf
