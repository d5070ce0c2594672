import LinuxKernel.Bpf.Soundness

/-!
# Opcodes and divisions of accepted programs

For an instruction that passed its check, the verifier and the jump table of the interpreter
disagree in three places: the 32-bit `BPF_ARSH`, the 64-bit `BPF_END`, and loads of eight bytes
from the packet have no label.  The interpreter tests a divisor that comes from a register, but
the test is on the whole register, and a 32-bit division uses the lower half.
-/

namespace LinuxKernel.Bpf

open Lib Machine Insn

/-- An outcome other than an unknown opcode or a division by zero. -/
def Outcome.Defined {W : World} : Outcome W → Prop
  | .defaultLabel => False
  | .divByZero => False
  | _ => True

/-- The opcode is not one that the verifier accepts and the jump table lacks. -/
def Insn.hasLabel (insn : Insn) : Bool :=
  match insn.code with
  | .alu .arsh _ => false
  | .alu64 .end_ _ => false
  | .ld .abs .dw => false
  | .ld .ind .dw => false
  | _ => true

/-- In a 32-bit division by a register it is zero, or its lower half is not. -/
def Machine.DivisorOk {W : World} (m : Machine W) : Prop :=
  ∀ op, m.insn.code = .alu op .x → op = .div ∨ op = .mod →
    m.regs m.insn.srcReg = 0 ∨ (m.regs m.insn.srcReg).setWidth 32 ≠ (0 : BitVec 32)

variable {W : World} {cfg : Cfg} {L : Layout W cfg.ops.ctxSize} {s : VState} {m : Machine W}

section Defined

variable {s' : VState} {insn : Insn} {size : Size}

theorem doStore_defined (v : BitVec 64) : (m.doStore L insn size v).Defined := by
  unfold doStore
  split <;> trivial

theorem doXadd_defined : (m.doXadd L insn size).Defined := by
  unfold doXadd
  split
  · exact doStore_defined _
  · trivial

theorem finishAlu_defined (r : AluRes) :
    (m.finishAlu insn r).Defined ↔ r ≠ .defaultLabel ∧ r ≠ .divByZero := by
  cases r <;> simp [finishAlu, Outcome.Defined]

variable {op : AluOp} {is64 : Bool} {src : Src}

theorem checkAluOp_divisor (hop : op = .div ∨ op = .mod)
    (hc : checkAluOp cfg s insn is64 op .k = .ok s') : insn.imm ≠ 0 := by
  intro hzero
  have hbinary : checkAluOp cfg s insn is64 op .k = checkAluBinary cfg s insn is64 op .k := by
    rcases hop with rfl | rfl <;> rfl
  rw [hbinary] at hc
  simp only [checkAluBinary, ok_iff] at hc
  obtain ⟨s₁, -, s₂, -, -, himm, -⟩ := hc
  exact himm ⟨hop.symm, trivial, hzero⟩

theorem checkAluOp_neg (hc : checkAluOp cfg s insn is64 .neg src = .ok s') : src = .k := by
  simp only [checkAluOp, ok_iff, not_or, not_not] at hc
  obtain ⟨-, hsrc, -⟩ := hc
  exact hsrc.1

theorem imm64_ne_zero (h : insn.imm ≠ 0) : insn.imm64 ≠ 0 := by
  intro hz
  apply h
  rw [← setWidth_imm64, hz]
  rfl

/-- A division: `c` is the run-time test, `d` says that the divisor is zero. -/
theorem divRes_defined {c d : Prop} [Decidable c] [Decidable d] {v : BitVec 64} :
    ((if c then AluRes.ret0 else if d then .divByZero else .val v) ≠ .defaultLabel ∧
        (if c then AluRes.ret0 else if d then .divByZero else .val v) ≠ .divByZero) ↔
      (c ∨ ¬ d) := by
  by_cases hc : c
  · simp [hc]
  · by_cases hd : d <;> simp [hc, hd]

theorem alu64_defined (hc : checkAluOp cfg s insn true op src = .ok s') (a : BitVec 64) :
    (alu64 op src a (m.operand insn src) ≠ .defaultLabel ∧
        alu64 op src a (m.operand insn src) ≠ .divByZero) ↔
      op ≠ .end_ := by
  have hdiv :
      op = .div ∨ op = .mod → ((src = .x ∧ m.operand insn src = 0) ∨ ¬ m.operand insn src = 0) := by
    intro hop
    cases src with
    | x =>
      by_cases hz : m.operand insn .x = 0
      · exact .inl ⟨rfl, hz⟩
      · exact .inr hz
    | k => exact .inr (imm64_ne_zero (checkAluOp_divisor hop hc))
  cases op with
  | neg =>
    obtain rfl := checkAluOp_neg hc
    simp [alu64]
  | div | mod =>
    simp only [alu64, divRes_defined]
    exact iff_of_true (hdiv (by decide)) (by decide)
  | opE0 | opF0 => cases hc
  | _ => simp [alu64]

/-- 32-bit operations: `BPF_ARSH` has no label, and a divisor must not be zero in its lower half
only. -/
theorem alu32_defined (hc : checkAluOp cfg s insn false op src = .ok s') (a : BitVec 64) :
    (alu32 op src insn.imm a (m.operand insn src) ≠ .defaultLabel ∧
        alu32 op src insn.imm a (m.operand insn src) ≠ .divByZero) ↔
      op ≠ .arsh ∧
        (src = .x → op = .div ∨ op = .mod →
          m.regs insn.srcReg = 0 ∨ (m.regs insn.srcReg).setWidth 32 ≠ (0 : BitVec 32)) := by
  have hdiv : op = .div ∨ op = .mod →
        (((src = .x ∧ m.operand insn src = 0) ∨
            ¬ (m.operand insn src).setWidth 32 = (0 : BitVec 32)) ↔
          (src = .x →
            m.regs insn.srcReg = 0 ∨ (m.regs insn.srcReg).setWidth 32 ≠ (0 : BitVec 32))) := by
    intro hop
    cases src with
    | x => simp [operand]
    | k =>
      have himm := checkAluOp_divisor hop hc
      refine iff_of_true (.inr ?_) (by rintro ⟨⟩)
      rw [operand, setWidth_imm64]
      exact himm
  cases op with
  | neg =>
    obtain rfl := checkAluOp_neg hc
    simp [alu32]
  | div | mod =>
    simp only [alu32, divRes_defined]
    rw [hdiv (by decide)]
    simp
  | opE0 | opF0 => cases hc
  | _ => simp [alu32]

end Defined

theorem condJmp_defined {op : JmpOp} (hop : op ≠ .call ∧ op ≠ .ja ∧ op ≠ .exit)
    (hvalid : ¬ op.isInvalid = true) (insn : Insn) (a b : BitVec 64) :
    (m.condJmp insn (jmpCond op a b)).Defined := by
  obtain ⟨c, hc⟩ : ∃ c, jmpCond op a b = some c := by
    obtain ⟨hcall, hja, hexit⟩ := hop
    cases op <;> first | contradiction | exact ⟨_, rfl⟩
  rw [hc]
  cases c <;> trivial

/-- An accepted instruction reaches no `default_label` and divides by no zero
exactly when its opcode has a label and the divisor is in order. -/
theorem checkInsn_defined {isMap : BitVec 64 → Prop} (hprog : ProgOk isMap m.prog) {next : Next}
    {mark : Option RegType} (hc : checkInsn cfg m.prog 0 m.pc s = .ok (next, mark))
    (env : Env W cfg.ops) (arrays : ProgArrays W) :
    (m.exec L env arrays m.insn).Defined ↔ m.insn.hasLabel = true ∧ m.DivisorOk := by
  -- a class in which every opcode has a label
  have always : (m.exec L env arrays m.insn).Defined →
        (m.insn.hasLabel = true ∧ ∀ op src, m.insn.code ≠ .alu op src) →
        ((m.exec L env arrays m.insn).Defined ↔ m.insn.hasLabel = true ∧ m.DivisorOk) :=
    fun hdef hlabel => iff_of_true hdef ⟨hlabel.1, fun op hcode => absurd hcode (hlabel.2 op .x)⟩
  unfold checkInsn at hc
  rw [show fetch m.prog m.pc = m.insn from rfl] at hc
  dsimp only at hc
  split at hc <;> simp only [ok_iff, Prod.mk.injEq, not_or, not_not, reduceCtorEq] at hc
  case h_1 op src hcode =>
    obtain ⟨s', halu, -⟩ := hc
    simp only [exec, hcode]
    rw [finishAlu_defined, alu32_defined halu]
    refine and_congr ?_ ?_
    · cases op <;> simp [hasLabel, hcode]
    constructor
    · intro h op' hcode' hop
      rw [hcode] at hcode'
      cases hcode'
      exact h rfl hop
    · rintro h rfl hop
      exact h op hcode hop
  case h_2 op src hcode =>
    obtain ⟨s', halu, -⟩ := hc
    simp only [exec, hcode]
    rw [finishAlu_defined, alu64_defined halu]
    have hdiv : m.DivisorOk := by
      intro op' hcode'
      rw [hcode] at hcode'
      cases hcode'
    cases op <;> simp [hasLabel, hcode, hdiv]
  case h_3 mode size hcode =>
    obtain rfl := hprog.ldx m.pc.toNat mode size hcode
    refine always ?_ (by simp [hasLabel, hcode])
    simp only [exec, hcode]
    split <;> trivial
  case h_4 size hcode =>
    simp only [checkXadd, ok_iff, not_or, not_and, not_not] at hc
    obtain ⟨s', ⟨-, ⟨hsize, -⟩, -⟩, -⟩ := hc
    refine always ?_ (by simp [hasLabel, hcode])
    cases size with
    | w | dw =>
      simp only [exec, hcode]
      exact doXadd_defined
    | h | b => exact absurd (hsize (by decide)) (by decide)
  case h_5 mode size hne hcode =>
    obtain rfl : mode = .mem := by
      rcases hprog.stx m.pc.toNat mode size hcode with hm | hm
      · exact hm
      · exact absurd hm hne
    refine always ?_ (by simp [hasLabel, hcode])
    simp only [exec, hcode]
    exact doStore_defined _
  case h_6 mode size hcode =>
    obtain ⟨-, ⟨rfl, -⟩, -⟩ := hc
    refine always ?_ (by simp [hasLabel, hcode])
    simp only [exec, hcode]
    exact doStore_defined _
  case h_7 src hcode =>
    obtain ⟨-, ⟨rfl, -⟩, -⟩ := hc
    refine always ?_ (by simp [hasLabel, hcode])
    simp only [exec, hcode]
    split
    · unfold tailCall
      dsimp only
      repeat' split
      all_goals trivial
    · unfold call
      split <;> trivial
  case h_8 src hcode | h_9 src hcode =>
    obtain ⟨-, ⟨rfl, -⟩, -⟩ := hc
    refine always ?_ (by simp [hasLabel, hcode])
    simp only [exec, hcode]
    trivial
  case h_10 op src hcall hja hexit hcode =>
    simp only [checkCondJmpOp, ok_iff] at hc
    obtain ⟨next', ⟨-, hvalid, -⟩, -⟩ := hc
    refine always ?_ (by simp [hasLabel, hcode])
    rw [exec_condJmp hcode ⟨hcall, hja, hexit⟩]
    exact condJmp_defined ⟨hcall, hja, hexit⟩ hvalid _ _ _
  case h_11 size hcode | h_12 size hcode =>
    have hdiv : m.DivisorOk := by
      intro op' hcode'
      rw [hcode] at hcode'
      cases hcode'
    cases size with
    | dw => simp [exec, hcode, Outcome.Defined, hasLabel]
    | _ =>
      simp only [exec, hcode]
      refine iff_of_true ?_ ⟨by simp [hasLabel, hcode], hdiv⟩
      unfold loadPkt
      repeat' split
      all_goals trivial
  case h_13 size hcode =>
    simp only [checkLdImm, ok_iff, not_not] at hc
    obtain ⟨s', ⟨-, rfl, -⟩, -⟩ := hc
    refine always ?_ (by simp [hasLabel, hcode])
    simp only [exec, hcode]
    trivial

theorem Explored.defined_iff (h : Explored cfg L m) (env : Env W cfg.ops) (arrays : ProgArrays W) :
    (m.step L env arrays).Defined ↔ m.insn.hasLabel = true ∧ m.DivisorOk := by
  obtain ⟨gpl, leaks, fds, prog, trace, s, hcheck, hmem, -⟩ := h
  obtain ⟨hprog, htrace⟩ := bpfCheckWith_ok hcheck
  obtain ⟨hin, ⟨next, mark⟩, hinsn⟩ := htrace.checked _ hmem
  rw [step_eq_exec hin]
  exact @checkInsn_defined W (cfg.withRights gpl leaks) L s
    { m with heap := env.perturb m.heap } _ hprog next mark hinsn env arrays

/-- In runs of accepted programs without 32-bit moves of negative immediates, a step reaches
`default_label` or divides by zero exactly when only the verifier knows its opcode, or it is a
32-bit division by a register that is zero in its lower half only. -/
theorem step_defined_iff (hmap : cfg.map = L.mapOf) {insns : List Insn} (hload : Loaded cfg L insns)
    (heap : Heap W) (regs : Nat → BitVec 64) (stack : Nat → BitVec 8)
    (hrun : Machine.Runs cfg L (fun m => m.insn.isNegMov32 = false)
        (Machine.init L insns heap regs stack) m) :
    ∀ (env : Env W cfg.ops) (arrays : ProgArrays W),
      (m.step L env arrays).Defined ↔ m.insn.hasLabel = true ∧ m.DivisorOk := by
  intro env arrays
  have hexp := explored_of_runs hmap (explored_init hload heap regs stack) hrun
  exact hexp.defined_iff env arrays

/-- A filter with the 32-bit arithmetic shift. -/
def arsh32Prog : List Insn :=
  [⟨.alu64 .mov .k, 0, 0, 0, 8⟩,
    ⟨.alu .arsh .k, 0, 0, 0, 1⟩,
    ⟨.jmp .exit .k, 0, 0, 0, 0⟩]

/-- A filter that divides by 2^32 in 32 bits. -/
def div32Prog : List Insn :=
  [⟨.alu64 .mov .k, 0, 0, 0, 1⟩,
    ⟨.ld .imm .dw, 2, 0, 0, 0⟩,
    ⟨.ld .imm .w, 0, 0, 0, 1⟩,
    ⟨.alu .div .x, 0, 2, 0, 0⟩,
    ⟨.jmp .exit .k, 0, 0, 0, 0⟩]

/-- The 32-bit arithmetic shift has no label; the 64-bit move before it is done. -/
theorem step_defined_iff_arsh32 :
    ((skInit false arsh32Prog).step (skLayout false) (quietEnv _) noProgs).Defined ∧
      ∃ m, Machine.Runs (skFilterCfg false) (skLayout false)
          (fun m => m.insn.isNegMov32 = false) (skInit false arsh32Prog) m ∧
        ¬ (m.step (skLayout false) (quietEnv _) noProgs).Defined := by
  have hload : Loaded (skFilterCfg false) (skLayout false) arsh32Prog :=
    .of_check true false noFds arsh32Prog (by decide +kernel)
  have hiff {m} := @step_defined_iff _ _ _ m rfl _ hload zeroHeap (fun _ => 0) fun _ => 0
  refine ⟨(hiff .refl _ _).mpr ⟨rfl, nofun⟩, _, skStep .refl rfl rfl, ?_⟩
  exact mt (hiff (skStep .refl rfl rfl) _ _).mp fun h => absurd h.1 (by decide)

/-- Both are accepted for an unprivileged user.  The first runs into `default_label`, the second
divides by zero. -/
theorem accepted_undefined :
    (Loaded (skFilterCfg false) (skLayout false) arsh32Prog ∧
        ∃ m, Machine.Runs (skFilterCfg false) (skLayout false) (fun _ => True)
              (skInit false arsh32Prog) m ∧
            m.step (skLayout false) (quietEnv _) noProgs = .defaultLabel) ∧
      Loaded (skFilterCfg false) (skLayout false) div32Prog ∧
        ∃ m, Machine.Runs (skFilterCfg false) (skLayout false) (fun _ => True)
              (skInit false div32Prog) m ∧
            m.step (skLayout false) (quietEnv _) noProgs = .divByZero := by
  refine ⟨⟨.of_check true false noFds arsh32Prog (by decide +kernel), _,
    skStep .refl trivial rfl, rfl⟩,
    .of_check true false noFds div32Prog (by decide +kernel), _,
    skStep (skStep .refl trivial rfl) trivial rfl, rfl⟩

end LinuxKernel.Bpf
