import LinuxKernel.Bpf.HelperCall

/-!
# Arithmetic and jumps that pass their check

An operand that passed its check is initialised, and it is the same number in two runs that a
state tracks, or points to the same place.  This is taken through the checks of arithmetic and of
jumps.
-/

namespace LinuxKernel.Bpf

open Lib Machine VState Insn

/-- A register that the verifier lets an instruction write. -/
def Writable (r : Nat) : Prop :=
  r < maxBpfReg ∧ r ≠ regFP

variable {W : World} {cfg : Cfg} {L₁ L₂ : Layout W cfg.ops.ctxSize} {s s' cur other : VState}
  {r n : Nat} {m₁ m₂ : Machine W} {insn : Insn} {src : Src}

theorem checkRegArg_src (h : checkRegArg s r .srcOp = .ok s') : s' = s ∧ s.Readable r := by
  simp only [checkRegArg, ok_iff] at h
  obtain ⟨-, hr, -, hinit, rfl⟩ := h
  exact ⟨rfl, by omega, hinit⟩

theorem checkRegArg_dst (h : checkRegArg s r .dstOp = .ok s') :
    s' = s.markRegUnknownValue r ∧ Writable r := by
  simp only [checkRegArg, ok_iff] at h
  obtain ⟨-, hr, -, hfp, rfl⟩ := h
  exact ⟨rfl, by omega, hfp⟩

theorem checkRegArg_dstNoMark (h : checkRegArg s r .dstOpNoMark = .ok s') :
    s' = s ∧ Writable r := by
  simp only [checkRegArg, ok_iff] at h
  obtain ⟨-, hr, -, hfp, rfl⟩ := h
  exact ⟨rfl, by omega, hfp⟩

theorem VState.setReg_setReg (s : VState) (r : Nat) (v w : RegState) :
    (s.setReg r v).setReg r w = s.setReg r w := by
  simp only [setReg, mk.injEq, and_self, and_true]
  funext i
  split <;> rfl

theorem checkAluSrc_ok (h : checkAluSrc s insn src = .ok s') :
    s' = s ∧ ∀ r ∈ insn.srcReads src, s.Readable r := by
  cases src with
  | x =>
    simp only [checkAluSrc, ok_iff] at h
    obtain ⟨-, -, h⟩ := h
    obtain ⟨rfl, hr⟩ := checkRegArg_src h
    exact ⟨rfl, by simpa [srcReads] using hr⟩
  | k =>
    simp only [checkAluSrc, ok_iff] at h
    obtain ⟨-, -, rfl⟩ := h
    exact ⟨rfl, by simp [srcReads]⟩

theorem Tracks.written (h : Tracks L₁ L₂ s m₁ m₂) (hr : s.Readable r) : m₁.regW r = true :=
  h.regW r hr.1 hr.2

section Alu

variable {op : AluOp} {is64 : Bool}

/-- The result of an arithmetic instruction, either width. -/
def Machine.aluRes (m : Machine W) (insn : Insn) (is64 : Bool) (op : AluOp) (src : Src) : AluRes :=
  if is64 then alu64 op src (m.regs insn.dstReg) (m.operand insn src)
  else alu32 op src insn.imm (m.regs insn.dstReg) (m.operand insn src)

theorem zeroExtend_signExtend {x : BitVec 32} (h : ¬ x.toInt < 0) :
    ((x.signExtend 64).setWidth 32).setWidth 64 = x.signExtend 64 := by
  have hmsb : x.msb = false := by
    rw [BitVec.msb_eq_toInt]
    exact decide_eq_false h
  rw [BitVec.signExtend_eq_setWidth_of_msb_false hmsb]
  simp

/-- Results of an arithmetic instruction in two runs. -/
def ResRel (L₁ L₂ : Layout W cfg.ops.ctxSize) (v : RegState) : AluRes → AluRes → Prop
  | .val x, .val y => RegRel L₁ L₂ v x y
  | r₁, r₂ => r₁ = r₂

theorem ResRel.of_eq {v : RegState} (hv : v.type = .unknownValue) {r₁ r₂ : AluRes} (heq : r₁ = r₂) :
    ResRel L₁ L₂ v r₁ r₂ := by
  subst heq
  cases r₁ <;> simp [ResRel, RegRel, hv]

theorem aluRes_congr (hdst : m₁.regs insn.dstReg = m₂.regs insn.dstReg)
    (hsrc : op ≠ .end_ → m₁.operand insn src = m₂.operand insn src) :
    m₁.aluRes insn is64 op src = m₂.aluRes insn is64 op src := by
  unfold aluRes
  rw [hdst]
  by_cases hop : op = .end_
  · subst hop
    cases is64 <;> simp [alu64, alu32]
  · rw [hsrc hop]

/-- `check_alu_op()` on two runs: one register is written, and its new state describes the results.
-/
structure AluRel (L₁ L₂ : Layout W cfg.ops.ctxSize) (s s' : VState)
    (m₁ m₂ : Machine W) (insn : Insn) (is64 : Bool) (op : AluOp) (src : Src) :
    Prop where
  dst : Writable insn.dstReg
  set : ∃ v, s' = s.setReg insn.dstReg v ∧
      ResRel L₁ L₂ v (m₁.aluRes insn is64 op src) (m₂.aluRes insn is64 op src)

theorem checkAluOp_reads (hc : checkAluOp cfg s insn is64 op src = .ok s') :
    ∀ r ∈ insn.aluReads op src, s.Readable r := by
  cases op with
  | neg | end_ =>
    simp only [checkAluOp, checkAluUnary, ok_iff] at hc
    obtain ⟨-, -, s₁, hread, -⟩ := hc
    simpa [aluReads] using (checkRegArg_src hread).2
  | mov =>
    simp only [checkAluOp, checkAluMov, bind_eq_ok] at hc
    obtain ⟨s₁, hsrc, -⟩ := hc
    exact (checkAluSrc_ok hsrc).2
  | opE0 | opF0 => cases hc
  | _ =>
    simp only [checkAluOp, checkAluBinary, bind_eq_ok] at hc
    obtain ⟨s₁, hsrc, s₂, hdst, -⟩ := hc
    obtain ⟨rfl, hsreads⟩ := checkAluSrc_ok hsrc
    exact List.forall_mem_cons.mpr ⟨(checkRegArg_src hdst).2, hsreads⟩

variable (hnum : cfg.allowPtrLeaks = false ∨ m₁ = m₂) (h : Tracks L₁ L₂ s m₁ m₂)

include hnum h

theorem checkAluUnary_rel (hsrc : op ≠ .end_ → m₁.operand insn src = m₂.operand insn src)
    (hc : checkAluUnary cfg s insn = .ok s') : AluRel L₁ L₂ s s' m₁ m₂ insn is64 op src := by
  simp only [checkAluUnary, ok_iff, Bool.not_eq_true] at hc
  obtain ⟨s₁, hread, -, hp, hdst⟩ := hc
  obtain ⟨rfl, hr⟩ := checkRegArg_src hread
  obtain ⟨rfl, hw⟩ := checkRegArg_dst hdst
  exact ⟨hw, _, rfl, .of_eq rfl (aluRes_congr (h.number hnum hr.1 hp) hsrc)⟩

theorem checkAluMov_rel (hneg : ¬ (is64 = false ∧ src = .k ∧ insn.imm.toInt < 0))
    (hself : src = .x → insn.srcReg = insn.dstReg → m₁.regs insn.srcReg = m₂.regs insn.srcReg)
    (hc : checkAluMov cfg s insn is64 src = .ok s') :
    AluRel L₁ L₂ s s' m₁ m₂ insn is64 .mov src := by
  simp only [checkAluMov, bind_eq_ok] at hc
  obtain ⟨s₁, hsrc, s₂, hdst, hc⟩ := hc
  obtain ⟨rfl, hreads⟩ := checkAluSrc_ok hsrc
  obtain ⟨rfl, hw⟩ := checkRegArg_dst hdst
  refine ⟨hw, ?_⟩
  cases src with
  | x =>
    have hread := hreads insn.srcReg (by simp [srcReads])
    cases is64 with
    | true =>
      simp only [if_true, pure_eq_ok, VState.markRegUnknownValue, VState.setReg_setReg] at hc
      refine ⟨_, hc.symm, ?_⟩
      simp only [aluRes, alu64, operand, if_true, ResRel]
      by_cases heq : insn.srcReg = insn.dstReg
      · simp only [VState.setReg, heq, if_true, RegRel]
        rw [← heq]
        exact hself rfl heq
      · have hne := Fin.val_ne_of_ne heq
        simp only [VState.setReg, if_neg hne]
        exact h.reg _ hread.1
    | false =>
      simp only [Bool.false_eq_true, if_false, ok_iff, Bool.not_eq_true, pure_eq_ok] at hc
      obtain ⟨-, hp, hc⟩ := hc
      simp only [VState.markRegUnknownValue, VState.setReg_setReg] at hc
      refine ⟨_, hc.symm, .of_eq rfl ?_⟩
      have hxy : m₁.regs insn.srcReg = m₂.regs insn.srcReg := by
        by_cases heq : insn.srcReg = insn.dstReg
        · exact hself rfl heq
        · have hne := Fin.val_ne_of_ne heq
          refine h.number hnum hread.1 ?_
          simpa [isPointerValue, VState.markRegUnknownValue, VState.setReg, hne] using hp
      simp [aluRes, alu32, operand, hxy]
  | k =>
    simp only [pure_eq_ok, VState.markRegUnknownValue, VState.setReg_setReg] at hc
    refine ⟨_, hc.symm, ?_⟩
    cases is64 with
    | true =>
      simp [aluRes, alu64, operand, ResRel, RegRel, imm64]
    | false =>
      simp only [true_and] at hneg
      simp [aluRes, alu32, operand, ResRel, RegRel, imm64, zeroExtend_signExtend hneg]

theorem checkAluBinary_rel (hc : checkAluBinary cfg s insn is64 op src = .ok s') :
    AluRel L₁ L₂ s s' m₁ m₂ insn is64 op src := by
  simp only [checkAluBinary, ok_iff] at hc
  obtain ⟨s₁, hsrc, s₂, hdst, -, -, -, -, -, hptr, s₃, hmark, hc⟩ := hc
  obtain ⟨rfl, hsreads⟩ := checkAluSrc_ok hsrc
  obtain ⟨rfl, hdread⟩ := checkRegArg_src hdst
  obtain ⟨rfl, hw⟩ := checkRegArg_dst hmark
  refine ⟨hw, ?_⟩
  split at hc
  · next hrel =>
    simp only [Bool.and_eq_true, decide_eq_true_eq] at hrel
    obtain ⟨⟨⟨rfl, rfl⟩, hfp⟩, rfl⟩ := hrel
    simp only [pure_eq_ok, markRegUnknownValue, setReg_setReg] at hc
    refine ⟨_, hc.symm, ?_⟩
    have hd := h.reg _ hdread.1
    simp only [RegRel, hfp] at hd
    simp [aluRes, alu64, operand, ResRel, RegRel, imm64, hd.1, hd.2]
  next hrel =>
  rw [pure_eq_ok] at hc
  simp only [Bool.not_eq_true] at hrel
  simp only [hrel, true_and, not_or, not_and, Bool.not_eq_true] at hptr
  refine ⟨_, hc.symm, .of_eq rfl (aluRes_congr ?_ ?_)⟩
  · exact h.number hnum hdread.1 hptr.1
  · intro _
    cases src with
    | x =>
      exact h.number hnum (hsreads _ (by simp [srcReads])).1 (hptr.2 rfl)
    | k => rfl

theorem checkAluOp_rel (hneg : ¬ (is64 = false ∧ op = .mov ∧ src = .k ∧ insn.imm.toInt < 0))
    (hself :
      op = .mov → src = .x → insn.srcReg = insn.dstReg → m₁.regs insn.srcReg = m₂.regs insn.srcReg)
    (hc : checkAluOp cfg s insn is64 op src = .ok s') :
    AluRel L₁ L₂ s s' m₁ m₂ insn is64 op src := by
  cases op with
  | neg =>
    simp only [checkAluOp, ok_iff, not_or, not_not] at hc
    obtain ⟨-, ⟨rfl, -⟩, hc⟩ := hc
    exact checkAluUnary_rel hnum h (fun _ => rfl) hc
  | end_ =>
    simp only [checkAluOp, ok_iff] at hc
    obtain ⟨-, -, hc⟩ := hc
    exact checkAluUnary_rel hnum h (fun hne => absurd rfl hne) hc
  | mov =>
    refine checkAluMov_rel hnum h ?_ (hself rfl) hc
    rintro ⟨rfl, rfl, himm⟩
    exact hneg ⟨rfl, rfl, rfl, himm⟩
  | opE0 | opF0 => cases hc
  | _ => exact checkAluBinary_rel hnum h hc

end Alu

variable {op : JmpOp}

variable (hnum : cfg.allowPtrLeaks = false ∨ m₁ = m₂) (h : Tracks L₁ L₂ s m₁ m₂)

include hnum h

theorem checkJmpSrc_rel (hc : checkJmpSrc cfg s insn src = .ok s') :
    s' = s ∧ (∀ r ∈ insn.srcReads src, s.Readable r) ∧
      m₁.operand insn src = m₂.operand insn src := by
  cases src with
  | x =>
    simp only [checkJmpSrc, ok_iff, Bool.not_eq_true] at hc
    obtain ⟨-, -, s₁, hsrc, -, hp, rfl⟩ := hc
    obtain ⟨rfl, hr⟩ := checkRegArg_src hsrc
    exact ⟨rfl, by simpa [srcReads] using hr, h.number hnum hr.1 hp⟩
  | k =>
    simp only [checkJmpSrc, ok_iff] at hc
    obtain ⟨-, -, rfl⟩ := hc
    exact ⟨rfl, by simp [srcReads], rfl⟩

omit hnum in
theorem Tracks.setConst (hr : s.Readable r) {imm : BitVec 32}
    (h1 : m₁.regs r = imm.signExtend 64) (h2 : m₂.regs r = imm.signExtend 64) :
    Tracks L₁ L₂ (s.setConst r imm) m₁ m₂ := by
  refine h.refineReg ?_ fun _ => h.written hr
  simpa only [RegRel, RegState.type_setImm, RegState.imm_setImm] using ⟨h1, h2⟩

/-- A comparison that may go both ways comes out the same in both runs; what it teaches holds in
both. -/
theorem refineBranches_rel (hr : s.Readable insn.dstReg)
    (hsrc : m₁.operand insn src = m₂.operand insn src)
    (hc : refineBranches cfg s insn op src = .ok (cur, other)) :
    jmpCond op (m₁.regs insn.dstReg) (m₁.operand insn src) =
        jmpCond op (m₂.regs insn.dstReg) (m₂.operand insn src) ∧
      ∀ b, jmpCond op (m₁.regs insn.dstReg) (m₁.operand insn src) = some b →
        Tracks L₁ L₂ (if b then other else cur) m₁ m₂ := by
  unfold refineBranches at hc
  dsimp only at hc
  have hxy := h.reg _ hr.1
  split at hc
  · next hnull =>
    -- the test of a map lookup for NULL
    obtain ⟨rfl, himm, hop, htype⟩ := hnull
    simp only [RegRel, htype] at hxy
    have himm64 : ∀ m : Machine W, m.operand insn .k = 0 := by
      intro m
      rw [operand, imm64, himm]
      decide
    have hsides : ((m₁.regs insn.dstReg == 0) = true ∧ (m₂.regs insn.dstReg == 0) = true ∧
            Tracks L₁ L₂ (s.setConst insn.dstReg 0) m₁ m₂) ∨
          ((m₁.regs insn.dstReg == 0) = false ∧ (m₂.regs insn.dstReg == 0) = false ∧
            Tracks L₁ L₂ (s.setMapValue insn.dstReg) m₁ m₂) := by
      rcases hxy with ⟨h1, h2⟩ | hv
      · exact .inl ⟨beq_iff_eq.mpr h1, beq_iff_eq.mpr h2,
          h.setConst hr (h1.trans (by decide)) (h2.trans (by decide))⟩
      · have hst : Tracks L₁ L₂ (s.setMapValue insn.dstReg) m₁ m₂ :=
          h.refineReg hv fun _ => h.written hr
        obtain ⟨v, h1, h2, -⟩ := hv
        exact .inr ⟨beq_eq_false_iff_ne.mpr (h1 ▸ L₁.val_ne_zero v),
          beq_eq_false_iff_ne.mpr (h2 ▸ L₂.val_ne_zero v), hst⟩
    rw [himm64 m₁, himm64 m₂]
    rcases hop with rfl | rfl
    all_goals
      cases hc
      rcases hsides with ⟨h1, h2, hst⟩ | ⟨h1, h2, hst⟩
    all_goals
      refine ⟨by simp only [jmpCond, bne, h1, h2], fun b hb => ?_⟩
      simp only [jmpCond, bne, h1, Option.some.injEq] at hb
      subst hb
      exact hst
  simp only [ok_iff, Bool.not_eq_true] at hc
  obtain ⟨-, hp, hc⟩ := hc
  have heq := h.number hnum hr.1 hp
  refine ⟨by rw [heq, hsrc], ?_⟩
  intro b hb
  have hequal : m₁.regs insn.dstReg = insn.imm64 →
      Tracks L₁ L₂ (s.setConst insn.dstReg insn.imm) m₁ m₂ :=
    fun himm => h.setConst hr himm (heq ▸ himm)
  split at hc
  · next hjeq =>
    obtain ⟨rfl, rfl⟩ := hjeq
    cases hc
    simp only [jmpCond, operand, Option.some.injEq] at hb
    cases b with
    | true => exact hequal (by simpa using hb)
    | false => exact h
  split at hc
  · next hjne =>
    obtain ⟨rfl, rfl⟩ := hjne
    cases hc
    simp only [jmpCond, operand, Option.some.injEq] at hb
    cases b with
    | true => exact h
    | false => exact hequal (by simpa using hb)
  · cases hc
    rw [ite_self]
    exact h

theorem checkCondJmpOp_rel {next : Next}
    (hc : checkCondJmpOp cfg s insn op src n m₁.pc = .ok next) :
    (∀ r ∈ (insn.dstReg : Nat) :: insn.srcReads src, s.Readable r) ∧
      jmpCond op (m₁.regs insn.dstReg) (m₁.operand insn src) =
        jmpCond op (m₂.regs insn.dstReg) (m₂.operand insn src) ∧
      ∀ b, jmpCond op (m₁.regs insn.dstReg) (m₁.operand insn src) = some b →
        ∃ st, ((m₁.advance (if b then insn.off.toInt else 0)).pc, st) ∈ next.targets ∧
          Tracks L₁ L₂ st m₁ m₂ := by
  simp only [checkCondJmpOp, ok_iff] at hc
  obtain ⟨-, -, s₁, hsrc, s₂, hdst, hc⟩ := hc
  obtain ⟨rfl, hsreads, hop2⟩ := checkJmpSrc_rel hnum h hsrc
  obtain ⟨rfl, hdread⟩ := checkRegArg_src hdst
  refine ⟨List.forall_mem_cons.mpr ⟨hdread, hsreads⟩, ?_⟩
  split at hc
  · next hconst =>
    obtain ⟨rfl, hop, htype, himm⟩ := hconst
    have hxy := h.reg _ hdread.1
    simp only [RegRel, htype, himm] at hxy
    refine ⟨by rw [hxy.1, hxy.2, hop2], ?_⟩
    intro b hb
    refine ⟨s₂, ?_, h⟩
    rcases hop with rfl | rfl
    all_goals
      simp only [jmpCond, operand, imm64, hxy.1, beq_self_eq_true, bne_self_eq_false,
        Option.some.injEq] at hb
      subst hb
      cases hc
      simp [Next.targets, advance]
  simp only [ok_iff] at hc
  obtain ⟨-, -, ⟨cur, other⟩, href, rfl⟩ := hc
  obtain ⟨heq, hrel⟩ := refineBranches_rel hnum h hdread hop2 href
  refine ⟨heq, ?_⟩
  intro b hb
  refine ⟨_, ?_, hrel b hb⟩
  cases b <;> simp [Next.targets, advance]

end LinuxKernel.Bpf
