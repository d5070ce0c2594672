import LinuxKernel.Bpf.TwoRunChecks
import LinuxKernel.Bpf.TwoRuns

/-!
# Instructions that pass their check

For each instruction class, what a successful check says about one step of the interpreter on two
machines that the verifier state tracks: the registers it reads are initialised, its accesses and
calls are allowed, and one of the states the check goes on with tracks the machines after the
step.

There are exceptions.  `check_alu_op()` takes the immediate of a 32-bit move for the value of the
register, whereas the interpreter clears the upper half; for a negative immediate the two
differ.  `LeakFree` lists the steps that let an address get into a number.
-/

namespace LinuxKernel.Bpf

open Lib Machine Insn

def Insn.isNegMov32 (insn : Insn) : Bool :=
  insn.code = .alu .mov .k && insn.imm.toInt < 0

section Steps

variable {W : World} {cfg : Cfg} {L L₁ L₂ : Layout W cfg.ops.ctxSize} {s s' : VState} {r : Nat}
  {m m₁ m₂ m₁' m₂' : Machine W} {insn a a' b b' : Insn} {size : Size} {src : Src} {next : Next}
  {P : List Insn → List Insn → Prop}

/-- The next step of two runs lets no address into a number: it is no 32-bit move of a negative
immediate; a move of a register to itself, an `XADD` or an indexed packet load has the same operand
in both; and an `XADD` to the stack changes a word equal in both. -/
structure LeakFree {ctxSize : Nat} (L₁ : Layout W ctxSize) (m₁ m₂ : Machine W) : Prop where
  mov32 : m₁.insn.isNegMov32 = false
  selfMov : m₁.insn.code = .alu64 .mov .x ∨ m₁.insn.code = .alu .mov .x →
      m₁.insn.srcReg = m₁.insn.dstReg →
      m₁.regs m₁.insn.srcReg = m₂.regs m₁.insn.srcReg
  xadd : ∀ size, m₁.insn.code = .stx .xadd size →
      m₁.regs m₁.insn.srcReg = m₂.regs m₁.insn.srcReg ∧
        ∀ i, L₁.stackOff (m₁.regs m₁.insn.dstReg + m₁.insn.off64) = some i →
          loadLE m₁.stack i size.bytes = loadLE m₂.stack i size.bytes
  ldInd : ∀ size, m₁.insn.code = .ld .ind size → m₁.regs m₁.insn.srcReg = m₂.regs m₁.insn.srcReg

/-- The outcomes of two runs that the check allows; `P` are the pairs of programs in program
arrays. -/
def OutcomeRel (L₁ L₂ : Layout W cfg.ops.ctxSize)
    (P : List Insn → List Insn → Prop) (next : Next) (m₁ m₂ : Machine W) :
    Outcome W → Outcome W → Prop
  | .next m₁', .next m₂' =>
    Aligned m₁' m₂' ∧
      ((∃ st, (m₁'.pc, st) ∈ next.targets ∧ Tracks L₁ L₂ st m₁' m₂' ∧
          m₁'.prog = m₁.prog ∧ m₂'.prog = m₂.prog) ∨
        P m₁'.prog m₂'.prog ∧ Tracks L₁ L₂ initRegState m₁' m₂' ∧ m₁'.pc = 0)
  | .ret v₁ m₁', .ret v₂ m₂' => v₁ = v₂ ∧ m₁'.heap = m₂'.heap
  | .defaultLabel, .defaultLabel => True
  | .divByZero, .divByZero => True
  | _, _ => False

section Goto

variable (h : Tracks L₁ L₂ s' m₁' m₂') (hal : Aligned m₁' m₂')
  (hprog : m₁'.prog = m₁.prog ∧ m₂'.prog = m₂.prog) (hpc : m₁'.pc = m₁.pc)

include h hal hprog hpc

theorem OutcomeRel.goto {d : Int} :
    OutcomeRel L₁ L₂ P (.goto (m₁.pc + d + 1) s') m₁ m₂
      (.next (m₁'.advance d)) (.next (m₂'.advance d)) := by
  refine ⟨hal.advance d, Or.inl ⟨s', ?_, h.advance d, hprog⟩⟩
  simp [Next.targets, advance, hpc]

theorem OutcomeRel.cont : OutcomeRel L₁ L₂ P (.goto (m₁.pc + 1) s') m₁ m₂
      (.next (m₁'.advance 0)) (.next (m₂'.advance 0)) := by
  simpa using OutcomeRel.goto (P := P) (d := 0) h hal hprog hpc

end Goto

theorem finishAlu_ne_wild (r : AluRes) : m.finishAlu insn r ≠ .wild := by
  cases r <;> simp [finishAlu]

variable (h : Tracks L₁ L₂ s m₁ m₂) (hal : Aligned m₁ m₂) {valueRegno : Option Nat}

include h

theorem checkMemAccess_reg (hmap : cfg.map = L₁.mapOf) (hr : s.Readable r) {t : AccessType}
    (hc : checkMemAccess cfg s r insn.off.toInt size t valueRegno = .ok s') :
    ∃ tgt, m₁.regs r + insn.off64 = L₁.target tgt ∧ m₂.regs r + insn.off64 = L₂.target tgt ∧
      TargetOk cfg s size.bytes t valueRegno s' tgt := by
  exact checkMemAccess_rel hmap (h.reg r hr.1) hc

include hal

theorem AluRel.outcome {is64 : Bool} {op : AluOp} (hc : AluRel L₁ L₂ s s' m₁ m₂ insn is64 op src) :
    OutcomeRel L₁ L₂ P (.goto (m₁.pc + 1) s') m₁ m₂ (m₁.finishAlu insn (m₁.aluRes insn is64 op src))
      (m₂.finishAlu insn (m₂.aluRes insn is64 op src)) := by
  obtain ⟨v, rfl, hres⟩ := hc.set
  generalize m₁.aluRes insn is64 op src = r₁ at hres ⊢
  generalize m₂.aluRes insn is64 op src = r₂ at hres ⊢
  cases r₁ with
  | val x =>
    cases r₂ with
    | val y =>
      exact .cont (h.setReg hc.dst.2 hres) (hal.setReg _ x y) ⟨rfl, rfl⟩ rfl
    | _ => cases hres
  | ret0 =>
    cases hres
    exact ⟨rfl, hal.heap⟩
  | divByZero | defaultLabel =>
    cases hres
    trivial

theorem TargetOk.doStore_outcome (hnum : cfg.allowPtrLeaks = false ∨ m₁ = m₂) {x y : BitVec 64}
    {tgt : Target W} (hv : StoredRel s m₁ m₂ x y valueRegno)
    (ha1 : m₁.regs insn.dstReg + insn.off64 = L₁.target tgt)
    (ha2 : m₂.regs insn.dstReg + insn.off64 = L₂.target tgt)
    (hok : TargetOk cfg s size.bytes .write valueRegno s' tgt) :
    OutcomeRel L₁ L₂ P (.goto (m₁.pc + 1) s') m₁ m₂
      (m₁.doStore L₁ insn size x) (m₂.doStore L₂ insn size y) := by
  obtain ⟨hrel, hal'⟩ := hok.tracks_store h hnum hal hv
  unfold doStore
  rw [ha1, ha2, hok.store_eq m₁, hok.store_eq m₂]
  exact .cont hrel hal' ⟨(storeAt_prog m₁ _ x tgt).1, (storeAt_prog m₂ _ y tgt).1⟩
    (storeAt_prog m₁ _ x tgt).2

theorem loadPkt_outcome_rel {mode : Mode} (hc : checkLdAbs cfg s insn mode = .ok s')
    (off : BitVec 32) (size : Size) :
    s.Readable 6 ∧ (mode = .ind → s.Readable insn.srcReg) ∧
      OutcomeRel L₁ L₂ P (.goto (m₁.pc + 1) s') m₁ m₂
        (m₁.loadPkt L₁ off size) (m₂.loadPkt L₂ off size) := by
  simp only [checkLdAbs, ok_iff, not_not] at hc
  obtain ⟨-, -, -, -, s₁, hsrc, -, hctx, hc⟩ := hc
  obtain ⟨rfl, h6⟩ := checkRegArg_src hsrc
  have hs' : (mode = .ind → s₁.Readable insn.srcReg) ∧ s' = (resetCallerSaved s₁).setReg 0
          { (resetCallerSaved s₁).regs 0 with type := .unknownValue } := by
    split at hc
    · simp only [ok_iff] at hc
      obtain ⟨s₂, hind, rfl⟩ := hc
      obtain ⟨rfl, hr⟩ := checkRegArg_src hind
      exact ⟨fun _ => hr, rfl⟩
    · next hne =>
      simp only [ok_iff, exists_eq_left'] at hc
      exact ⟨fun heq => absurd heq hne, hc.symm⟩
  obtain ⟨hind, rfl⟩ := hs'
  refine ⟨h6, hind, ?_⟩
  have hxy := h.reg 6 h6.1
  simp only [RegRel, hctx] at hxy
  unfold loadPkt
  rw [if_pos hxy.1, if_pos hxy.2, ← hal.heap]
  cases m₁.heap.pkt off size with
  | none => exact ⟨rfl, hal.heap⟩
  | some v =>
    exact .cont (h.call rfl) { hal with } ⟨rfl, rfl⟩ rfl

theorem ldImm_outcome_rel (hld : size = .dw → LdImmRel L₁ L₂ a a' b b')
    (hc : checkLdImm s a a' size = .ok s') :
    size = .dw ∧ OutcomeRel L₁ L₂ P (.goto (m₁.pc + 2) s') m₁ m₂
        (.next ((m₁.setReg a.dstReg (ldImm64 a a')).advance 1))
        (.next ((m₂.setReg b.dstReg (ldImm64 b b')).advance 1)) := by
  simp only [checkLdImm, ok_iff, not_not] at hc
  obtain ⟨-, rfl, -, -, s₁, hdst, hc⟩ := hc
  obtain ⟨rfl, hw⟩ := checkRegArg_dst hdst
  obtain ⟨hcode, hdstReg, hsrcReg, hnumber, hmapImm⟩ := hld rfl
  refine ⟨rfl, ?_⟩
  rw [hdstReg, show m₁.pc + 2 = m₁.pc + 1 + 1 by omega]
  refine .goto ?_ (hal.setReg _ _ _) ⟨rfl, rfl⟩ rfl
  split at hc
  · next hsrc =>
    rw [pure_eq_ok] at hc
    subst hc
    exact h.setReg hw.2 (hnumber hsrc).symm
  · next hsrc =>
    simp only [ok_iff, not_not, VState.markRegUnknownValue, VState.setReg_setReg] at hc
    obtain ⟨-, -, rfl⟩ := hc
    exact h.setReg hw.2 ⟨rfl, hmapImm hsrc⟩

end Steps

section Insn

variable {W : World} {cfg : Cfg} {L L₁ L₂ : Layout W cfg.ops.ctxSize} {s s' : VState}
  {m m₁ m₂ : Machine W} {size : Size} {src : Src} {next : Next}

/-- What the check says about the execution in two runs. -/
structure InsnRel (cfg : Cfg) (L₁ L₂ : Layout W cfg.ops.ctxSize)
    (next : Next) (m₁ m₂ : Machine W) : Prop where
  reads : ∀ r ∈ m₁.insn.reads cfg.ops, m₁.regW r = true
  accesses : ∀ p ∈ m₁.accesses m₁.insn, AccessOk cfg.ops L₁ m₁ p.1 p.2.1 p.2.2
  call : m₁.insn.isCall = true → CallOk cfg.ops L₁ m₁ m₁.insn.imm.toNat
  outcome : LeakFree L₁ m₁ m₂ → ∀ P arrays₁ arrays₂, ArraysRel P arrays₁ arrays₂ → ∀ env,
      OutcomeRel L₁ L₂ P next m₁ m₂ (m₁.exec L₁ env arrays₁ m₁.insn)
        (m₂.exec L₂ env arrays₂ m₂.insn)

theorem exec_condJmp {op : JmpOp} (hcode : m.insn.code = .jmp op src)
    (hop : op ≠ .call ∧ op ≠ .ja ∧ op ≠ .exit) {env : Env W cfg.ops} {arrays : ProgArrays W} :
    m.exec L env arrays m.insn = m.condJmp m.insn
        (jmpCond op (m.regs m.insn.dstReg) (m.operand m.insn src)) := by
  obtain ⟨hcall, hja, hexit⟩ := hop
  cases op <;> first | contradiction | simp only [exec, hcode]

variable (hnum : cfg.allowPtrLeaks = false ∨ m₁ = m₂) (h : Tracks L₁ L₂ s m₁ m₂)
  (hal : Aligned m₁ m₂) (hinsn : m₂.insn = m₁.insn)

include h hal hinsn

theorem insnRel_ldPkt {mode : Mode} (hmode : mode = .abs ∨ mode = .ind)
    (hcode : m₁.insn.code = .ld mode size) (hc : checkLdAbs cfg s m₁.insn mode = .ok s') :
    InsnRel cfg L₁ L₂ (.goto (m₁.pc + 1) s') m₁ m₂ := by
  have hpkt := fun P => loadPkt_outcome_rel (P := P) h hal hc
  obtain ⟨h6, hsrc, -⟩ := hpkt (fun _ _ => True) 0 size
  refine ⟨?_, ?_, ?_, fun hfree P arrays₁ arrays₂ _ env => ?_⟩
  · obtain rfl | rfl := hmode
    · simpa [reads, hcode] using h.written h6
    · simpa [reads, hcode] using ⟨h.written h6, h.written (hsrc rfl)⟩
  · obtain rfl | rfl := hmode <;> simp [accesses, hcode]
  · obtain rfl | rfl := hmode <;> simp [isCall, hcode]
  have hidx : mode = .ind → m₁.regs m₁.insn.srcReg = m₂.regs m₁.insn.srcReg := by
    rintro rfl
    exact hfree.ldInd size hcode
  rw [hinsn]
  cases size with
  | dw => obtain rfl | rfl := hmode <;> simp [exec, hcode, OutcomeRel]
  | _ =>
    obtain rfl | rfl := hmode
    all_goals
      simp only [exec, hcode, ← hidx]
      exact (hpkt P _ _).2.2

include hnum

theorem insnRel_alu (is64 : Bool) {op : AluOp}
    (hcode : m₁.insn.code = if is64 then .alu64 op src else .alu op src)
    (hc : checkAluOp cfg s m₁.insn is64 op src = .ok s') :
    InsnRel cfg L₁ L₂ (.goto (m₁.pc + 1) s') m₁ m₂ := by
  have hreads := checkAluOp_reads hc
  refine ⟨?_, ?_, ?_, ?_⟩
  · intro r hr
    refine h.written (hreads r ?_)
    cases is64 <;> simpa [reads, hcode] using hr
  · cases is64 <;> simp [accesses, hcode]
  · cases is64 <;> simp [isCall, hcode]
  intro hfree P arrays₁ arrays₂ _ env
  have hexec :
      ∀ (L : Layout W cfg.ops.ctxSize) (m : Machine W) arrays, m.exec L env arrays m₁.insn =
        m.finishAlu m₁.insn (m.aluRes m₁.insn is64 op src) := by
    intro L m arrays
    cases is64 <;> simp [exec, aluRes, hcode]
  rw [hinsn, hexec, hexec]
  refine (checkAluOp_rel hnum h ?_ ?_ hc).outcome h hal
  · rintro ⟨rfl, rfl, rfl, himm⟩
    have := hfree.mov32
    simp [isNegMov32, hcode, himm] at this
  · rintro rfl rfl
    cases is64 with
    | true => exact hfree.selfMov (.inl hcode)
    | false => exact hfree.selfMov (.inr hcode)

theorem insnRel_condJmp {op : JmpOp} (hcode : m₁.insn.code = .jmp op src)
    (hop : op ≠ .call ∧ op ≠ .ja ∧ op ≠ .exit)
    (hc : checkCondJmpOp cfg s m₁.insn op src 0 m₁.pc = .ok next) :
    InsnRel cfg L₁ L₂ next m₁ m₂ := by
  obtain ⟨hreads, hcond, hrel⟩ := checkCondJmpOp_rel hnum h hc
  have hr : m₁.insn.reads cfg.ops = (m₁.insn.dstReg : Nat) :: m₁.insn.srcReads src := by
    obtain ⟨hcall, hja, hexit⟩ := hop
    cases op <;> first | contradiction | simp only [reads, hcode]
  refine ⟨?_, ?_, ?_, ?_⟩
  · intro r hmem
    rw [hr] at hmem
    exact h.written (hreads r hmem)
  · simp [accesses, hcode]
  · obtain ⟨hcall, hja, hexit⟩ := hop
    cases op <;> first | contradiction | simp [isCall, hcode]
  intro _ P arrays₁ arrays₂ _ env
  rw [exec_condJmp hcode hop, exec_condJmp (hinsn ▸ hcode) hop, hinsn, ← hcond]
  cases hb : jmpCond op (m₁.regs m₁.insn.dstReg) (m₁.operand m₁.insn src) with
  | none => trivial
  | some b =>
    obtain ⟨st, hst, hd⟩ := hrel b hb
    cases b with
    | true | false => exact ⟨hal.advance _, Or.inl ⟨st, hst, hd.advance _, rfl, rfl⟩⟩

variable (hmap : cfg.map = L₁.mapOf)

include hmap

omit hnum in
theorem insnRel_ldx (hcode : m₁.insn.code = .ldx .mem size) (hr : s.Readable m₁.insn.srcReg)
    (hw : Writable m₁.insn.dstReg)
    (hc : checkMemAccess cfg s m₁.insn.srcReg m₁.insn.off.toInt size .read (some m₁.insn.dstReg) =
        .ok s') : InsnRel cfg L₁ L₂ (.goto (m₁.pc + 1) s') m₁ m₂ := by
  obtain ⟨tgt, ha1, ha2, hok⟩ := checkMemAccess_reg h hmap hr hc
  refine ⟨?_, ?_, ?_, ?_⟩
  · simpa [reads, hcode] using h.written hr
  · simpa [accesses, hcode, ha1] using hok.accessOk h
  · simp [isCall, hcode]
  intro _ P arrays₁ arrays₂ _ env
  have hx : m₁.load L₁ (L₁.target tgt) size.bytes = _ := hok.load_eq m₁
  have hy : m₂.load L₂ (L₂.target tgt) size.bytes = _ := hok.load_eq m₂
  obtain ⟨r, rfl, hrel⟩ := hok.tracks_load h hal.heap
  rw [hinsn]
  simp only [exec, hcode, ha1, ha2, hx, hy]
  exact .cont (h.setReg hw.2 hrel) (hal.setReg _ _ _) ⟨rfl, rfl⟩ rfl

theorem insnRel_stx (hcode : m₁.insn.code = .stx .mem size) (hs : s.Readable m₁.insn.srcReg)
    (hd : s.Readable m₁.insn.dstReg)
    (hc : checkMemAccess cfg s m₁.insn.dstReg m₁.insn.off.toInt size .write (some m₁.insn.srcReg) =
        .ok s') : InsnRel cfg L₁ L₂ (.goto (m₁.pc + 1) s') m₁ m₂ := by
  obtain ⟨tgt, ha1, ha2, hok⟩ := checkMemAccess_reg h hmap hd hc
  refine ⟨?_, ?_, ?_, ?_⟩
  · simpa [reads, hcode] using ⟨h.written hd, h.written hs⟩
  · simpa [accesses, hcode, ha1] using hok.accessOk h
  · simp [isCall, hcode]
  · intro _ P arrays₁ arrays₂ _ env
    rw [hinsn]
    simp only [exec, hcode]
    refine hok.doStore_outcome h hal hnum ?_ ha1 ha2
    exact ⟨hs, rfl, rfl⟩

theorem insnRel_st (hcode : m₁.insn.code = .st .mem size) (hd : s.Readable m₁.insn.dstReg)
    (hc : checkMemAccess cfg s m₁.insn.dstReg m₁.insn.off.toInt size .write none = .ok s') :
    InsnRel cfg L₁ L₂ (.goto (m₁.pc + 1) s') m₁ m₂ := by
  obtain ⟨tgt, ha1, ha2, hok⟩ := checkMemAccess_reg h hmap hd hc
  refine ⟨?_, ?_, ?_, ?_⟩
  · simpa [reads, hcode] using h.written hd
  · simpa [accesses, hcode, ha1] using hok.accessOk h
  · simp [isCall, hcode]
  · intro _ P arrays₁ arrays₂ _ env
    rw [hinsn]
    simp only [exec, hcode]
    refine hok.doStore_outcome h hal hnum ?_ ha1 ha2
    exact rfl

theorem insnRel_xadd (hcode : m₁.insn.code = .stx .xadd size)
    (hc : checkXadd cfg s m₁.insn size = .ok s') :
    InsnRel cfg L₁ L₂ (.goto (m₁.pc + 1) s') m₁ m₂ := by
  simp only [checkXadd, ok_iff, not_or, not_and, not_not] at hc
  obtain ⟨-, ⟨hsize, -⟩, s₁, hs, s₂, hd, s₃, hread, hwrite⟩ := hc
  obtain ⟨rfl, hs⟩ := checkRegArg_src hs
  obtain ⟨rfl, hd⟩ := checkRegArg_src hd
  obtain ⟨tgt, ha1, ha2, hok⟩ := checkMemAccess_reg h hmap hd hread
  obtain ⟨r, rfl, -⟩ := hok.tracks_load h hal.heap
  obtain ⟨tgt', hb1, hb2, hok'⟩ := checkMemAccess_reg h hmap hd hwrite
  refine ⟨?_, ?_, ?_, ?_⟩
  · simpa [reads, hcode] using ⟨h.written hd, h.written hs⟩
  · have haccess := hok'.accessOk h
    rw [← hb1, ha1] at haccess
    simpa [accesses, hcode, ha1] using ⟨hok.accessOk h, haccess⟩
  · simp [isCall, hcode]
  intro hfree P arrays₁ arrays₂ _ env
  obtain ⟨hsrc, hstack⟩ := hfree.xadd size hcode
  have hword : m₁.loadAt size.bytes tgt = m₂.loadAt size.bytes tgt := by
    cases hok with
    | val v i hsize hleak hs => simp [loadAt, hal.heap]
    | ctx i hvalid hleak hs => simp [loadAt, hal.heap]
    | stack off hlo hhi halign hwrite hread =>
      refine hstack (stackIdx off) ?_
      rw [ha1, Layout.target, fp_add_ofInt hlo]
      have := stackIdx_add_le hhi halign
      have := size.bytes_pos
      exact stackOff_stackAddr (by omega)
  have ho : OutcomeRel L₁ L₂ P (.goto (m₁.pc + 1) s') m₁ m₂
        (m₁.doXadd L₁ m₁.insn size) (m₂.doXadd L₂ m₁.insn size) := by
    unfold doXadd
    rw [ha1, ha2, hok.load_eq m₁, hok.load_eq m₂, hword]
    refine hok'.doStore_outcome h hal hnum ?_ hb1 hb2
    rw [StoredRel, hsrc]
  rw [hinsn]
  cases size with
  | w | dw => simpa only [exec, hcode] using ho
  | h | b => exact absurd (hsize (by decide)) (by decide)

theorem insnRel_call (hcode : m₁.insn.code = .jmp .call .k)
    (hc : checkCall cfg s m₁.insn.imm = .ok s') :
    InsnRel cfg L₁ L₂ (.goto (m₁.pc + 1) s') m₁ m₂ := by
  obtain ⟨hok, hargs⟩ := checkCall_callOk hnum hmap h hc
  refine ⟨?_, ?_, fun _ => hok, ?_⟩
  · obtain ⟨fn, hfn, -⟩ := hok
    simp only [reads, hcode, hfn, Option.elim_some]
    exact hargs fn hfn
  · simp [accesses, hcode]
  intro _ P arrays₁ arrays₂ harr env
  rw [hinsn]
  simp only [exec, hcode]
  split
  · next htail =>
    obtain ⟨m₁', m₂', h1, h2, hal', hd⟩ := checkCall_tailCall_rel hnum hmap h hal harr htail hc
    rw [h1, h2]
    rcases hd with ⟨hd, hp1, hp2, hpc⟩ | hd
    · exact ⟨hal', Or.inl ⟨s', by simp [Next.targets, hpc], hd, hp1, hp2⟩⟩
    · exact ⟨hal', Or.inr hd⟩
  · obtain ⟨m₁', m₂', h1, h2, hd, hal', hp1, hp2, hpc⟩ :=
      checkCall_call_rel hnum hmap h hal env hc
    rw [h1, h2]
    exact ⟨hal', Or.inl ⟨s', by simp [Next.targets, hpc], hd, hp1, hp2⟩⟩

omit hinsn

/-- A checked instruction executes as the check says in a state that tracks two machines. -/
theorem checkInsn_rel {isMap : BitVec 64 → Prop} (hprog : ProgOk isMap m₁.prog)
    (hp : ProgRel L₁ L₂ m₁.prog m₂.prog) (hin : InProg m₁.prog m₁.pc) {mark : Option RegType}
    (hc : checkInsn cfg m₁.prog 0 m₁.pc s = .ok (next, mark)) : InsnRel cfg L₁ L₂ next m₁ m₂ := by
  have hinsn (hcode : ∀ size, m₁.insn.code ≠ .ld .imm size) : m₂.insn = m₁.insn := by
    unfold insn fetch
    rw [← hal.pc]
    exact hp.insn m₁.pc.toNat hcode
  unfold checkInsn at hc
  rw [show fetch m₁.prog m₁.pc = m₁.insn from rfl] at hc
  dsimp only at hc
  split at hc <;> simp only [ok_iff, Prod.mk.injEq, not_or, not_not,
    Bool.not_eq_true, reduceCtorEq] at hc
  case h_13 size hcode =>
    obtain ⟨s', himm, rfl, -⟩ := hc
    have hld : size = .dw → LdImmRel L₁ L₂ m₁.insn (fetch m₁.prog (m₁.pc + 1)) m₂.insn
            (fetch m₂.prog (m₂.pc + 1)) := by
      rintro rfl
      have hsnd : (m₁.pc + 1).toNat = m₁.pc.toNat + 1 := by
        have := hin.1
        omega
      unfold insn fetch
      rw [← hal.pc, hsnd]
      exact hp.ldImm m₁.pc.toNat hcode
    have ho := fun P => ldImm_outcome_rel (P := P) h hal hld himm
    obtain ⟨rfl, -⟩ := ho fun _ _ => True
    have hcode2 : m₂.insn.code = .ld .imm .dw := (hld rfl).code.trans hcode
    refine ⟨?_, ?_, ?_, ?_⟩
    · simp [reads, hcode]
    · simp [accesses, hcode]
    · simp [isCall, hcode]
    · intro _ P arrays₁ arrays₂ _ env
      simp only [exec, hcode, hcode2]
      exact (ho P).2
  all_goals have hinsn := hinsn (by simp [‹m₁.insn.code = _›])
  case h_1 op src hcode =>
    obtain ⟨s', halu, rfl, -⟩ := hc
    exact insnRel_alu hnum h hal hinsn false hcode halu
  case h_2 op src hcode =>
    obtain ⟨s', halu, rfl, -⟩ := hc
    exact insnRel_alu hnum h hal hinsn true hcode halu
  case h_3 mode size hcode =>
    obtain rfl := hprog.ldx m₁.pc.toNat mode size hcode
    obtain ⟨s₁, hsrc, s₂, hdst, s', hmem, rfl, -⟩ := hc
    obtain ⟨rfl, hr⟩ := checkRegArg_src hsrc
    obtain ⟨rfl, hw⟩ := checkRegArg_dstNoMark hdst
    exact insnRel_ldx h hal hinsn hmap hcode hr hw hmem
  case h_4 size hcode =>
    obtain ⟨s', hxadd, rfl, -⟩ := hc
    exact insnRel_xadd hnum h hal hinsn hmap hcode hxadd
  case h_5 mode size hne hcode =>
    obtain rfl : mode = .mem := by
      rcases hprog.stx m₁.pc.toNat mode size hcode with hm | hm
      · exact hm
      · exact absurd hm hne
    obtain ⟨s₁, hsrc, s₂, hdst, s', hmem, rfl, -⟩ := hc
    obtain ⟨rfl, hs⟩ := checkRegArg_src hsrc
    obtain ⟨rfl, hd⟩ := checkRegArg_src hdst
    exact insnRel_stx hnum h hal hinsn hmap hcode hs hd hmem
  case h_6 mode size hcode =>
    obtain ⟨-, ⟨rfl, -⟩, s₁, hdst, s', hmem, rfl, -⟩ := hc
    obtain ⟨rfl, hd⟩ := checkRegArg_src hdst
    exact insnRel_st hnum h hal hinsn hmap hcode hd hmem
  case h_7 src hcode =>
    obtain ⟨-, ⟨rfl, -⟩, s', hcall, rfl, -⟩ := hc
    exact insnRel_call hnum h hal hinsn hmap hcode hcall
  case h_8 src hcode =>
    obtain ⟨-, ⟨rfl, -⟩, rfl, -⟩ := hc
    refine ⟨?_, ?_, ?_, ?_⟩
    · simp [reads, hcode]
    · simp [accesses, hcode]
    · simp [isCall, hcode]
    · intro _ P arrays₁ arrays₂ _ env
      rw [hinsn]
      simp only [exec, hcode]
      exact .goto h hal ⟨rfl, rfl⟩ rfl
  case h_9 src hcode =>
    obtain ⟨-, ⟨rfl, -⟩, s₁, hsrc, -, hptr, rfl, -⟩ := hc
    obtain ⟨rfl, hr⟩ := checkRegArg_src hsrc
    refine ⟨?_, ?_, ?_, ?_⟩
    · simpa [reads, hcode] using h.written hr
    · simp [accesses, hcode]
    · simp [isCall, hcode]
    · intro _ P arrays₁ arrays₂ _ env
      rw [hinsn]
      simp only [exec, hcode]
      exact ⟨by rw [h.number hnum hr.1 hptr], hal.heap⟩
  case h_10 op src hcall hja hexit hcode =>
    obtain ⟨next', hjmp, rfl, -⟩ := hc
    exact insnRel_condJmp hnum h hal hinsn hcode ⟨hcall, hja, hexit⟩ hjmp
  case h_11 size hcode =>
    obtain ⟨s', hldabs, rfl, -⟩ := hc
    exact insnRel_ldPkt h hal hinsn (.inl rfl) hcode hldabs
  case h_12 size hcode =>
    obtain ⟨s', hldind, rfl, -⟩ := hc
    exact insnRel_ldPkt h hal hinsn (.inr rfl) hcode hldind

end Insn

section Outcome

variable {W : World} {ctxSize : Nat} (L : Layout W ctxSize)

/-- The machine is at a point that the check goes on with. -/
def Lands (next : Next) (m m' : Machine W) : Prop :=
  ∃ st, (m'.pc, st) ∈ next.targets ∧ Describes L st m' ∧ m'.prog = m.prog

/-- The machine is on entry of a program of an array. -/
def Restarts (arrays : ProgArrays W) (m' : Machine W) : Prop :=
  (∃ k i, arrays k i = some m'.prog) ∧ Describes L initRegState m' ∧ m'.pc = 0

/-- The outcomes that the check of an instruction allows. -/
def OutcomeOk (arrays : ProgArrays W) (next : Next) (m : Machine W) : Outcome W → Prop
  | .next m' => Lands L next m m' ∨ Restarts L arrays m'
  | .wild => False
  | _ => True

end Outcome

variable {W : World} {cfg : Cfg} {L : Layout W cfg.ops.ctxSize} {s : VState} {m : Machine W}
  {next : Next}

/-- What the check says about the execution. -/
structure InsnChecked (cfg : Cfg) (L : Layout W cfg.ops.ctxSize)
    (next : Next) (m : Machine W) : Prop where
  reads : ∀ r ∈ m.insn.reads cfg.ops, m.regW r = true
  accesses : ∀ p ∈ m.accesses m.insn, AccessOk cfg.ops L m p.1 p.2.1 p.2.2
  call : m.insn.isCall = true → CallOk cfg.ops L m m.insn.imm.toNat
  notWild : ∀ env arrays, m.exec L env arrays m.insn ≠ .wild
  outcome :
    m.insn.isNegMov32 = false → ∀ env arrays, OutcomeOk L arrays next m (m.exec L env arrays m.insn)

/-- With one machine for both, no step lets an address into a number. -/
theorem LeakFree.refl (hneg : m.insn.isNegMov32 = false) : LeakFree L m m :=
  ⟨hneg, fun _ _ => rfl, fun _ _ => ⟨rfl, fun _ _ => rfl⟩, fun _ _ => rfl⟩

theorem OutcomeRel.outcomeOk {arrays : ProgArrays W} {o : Outcome W}
    (h : OutcomeRel L L (fun p _ => ∃ k i, arrays k i = some p) next m m o o) :
    OutcomeOk L arrays next m o := by
  cases o with
  | next m' =>
    obtain ⟨-, ⟨st, hst, htr, hp, -⟩ | ⟨harr, htr, hpc⟩⟩ := h
    · exact .inl ⟨st, hst, describes_iff.mpr htr, hp⟩
    · exact .inr ⟨harr, describes_iff.mpr htr, hpc⟩
  | wild => exact h
  | _ => trivial

theorem checkInsn_ok (hmap : cfg.map = L.mapOf) (hprog : ProgOk (fun a => ∃ k, a = L.map k) m.prog)
    (hin : InProg m.prog m.pc) (h : Describes L s m) {mark : Option RegType}
    (hc : checkInsn cfg m.prog 0 m.pc s = .ok (next, mark)) : InsnChecked cfg L next m := by
  have hrel : InsnRel cfg L L next m m :=
    checkInsn_rel (.inr rfl) (describes_iff.mp h) ⟨rfl, rfl, rfl⟩ hmap hprog hprog.progRel hin hc
  have harr : ∀ arrays : ProgArrays W,
      ArraysRel (fun p _ => ∃ k i, arrays k i = some p) arrays arrays := by
    intro arrays k i
    cases hp : arrays k i with
    | none => exact .inl ⟨rfl, rfl⟩
    | some p => exact .inr ⟨p, p, rfl, rfl, k, i, hp⟩
  have ho := fun hneg env arrays =>
    (hrel.outcome (.refl hneg) _ arrays arrays (harr arrays) env).outcomeOk
  refine ⟨hrel.reads, hrel.accesses, hrel.call, ?_, ho⟩
  intro env arrays hwild
  by_cases hneg : m.insn.isNegMov32 = false
  · have hok := ho hneg env arrays
    rw [hwild] at hok
    exact hok
  · simp only [isNegMov32, Bool.not_eq_false, Bool.and_eq_true, decide_eq_true_eq] at hneg
    simp only [exec, hneg.1] at hwild
    exact finishAlu_ne_wild _ hwild

end LinuxKernel.Bpf
