import LinuxKernel.Bpf.SkbRun

/-!
# Converted filters simulate classic filters

The machine of a converted filter follows the classic machine instruction by instruction.  A is the
lower half of R0, X that of R7, and the upper halves are zero; the context stays in R6, and the 16
words of memory are at the end of the stack.  By `check_load_and_stores()` no word is loaded that
the filter has not stored.
-/

namespace LinuxKernel.Bpf

open Lib List BitVec Machine

theorem toNat_setWidth_64 (a : BitVec 32) : (a.setWidth 64).toNat = a.toNat :=
  toNat_setWidth_of_le (by decide)

theorem setWidth_64_inj {a b : BitVec 32} : a.setWidth 64 = b.setWidth 64 ↔ a = b := by
  constructor
  · intro h
    simpa using congrArg (BitVec.setWidth 32) h
  · rintro rfl
    rfl

theorem alu32_classic {op : AluOp} {src : Src} (hop : op.classic src = true) (imm a b : BitVec 32)
    {b' : BitVec 64} (hb : b'.setWidth 32 = b) (hx : src = .x → b' = b.setWidth 64)
    (hk : src = .k → (op = .div ∨ op = .mod) → b ≠ 0) :
    alu32 op src imm (a.setWidth 64) b' = match classicAlu op a b with
      | some v => .val (v.setWidth 64)
      | none => .ret0 := by
  have ha : (a.setWidth 64).setWidth 32 = a := by simp
  have hzero : src = .x → (b' = 0 ↔ b = 0) := by
    intro hsrc
    constructor
    · intro h
      rw [← hb, h]
      rfl
    · intro h
      rw [hx hsrc, h]
      rfl
  cases op with
  | div | mod =>
    simp only [alu32, classicAlu, ha, hb]
    cases src with
    | x =>
      by_cases hz : b = 0
      · rw [if_pos ⟨rfl, (hzero rfl).mpr hz⟩, if_pos hz]
      · rw [if_neg (fun h => hz ((hzero rfl).mp h.2)), if_neg hz, if_neg hz]
    | k =>
      have hz := hk rfl (by simp)
      rw [if_neg (fun h => by cases h.1), if_neg hz, if_neg hz]
  | neg =>
    cases src with
    | x => cases hop
    | k => simp only [alu32, classicAlu, ha, if_true]
  | mov | arsh | end_ | opE0 | opF0 => cases src <;> cases hop
  | _ => simp only [alu32, classicAlu, ha, hb]

theorem jmpCond_classic {op : JmpOp} (hop : op.classic = true) (a b : BitVec 32) :
    jmpCond op (a.setWidth 64) (b.setWidth 64) = some (classicCond op a b) := by
  have ha := toNat_setWidth_64 a
  have hb := toNat_setWidth_64 b
  rcases JmpOp.classic_cases hop with rfl | rfl | rfl | rfl
  · refine congrArg some ?_
    rw [classicCond, Bool.eq_iff_iff, beq_iff_eq, beq_iff_eq]
    exact setWidth_64_inj
  · simp only [jmpCond, classicCond, BitVec.ult, ha, hb]
  · simp only [jmpCond, classicCond, BitVec.ule, ha, hb]
  · refine congrArg some ?_
    rw [classicCond, Bool.eq_iff_iff, bne_iff_ne, bne_iff_ne, ← setWidth_and, not_iff_not]
    exact setWidth_64_inj (b := 0)

theorem jmpCond_jne (a b : BitVec 32) :
    jmpCond .jne (a.setWidth 64) (b.setWidth 64) = some (!classicCond .jeq a b) := by
  have h := @jmpCond_classic .jeq rfl a b
  simp only [jmpCond, Option.some.injEq] at h
  simp only [jmpCond, bne, h]

theorem setWidth_32_64 {w : Nat} (hw : w ≤ 32) (x : BitVec w) :
    (x.setWidth 32).setWidth 64 = x.setWidth 64 :=
  setWidth_setWidth (by omega)

variable {x : BitVec 16}

theorem bswap16_bswap16 : bswap16 (bswap16 x) = x := by
  apply eq_of_getLsbD_eq
  intro i hi
  unfold bswap16
  simp only [getLsbD_append, getLsbD_extractLsb']
  by_cases h : i < 8
  · simp [h, show 8 + i - 8 = i by omega]
  · simp [h, show i - 8 < 8 by omega, show 8 + (i - 8) = i by omega]

theorem vlanTag_setWidth :
    x.setWidth 32 &&& ~~~ vlanTagPresent = (x &&& ~~~ 0x1000).setWidth 32 := by
  have hbits : ∀ i < 16, (~~~ vlanTagPresent).getLsbD i = (~~~ (0x1000 : BitVec 16)).getLsbD i := by
    decide
  apply eq_of_getLsbD_eq
  intro i hi
  rw [getLsbD_and, getLsbD_setWidth, getLsbD_setWidth, getLsbD_and]
  by_cases h : i < 16
  · rw [hbits i h]
    simp [hi]
  · rw [getLsbD_of_ge x i (by omega)]
    simp

theorem vlanTagPresent_bit :
    (x.setWidth 32 >>> (12 % 32)) &&& 1 = if x &&& 0x1000 = 0 then 0 else (1 : BitVec 32) := by
  have hbit : x &&& 0x1000 = if x.getLsbD 12 then 0x1000 else 0 := and_twoPow x 12
  have hlow : x.setWidth 32 >>> 12 &&& 1 = .setWidth 32 (.ofBool (x.getLsbD 12)) := by
    refine and_one_eq_setWidth_ofBool_getLsbD.trans ?_
    rw [getLsbD_ushiftRight, getLsbD_setWidth]
    rfl
  rw [hbit, hlow]
  cases x.getLsbD 12 <;> rfl

section Frame

variable {W : World} {m m' m'' : Machine W}

/-- What the code of one instruction leaves alone, unless it stores. -/
structure Frame (m m' : Machine W) : Prop where
  prog : m'.prog = m.prog
  heap : m'.heap = m.heap
  stack : m'.stack = m.stack
  ctx : m'.regs 6 = m.regs 6
  fp : m'.regs 10 = m.regs 10

theorem Frame.trans (h : Frame m m') (h' : Frame m' m'') : Frame m m'' :=
  ⟨h'.prog.trans h.prog, h'.heap.trans h.heap, h'.stack.trans h.stack,
    h'.ctx.trans h.ctx, h'.fp.trans h.fp⟩

variable (m) (d : Int) (r : Nat) (v : BitVec 64)

theorem Frame.advance : Frame m (m.advance d) :=
  ⟨rfl, rfl, rfl, rfl, rfl⟩

@[simp] theorem Machine.advance_pc : (m.advance d).pc = m.pc + d + 1 :=
  rfl

@[simp] theorem Machine.advance_regs : (m.advance d).regs = m.regs :=
  rfl

@[simp] theorem Machine.setReg_pc : (m.setReg r v).pc = m.pc :=
  rfl

@[simp] theorem Machine.setReg_self : (m.setReg r v).regs r = v :=
  if_pos rfl

variable {r}

theorem Machine.setReg_ne {i : Nat} (h : i ≠ r) : (m.setReg r v).regs i = m.regs i :=
  if_neg h

theorem Frame.setReg (hctx : 6 ≠ r) (hfp : 10 ≠ r) : Frame m ((m.setReg r v).advance 0) :=
  ⟨rfl, rfl, rfl, m.setReg_ne v hctx, m.setReg_ne v hfp⟩

end Frame

theorem memBit_eq (k : BitVec 32) : memBit k = BitVec.twoPow 16 k.toNat :=
  (twoPow_eq 16 k.toNat).symm

variable {W : World} {n : Nat}

/-- An accepted filter, its conversion, and a packet in memory. -/
structure Converted (o : SkbOffsets) (L : Layout W n)
    (filter : List SockFilter) (skb : Skb) (prog : List Insn)
    (heap : Heap W) (valid : Nat → BitVec 16) : Prop where
  ok : FilterOk filter
  placed : Placed o filter prog
  skb : SkbAt o L skb heap
  mem : ∀ i < filter.length, MemOk valid i (filter.getD i default)

/-- Cell `k` of the memory in the stack frame. -/
def memIdx (k : Nat) : Nat :=
  maxBpfStack - 4 * bpfMemwords + 4 * k

/-- The machine is where the classic machine is. -/
structure Sim (o : SkbOffsets) (L : Layout W n) (filter : List SockFilter)
    (prog : List Insn) (heap : Heap W) (valid : Nat → BitVec 16)
    (s : ClassicState) (m : Machine W) : Prop where
  inside : s.pc < filter.length
  pc : m.pc = codeAddr o filter s.pc
  prog : m.prog = prog
  heap : m.heap = heap
  a : m.regs 0 = s.a.setWidth 64
  x : m.regs 7 = s.x.setWidth 64
  ctx : m.regs 6 = L.ctx
  fp : m.regs 10 = L.fp
  mem : ∀ k < bpfMemwords, (valid s.pc).getLsbD k = true →
      loadLE m.stack (memIdx k) 4 = (s.mem k).setWidth 64

variable {o : SkbOffsets} {L : Layout W n} {filter : List SockFilter}
  {skb : Skb} {fns : Int → AncFns} {prog : List Insn} {heap : Heap W}
  {valid : Nat → BitVec 16} {s : ClassicState} {m m' : Machine W}

/-- The instruction that the classic machine is at. -/
def ClassicState.insn (filter : List SockFilter) (s : ClassicState) : SockFilter :=
  filter.getD s.pc default

/-- The instruction that the classic machine is at is converted to `b`. -/
def Emits (o : SkbOffsets) (filter : List SockFilter) (s : ClassicState) (b : List Insn) : Prop :=
  convertInsn o (some (addrTable o filter)) filter.length s.pc (s.insn filter) = .ok b

theorem ClassicState.step_eq {code : Code} (hop : (s.insn filter).op = some code) (skb : Skb)
    (anc : Nat → AncData) : s.step filter skb anc = s.exec skb (anc s.pc) (s.insn filter) code := by
  have hcode : (filter.getD s.pc default).op = some code := hop
  simp only [ClassicState.step, hcode]
  rfl

/-- The run of the converted filter does what the classic machine does. -/
def Simulates (o : SkbOffsets) (L : Layout W n) (filter : List SockFilter)
    (fns : Int → AncFns) (prog : List Insn) (heap : Heap W)
    (valid : Nat → BitVec 16) (m : Machine W) : ClassicOutcome → Prop
  | .next s' =>
    ∃ m', Reaches L fns m m' ∧ Sim o L filter prog heap valid s' m'
  | .ret v => Returns L fns m v

variable {i t idx j : Nat} {b rest : List Insn} {a x : BitVec 32} {insn insn₁ insn₂ : Insn}
  {size : Size} {off : BitVec 16} {dst : Fin 16} {v : BitVec 64} {k : BitVec 32} {op : AluOp}
  {src : Src}

theorem FilterOk.succ_lt (hf : FilterOk filter) (hi : i < filter.length)
    (ht : t ∈ classicSuccs i (filter.getD i default) (filter.getD i default).op) :
    t < filter.length := by
  obtain ⟨code, hop, hallowed, hspecial⟩ := hf.insn i hi
  obtain ⟨r, hlast⟩ := hf.last
  -- the last instruction returns, so it has no instruction behind it
  have hbehind : (∀ r, code ≠ .ret r) → i + 1 < filter.length := by
    intro hret
    by_contra hge
    obtain rfl : i = filter.length - 1 := by omega
    rw [hop] at hlast
    exact hret r (Option.some.inj hlast)
  rw [hop] at ht
  cases hallowed with
  | retK | retA => cases ht
  | ja =>
    rw [classicSuccs, mem_singleton] at ht
    have : ¬ filter.length - i - 1 ≤ (filter.getD i default).k.toNat :=
      (rejectIf_eq_ok _ _ _).mp hspecial
    omega
  | @cond op src hclassic =>
    obtain ⟨hjt, hjf⟩ := checkSpecial_cond hclassic hspecial
    rw [classicSuccs_cond hclassic, mem_cons, mem_singleton] at ht
    omega
  | _ =>
    have := hbehind (by intro r hr; cases hr)
    obtain rfl := mem_singleton.mp ht
    exact this

theorem FilterOk.jmpOff (hf : FilterOk filter) (hi : i < filter.length) (ht : t < filter.length)
    (hidx : idx ≤ 2)
    (h : emitJmp (some (addrTable o filter)) filter.length i (t : Int) idx = .ok off) :
    ((codeAddr o filter i + idx : Nat) : Int) + off.toInt + 1 = codeAddr o filter t := by
  have hmax := hf.max
  have hlei := codeAddr_le (o := o) hf (le_of_lt hi)
  have hlet := codeAddr_le (o := o) hf (le_of_lt ht)
  unfold bpfMaxInsns at hmax
  have hoff := emitJmp_toInt h
  rw [addrTable_eq hi, addrTable_eq ht] at hoff
  rw [hoff (by omega) (by omega)]
  push_cast
  omega

/-- The instruction does not jump, return or store. -/
def Plain (filter : List SockFilter) (valid : Nat → BitVec 16) (s : ClassicState) : Prop :=
  classicSuccs s.pc (s.insn filter) (s.insn filter).op = [s.pc + 1] ∧
    memOut (valid s.pc) (s.insn filter) (s.insn filter).op = valid s.pc

theorem Plain.of_op {code : Code} (hop : (s.insn filter).op = some code)
    (hsucc : classicSuccs s.pc (s.insn filter) (some code) = [s.pc + 1])
    (hout : memOut (valid s.pc) (s.insn filter) (some code) = valid s.pc) :
    Plain filter valid s := by
  rw [← hop] at hsucc hout
  exact ⟨hsucc, hout⟩

theorem memOff_signExtend (hk : k.toNat < bpfMemwords) :
    (memOff k).signExtend 64 = BitVec.ofInt 64 (4 * (k.toNat : Int) - 64) := by
  have hall : ∀ j < 16, (memOff (.ofNat 32 j)).signExtend 64 = .ofInt 64 (4 * (j : Int) - 64) := by
    decide
  have := hall k.toNat hk
  rwa [ofNat_toNat, setWidth_eq] at this

theorem locate_mem (hfp : m.regs 10 = L.fp) (hk : k.toNat < bpfMemwords) :
    L.locate (m.regs 10 + (memOff k).signExtend 64) 4 = some (.stack, memIdx k.toNat) := by
  have hidx : stackIdx (4 * (k.toNat : Int) - 64) = memIdx k.toNat := by
    unfold stackIdx memIdx maxBpfStack bpfMemwords
    omega
  have hbound : memIdx k.toNat + 4 ≤ maxBpfStack := by
    unfold memIdx maxBpfStack bpfMemwords at *
    omega
  rw [hfp, memOff_signExtend hk, ← hidx]
  refine locate_stack ?_ (by decide) (by rw [hidx]; exact hbound)
  unfold maxBpfStack
  omega

section Exec

variable (L fns)

theorem exec_mov32Imm (dst : Fin 16) (imm : BitVec 32) :
    m.skbExec L fns (mov32Imm dst imm) = .next ((m.setReg dst (imm.setWidth 64)).advance 0) := by
  have himm := setWidth_imm64 (mov32Imm dst imm)
  change Outcome.next ((m.setReg dst
    (((mov32Imm dst imm).imm64.setWidth 32).setWidth 64)).advance 0) = _
  rw [himm]
  rfl

theorem exec_ldxMem {src : Fin 16}
    (hload : m.load L (m.regs src + off.signExtend 64) size.bytes = some v) :
    m.skbExec L fns (ldxMem size dst src off) = .next ((m.setReg dst v).advance 0) := by
  simp only [skbExec, exec, ldxMem]
  erw [hload]

theorem exec_mov64Reg (dst src : Fin 16) :
    m.skbExec L fns (mov64Reg dst src) = .next ((m.setReg dst (m.regs src)).advance 0) :=
  rfl

theorem exec_alu32Imm (hop : op.classic .k = true) (hdiv : op ≠ .div ∧ op ≠ .mod)
    {imm v : BitVec 32} (ha : m.regs dst = a.setWidth 64) (hv : classicAlu op a imm = some v) :
    m.skbExec L fns (alu32Imm op dst imm) = .next ((m.setReg dst (v.setWidth 64)).advance 0) := by
  have halu := alu32_classic hop imm a imm (setWidth_imm64 (alu32Imm op dst imm)) (by rintro ⟨⟩)
    (by
      rintro - (rfl | rfl)
      · exact absurd rfl hdiv.1
      · exact absurd rfl hdiv.2)
  rw [hv] at halu
  change m.finishAlu (alu32Imm op dst imm)
    (alu32 op .k imm (m.regs dst) (alu32Imm op dst imm).imm64) = _
  rw [ha, halu]
  rfl

theorem exec_endian (x : BitVec 16)
    (hx : m.regs 0 = (bswap16 x).setWidth 64) :
    m.skbExec L fns (endian .x regA 16) =
      .next ((m.setReg 0 ((x.setWidth 32).setWidth 64)).advance 0) := by
  change Outcome.next ((m.setReg 0 ((bswap16 ((m.regs 0).setWidth 16)).setWidth 64)).advance 0) = _
  have hlow : ((bswap16 x).setWidth 64).setWidth 16 = bswap16 x := by simp
  rw [hx, hlow, bswap16_bswap16, setWidth_32_64 (by decide)]

theorem exec_emitCall (m : Machine W) (fn : AncFn) :
    m.skbExec L fns (emitCall fn.imm) =
      .next ((m.scratch.setReg 0 ((fns m.pc fn (m.regs 2) (m.regs 3)).setWidth 64)).advance 0) := by
  cases fn <;> rfl

end Exec

variable (hc : Converted o L filter skb prog heap valid) (h : Sim o L filter prog heap valid s m)

include h

theorem Sim.load_mem (hk : k.toNat < bpfMemwords) (hvalid : valid s.pc &&& memBit k ≠ 0) :
    m.load L (m.regs 10 + (memOff k).signExtend 64) 4 = some ((s.mem k.toNat).setWidth 64) := by
  unfold load
  rw [locate_mem h.fp hk]
  refine congrArg some (h.mem k.toNat hk ?_)
  by_contra hnot
  rw [memBit_eq, and_twoPow, if_neg hnot] at hvalid
  exact hvalid rfl

theorem Sim.exec_ldxCtx (fns : Int → AncFns) (hfield : FieldAt n heap.ctx off size.bytes v) :
    m.skbExec L fns (ldxMem size dst regCtx off) = .next ((m.setReg dst v).advance 0) := by
  rw [← h.heap] at hfield
  refine exec_ldxMem L fns ?_
  change m.load L (m.regs 6 + _) _ = _
  rw [h.ctx, load, signExtend_of_small hfield.small, locate_ctx size.bytes_pos hfield.inside]
  exact congrArg some hfield.value

theorem Sim.compare (fns : Int → AncFns) {op : JmpOp} (hop : op.classic = true ∨ op = .jne)
    {c : Bool}
    (hcond : jmpCond op (s.a.setWidth 64) ((s.operand (s.insn filter) src).setWidth 64) = some c)
    (hcode : CodeAt m.prog (codeAddr o filter s.pc)
        (cmpPrologue (s.insn filter) src ++ cmpInsn (s.insn filter) op src off :: rest)) :
    ∃ m₁, Reaches L fns m m₁ ∧ Frame m m₁ ∧ m₁.regs 0 = m.regs 0 ∧ m₁.regs 7 = m.regs 7 ∧
      CodeAt m₁.prog (codeAddr o filter s.pc + (cmpPrologue (s.insn filter) src).length + 1) rest ∧
      m₁.pc = ((codeAddr o filter s.pc + (cmpPrologue (s.insn filter) src).length : Nat) : Int) +
        (if c then off.toInt else 0) + 1 := by
  have hexec (m₁ : Machine W) (insn : Insn) (src : Src) (hcode : insn.code = .jmp op src)
      (hcond : jmpCond op (m₁.regs insn.dstReg) (m₁.operand insn src) = some c) :
      m₁.skbExec L fns insn = .next (m₁.advance (if c then insn.off.toInt else 0)) := by
    have hjmp : m₁.skbExec L fns insn = m₁.condJmp insn (some c) := by
      rw [← hcond]
      unfold skbExec exec
      rw [hcode]
      rcases hop with hop | rfl
      · rcases JmpOp.classic_cases hop with rfl | rfl | rfl | rfl <;> rfl
      · rfl
    rw [hjmp]
    cases c <;> rfl
  by_cases htmp : needsTmp (s.insn filter) src = true
  · obtain ⟨hsrc, hneg⟩ := Bool.and_eq_true_iff.mp htmp
    obtain rfl : src = .k := of_decide_eq_true hsrc
    have hpre : cmpPrologue (s.insn filter) .k = [mov32Imm regTmp (s.insn filter).k] :=
      if_pos htmp
    have hcmp : cmpInsn (s.insn filter) op .k off =
          { code := .jmp op .x, dstReg := regA, srcReg := regTmp
            off := off } :=
      if_pos htmp
    rw [hpre, hcmp] at hcode
    obtain ⟨r₁, c₁, p₁⟩ := hcode.setReg h.pc (exec_mov32Imm L fns regTmp _)
    have r₂ := c₁.next p₁ (hexec _ _ .x rfl (by rw [← hcond, ← h.a]; rfl))
    rw [hpre]
    refine ⟨_, r₁.trans r₂, .trans ?_ (.advance _ _), rfl, rfl, c₁.tail, congrArg (· + _ + 1) p₁⟩
    exact .setReg m _ (by decide) (by decide)
  have hpre : cmpPrologue (s.insn filter) src = [] := if_neg htmp
  have hcmp : cmpInsn (s.insn filter) op src off =
        { code := .jmp op src
          dstReg := regA
          srcReg := if src = .x then regX else 0
          off := off
          imm := (s.insn filter).k } :=
    if_neg htmp
  rw [hpre, hcmp] at hcode
  have hoperand : m.operand
      { code := .jmp op src, dstReg := regA, srcReg := if src = .x then regX else 0, off := off,
        imm := (s.insn filter).k } src = (s.operand (s.insn filter) src).setWidth 64 := by
    cases src with
    | x => exact h.x
    | k =>
      refine signExtend_eq_setWidth_of_msb_false ?_
      rw [msb_eq_toInt]
      refine decide_eq_false fun hneg => ?_
      exact htmp (Bool.and_eq_true_iff.mpr ⟨rfl, decide_eq_true hneg⟩)
  have r₁ := hcode.next h.pc (hexec m _ src rfl (by rw [hoperand, ← hcond, ← h.a]; rfl))
  rw [hpre]
  exact ⟨_, r₁, .advance m _, rfl, rfl, hcode.tail, congrArg (· + _ + 1) h.pc⟩

include hc

theorem Converted.code (hb : Emits o filter s b) :
    CodeAt m.prog (codeAddr o filter s.pc) b ∧
      codeAddr o filter s.pc + b.length = codeAddr o filter (s.pc + 1) := by
  obtain ⟨b', hb', hlen, hfetch⟩ := hc.placed.block s.pc h.inside
  obtain rfl : b' = b := Except.ok.inj (hb'.symm.trans hb)
  refine ⟨?_, hlen⟩
  intro q hq
  rw [h.prog]
  refine ⟨hfetch q hq, ?_⟩
  have hmono : codeAddr o filter (s.pc + 1) ≤ codeAddr o filter filter.length :=
    codeAddr_mono o filter h.inside
  rw [hc.placed.length]
  omega

/-- What is known to be stored at a successor is stored behind the instruction. -/
theorem Converted.mem_of_succ (ht : t ∈ classicSuccs s.pc (s.insn filter) (s.insn filter).op)
    (hv : (valid t).getLsbD j = true) :
    (memOut (valid s.pc) (s.insn filter) (s.insn filter).op).getLsbD j = true :=
  (hc.mem s.pc h.inside).succ t ht j hv

theorem Sim.move (ht : t ∈ classicSuccs s.pc (s.insn filter) (s.insn filter).op)
    (hout : memOut (valid s.pc) (s.insn filter) (s.insn filter).op = valid s.pc)
    (hframe : Frame m m') (hpc : m'.pc = codeAddr o filter t) (ha : m'.regs 0 = a.setWidth 64)
    (hx : m'.regs 7 = x.setWidth 64) :
    Sim o L filter prog heap valid { s with pc := t, a := a, x := x } m' where
  inside := hc.ok.succ_lt h.inside ht
  pc := hpc
  prog := hframe.prog.trans h.prog
  heap := hframe.heap.trans h.heap
  a := ha
  x := hx
  ctx := hframe.ctx.trans h.ctx
  fp := hframe.fp.trans h.fp
  mem := by
    intro k hk hv
    have hsub := hc.mem_of_succ h ht hv
    rw [hout] at hsub
    rw [hframe.stack]
    exact h.mem k hk hsub

/-- What the classic machine sees of the ancillary functions: a call is the last of four
instructions. -/
def ancData (o : SkbOffsets) (filter : List SockFilter) (fns : Int → AncFns) : Nat → AncData :=
  fun i fn a x =>
    fns ((codeAddr o filter i : Int) + 3) fn (a.setWidth 64) (x.setWidth 64)

section Plain

variable (hplain : Plain filter valid s)

include hplain

theorem Sim.plain (hb : Emits o filter s b) (hreach : Reaches L fns m m') (hframe : Frame m m')
    (hpc : m'.pc = ((codeAddr o filter s.pc + b.length : Nat) : Int))
    (ha : m'.regs 0 = a.setWidth 64) (hx : m'.regs 7 = x.setWidth 64) :
    Simulates o L filter fns prog heap valid m
      (.next { s with pc := s.pc + 1, a := a, x := x }) := by
  refine ⟨m', hreach, h.move hc ?_ hplain.2 hframe ?_ ha hx⟩
  · rw [hplain.1]
    exact mem_singleton_self _
  · rw [hpc, (hc.code h hb).2]

theorem Sim.loadA (hb : Emits o filter s [insn])
    (hexec : m.skbExec L fns insn = .next ((m.setReg 0 (a.setWidth 64)).advance 0)) :
    Simulates o L filter fns prog heap valid m (s.loadA (some a)) := by
  obtain ⟨hreach, -, hpc⟩ := (hc.code h hb).1.setReg h.pc hexec
  refine h.plain hc hplain hb hreach (.setReg m _ (by decide) (by decide)) hpc (by simp) ?_
  rw [advance_regs, m.setReg_ne _ (by decide), h.x]

theorem Sim.loadX (hb : Emits o filter s [insn])
    (hexec : m.skbExec L fns insn = .next ((m.setReg 7 (x.setWidth 64)).advance 0)) :
    Simulates o L filter fns prog heap valid m (s.loadX (some x)) := by
  obtain ⟨hreach, -, hpc⟩ := (hc.code h hb).1.setReg h.pc hexec
  refine h.plain hc hplain hb hreach (.setReg m _ (by decide) (by decide)) hpc ?_ (by simp)
  rw [advance_regs, m.setReg_ne _ (by decide), h.a]

theorem Sim.loadPkt (hb : Emits o filter s [insn]) {off : BitVec 32}
    (hsize : size ≠ .dw) (hexec : m.skbExec L fns insn = @loadPkt W (skbOps n) L m off size) :
    Simulates o L filter fns prog heap valid m (s.loadA (skb.pkt off size)) := by
  have hpkt := hc.skb.pkt off size hsize
  rw [← h.heap] at hpkt
  have hcode := (hc.code h hb).1
  unfold Machine.loadPkt at hexec
  rw [if_pos h.ctx, hpkt] at hexec
  cases hval : skb.pkt off size with
  | some v =>
    rw [hval] at hexec
    obtain ⟨hreach, -, hpc⟩ := hcode.advance h.pc hexec rfl (by simp [scratch])
    exact h.plain hc hplain hb hreach ⟨rfl, rfl, rfl, rfl, rfl⟩ hpc rfl h.x
  | none =>
    rw [hval] at hexec
    exact .of_step ((hcode.step_eq h.pc).trans hexec)

theorem Sim.loadA_two (hb : Emits o filter s [insn₁, insn₂])
    (hexec1 : m.skbExec L fns insn₁ = .next ((m.setReg 0 v).advance 0))
    (hexec2 : ((m.setReg 0 v).advance 0).skbExec L fns insn₂ =
        .next ((((m.setReg 0 v).advance 0).setReg 0 (a.setWidth 64)).advance 0)) :
    Simulates o L filter fns prog heap valid m (s.loadA (some a)) := by
  obtain ⟨r₁, c₁, p₁⟩ := (hc.code h hb).1.setReg h.pc hexec1
  obtain ⟨r₂, -, p₂⟩ := c₁.setReg p₁ hexec2
  exact h.plain hc hplain hb (r₁.trans r₂) ⟨rfl, rfl, rfl, rfl, rfl⟩ p₂ rfl h.x

theorem Sim.skbField {field : SkbField}
    (hb : Emits o filter s (convertSkbAccess o field regA regCtx)) :
    Simulates o L filter fns prog heap valid m
      (s.loadA
        (match field with
        | .mark => some skb.mark
        | .pkttype => some ((skb.pktType &&& 7).setWidth 32)
        | .queue => some (skb.queueMapping.setWidth 32)
        | .vlanTag => some ((skb.vlanTci &&& ~~~ 0x1000).setWidth 32)
        | .vlanTagPresent =>
          some (if skb.vlanTci &&& 0x1000 = 0 then 0 else 1))) := by
  cases field with
  | mark => exact h.loadA hc hplain hb (h.exec_ldxCtx fns hc.skb.mark)
  | queue =>
    refine h.loadA hc hplain hb ?_
    rw [setWidth_32_64 (by decide)]
    exact h.exec_ldxCtx fns hc.skb.queueMapping
  | pkttype =>
    refine h.loadA_two hc hplain hb (h.exec_ldxCtx fns hc.skb.pktType)
      (exec_alu32Imm L fns (a := skb.pktType.setWidth 32) rfl (by decide) ?_ ?_)
    · rw [setWidth_32_64 (by decide)]
      rfl
    · rw [setWidth_and]
      rfl
  | vlanTag =>
    refine h.loadA_two hc hplain hb (h.exec_ldxCtx fns hc.skb.vlanTci)
      (exec_alu32Imm L fns (a := skb.vlanTci.setWidth 32) rfl (by decide) ?_ ?_)
    · rw [setWidth_32_64 (by decide)]
      rfl
    · rw [← vlanTag_setWidth]
      rfl
  | vlanTagPresent =>
    obtain ⟨r₁, c₁, p₁⟩ := (hc.code h hb).1.setReg h.pc (h.exec_ldxCtx fns hc.skb.vlanTci)
    obtain ⟨r₂, c₂, p₂⟩ := c₁.setReg p₁
      (exec_alu32Imm L fns (a := skb.vlanTci.setWidth 32) rfl (by decide)
        (by rw [setWidth_32_64 (by decide)]; rfl) rfl)
    obtain ⟨r₃, -, p₃⟩ := c₂.setReg p₂
      (exec_alu32Imm L fns (a := skb.vlanTci.setWidth 32 >>> (12 % 32)) rfl (by decide) rfl rfl)
    refine h.plain hc hplain hb (r₁.trans (r₂.trans r₃)) ⟨rfl, rfl, rfl, rfl, rfl⟩ p₃ ?_ h.x
    rw [← vlanTagPresent_bit]
    rfl

theorem Sim.ancCall {fn : AncFn}
    (hb : Emits o filter s [mov64Reg 1 regCtx, mov64Reg 2 regA, mov64Reg 3 regX, emitCall fn.imm]) :
    Simulates o L filter fns prog heap valid m
      (s.loadA (some (ancData o filter fns s.pc fn s.a s.x))) := by
  obtain ⟨r₁, c₁, p₁⟩ := (hc.code h hb).1.setReg h.pc (exec_mov64Reg L fns 1 regCtx)
  obtain ⟨r₂, c₂, p₂⟩ := c₁.setReg p₁ (exec_mov64Reg L fns 2 regA)
  obtain ⟨r₃, c₃, p₃⟩ := c₂.setReg p₂ (exec_mov64Reg L fns 3 regX)
  obtain ⟨r₄, -, p₄⟩ := c₃.advance p₃ (exec_emitCall L fns _ fn) rfl (by simp [scratch])
  refine h.plain hc hplain hb (r₁.trans (r₂.trans (r₃.trans r₄)))
    ⟨rfl, rfl, rfl, rfl, rfl⟩ p₄ ?_ h.x
  rw [advance_regs, setReg_self, p₃]
  change (fns _ fn (m.regs 0) (m.regs 7)).setWidth 64 = _
  rw [h.a, h.x, ancData]
  push_cast
  rfl

theorem Sim.ancDev (hb : Emits o filter s
        [ldxMem .dw regTmp regCtx o.dev, jmpImm .jne regTmp 0 1, exitInsn,
          ldxMem size regA regTmp off]) {field : NetDev → BitVec 32}
    (hfield : ∀ d dev, FieldAt (W.size n (.val dev)) (heap.val dev) o.netIfindex 4
        (d.ifindex.setWidth 64) →
      FieldAt (W.size n (.val dev)) (heap.val dev) o.netType 2 (d.type.setWidth 64) →
      FieldAt (W.size n (.val dev)) (heap.val dev) off size.bytes ((field d).setWidth 64)) :
    (skb.dev ≠ none → Simulates o L filter fns prog heap valid m (s.loadA (skb.dev.map field))) ∧
      (skb.dev = none → Returns L fns m s.a) := by
  have hdev := hc.skb.dev
  cases hd : skb.dev with
  | some d =>
    refine ⟨fun _ => ?_, nofun⟩
    rw [hd] at hdev
    obtain ⟨dev, hptr, hidx, htype⟩ := hdev
    obtain ⟨r₁, c₁, p₁⟩ := (hc.code h hb).1.setReg h.pc (h.exec_ldxCtx fns hptr)
    have hload : (((m.setReg regTmp (L.val dev)).advance 0).advance 1).load L
        (L.val dev + off.signExtend 64) size.bytes = some ((field d).setWidth 64) := by
      have hat := hfield d dev hidx htype
      rw [← h.heap] at hat
      unfold load
      rw [signExtend_of_small hat.small, locate_val size.bytes_pos hat.inside]
      exact congrArg some hat.value
    generalize hm1 : (m.setReg regTmp (L.val dev)).advance 0 = m₁ at *
    have hexec2 : m₁.skbExec L fns (jmpImm .jne regTmp 0 1) = .next (m₁.advance 1) := by
      rw [← hm1]
      change condJmp _ _ (some (L.val dev != 0)) = _
      rw [(bne_iff_ne).mpr (L.val_ne_zero dev)]
      rfl
    have p₃ : (m₁.advance 1).pc = ((codeAddr o filter s.pc + 1 + 1 + 1 : Nat) : Int) := by
      rw [advance_pc, p₁]
      push_cast
      omega
    have c₃ : CodeAt (m₁.advance 1).prog (codeAddr o filter s.pc + 1 + 1 + 1)
        [ldxMem size regA regTmp off] :=
      c₁.tail.tail
    obtain ⟨r₄, -, p₄⟩ := c₃.setReg p₃ (exec_ldxMem L fns (by rw [← hm1] at hload ⊢; exact hload))
    refine h.plain hc hplain hb (r₁.trans ((c₁.next p₁ hexec2).trans r₄)) ?_ p₄ rfl ?_
    · rw [← hm1]
      exact ⟨rfl, rfl, rfl, rfl, rfl⟩
    · rw [← hm1]
      exact h.x
  | none =>
    refine ⟨fun hne => absurd rfl hne, fun _ => ?_⟩
    rw [hd] at hdev
    obtain ⟨r₁, c₁, p₁⟩ := (hc.code h hb).1.setReg h.pc (h.exec_ldxCtx fns hdev)
    have hexec2 : ((m.setReg regTmp 0).advance 0).skbExec L fns (jmpImm .jne regTmp 0 1) =
          .next (((m.setReg regTmp 0).advance 0).advance 0) :=
      rfl
    obtain ⟨r₂, c₂, p₂⟩ := c₁.advance p₁ hexec2 rfl (by simp)
    exact .of_reaches (r₁.trans r₂) (c₂.exit p₂ h.a)

end Plain

theorem Sim.store (hk : (s.insn filter).k.toNat < bpfMemwords)
    (hsucc : classicSuccs s.pc (s.insn filter) (s.insn filter).op = [s.pc + 1])
    (hout : memOut (valid s.pc) (s.insn filter) (s.insn filter).op =
        valid s.pc ||| memBit (s.insn filter).k) {src : Fin 16}
    (hb : Emits o filter s [stxMem .w regFp src (memOff (s.insn filter).k)]) {v : BitVec 32}
    (hv : m.regs src = v.setWidth 64) :
    Simulates o L filter fns prog heap valid m (s.store (s.insn filter).k v) := by
  generalize hkk : (s.insn filter).k = k at *
  have hstore : m.store L (m.regs 10 + (memOff k).signExtend 64) 4 (m.regs src) =
        some (m.writeStack (memIdx k.toNat) 4 (m.regs src)) := by
    unfold Machine.store
    rw [locate_mem h.fp hk]
  have hexec : m.skbExec L fns (stxMem .w regFp src (memOff k)) =
        .next ((m.writeStack (memIdx k.toNat) 4 (m.regs src)).advance 0) := by
    simp only [skbExec, exec, stxMem, doStore]
    erw [hstore]
  have ht : s.pc + 1 ∈ classicSuccs s.pc (s.insn filter) (s.insn filter).op := by
    rw [hsucc]
    exact mem_singleton_self _
  obtain ⟨hcode, hlen⟩ := hc.code h hb
  refine ⟨_, hcode.next h.pc hexec, ?_⟩
  refine
    { inside := hc.ok.succ_lt h.inside ht
      pc := ?_
      prog := h.prog
      heap := h.heap
      a := h.a
      x := h.x
      ctx := h.ctx
      fp := h.fp
      mem := ?_ }
  · change m.pc + 0 + 1 = _
    rw [h.pc, ← hlen]
    push_cast
    simp
  intro j hj hvalid
  change loadLE (storeLE m.stack (memIdx k.toNat) 4 (m.regs src))
      (memIdx j) 4 = BitVec.setWidth 64 (if j = k.toNat then v else s.mem j)
  by_cases hjk : j = k.toNat
  · subst hjk
    rw [if_pos rfl, loadLE_storeLE (by decide), hv]
    simp
  · rw [if_neg hjk, loadLE_storeLE_disjoint (by unfold memIdx; omega)]
    refine h.mem j hj ?_
    have hsub := hc.mem_of_succ h ht hvalid
    rw [hout, memBit_eq, getLsbD_or, getLsbD_twoPow, decide_eq_false (Ne.symm hjk)] at hsub
    simpa using hsub

theorem Sim.alu (hop : (s.insn filter).op = some (.alu op src)) (hclassic : op.classic src = true)
    (hspecial : checkSpecial filter.length s.pc (s.insn filter) (.alu op src) = .ok ()) :
    Simulates o L filter fns prog heap valid m
      (s.loadA (classicAlu op s.a (s.operand (s.insn filter) src))) := by
  have hb : Emits o filter s [rawInsn (.alu op src) (s.insn filter).k] := by
    rw [Emits, convertInsn, hop]
    exact if_pos hclassic
  have hplain : Plain filter valid s := .of_op hop rfl rfl
  have hoperand : (m.operand (rawInsn (.alu op src) (s.insn filter).k) src).setWidth 32 =
        s.operand (s.insn filter) src := by
    cases src with
    | x =>
      change (m.regs 7).setWidth 32 = s.x
      rw [h.x]
      simp
    | k => exact setWidth_imm64 _
  have hexec : m.skbExec L fns (rawInsn (.alu op src) (s.insn filter).k) =
        m.finishAlu (rawInsn (.alu op src) (s.insn filter).k)
          (match classicAlu op s.a (s.operand (s.insn filter) src) with
          | some v => .val (v.setWidth 64)
          | none => .ret0) := by
    rw [← alu32_classic hclassic (s.insn filter).k s.a _ hoperand ?_ ?_, ← h.a]
    · rfl
    · rintro rfl
      exact h.x
    · rintro rfl (rfl | rfl)
      all_goals exact (rejectIf_eq_ok _ _ _).mp hspecial
  cases hval : classicAlu op s.a (s.operand (s.insn filter) src) with
  | some v =>
    rw [hval] at hexec
    exact h.loadA hc hplain hb hexec
  | none =>
    rw [hval] at hexec
    exact .of_step (((hc.code h hb).1.step_eq h.pc).trans hexec)

theorem Sim.ldxMsh (hop : (s.insn filter).op = some (.ldx .msh .b)) :
    Simulates o L filter fns prog heap valid m
      (s.loadX ((skb.pkt (s.insn filter).k .b).map mshValue)) := by
  have hb : Emits o filter s [mov64Reg regTmp regA, ldAbs .b (s.insn filter).k,
          alu32Imm .and regA 0xf, alu32Imm .lsh regA 2, mov64Reg regX regA,
          mov64Reg regA regTmp] := by
    rw [Emits, convertInsn, hop]
    rfl
  have hplain : Plain filter valid s := .of_op hop rfl rfl
  -- tmp = A
  obtain ⟨r₁, c₁, p₁⟩ := (hc.code h hb).1.setReg h.pc (exec_mov64Reg L fns regTmp regA)
  generalize hm1 : (m.setReg regTmp (m.regs regA)).advance 0 = m₁ at *
  have hpkt := hc.skb.pkt (s.insn filter).k .b (by decide)
  have hheap1 : m₁.heap = heap := by
    rw [← hm1]
    exact h.heap
  have hctx1 : m₁.regs 6 = L.ctx := by
    rw [← hm1]
    exact h.ctx
  have hexec2 : m₁.skbExec L fns (ldAbs .b (s.insn filter).k) =
      ((skb.pkt (s.insn filter).k .b).map (BitVec.setWidth 64)).elim (.ret 0 m₁)
        fun v => .next ((m₁.scratch.setReg 0 v).advance 0) := by
    change @Machine.loadPkt W (skbOps n) L m₁ (s.insn filter).k .b = _
    unfold Machine.loadPkt
    cases hval : skb.pkt (s.insn filter).k .b with
    | none | some => simp [hctx1, hheap1, hpkt, hval]
  cases hval : skb.pkt (s.insn filter).k .b with
  | none =>
    rw [hval] at hexec2
    exact .of_reaches r₁ (.of_step ((c₁.step_eq p₁).trans hexec2))
  | some v =>
    rw [hval] at hexec2
    -- A = byte; A &= 0xf; A <<= 2; X = A; A = tmp
    obtain ⟨r₂, c₂, p₂⟩ := c₁.advance p₁ hexec2 rfl (by simp [Machine.scratch])
    obtain ⟨r₃, c₃, p₃⟩ := c₂.setReg p₂ (exec_alu32Imm L fns (a := v) rfl (by decide) rfl rfl)
    obtain ⟨r₄, c₄, p₄⟩ := c₃.setReg p₃
      (exec_alu32Imm L fns (a := v &&& 0xf) rfl (by decide) rfl rfl)
    obtain ⟨r₅, c₅, p₅⟩ := c₄.setReg p₄ (exec_mov64Reg L fns regX regA)
    obtain ⟨r₆, -, p₆⟩ := c₅.setReg p₅ (exec_mov64Reg L fns regA regTmp)
    refine h.plain hc hplain hb
      (r₁.trans (r₂.trans (r₃.trans (r₄.trans (r₅.trans r₆))))) ?_ p₆ ?_ rfl
    · rw [← hm1]
      exact ⟨rfl, rfl, rfl, rfl, rfl⟩
    · rw [← hm1]
      exact h.a

/-- An ancillary load that needs a device, for a packet that has none. -/
def DevMissing (filter : List SockFilter) (skb : Skb) (s : ClassicState) : Prop :=
  skb.dev = none ∧
    (ancOf (s.insn filter).k = some .ifindex ∨ ancOf (s.insn filter).k = some .hatype) ∧
    ∃ size, (s.insn filter).op = some (.ld .abs size)

theorem Sim.ancLoad (hop : (s.insn filter).op = some (.ld .abs size)) (hsize : size ≠ .dw)
    {anc : Anc} (hanc : ancOf (s.insn filter).k = some anc) :
    (¬ DevMissing filter skb s → Simulates o L filter fns prog heap valid m
          (s.loadA (Bpf.ancLoad skb (ancData o filter fns s.pc) s.a s.x anc))) ∧
      (DevMissing filter skb s → Returns L fns m s.a) := by
  have hplain : Plain filter valid s := .of_op hop rfl rfl
  have hb (insns : List Insn) (hext : convertBpfExtensions o (s.insn filter).k = some insns) :
      Emits o filter s insns := by
    rw [Emits, convertInsn, hop]
    cases size with
    | dw => exact absurd rfl hsize
    | _ => simp only [hext]; rfl
  unfold convertBpfExtensions at hb
  rw [hanc] at hb
  have hnodev (hne : anc ≠ .ifindex) (hne' : anc ≠ .hatype) :
      DevMissing filter skb s → Returns L fns m s.a := by
    rintro ⟨-, hdev, -⟩
    rw [hanc, Option.some.injEq, Option.some.injEq] at hdev
    rcases hdev with hdev | hdev
    · exact absurd hdev hne
    · exact absurd hdev hne'
  cases anc with
  | ifindex =>
    refine (h.ancDev hc hplain (hb _ rfl) fun _ _ hidx _ => hidx).imp
      (fun hsome hmiss => hsome fun hnone => hmiss ⟨hnone, .inl hanc, size, hop⟩)
      fun hnone hmiss => hnone hmiss.1
  | hatype =>
    refine (h.ancDev hc hplain (hb _ rfl) fun d _ _ htype => ?_).imp
      (fun hsome hmiss => hsome fun hnone => hmiss ⟨hnone, .inr hanc, size, hop⟩)
      fun hnone hmiss => hnone hmiss.1
    rw [setWidth_32_64 (by decide)]
    exact htype
  | protocol =>
    refine ⟨fun _ => ?_, hnodev (by simp) (by simp)⟩
    exact h.loadA_two hc hplain (hb _ rfl) (h.exec_ldxCtx fns hc.skb.protocol)
      (exec_endian L fns skb.protocol rfl)
  | vlanTpid =>
    refine ⟨fun _ => ?_, hnodev (by simp) (by simp)⟩
    exact h.loadA_two hc hplain (hb _ rfl) (h.exec_ldxCtx fns hc.skb.vlanProto)
      (exec_endian L fns skb.vlanProto rfl)
  | rxhash =>
    refine ⟨fun _ => ?_, hnodev (by simp) (by simp)⟩
    exact h.loadA hc hplain (hb _ rfl) (h.exec_ldxCtx fns hc.skb.hash)
  | aluXorX =>
    refine ⟨fun _ => ?_, hnodev (by simp) (by simp)⟩
    refine h.loadA hc hplain (hb _ rfl) ?_
    change m.finishAlu (alu32Reg .xor regA regX) (alu32 .xor .x 0 (m.regs 0) (m.regs 7)) = _
    have hx : (m.regs 7).setWidth 32 = s.x := by
      rw [h.x]
      simp
    have halu := @alu32_classic .xor .x rfl 0 s.a s.x (m.regs 7) hx (fun _ => h.x) (by rintro ⟨⟩)
    rw [h.a, halu]
    rfl
  | mark | pkttype | queue | vlanTag | vlanTagPresent =>
    exact ⟨fun _ => h.skbField hc hplain (hb _ rfl), hnodev (by simp) (by simp)⟩
  | call fn =>
    exact ⟨fun _ => h.ancCall hc hplain (hb _ rfl), hnodev (by simp) (by simp)⟩

theorem Sim.jump (ht : t ∈ classicSuccs s.pc (s.insn filter) (s.insn filter).op)
    (hout : memOut (valid s.pc) (s.insn filter) (s.insn filter).op = valid s.pc)
    (hreach : Reaches L fns m m') (hframe : Frame m m') (ha : m'.regs 0 = m.regs 0)
    (hx : m'.regs 7 = m.regs 7) (hpc : m'.pc = codeAddr o filter t) :
    Simulates o L filter fns prog heap valid m (.next { s with pc := t }) :=
  ⟨m', hreach, h.move hc ht hout hframe hpc (ha.trans h.a) (hx.trans h.x)⟩

theorem Sim.ja (hop : (s.insn filter).op = some (.jmp .ja .k))
    (hspecial : checkSpecial filter.length s.pc (s.insn filter) (.jmp .ja .k) = .ok ()) :
    Simulates o L filter fns prog heap valid m
      (.next { s with pc := s.pc + (s.insn filter).k.toNat + 1 }) := by
  have hk : (s.insn filter).k.toNat < filter.length - s.pc - 1 :=
    Nat.lt_of_not_le ((rejectIf_eq_ok _ _ _).mp hspecial)
  obtain ⟨b, hb, -⟩ := hc.placed.block s.pc h.inside
  have hb' := hb
  change convertInsn o _ _ s.pc (s.insn filter) = _ at hb'
  rw [convertInsn, hop] at hb'
  simp only [ok_iff] at hb'
  obtain ⟨off, hoff, rfl⟩ := hb'
  rw [target_ja h.inside hc.ok.max hk] at hoff
  have hpc := hc.ok.jmpOff h.inside (by omega) (Nat.zero_le 2) hoff
  have hexec : m.skbExec L fns { code := .jmp .ja .k, off := off } = .next (m.advance off.toInt) :=
    rfl
  refine h.jump hc ?_ ?_ ((hc.code h hb).1.next h.pc hexec) (.advance m _) rfl rfl ?_
  · rw [hop, classicSuccs, mem_singleton]
    omega
  · rw [hop]
    rfl
  · rw [advance_pc, h.pc, ← hpc]
    rfl

end LinuxKernel.Bpf
