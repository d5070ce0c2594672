import LinuxKernel.Bpf.Classic
import LinuxKernel.Bpf.SkbAccess
import LinuxKernel.Bpf.Verifier

/-!
# Conversion of classic filters

`bpf_convert_filter()` and `convert_bpf_extensions()` of `net/core/filter.c`, and the two calls of
the former in `bpf_migrate_filter()`.  A call without a buffer computes the length of the new
program.  A call with a buffer goes over the filter twice: the first pass finds the address of the
code of each instruction, the second has the right addresses for all jumps.
-/

namespace LinuxKernel.Bpf

open Lib

def regA : Fin 16 := 0

def regX : Fin 16 := 7

def regTmp : Fin 16 := 8

def regCtx : Fin 16 := 6

/-- `BPF_REG_FP` as an operand. -/
def regFp : Fin 16 := 10

/-- The function called by `convert_bpf_extensions()`.  Its number is the distance from
`__bpf_call_base()`; only that the numbers differ matters. -/
def AncFn.imm : AncFn → BitVec 32
  | .payOffset => 101
  | .nlattr => 102
  | .nlattrNest => 103
  | .cpu => 104
  | .random => 105

variable (o : SkbOffsets) (filter : List SockFilter) (addrs : Option (Nat → Int))

def convertBpfExtensions (k : BitVec 32) : Option (List Insn) :=
  match ancOf k with
  | none => none
  | some .protocol =>
    some [ldxMem .h regA regCtx o.protocol, endian .x regA 16]
  | some .pkttype => some (convertSkbAccess o .pkttype regA regCtx)
  | some .ifindex =>
    some
      [ldxMem .dw regTmp regCtx o.dev, jmpImm .jne regTmp 0 1, exitInsn,
        ldxMem .w regA regTmp o.netIfindex]
  | some .hatype =>
    some
      [ldxMem .dw regTmp regCtx o.dev, jmpImm .jne regTmp 0 1, exitInsn,
        ldxMem .h regA regTmp o.netType]
  | some .mark => some (convertSkbAccess o .mark regA regCtx)
  | some .rxhash => some [ldxMem .w regA regCtx o.hash]
  | some .queue => some (convertSkbAccess o .queue regA regCtx)
  | some .vlanTag => some (convertSkbAccess o .vlanTag regA regCtx)
  | some .vlanTagPresent =>
    some (convertSkbAccess o .vlanTagPresent regA regCtx)
  | some .vlanTpid =>
    some [ldxMem .h regA regCtx o.vlanProto, endian .x regA 16]
  | some (.call fn) =>
    some [mov64Reg 1 regCtx, mov64Reg 2 regA, mov64Reg 3 regX, emitCall fn.imm]
  | some .aluXorX => some [alu32Reg .xor regA regX]

/-- `BPF_EMIT_JMP`: the offset of the jump at place `idx` of the code of instruction `i`.  There
are no addresses for the length alone. -/
def emitJmp (len i : Nat) (target : Int) (idx : Nat) : Except Errno (BitVec 16) := do
  rejectIf ((len : Int) ≤ target ∨ target < 0) .einval
  let off : BitVec 16 := match addrs with
    | some addrs => BitVec.ofInt 16 (addrs target.toNat - addrs i - 1)
    | none => 0
  pure (off - BitVec.ofNat 16 idx)

/-- A comparison with an immediate that would be sign extended uses `BPF_REG_TMP`. -/
def needsTmp (f : SockFilter) (src : Src) : Bool :=
  src = .k && decide (f.k.toInt < 0)

/-- The comparison of a conditional jump, without its offset. -/
def cmpInsn (f : SockFilter) (op : JmpOp) (src : Src) (off : BitVec 16) : Insn :=
  if needsTmp f src then
    { code := .jmp op .x, dstReg := regA, srcReg := regTmp, off := off }
  else
    { code := .jmp op src
      dstReg := regA
      srcReg := if src = .x then regX else 0
      off := off
      imm := f.k }

def cmpPrologue (f : SockFilter) (src : Src) : List Insn :=
  if needsTmp f src then [mov32Imm regTmp f.k] else []

def convertCondJmp (len i : Nat) (f : SockFilter)
    (op : JmpOp) (src : Src) : Except Errno (List Insn) := do
  let pre := cmpPrologue f src
  if f.jf = 0 then
    -- common case where 'jump_false' is next insn
    let off ← emitJmp addrs len i (i + f.jt.toNat + 1) pre.length
    pure (pre ++ [cmpInsn f op src off])
  else if f.jt = 0 ∧ op = .jeq then
    -- convert JEQ into JNE when 'jump_true' is next insn
    let off ← emitJmp addrs len i (i + f.jf.toNat + 1) pre.length
    pure (pre ++ [cmpInsn f .jne src off])
  else
    -- other jumps are mapped into two insns: Jxx and JA
    let off ← emitJmp addrs len i (i + f.jt.toNat + 1) pre.length
    let off' ← emitJmp addrs len i (i + f.jf.toNat + 1) (pre.length + 1)
    pure (pre ++ [cmpInsn f op src off, { code := .jmp .ja .k, off := off' }])

/-- `-(BPF_MEMWORDS - k) * 4`. -/
def memOff (k : BitVec 32) : BitVec 16 :=
  (-(BitVec.ofNat 32 bpfMemwords - k) * 4).setWidth 16

/-- The instructions of classic filters that map as they are. -/
def rawInsn (code : Code) (k : BitVec 32) : Insn :=
  { code := code, dstReg := regA, srcReg := regX, imm := k }

/-- What one instruction is converted to: `tmp_insns`. -/
def convertInsn (len i : Nat) (f : SockFilter) : Except Errno (List Insn) :=
  match f.op with
  | some (.alu op src) =>
    if op.classic src then pure [rawInsn (.alu op src) f.k]
    else .error .einval
  | some (.ld .abs .dw) => .error .einval
  | some (.ld .abs size) =>
    match convertBpfExtensions o f.k with
    | some insns => pure insns
    | none => pure [rawInsn (.ld .abs size) f.k]
  | some (.ld .ind .dw) => .error .einval
  | some (.ld .ind size) => pure [rawInsn (.ld .ind size) f.k]
  | some (.jmp .ja .k) => do
      let off ← emitJmp addrs len i (BitVec.ofNat 32 i + f.k + 1).toInt 0
      pure [{ code := .jmp .ja .k, off := off }]
  | some (.jmp op src) =>
    if op.classic then convertCondJmp addrs len i f op src
    else .error .einval
  | some (.ldx .msh .b) =>
    pure
      [mov64Reg regTmp regA, ldAbs .b f.k, alu32Imm .and regA 0xf,
        alu32Imm .lsh regA 2, mov64Reg regX regA, mov64Reg regA regTmp]
  | some (.ret 0) => pure [mov32Raw .k 0 regA f.k, exitInsn]
  | some (.ret 2) => pure [mov32Raw .x 0 regA f.k, exitInsn]
  | some (.st .imm .w) => pure [stxMem .w regFp regA (memOff f.k)]
  | some (.stx .imm .w) => pure [stxMem .w regFp regX (memOff f.k)]
  | some (.ld .mem .w) => pure [ldxMem .w regA regFp (memOff f.k)]
  | some (.ldx .mem .w) => pure [ldxMem .w regX regFp (memOff f.k)]
  | some (.ld .imm .w) => pure [mov32Imm regA f.k]
  | some (.ldx .imm .w) => pure [mov32Imm regX f.k]
  | some (.alu64 .add .k) => pure [mov64Reg regX regA]
  | some (.alu64 .neg .k) => pure [mov64Reg regA regX]
  | some (.ld .len .w) => pure [ldxMem .w regA regCtx o.len]
  | some (.ldx .len .w) => pure [ldxMem .w regX regCtx o.len]
  | some (.ldx .abs .w) => pure [ldxMem .w regA regCtx (f.k.setWidth 16)]
  | _ => .error .einval

/-- The loop at instruction `i`, with the new instruction at `pos`: the code, and the addresses. -/
def convertLoopClassic (len : Nat) :
    Nat → Nat → Option (Nat → Int) → List SockFilter → Except Errno (List Insn × Option (Nat → Int))
  | _, _, addrs, [] => pure ([], addrs)
  | i, pos, addrs, f :: rest => do
      let addrs := addrs.map (fun a j => if j = i then (pos : Int) else a j)
      let tmp ← convertInsn o addrs len i f
      let (out, addrs) ← convertLoopClassic len (i + 1) (pos + tmp.length) addrs rest
      pure (tmp ++ out, addrs)

/-- One pass from `do_pass:`. -/
def convertPass : Except Errno (List Insn × Option (Nat → Int)) := do
  let (out, addrs) ← convertLoopClassic o filter.length 0 1 addrs filter
  pure (mov64Reg regCtx 1 :: out, addrs)

/-- The passes with a buffer; the first argument says how many may still be made. -/
def convertPasses (filter : List SockFilter) :
    Nat → Nat → Option (Nat → Int) → Except Errno (List Insn)
  | 0, _, _ => .error .einval
  | left + 1, newFlen, addrs => do
      let (out, addrs) ← convertPass o filter addrs
      if newFlen = out.length then pure out
      else convertPasses filter left out.length addrs

/-- `bpf_convert_filter()` with `new_prog == NULL`. -/
def bpfConvertLen : Except Errno Nat := do
  rejectIf (filter.length = 0 ∨ bpfMaxInsns < filter.length) .einval
  let (out, _) ← convertPass o filter none
  pure out.length

/-- `bpf_convert_filter()` with a buffer. -/
def bpfConvertFilter : Except Errno (List Insn) := do
  rejectIf (filter.length = 0 ∨ bpfMaxInsns < filter.length) .einval
  convertPasses o filter 3 0 (some (fun _ => 0))

/-- The conversion in `bpf_migrate_filter()`.  Different lengths in the two calls are a `BUG_ON()`.
-/
def bpfMigrateFilter : Except Errno (List Insn) := do
  let newLen ← bpfConvertLen o filter
  let prog ← bpfConvertFilter o filter
  rejectIf (newLen ≠ prog.length) .efault
  pure prog

end LinuxKernel.Bpf
