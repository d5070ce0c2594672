import LinuxKernel.Bpf.Accepted
import LinuxKernel.Bpf.Describes

/-!
# Safe steps and runs

A step of the interpreter stays within what the program was checked for: the registers and stack
bytes it reads have been written, its memory accesses are allowed, and a helper is called with
arguments that meet its prototype.  In a run the surroundings are arbitrary at every step, except
that the programs in program arrays have been accepted for the same program type.
-/

namespace LinuxKernel.Bpf

open Lib

/-- The registers that a source operand reads. -/
def Insn.srcReads (insn : Insn) : Src → List Nat
  | .x => [insn.srcReg]
  | .k => []

/-- The registers that an arithmetic instruction reads. -/
def Insn.aluReads (insn : Insn) (op : AluOp) (src : Src) : List Nat :=
  match op with
  | .mov => insn.srcReads src
  | .neg | .end_ => [insn.dstReg]
  | _ => insn.dstReg :: insn.srcReads src

/-- The registers that pass the arguments of a helper. -/
def FuncProto.argRegs (fn : FuncProto) : List Nat :=
  (fn.args.filter (fun a => a.2 ≠ .dontcare)).map Prod.fst

/-- The registers a step uses.  A helper uses the arguments of its prototype. -/
def Insn.reads (ops : VerifierOps) (insn : Insn) : List Nat :=
  match insn.code with
  | .alu op src => insn.aluReads op src
  | .alu64 op src => insn.aluReads op src
  | .ld .abs _ => [6]
  | .ld .ind _ => [6, insn.srcReg]
  | .ld _ _ => []
  | .ldx _ _ => [insn.srcReg]
  | .st _ _ => [insn.dstReg]
  | .stx _ _ => [insn.dstReg, insn.srcReg]
  | .jmp .call _ => (ops.getFuncProto insn.imm.toNat).elim [] FuncProto.argRegs
  | .jmp .ja _ => []
  | .jmp .exit _ => [0]
  | .jmp _ src => insn.dstReg :: insn.srcReads src
  | .ret _ => []

/-- `BPF_CALL`. -/
def Insn.isCall (insn : Insn) : Bool :=
  match insn.code with
  | .jmp .call _ => true
  | _ => false

section Safe

variable {W : World} {ctxSize : Nat} (L : Layout W ctxSize)

variable (m : Machine W)

/-- The loads and stores of a step: address, size and direction. -/
def Machine.accesses (insn : Insn) : List (BitVec 64 × Nat × AccessType) :=
  match insn.code with
  | .ldx _ size => [(m.regs insn.srcReg + insn.off64, size.bytes, .read)]
  | .st _ size => [(m.regs insn.dstReg + insn.off64, size.bytes, .write)]
  | .stx .xadd size =>
    [(m.regs insn.dstReg + insn.off64, size.bytes, .read),
      (m.regs insn.dstReg + insn.off64, size.bytes, .write)]
  | .stx _ size => [(m.regs insn.dstReg + insn.off64, size.bytes, .write)]
  | _ => []

def Layout.stackAddr (i : Nat) : BitVec 64 :=
  L.fp - BitVec.ofNat 64 maxBpfStack + BitVec.ofNat 64 i

/-- The accesses a program may make: written bytes of its stack (any, to write them), bytes of a
map value, or what its type allows of the context.  No map value is at address zero. -/
inductive AccessOk (ops : VerifierOps) (L : Layout W ops.ctxSize)
    (m : Machine W) (a : BitVec 64) (n : Nat) (t : AccessType) : Prop
  | stack (i : Nat) (haddr : a = L.stackAddr i) (hsize : i + n ≤ maxBpfStack)
      (hread : t = .read → ∀ j < n, m.stackW (i + j) = true)
  | val (v : W.ValId) (i : Nat) (haddr : a = L.val v + BitVec.ofNat 64 i)
      (hsize : i + n ≤ (W.maps (W.valMap v)).valueSize.toNat)
      (hnull : L.val v ≠ 0)
  | ctx (i : Nat) (haddr : a = L.ctx + BitVec.ofNat 64 i) (hvalid : ops.isValidAccess i n t = true)

/-- A non-empty buffer of written stack bytes. -/
def BufOk (a : BitVec 64) (n : Nat) : Prop :=
  ∃ i, a = L.stackAddr i ∧ 0 < n ∧ i + n ≤ maxBpfStack ∧ ∀ j < n, m.stackW (i + j) = true

/-- What a prototype asks of an argument; `mapp` is the map passed before. -/
def ArgOk (mapp : Option W.MapId) (regno : Nat) : ArgType → Prop
  | .dontcare => True
  | .anything => m.regW regno = true
  | .constMapPtr => ∃ k, m.regs regno = L.map k
  | .ptrToCtx => m.regs regno = L.ctx
  | .ptrToStack => ∃ d : BitVec 32, m.regs regno = L.fp + d.signExtend 64
  | .ptrToMapKey =>
    ∃ k, mapp = some k ∧ BufOk L m (m.regs regno) (W.maps k).keySize.toNat
  | .ptrToMapValue =>
    ∃ k, mapp = some k ∧ BufOk L m (m.regs regno) (W.maps k).valueSize.toNat
  | .constStackSize =>
    BufOk L m (m.regs (regno - 1)) (m.regs regno).toNat

def ArgsOk (m : Machine W) : Option W.MapId → List (Nat × ArgType) → Prop
  | _, [] => True
  | mapp, (regno, t) :: rest =>
    ArgOk L m mapp regno t ∧ ArgsOk m (if t = .constMapPtr then L.mapAt (m.regs regno) else mapp)
        rest

/-- A helper for one type of map is given a map of that type. -/
def MapFuncOk (args : List (ArgVal W)) (f : Nat) : Prop :=
  ∀ l ∈ funcLimit, f = l.2 → ∀ k, lastMap args = some k → (W.maps k).mapType = l.1

/-- A call that meets the prototype of the helper. -/
def CallOk (ops : VerifierOps) (L : Layout W ops.ctxSize) (m : Machine W) (f : Nat) : Prop :=
  ∃ fn, ops.getFuncProto f = some fn ∧ ArgsOk L m none fn.args ∧
    MapFuncOk (m.argVals L none fn.args) f

end Safe

variable {W : World} (cfg : Cfg) (L : Layout W cfg.ops.ctxSize)

/-- `fdget()` and `__bpf_map_get()`: the map address of a file descriptor. -/
def Layout.mapGet {ctxSize : Nat} (L : Layout W ctxSize)
    (fds : BitVec 32 → Except Errno W.MapId) (fd : BitVec 32) :
    Except Errno (BitVec 64) := do
  let k ← fds fd
  pure (L.map k)

/-- The rights a program was loaded with. -/
def Cfg.withRights (gpl leaks : Bool) : Cfg :=
  { cfg with gplCompatible := gpl, allowPtrLeaks := leaks }

/-- `bpf_check()` accepted the program, for this program type. -/
def Loaded (insns : List Insn) : Prop :=
  ∃ gpl leaks fds prog trace,
    bpfCheck (cfg.withRights gpl leaks) (L.mapGet fds) prog = .ok (insns, trace)

/-- `do_check()` looked at the instruction about to be executed, in a state that describes the
machine. -/
def Explored (m : Machine W) : Prop :=
  ∃ gpl leaks fds prog trace s, bpfCheck (cfg.withRights gpl leaks) (L.mapGet fds) prog =
        .ok (m.prog, trace) ∧
      (m.pc, s) ∈ trace ∧ Describes L s m

/-- The programs in program arrays have been accepted. -/
def ArraysLoaded (arrays : ProgArrays W) : Prop :=
  ∀ k i insns, arrays k i = some insns → Loaded cfg L insns

def Machine.insn (m : Machine W) : Insn :=
  fetch m.prog m.pc

def Insn.isCondJmp (insn : Insn) : Bool :=
  match insn.code with
  | .jmp .call _ | .jmp .ja _ | .jmp .exit _ => false
  | .jmp _ _ => true
  | _ => false

def Machine.Steps (m m' : Machine W) : Prop :=
  ∃ (env : Env W cfg.ops) (arrays : ProgArrays W),
    ArraysLoaded cfg L arrays ∧ m.step L env arrays = .next m'

/-- What a program was checked for, at one step. -/
structure StepSafe (m : Machine W) : Prop where
  inProg : InProg m.prog m.pc
  reads : ∀ r ∈ m.insn.reads cfg.ops, m.regW r = true
  accesses : ∀ p ∈ m.accesses m.insn, AccessOk cfg.ops L m p.1 p.2.1 p.2.2
  call : m.insn.isCall = true → CallOk cfg.ops L m m.insn.imm.toNat
  notWild : ∀ env arrays, m.step L env arrays ≠ .wild
  jump : m.insn.isCondJmp = true → ∀ m', m.Steps cfg L m' → Explored cfg L m'

/-- A run with all its steps in states that meet `C`. -/
def Machine.Runs (C : Machine W → Prop) : Machine W → Machine W → Prop :=
  Relation.ReflTransGen (fun m m' => C m ∧ m.Steps cfg L m')

end LinuxKernel.Bpf
