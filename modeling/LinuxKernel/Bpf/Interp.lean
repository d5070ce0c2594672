import LinuxKernel.Bpf.Verifier
import LinuxKernel.Lib.Bytes

/-!
# The eBPF interpreter

`__bpf_prog_run()` of `kernel/bpf/core.c`, one instruction at a time, on a 64-bit little-endian
machine.

Memory is made of objects: the stack frame of the run, the context, and the values of map
elements.  A `Layout` puts them at addresses.  An access that is not inside one object is a `wild`
access.  An `Env` gives what helper functions return and change, which programs are stored in
program arrays, and what other CPUs do to map values and to the packet between two steps.

A call instruction holds the number of its helper, as in the program given to the verifier;
`fixup_bpf_calls()` later replaces the number by the function, and turns the call of
`bpf_tail_call` into the opcode `BPF_CALL | BPF_X`.  A shift by the word size or more is undefined
in C; it is taken modulo the word size, as on x86.
-/

namespace LinuxKernel.Bpf

open Lib

/-- The maps of the system, and the map of each element value. -/
structure World where
  MapId : Type
  ValId : Type
  maps : MapId → BpfMap
  valMap : ValId → MapId
  decEqVal : DecidableEq ValId

instance (W : World) : DecidableEq W.ValId :=
  W.decEqVal

/-- The objects a program can have a pointer into. -/
inductive Obj (W : World)
  | stack
  | ctx
  | val (v : W.ValId)

def World.size (W : World) (ctxSize : Nat) : Obj W → Nat
  | .stack => maxBpfStack
  | .ctx => ctxSize
  | .val v => (W.maps (W.valMap v)).valueSize.toNat

/-- Where the objects are in memory. -/
structure Layout (W : World) (ctxSize : Nat) where
  fp : BitVec 64
  ctx : BitVec 64
  map : W.MapId → BitVec 64
  val : W.ValId → BitVec 64
  resolve : BitVec 64 → Option (Obj W × Nat)
  mapAt : BitVec 64 → Option W.MapId
  resolve_stack : ∀ i < maxBpfStack,
      resolve (fp - BitVec.ofNat 64 maxBpfStack + BitVec.ofNat 64 i) = some (.stack, i)
  resolve_ctx : ∀ i < ctxSize, resolve (ctx + BitVec.ofNat 64 i) = some (.ctx, i)
  resolve_val :
    ∀ v, ∀ i < W.size ctxSize (.val v), resolve (val v + BitVec.ofNat 64 i) = some (.val v, i)
  mapAt_map : ∀ m, mapAt (map m) = some m
  map_ne_zero : ∀ m, map m ≠ 0
  val_ne_zero : ∀ v, val v ≠ 0

/-- The map behind a `struct bpf_map` pointer. -/
def Layout.mapOf {W : World} {ctxSize : Nat} (L : Layout W ctxSize) (a : BitVec 64) : BpfMap :=
  match L.mapAt a with
  | some m => W.maps m
  | none => default

/-- Memory outside the stack.  `pkt` is `bpf_load_pointer()` and the conversion to host byte order.
-/
structure Heap (W : World) where
  ctx : Nat → BitVec 8
  val : W.ValId → Nat → BitVec 8
  pkt : BitVec 32 → Size → Option (BitVec 64)

structure Machine (W : World) where
  regs : Nat → BitVec 64
  stack : Nat → BitVec 8
  heap : Heap W
  prog : List Insn
  pc : Int
  tailCallCnt : Nat
  regW : Nat → Bool
  stackW : Nat → Bool

inductive ArgVal (W : World)
  | none
  | scalar (v : BitVec 64)
  | map (m : Option W.MapId)
  | ctx (isCtx : Bool)
  | stackPtr (off : BitVec 64)
  | buf (i : Option Nat) (bytes : List (BitVec 8))

/-- Stack byte `j` is in a buffer passed to the helper. -/
def ArgVal.Covers {W : World} : ArgVal W → Nat → Prop
  | .buf (some i) bytes, j => i ≤ j ∧ j < i + bytes.length
  | _, _ => False

/-- The map passed to a helper, the last of several. -/
def lastMap {W : World} : List (ArgVal W) → Option W.MapId
  | [] => none
  | .map m :: rest => (lastMap rest).or m
  | _ :: rest => lastMap rest

/-- A helper's result: a number, or a pointer to a map value. -/
inductive RetVal (W : World)
  | int (v : BitVec 64)
  | null
  | val (v : W.ValId)

def RetOk (W : World) (args : List (ArgVal W)) : RetType → RetVal W → Prop
  | .integer, r => ∃ v, r = .int v
  | .void, r => ∃ v, r = .int v
  | .ptrToMapValueOrNull, r =>
    r = .null ∨ ∃ v, r = .val v ∧ lastMap args = some (W.valMap v)

/-- What a helper returns and changes; `writes` are stack bytes of the caller. -/
structure HelperResult (W : World) where
  ret : RetVal W
  heap : Heap W
  writes : Nat → Option (BitVec 8)

/-- The surroundings of one step. -/
structure Env (W : World) (ops : VerifierOps) where
  perturb : Heap W → Heap W
  helper : Nat → List (ArgVal W) → Heap W → HelperResult W
  ret_ok :
    ∀ f fn args h, ops.getFuncProto f = some fn → RetOk W args fn.retType (helper f args h).ret
  writes_ok : ∀ f args h j b, (helper f args h).writes j = some b → ∃ a ∈ args, a.Covers j

/-- `array->ptrs[index]` of every program array. -/
abbrev ProgArrays (W : World) := W.MapId → Nat → Option (List Insn)

/-- The result of one step. -/
inductive Outcome (W : World)
  | next (m : Machine W)
  | ret (v : BitVec 32) (m : Machine W)
  | defaultLabel
  | divByZero
  | wild

/-- The result of one arithmetic instruction. -/
inductive AluRes
  | val (v : BitVec 64)
  | ret0
  | divByZero
  | defaultLabel
deriving DecidableEq

def bswap16 (x : BitVec 16) : BitVec 16 :=
  x.extractLsb' 0 8 ++ x.extractLsb' 8 8

def bswap32 (x : BitVec 32) : BitVec 32 :=
  bswap16 (x.extractLsb' 0 16) ++ bswap16 (x.extractLsb' 16 16)

def bswap64 (x : BitVec 64) : BitVec 64 :=
  bswap32 (x.extractLsb' 0 32) ++ bswap32 (x.extractLsb' 32 32)

/-- `ALU_END_TO_BE` (`BPF_X`) and `ALU_END_TO_LE` (`BPF_K`). -/
def aluEnd (src : Src) (imm : BitVec 32) (a : BitVec 64) : BitVec 64 :=
  match src with
  | .x =>
    if imm = 16 then (bswap16 (a.setWidth 16)).setWidth 64
    else if imm = 32 then (bswap32 (a.setWidth 32)).setWidth 64
    else if imm = 64 then bswap64 a
    else a
  | .k =>
    if imm = 16 then (a.setWidth 16).setWidth 64
    else if imm = 32 then (a.setWidth 32).setWidth 64
    else a

/-- The `ALU64_*` labels; `b` is the second operand. -/
def alu64 (op : AluOp) (src : Src) (a b : BitVec 64) : AluRes :=
  match op with
  | .add => .val (a + b)
  | .sub => .val (a - b)
  | .and => .val (a &&& b)
  | .or => .val (a ||| b)
  | .lsh => .val (a <<< (b.toNat % 64))
  | .rsh => .val (a >>> (b.toNat % 64))
  | .xor => .val (a ^^^ b)
  | .mul => .val (a * b)
  | .neg => if src = .k then .val (-a) else .defaultLabel
  | .mov => .val b
  | .arsh => .val (a.sshiftRight (b.toNat % 64))
  | .mod =>
    if src = .x ∧ b = 0 then .ret0
    else if b = 0 then .divByZero else .val (a % b)
  | .div =>
    if src = .x ∧ b = 0 then .ret0
    else if b = 0 then .divByZero else .val (a / b)
  | .end_ | .opE0 | .opF0 => .defaultLabel

/-- The `ALU_*` labels.  The zero test of a division is on the whole second operand, the division
on its low half. -/
def alu32 (op : AluOp) (src : Src) (imm : BitVec 32) (a b : BitVec 64) : AluRes :=
  let x : BitVec 32 := a.setWidth 32
  let y : BitVec 32 := b.setWidth 32
  match op with
  | .add => .val ((x + y).setWidth 64)
  | .sub => .val ((x - y).setWidth 64)
  | .and => .val ((x &&& y).setWidth 64)
  | .or => .val ((x ||| y).setWidth 64)
  | .lsh => .val ((x <<< (y.toNat % 32)).setWidth 64)
  | .rsh => .val ((x >>> (y.toNat % 32)).setWidth 64)
  | .xor => .val ((x ^^^ y).setWidth 64)
  | .mul => .val ((x * y).setWidth 64)
  | .neg => if src = .k then .val ((-x).setWidth 64) else .defaultLabel
  | .mov => .val (y.setWidth 64)
  | .mod =>
    if src = .x ∧ b = 0 then .ret0
    else if y = 0 then .divByZero else .val ((x % y).setWidth 64)
  | .div =>
    if src = .x ∧ b = 0 then .ret0
    else if y = 0 then .divByZero else .val ((x / y).setWidth 64)
  | .end_ => .val (aluEnd src imm a)
  | .arsh | .opE0 | .opF0 => .defaultLabel

/-- The condition of a jump; `none` is an opcode without a label. -/
def jmpCond (op : JmpOp) (a b : BitVec 64) : Option Bool :=
  match op with
  | .jeq => some (a == b)
  | .jne => some (a != b)
  | .jgt => some (b.ult a)
  | .jge => some (b.ule a)
  | .jsgt => some (b.slt a)
  | .jsge => some (b.sle a)
  | .jset => some ((a &&& b) != 0)
  | _ => none

/-- `IMM` as a 64-bit operand. -/
def Insn.imm64 (insn : Insn) : BitVec 64 :=
  insn.imm.signExtend 64

theorem setWidth_imm64 (insn : Insn) : (insn.imm64).setWidth 32 = insn.imm := by
  apply BitVec.eq_of_getLsbD_eq
  intro i hi
  rw [Insn.imm64, BitVec.getLsbD_setWidth, BitVec.getLsbD_signExtend]
  simp [hi, show i < 64 by omega]

/-- `insn->off` as part of an address. -/
def Insn.off64 (insn : Insn) : BitVec 64 :=
  insn.off.signExtend 64

namespace Machine

variable {W : World} (m : Machine W)

/-- `SRC` or `IMM`. -/
def operand (insn : Insn) : Src → BitVec 64
  | .x => m.regs insn.srcReg
  | .k => insn.imm64

def setReg (r : Nat) (v : BitVec 64) : Machine W :=
  { m with
    regs := fun i => if i = r then v else m.regs i
    regW := fun i => if i = r then true else m.regW i }

def writeStack (i n : Nat) (v : BitVec 64) : Machine W :=
  { m with
    stack := storeLE m.stack i n v
    stackW := fun j => if i ≤ j ∧ j < i + n then true else m.stackW j }

/-- `CONT` after `insn += d`. -/
def advance (d : Int) : Machine W :=
  { m with pc := m.pc + d + 1 }

/-- A function call scratches R1 to R5. -/
def scratch : Machine W :=
  { m with regW := fun i => if 1 ≤ i ∧ i ≤ 5 then false else m.regW i }

end Machine

section Access

variable {W : World} {ctxSize : Nat} (L : Layout W ctxSize) (m : Machine W) (a : BitVec 64)

/-- The object that `n` bytes at address `a` fall in. -/
def Layout.locate (n : Nat) : Option (Obj W × Nat) :=
  match L.resolve a with
  | some (o, i) => if i + n ≤ W.size ctxSize o then some (o, i) else none
  | none => none

/-- `*(SIZE *) a`. -/
def Machine.load (n : Nat) : Option (BitVec 64) :=
  match L.locate a n with
  | some (.stack, i) => some (loadLE m.stack i n)
  | some (.ctx, i) => some (loadLE m.heap.ctx i n)
  | some (.val v, i) => some (loadLE (m.heap.val v) i n)
  | none => none

/-- `*(SIZE *) a = v`. -/
def Machine.store (n : Nat) (v : BitVec 64) : Option (Machine W) :=
  match L.locate a n with
  | some (.stack, i) => some (m.writeStack i n v)
  | some (.ctx, i) =>
    some { m with
      heap := { m.heap with ctx := storeLE m.heap.ctx i n v } }
  | some (.val w, i) =>
    some { m with
      heap := { m.heap with
        val := fun u =>
          if u = w then storeLE (m.heap.val w) i n v else m.heap.val u } }
  | none => none

/-- The stack byte that an address points to. -/
def Layout.stackOff : Option Nat :=
  match L.resolve a with
  | some (.stack, i) => some i
  | _ => none

/-- `n` bytes of stack from the byte that `a` points to. -/
def Machine.stackBytes (n : Nat) : List (BitVec 8) :=
  match L.stackOff a with
  | some i => (List.range n).map (fun j => m.stack (i + j))
  | none => []

/-- What a helper sees of the argument `regno`, with `mapp` the map passed before. -/
def Machine.argVal (mapp : Option W.MapId) (regno : Nat) : ArgType → ArgVal W
  | .dontcare => .none
  | .anything => .scalar (m.regs regno)
  | .constMapPtr => .map (L.mapAt (m.regs regno))
  | .ptrToCtx => .ctx (m.regs regno == L.ctx)
  | .ptrToStack => .stackPtr (m.regs regno - L.fp)
  | .ptrToMapKey =>
    .buf (L.stackOff (m.regs regno))
      (m.stackBytes L (m.regs regno) (mapp.elim 0 (fun i => (W.maps i).keySize.toNat)))
  | .ptrToMapValue =>
    .buf (L.stackOff (m.regs regno))
      (m.stackBytes L (m.regs regno) (mapp.elim 0 (fun i => (W.maps i).valueSize.toNat)))
  | .constStackSize =>
    .buf (L.stackOff (m.regs (regno - 1)))
      (m.stackBytes L (m.regs (regno - 1)) (m.regs regno).toNat)

/-- What a helper sees of all its arguments. -/
def Machine.argVals (m : Machine W) : Option W.MapId → List (Nat × ArgType) → List (ArgVal W)
  | _, [] => []
  | mapp, (regno, t) :: rest =>
    let mapp' := if t = .constMapPtr then L.mapAt (m.regs regno) else mapp
    m.argVal L mapp regno t :: m.argVals mapp' rest

/-- The 64-bit word that a helper returns. -/
def Layout.retVal : RetVal W → BitVec 64
  | .int v => v
  | .null => 0
  | .val v => L.val v

end Access

variable {W : World} {ops : VerifierOps} (L : Layout W ops.ctxSize) (m : Machine W)
  (insn : Insn)

def Machine.call (env : Env W ops) (m : Machine W) (insn : Insn) : Outcome W :=
  match ops.getFuncProto insn.imm.toNat with
  | none => .wild
  | some fn =>
    let r := env.helper insn.imm.toNat (m.argVals L none fn.args) m.heap
    let m := { m with
      heap := r.heap
      stack := fun j => (r.writes j).getD (m.stack j)
      stackW := fun j => (r.writes j).isSome || m.stackW j }
    .next ((m.scratch.setReg 0 (L.retVal r.ret)).advance 0)

def maxTailCallCnt : Nat := 32

def Machine.tailCall (arrays : ProgArrays W) (m : Machine W) : Outcome W :=
  match L.mapAt (m.regs 2) with
  | none => .wild
  | some map =>
    let index := (m.regs 3).toNat
    let out := (m.scratch).advance 0
    if (W.maps map).maxEntries.toNat ≤ index then .next out
    else if maxTailCallCnt < m.tailCallCnt then .next out
    else
      match arrays map index with
      | none => .next { out with tailCallCnt := m.tailCallCnt + 1 }
      | some prog =>
        .next { m with
          prog := prog
          pc := 0
          tailCallCnt := m.tailCallCnt + 1 }

/-- `load_word:`, `load_half:` and `load_byte:`. -/
def Machine.loadPkt (off : BitVec 32) (size : Size) : Outcome W :=
  if m.regs 6 = L.ctx then
    match m.heap.pkt off size with
    | some v => .next ((m.scratch.setReg 0 v).advance 0)
    | none => .ret 0 m
  else .wild

/-- Go on with the value of an arithmetic instruction. -/
def Machine.finishAlu : AluRes → Outcome W
  | .val v => .next ((m.setReg insn.dstReg v).advance 0)
  | .ret0 => .ret 0 m
  | .divByZero => .divByZero
  | .defaultLabel => .defaultLabel

def Machine.condJmp : Option Bool → Outcome W
  | some true => .next (m.advance insn.off.toInt)
  | some false => .next (m.advance 0)
  | none => .defaultLabel

/-- `STX_MEM` and `ST_MEM`. -/
def Machine.doStore (size : Size) (v : BitVec 64) : Outcome W :=
  match m.store L (m.regs insn.dstReg + insn.off64) size.bytes v with
  | some m => .next (m.advance 0)
  | none => .wild

/-- `STX_XADD`: the sum is stored modulo the size of the word. -/
def Machine.doXadd (size : Size) : Outcome W :=
  match m.load L (m.regs insn.dstReg + insn.off64) size.bytes with
  | some v => m.doStore L insn size (v + m.regs insn.srcReg)
  | none => .wild

/-- Dispatch on the opcode: one pass from `select_insn:` to `CONT`. -/
def Machine.exec (env : Env W ops) (arrays : ProgArrays W) (m : Machine W)
    (insn : Insn) : Outcome W :=
  match insn.code with
  | .alu op src =>
    m.finishAlu insn (alu32 op src insn.imm (m.regs insn.dstReg) (m.operand insn src))
  | .alu64 op src =>
    m.finishAlu insn (alu64 op src (m.regs insn.dstReg) (m.operand insn src))
  | .ld .imm .dw =>
    .next ((m.setReg insn.dstReg (ldImm64 insn (fetch m.prog (m.pc + 1)))).advance 1)
  | .ld .abs .dw => .defaultLabel
  | .ld .abs size => m.loadPkt L insn.imm size
  | .ld .ind .dw => .defaultLabel
  | .ld .ind size =>
    m.loadPkt L ((insn.imm64 + m.regs insn.srcReg).setWidth 32) size
  | .ld _ _ => .defaultLabel
  | .ldx .mem size =>
    match m.load L (m.regs insn.srcReg + insn.off64) size.bytes with
    | some v => .next ((m.setReg insn.dstReg v).advance 0)
    | none => .wild
  | .ldx _ _ => .defaultLabel
  | .st .mem size => m.doStore L insn size insn.imm64
  | .st _ _ => .defaultLabel
  | .stx .mem size => m.doStore L insn size (m.regs insn.srcReg)
  | .stx .xadd .w => m.doXadd L insn .w
  | .stx .xadd .dw => m.doXadd L insn .dw
  | .stx _ _ => .defaultLabel
  | .jmp .call .k =>
    if insn.imm.toNat = funcTailCall then m.tailCall L arrays
    else m.call L env insn
  | .jmp .call .x => m.tailCall L arrays
  | .jmp .ja .k => .next (m.advance insn.off.toInt)
  | .jmp .exit .k => .ret ((m.regs 0).setWidth 32) m
  | .jmp op src =>
    m.condJmp insn (jmpCond op (m.regs insn.dstReg) (m.operand insn src))
  | .ret _ => .defaultLabel

/-- A step of `__bpf_prog_run()`, after the surroundings changed what is shared. -/
def Machine.step (env : Env W ops) (arrays : ProgArrays W) (m : Machine W) : Outcome W :=
  if m.pc < 0 ∨ (m.prog.length : Int) ≤ m.pc then .wild
  else
    Machine.exec L env arrays { m with heap := env.perturb m.heap } (fetch m.prog m.pc)

/-- The state on entry to `__bpf_prog_run()`.  R0 and R7 are reset for converted classic programs,
which is no write of the program. -/
def Machine.init (prog : List Insn) (heap : Heap W) (regs : Nat → BitVec 64)
    (stack : Nat → BitVec 8) : Machine W where
  regs := fun i =>
    if i = regFP then L.fp
    else if i = 1 then L.ctx
    else if i = 0 ∨ i = 7 then 0
    else regs i
  stack := stack
  heap := heap
  prog := prog
  pc := 0
  tailCallCnt := 0
  regW := fun i => i = regFP || i = 1
  stackW := fun _ => false

end LinuxKernel.Bpf
