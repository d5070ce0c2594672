import LinuxKernel.Bpf.Insn
import LinuxKernel.Lib.Checked

/-!
# Verifier state and memory access checks

The register and stack state tracked by `kernel/bpf/verifier.c`, and the checks of single operands
and of loads and stores.

`struct reg_state` holds a union of `int imm` and `struct bpf_map *map_ptr`, kept as the 64-bit
word it is: `imm` is its low half (little-endian), so that a comparison by `memcmp()` sees the
bits a previous writer left in the high half.  Offsets are exact integers; a sum that leaves the
range of `int` is outside every accepted range both before and after it wraps.
-/

namespace LinuxKernel.Bpf

open Lib

inductive RegType
  | notInit
  | unknownValue
  | ptrToCtx
  | constPtrToMap
  | ptrToMapValue
  | ptrToMapValueOrNull
  | framePtr
  | ptrToStack
  | constImm
deriving DecidableEq

/-- The enumerator's value, as stored into `insn->imm`. -/
def RegType.val : RegType → BitVec 32
  | .notInit => 0
  | .unknownValue => 1
  | .ptrToCtx => 2
  | .constPtrToMap => 3
  | .ptrToMapValue => 4
  | .ptrToMapValueOrNull => 5
  | .framePtr => 6
  | .ptrToStack => 7
  | .constImm => 8

/-- `struct reg_state`; `u` is the union of `imm` and `map_ptr`. -/
structure RegState where
  type : RegType := .notInit
  u : BitVec 64 := 0
deriving DecidableEq

namespace RegState

variable (r : RegState)

/-- The union read as `int imm`. -/
def imm : BitVec 32 :=
  r.u.setWidth 32

/-- The union read as `struct bpf_map *map_ptr`. -/
def mapPtr : BitVec 64 :=
  r.u

/-- Writing `imm` leaves the high half of the union alone. -/
def setImm (v : BitVec 32) : RegState :=
  { r with u := r.u.extractLsb' 32 32 ++ v }

@[simp] theorem imm_setImm (v : BitVec 32) : (r.setImm v).imm = v := by
  simp only [imm, setImm]
  exact BitVec.setWidth_append_eq_right

@[simp] theorem type_setImm (v : BitVec 32) : (r.setImm v).type = r.type := by
  rfl

end RegState

inductive SlotType
  | invalid
  | spill
  | misc
deriving DecidableEq

/-- `struct verifier_state`. -/
structure VState where
  regs : Nat → RegState
  slot : Nat → SlotType
  spilled : Nat → RegState

namespace VState

/-- `regs[r] = v`. -/
def setReg (s : VState) (r : Nat) (v : RegState) : VState :=
  { s with regs := fun i => if i = r then v else s.regs i }

@[simp] theorem setReg_regs (s : VState) (r i : Nat) (v : RegState) :
    (s.setReg r v).regs i = if i = r then v else s.regs i := by
  rfl

def markRegUnknownValue (s : VState) (regno : Nat) : VState :=
  s.setReg regno { type := .unknownValue, u := 0 }

end VState

/-- `init_reg_state()` on a zeroed `struct verifier_state`. -/
def initRegState : VState where
  regs := fun i =>
    if i = regFP then { type := .framePtr }
    else if i = 1 then { type := .ptrToCtx }
    else { type := .notInit }
  slot := fun _ => .invalid
  spilled := fun _ => {}

inductive AccessType
  | read
  | write
deriving DecidableEq

inductive MapType
  | unspec | hash | array | progArray | perfEventArray
deriving DecidableEq

/-- The fields of `struct bpf_map` that are read. -/
structure BpfMap where
  mapType : MapType
  keySize : BitVec 32
  valueSize : BitVec 32
  maxEntries : BitVec 32
deriving DecidableEq

instance : Inhabited BpfMap := ⟨⟨.unspec, 0, 0, 0⟩⟩

inductive ArgType
  | dontcare
  | constMapPtr
  | ptrToMapKey
  | ptrToMapValue
  | ptrToStack
  | constStackSize
  | ptrToCtx
  | anything
deriving DecidableEq

/-- `enum bpf_return_type`. -/
inductive RetType
  | integer
  | void
  | ptrToMapValueOrNull
deriving DecidableEq

/-- `struct bpf_func_proto`, without the function pointer. -/
structure FuncProto where
  gplOnly : Bool := false
  retType : RetType
  arg1Type : ArgType := .dontcare
  arg2Type : ArgType := .dontcare
  arg3Type : ArgType := .dontcare
  arg4Type : ArgType := .dontcare
  arg5Type : ArgType := .dontcare
deriving DecidableEq

def bpfTailCallProto : FuncProto where
  retType := .void
  arg1Type := .ptrToCtx
  arg2Type := .constMapPtr
  arg3Type := .anything

def funcTailCall : Nat := 12

inductive ProgType
  | unspec | socketFilter | kprobe | schedCls | schedAct
deriving DecidableEq

/-- `struct bpf_verifier_ops` of a program type.  A missing callback knows no function, or allows
no access.  `ctxSize` is the size of the context object; an access the callback allows lies in it.
The prototype of the tail call is the same for every type. -/
structure VerifierOps where
  getFuncProto : Nat → Option FuncProto
  isValidAccess : Int → Nat → AccessType → Bool
  ctxSize : Nat
  valid_in_ctx :
    ∀ off size t, isValidAccess off size t = true → 0 ≤ off ∧ off + (size : Int) ≤ (ctxSize : Int)
  tail_call : ∀ fn, getFuncProto funcTailCall = some fn → fn = bpfTailCallProto

/-- What the checks only read: the program's type and rights, and the objects behind `struct
bpf_map` pointers. -/
structure Cfg where
  ops : VerifierOps
  progType : ProgType
  gplCompatible : Bool
  allowPtrLeaks : Bool
  map : BitVec 64 → BpfMap

inductive RegArgType
  | srcOp
  | dstOp
  | dstOpNoMark
deriving DecidableEq

variable (cfg : Cfg) (s : VState)

def checkRegArg (regno : Nat) (t : RegArgType) : Except Errno VState := do
  rejectIf (maxBpfReg ≤ regno) .einval
  match t with
  | .srcOp =>
    rejectIf ((s.regs regno).type = .notInit) .eacces
    pure s
  | .dstOp =>
    rejectIf (regno = regFP) .eacces
    pure (s.markRegUnknownValue regno)
  | .dstOpNoMark =>
    rejectIf (regno = regFP) .eacces
    pure s

def isSpillableRegtype : RegType → Bool
  | .ptrToMapValue | .ptrToMapValueOrNull | .ptrToStack
  | .ptrToCtx | .framePtr | .constPtrToMap => true
  | _ => false

/-- Set `stack_slot_type[i .. i + n)`. -/
def setSlots (slot : Nat → SlotType) (i n : Nat) (t : SlotType) : Nat → SlotType :=
  fun j => if i ≤ j ∧ j < i + n then t else slot j

/-- Index into `stack_slot_type` of the byte `off` from the frame pointer. -/
def stackIdx (off : Int) : Nat :=
  (off + maxBpfStack).toNat

/-- `check_stack_write()`; `none` is a `value_regno` of -1. -/
def checkStackWrite (off : Int) (size : Nat) (valueRegno : Option Nat) : Except Errno VState :=
  let i := stackIdx off
  match valueRegno.filter (fun r => isSpillableRegtype (s.regs r).type) with
  | some r => do
      rejectIf (size ≠ 8) .eacces
      pure { s with
        spilled := fun k => if k = i / 8 then s.regs r else s.spilled k
        slot := setSlots s.slot i 8 .spill }
  | none =>
    pure { s with
      spilled := fun k => if k = i / 8 then {} else s.spilled k
      slot := setSlots s.slot i size .misc }

/-- Write the result of a load to `value_regno`, unless that is -1. -/
def setValueReg (valueRegno : Option Nat) (v : RegState) : VState :=
  match valueRegno with
  | some r => s.setReg r v
  | none => s

def checkStackRead (off : Int) (size : Nat) (valueRegno : Option Nat) : Except Errno VState :=
  let i := stackIdx off
  if s.slot i = .spill then do
    rejectIf (size ≠ 8) .eacces
    rejectIf (¬ ∀ j : Nat, j < 8 → s.slot (i + j) = .spill) .eacces
    pure (setValueReg s valueRegno (s.spilled (i / 8)))
  else do
    rejectIf (¬ ∀ j : Nat, j < size → s.slot (i + j) = .misc) .eacces
    pure (setValueReg s valueRegno { type := .unknownValue, u := 0 })

def checkMapAccess (regno : Nat) (off : Int) (size : Nat) : Except Errno Unit :=
  rejectIf (off < 0 ∨ ((cfg.map (s.regs regno).mapPtr).valueSize.toNat : Int) < off + size) .eacces

def checkCtxAccess (off : Int) (size : Nat) (t : AccessType) : Except Errno Unit :=
  rejectIf (cfg.ops.isValidAccess off size t = false) .eacces

def isPointerValue (regno : Nat) : Bool :=
  if cfg.allowPtrLeaks then false
  else
    match (s.regs regno).type with
    | .unknownValue | .constImm => false
    | _ => true

/-- A store of register `value_regno` would leak a pointer. -/
def leaksValue (t : AccessType) (valueRegno : Option Nat) : Bool :=
  t = .write && valueRegno.any (isPointerValue cfg s)

/-- The result of a load from a map value or from the context. -/
def markLoaded (t : AccessType) (valueRegno : Option Nat) : VState :=
  if t = .read then
    setValueReg s valueRegno { type := .unknownValue, u := 0 }
  else s

def checkMemAccess (regno : Nat) (off₀ : Int)
    (bpfSize : Size) (t : AccessType) (valueRegno : Option Nat) :
    Except Errno VState := do
  let off :=
    if (s.regs regno).type = .ptrToStack then
      off₀ + (s.regs regno).imm.toInt
    else off₀
  let size := bpfSize.bytes
  rejectIf (off % size ≠ 0) .eacces
  match (s.regs regno).type with
  | .ptrToMapValue =>
    rejectIf (leaksValue cfg s t valueRegno = true) .eacces
    checkMapAccess cfg s regno off size
    pure (markLoaded s t valueRegno)
  | .ptrToCtx =>
    rejectIf (leaksValue cfg s t valueRegno = true) .eacces
    checkCtxAccess cfg off size t
    pure (markLoaded s t valueRegno)
  | .framePtr | .ptrToStack =>
    rejectIf (0 ≤ off ∨ off < -(maxBpfStack : Int)) .eacces
    match t with
    | .write =>
      rejectIf (cfg.allowPtrLeaks = false ∧ s.slot (stackIdx off) = .spill ∧ size ≠ 8) .eacces
      checkStackWrite s off size valueRegno
    | .read => checkStackRead s off size valueRegno
  | _ => .error .eacces

def checkXadd (insn : Insn) (size : Size) : Except Errno VState := do
  rejectIf ((size ≠ .w ∧ size ≠ .dw) ∨ insn.imm ≠ 0) .einval
  let s ← checkRegArg s insn.srcReg .srcOp
  let s ← checkRegArg s insn.dstReg .srcOp
  let s ← checkMemAccess cfg s insn.dstReg insn.off.toInt size .read none
  checkMemAccess cfg s insn.dstReg insn.off.toInt size .write none

end LinuxKernel.Bpf
