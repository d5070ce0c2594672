import LinuxKernel.Bpf.VerifierState

/-!
# The eBPF verifier

The checks of calls, arithmetic, jumps and programs of `kernel/bpf/verifier.c`.

The body of the `do_check()` loop is cut in two.  `checkInsn` checks one instruction against the
current state and says where the check goes on; `doCheckLoop` is the loop around it, with the
stack of pending branches and the table of explored states.  It runs on `insn_processed`, which
the source bounds by 32768, and returns the instructions it looked at with their states, as in the
log of the source.  Allocations succeed: a failed one only makes the check reject.
-/

namespace LinuxKernel.Bpf

open Lib

variable (cfg : Cfg) (s : VState)

def checkStackBoundary (regno : Nat) (accessSize : Int) : Except Errno Unit := do
  rejectIf ((s.regs regno).type ≠ .ptrToStack) .eacces
  let off := (s.regs regno).imm.toInt
  rejectIf (0 ≤ off ∨ off < -(maxBpfStack : Int) ∨ 0 < off + accessSize ∨ accessSize ≤ 0) .eacces
  rejectIf (¬ ∀ i : Nat, i < accessSize.toNat → s.slot (stackIdx off + i) = .misc) .eacces

/-- The register type expected for an argument type. -/
def expectedType : ArgType → RegType
  | .ptrToStack | .ptrToMapKey | .ptrToMapValue => .ptrToStack
  | .constStackSize => .constImm
  | .constMapPtr => .constPtrToMap
  | .ptrToCtx => .ptrToCtx
  | .dontcare | .anything => .notInit

/-- `check_func_arg()`: the updated `*mapp`, zero for `NULL`. -/
def checkFuncArg (regno : Nat) (argType : ArgType) (mapp : BitVec 64) : Except Errno (BitVec 64) :=
  match argType with
  | .dontcare => pure mapp
  | .anything => do
      rejectIf ((s.regs regno).type = .notInit) .eacces
      rejectIf (isPointerValue cfg s regno = true) .eacces
      pure mapp
  | _ => do
      rejectIf ((s.regs regno).type = .notInit) .eacces
      rejectIf ((s.regs regno).type ≠ expectedType argType) .eacces
      match argType with
      | .constMapPtr => pure (s.regs regno).mapPtr
      | .ptrToMapKey =>
        rejectIf (mapp = 0) .eacces
        checkStackBoundary s regno (cfg.map mapp).keySize.toInt
        pure mapp
      | .ptrToMapValue =>
        rejectIf (mapp = 0) .eacces
        checkStackBoundary s regno (cfg.map mapp).valueSize.toInt
        pure mapp
      | .constStackSize =>
        rejectIf (regno = 0) .eacces
        checkStackBoundary s (regno - 1) (s.regs regno).imm.toInt
        pure mapp
      | _ => pure mapp

def funcMaxId : Nat := 26

/-- `func_limit[]`. -/
def funcLimit : List (MapType × Nat) :=
  [(.progArray, funcTailCall), (.perfEventArray, 22), (.perfEventArray, 25)]

def checkMapFuncCompatibility (map : BitVec 64) (funcId : Nat) : Except Errno Unit :=
  if map = 0 then pure ()
  else
    rejectIf (∃ l ∈ funcLimit, funcId = l.2 ∧ (cfg.map map).mapType ≠ l.1) .einval

/-- The arguments of a prototype with their registers. -/
def FuncProto.args (fn : FuncProto) : List (Nat × ArgType) :=
  [(1, fn.arg1Type), (2, fn.arg2Type), (3, fn.arg3Type), (4, fn.arg4Type), (5, fn.arg5Type)]

/-- The argument checks of `check_call()`, in order. -/
def checkFuncArgs (cfg : Cfg) (s : VState) :
    List (Nat × ArgType) → BitVec 64 → Except Errno (BitVec 64)
  | [], mapp => pure mapp
  | (regno, t) :: rest, mapp => do
      let mapp ← checkFuncArg cfg s regno t mapp
      checkFuncArgs cfg s rest mapp

/-- Reset the caller saved registers R0 to R5. -/
def resetCallerSaved : VState :=
  { s with
    regs := fun i =>
      if i ≤ 5 then ({ s.regs i with type := .notInit }).setImm 0
      else s.regs i }

/-- The update of R0 in `check_call()`. -/
def setReturnReg (t : RetType) (map : BitVec 64) : Except Errno VState :=
  match t with
  | .integer => pure (s.setReg 0 { s.regs 0 with type := .unknownValue })
  | .void => pure (s.setReg 0 { s.regs 0 with type := .notInit })
  | .ptrToMapValueOrNull => do
      rejectIf (map = 0) .einval
      pure (s.setReg 0 { type := .ptrToMapValueOrNull, u := map })

/-- The function that `check_call()` looks up. -/
def findFuncProto (funcId : BitVec 32) : Except Errno FuncProto := do
  rejectIf (funcId.toInt < 0 ∨ (funcMaxId : Int) ≤ funcId.toInt) .einval
  match cfg.ops.getFuncProto funcId.toNat with
  | none => .error .einval
  | some fn =>
    rejectIf (cfg.gplCompatible = false ∧ fn.gplOnly = true) .einval
    pure fn

def checkCall (funcId : BitVec 32) : Except Errno VState := do
  let fn ← findFuncProto cfg funcId
  let map ← checkFuncArgs cfg s fn.args 0
  let s ← setReturnReg (resetCallerSaved s) fn.retType map
  checkMapFuncCompatibility cfg map funcId.toNat
  pure s

/-- The branch of `check_alu_op()` for `BPF_NEG` and `BPF_END`. -/
def checkAluUnary (insn : Insn) : Except Errno VState := do
  let s ← checkRegArg s insn.dstReg .srcOp
  rejectIf (isPointerValue cfg s insn.dstReg = true) .eacces
  checkRegArg s insn.dstReg .dstOp

/-- The check of the source operand in `check_alu_op()`. -/
def checkAluSrc (insn : Insn) (src : Src) : Except Errno VState :=
  match src with
  | .x => do
      rejectIf (insn.imm ≠ 0 ∨ insn.off ≠ 0) .einval
      checkRegArg s insn.srcReg .srcOp
  | .k => do
      rejectIf (insn.srcReg ≠ 0 ∨ insn.off ≠ 0) .einval
      pure s

/-- `BPF_MOV` in `check_alu_op()`.  The destination is marked before the source is copied. -/
def checkAluMov (insn : Insn) (is64 : Bool) (src : Src) : Except Errno VState := do
  let s ← checkAluSrc s insn src
  let s ← checkRegArg s insn.dstReg .dstOp
  match src with
  | .x =>
    if is64 then
      pure (s.setReg insn.dstReg (s.regs insn.srcReg))
    else do
      rejectIf (isPointerValue cfg s insn.srcReg = true) .eacces
      pure (s.setReg insn.dstReg { type := .unknownValue, u := 0 })
  | .k =>
    pure (s.setReg insn.dstReg ({ s.regs insn.dstReg with type := .constImm }.setImm insn.imm))

/-- The branch of `check_alu_op()` for all other operations. -/
def checkAluBinary (insn : Insn) (is64 : Bool) (op : AluOp) (src : Src) : Except Errno VState := do
  let s ← checkAluSrc s insn src
  let s ← checkRegArg s insn.dstReg .srcOp
  rejectIf ((op = .mod ∨ op = .div) ∧ src = .k ∧ insn.imm = 0) .einval
  rejectIf
    ((op = .lsh ∨ op = .rsh ∨ op = .arsh) ∧ src = .k ∧
      (insn.imm.toInt < 0 ∨ (if is64 then 64 else 32) ≤ insn.imm.toInt))
    .einval
  let stackRelative := op = .add && is64 && (s.regs insn.dstReg).type = .framePtr && src = .k
  rejectIf
    (stackRelative = false ∧
      (isPointerValue cfg s insn.dstReg = true ∨
        (src = .x ∧ isPointerValue cfg s insn.srcReg = true)))
    .eacces
  let s ← checkRegArg s insn.dstReg .dstOp
  if stackRelative then
    pure (s.setReg insn.dstReg ({ s.regs insn.dstReg with type := .ptrToStack }.setImm insn.imm))
  else pure s

def checkAluOp (insn : Insn) (is64 : Bool) (op : AluOp) (src : Src) : Except Errno VState :=
  match op with
  | .neg => do
      rejectIf (src ≠ .k ∨ insn.srcReg ≠ 0 ∨ insn.off ≠ 0 ∨ insn.imm ≠ 0) .einval
      checkAluUnary cfg s insn
  | .end_ => do
      rejectIf (insn.srcReg ≠ 0 ∨ insn.off ≠ 0 ∨ (insn.imm ≠ 16 ∧ insn.imm ≠ 32 ∧ insn.imm ≠ 64))
        .einval
      checkAluUnary cfg s insn
  | .mov => checkAluMov cfg s insn is64 src
  | .opE0 | .opF0 => .error .einval
  | _ => checkAluBinary cfg s insn is64 op src

/-- Where the check goes on after an instruction. -/
inductive Next
  | exit
  | goto (idx : Int) (st : VState)
  | branch (idx : Int) (st : VState) (otherIdx : Int) (other : VState)

/-- The program points that remain to be checked. -/
def Next.targets : Next → List (Int × VState)
  | .exit => []
  | .goto i s => [(i, s)]
  | .branch i s j t => [(i, s), (j, t)]

/-- Refine a register to a known constant. -/
def VState.setConst (r : Nat) (imm : BitVec 32) : VState :=
  s.setReg r ({ s.regs r with type := .constImm }.setImm imm)

/-- Refine a register that is known not to be `NULL`. -/
def VState.setMapValue (r : Nat) : VState :=
  s.setReg r { s.regs r with type := .ptrToMapValue }

/-- The check of the source operand in `check_cond_jmp_op()`. -/
def checkJmpSrc (insn : Insn) (src : Src) : Except Errno VState :=
  match src with
  | .x => do
      rejectIf (insn.imm ≠ 0) .einval
      let s ← checkRegArg s insn.srcReg .srcOp
      rejectIf (isPointerValue cfg s insn.srcReg = true) .eacces
      pure s
  | .k => do
      rejectIf (insn.srcReg ≠ 0) .einval
      pure s

/-- What a comparison teaches about the destination: the states of the fall-through path and of the
jump target. -/
def refineBranches (insn : Insn) (op : JmpOp) (src : Src) : Except Errno (VState × VState) :=
  let r : Nat := insn.dstReg
  if src = .k ∧ insn.imm = 0 ∧ (op = .jeq ∨ op = .jne) ∧ (s.regs r).type = .ptrToMapValueOrNull then
    if op = .jeq then pure (s.setMapValue r, s.setConst r 0)
    else pure (s.setConst r 0, s.setMapValue r)
  else do
    rejectIf (isPointerValue cfg s r = true) .eacces
    if src = .k ∧ op = .jeq then pure (s, s.setConst r insn.imm)
    else if src = .k ∧ op = .jne then pure (s.setConst r insn.imm, s)
    else pure (s, s)

/-- `opcode > BPF_EXIT`. -/
def JmpOp.isInvalid : JmpOp → Bool
  | .opA0 | .opB0 | .opC0 | .opD0 | .opE0 | .opF0 => true
  | _ => false

/-- `check_cond_jmp_op()` and the final `insn_idx++`.  The pending branch counts against the limit
of `push_stack()`. -/
def checkCondJmpOp (insn : Insn) (op : JmpOp)
    (src : Src) (stackSize : Nat) (idx : Int) : Except Errno Next := do
  rejectIf (op.isInvalid = true) .einval
  let s ← checkJmpSrc cfg s insn src
  let s ← checkRegArg s insn.dstReg .srcOp
  if src = .k ∧ (op = .jeq ∨ op = .jne) ∧
      (s.regs insn.dstReg).type = .constImm ∧
      (s.regs insn.dstReg).imm = insn.imm then
    if op = .jeq then pure (.goto (idx + insn.off.toInt + 1) s)
    else pure (.goto (idx + 1) s)
  else do
    rejectIf (1024 < stackSize + 1) .efault
    let (cur, other) ← refineBranches cfg s insn op src
    pure (.branch (idx + 1) cur (idx + insn.off.toInt + 1) other)

/-- `ld_imm64_to_map_ptr()`, and the value loaded by `BPF_LD_IMM64`. -/
def ldImm64 (insn0 insn1 : Insn) : BitVec 64 :=
  insn1.imm ++ insn0.imm

def checkLdImm (insn0 insn1 : Insn) (size : Size) : Except Errno VState := do
  rejectIf (size ≠ .dw) .einval
  rejectIf (insn0.off ≠ 0) .einval
  let s ← checkRegArg s insn0.dstReg .dstOp
  if insn0.srcReg = 0 then pure s
  else do
    -- BUG_ON(insn->src_reg != BPF_PSEUDO_MAP_FD)
    rejectIf (insn0.srcReg ≠ 1) .efault
    pure (s.setReg insn0.dstReg { type := .constPtrToMap, u := ldImm64 insn0 insn1 })

def mayAccessSkb : ProgType → Bool
  | .socketFilter | .schedCls | .schedAct => true
  | _ => false

def checkLdAbs (insn : Insn) (mode : Mode) : Except Errno VState := do
  rejectIf (mayAccessSkb cfg.progType = false) .einval
  rejectIf (insn.dstReg ≠ 0 ∨ insn.off ≠ 0 ∨ (mode = .abs ∧ insn.srcReg ≠ 0)) .einval
  let s ← checkRegArg s 6 .srcOp
  rejectIf ((s.regs 6).type ≠ .ptrToCtx) .einval
  let s ← if mode = .ind then checkRegArg s insn.srcReg .srcOp else pure s
  let s := resetCallerSaved s
  pure (s.setReg 0 { s.regs 0 with type := .unknownValue })

variable (insns : List Insn)

/-- `insns[idx]`. -/
def fetch (idx : Int) : Insn :=
  insns.getD idx.toNat default

/-- One instruction of `do_check()`: where to go on, and the pointer type remembered in the `imm`
of a load or store. -/
def checkInsn (stackSize : Nat) (idx : Int) (s : VState) : Except Errno (Next × Option RegType) :=
  let insn := fetch insns idx
  match insn.code with
  | .alu op src => do
      let s ← checkAluOp cfg s insn false op src
      pure (.goto (idx + 1) s, none)
  | .alu64 op src => do
      let s ← checkAluOp cfg s insn true op src
      pure (.goto (idx + 1) s, none)
  | .ldx _ size => do
      let s ← checkRegArg s insn.srcReg .srcOp
      let s ← checkRegArg s insn.dstReg .dstOpNoMark
      let srcRegType := (s.regs insn.srcReg).type
      let s ← checkMemAccess cfg s insn.srcReg insn.off.toInt size .read (some insn.dstReg)
      pure (.goto (idx + 1) s, if size = .w then some srcRegType else none)
  | .stx .xadd size => do
      let s ← checkXadd cfg s insn size
      pure (.goto (idx + 1) s, none)
  | .stx _ size => do
      let s ← checkRegArg s insn.srcReg .srcOp
      let s ← checkRegArg s insn.dstReg .srcOp
      let dstRegType := (s.regs insn.dstReg).type
      let s ← checkMemAccess cfg s insn.dstReg insn.off.toInt size .write (some insn.srcReg)
      pure (.goto (idx + 1) s, some dstRegType)
  | .st mode size => do
      rejectIf (mode ≠ .mem ∨ insn.srcReg ≠ 0) .einval
      let s ← checkRegArg s insn.dstReg .srcOp
      let s ← checkMemAccess cfg s insn.dstReg insn.off.toInt size .write none
      pure (.goto (idx + 1) s, none)
  | .jmp .call src => do
      rejectIf (src ≠ .k ∨ insn.off ≠ 0 ∨ insn.srcReg ≠ 0 ∨ insn.dstReg ≠ 0) .einval
      let s ← checkCall cfg s insn.imm
      pure (.goto (idx + 1) s, none)
  | .jmp .ja src => do
      rejectIf (src ≠ .k ∨ insn.imm ≠ 0 ∨ insn.srcReg ≠ 0 ∨ insn.dstReg ≠ 0) .einval
      pure (.goto (idx + insn.off.toInt + 1) s, none)
  | .jmp .exit src => do
      rejectIf (src ≠ .k ∨ insn.imm ≠ 0 ∨ insn.srcReg ≠ 0 ∨ insn.dstReg ≠ 0) .einval
      let s ← checkRegArg s 0 .srcOp
      rejectIf (isPointerValue cfg s 0 = true) .eacces
      pure (.exit, none)
  | .jmp op src => do
      let next ← checkCondJmpOp cfg s insn op src stackSize idx
      pure (next, none)
  | .ld .abs _ => do
      let s ← checkLdAbs cfg s insn .abs
      pure (.goto (idx + 1) s, none)
  | .ld .ind _ => do
      let s ← checkLdAbs cfg s insn .ind
      pure (.goto (idx + 1) s, none)
  | .ld .imm size => do
      let s ← checkLdImm s insn (fetch insns (idx + 1)) size
      pure (.goto (idx + 2) s, none)
  | .ld _ _ => .error .einval
  | .ret _ => .error .einval

/-- Remember in `insn->imm` the pointer type of a load or store, which cannot access the context on
one path only. -/
def markInsn (idx : Int) (t : RegType) : Except Errno (List Insn) :=
  let insn := fetch insns idx
  if insn.imm = 0 then
    pure (insns.set idx.toNat { insn with imm := t.val })
  else do
    rejectIf (t.val ≠ insn.imm ∧ (t = .ptrToCtx ∨ insn.imm = RegType.ptrToCtx.val)) .einval
    pure insns

/-- The register part of `states_equal()`. -/
def regSafe (old cur : RegState) : Bool :=
  old = cur || old.type = .notInit || (old.type = .unknownValue && !(cur.type = .notInit))

/-- The stack part of `states_equal()`, at byte `i`. -/
def slotSafe (old cur : VState) (i : Nat) : Bool :=
  old.slot i = .invalid ||
    (old.slot i = cur.slot i && (!(i % 8 = 0) || old.spilled (i / 8) = cur.spilled (i / 8)))

def statesEqual (old cur : VState) : Bool :=
  (List.range maxBpfReg).all (fun i => regSafe (old.regs i) (cur.regs i)) &&
    (List.range maxBpfStack).all (slotSafe old cur)

/-- `env->explored_states`: `none` where `check_cfg()` made no mark, otherwise the states seen. -/
abbrev ExploredStates := Nat → Option (List VState)

/-- `struct verifier_env`, as far as `do_check()` changes it. -/
structure VerifierEnv where
  insns : List Insn
  head : List (VState × Int)
  explored : ExploredStates

/-- The instructions looked at, with the state before each. -/
abbrev Trace := List (Int × VState)

/-- `is_state_visited()`: `none` when an equivalent state was seen, otherwise the table, with this
state if marked. -/
def isStateVisited (eq : VState → VState → Bool) (explored : ExploredStates)
    (idx : Int) (cur : VState) : Option ExploredStates :=
  match explored idx.toNat with
  | none => some explored
  | some sl =>
    if sl.any (fun old => eq old cur) then none
    else
      some (fun i =>
        if i = idx.toNat then some (cur :: sl) else explored i)

/-- Remember the mark that an instruction asked for. -/
def applyMark (idx : Int) : Option RegType → Except Errno (List Insn)
  | some t => markInsn insns idx t
  | none => pure insns

/-- `pop_stack()`; a negative index ends the check too. -/
def popStack : List (VState × Int) → Option (Int × VState × List (VState × Int))
  | [] => none
  | (st, i) :: rest => if i < 0 then none else some (i, st, rest)

/-- The point to look at next, and the pending branches. -/
def nextPoint (head : List (VState × Int)) : Next → Option (Int × VState × List (VState × Int))
  | .exit => popStack head
  | .goto i st => some (i, st, head)
  | .branch i st j other => some (i, st, (other, j) :: head)

/-- The loop of `do_check()`, with `eq` as `states_equal()`.  The first argument is 32768 less
`insn_processed`; the result is the marked program and the trace. -/
def doCheckLoop (cfg : Cfg) (eq : VState → VState → Bool) :
    Nat → VerifierEnv → Int → VState → Trace → Except Errno (List Insn × Trace)
  | left, env, idx, cur, trace =>
    if (env.insns.length : Int) ≤ idx then .error .efault
    else
      match left with
      | 0 => .error .e2big
      | left + 1 =>
        match isStateVisited eq env.explored idx cur with
        | none =>
          -- process_bpf_exit: an equivalent state was found
          match popStack env.head with
          | none => pure (env.insns, trace)
          | some (i, st, head) =>
            doCheckLoop cfg eq left { env with head := head } i st trace
        | some explored => do
            let (next, mark) ← checkInsn cfg env.insns env.head.length idx cur
            let insns ← applyMark env.insns idx mark
            match nextPoint env.head next with
            | none => pure (insns, (idx, cur) :: trace)
            | some (i, st, head) =>
              doCheckLoop cfg eq left ⟨insns, head, explored⟩ i st ((idx, cur) :: trace)

/-- `do_check()`, with `eq` in the place of `states_equal()`. -/
def doCheckWith (eq : VState → VState → Bool) (insns : List Insn) (explored : ExploredStates) :
    Except Errno (List Insn × Trace) :=
  doCheckLoop cfg eq 32768 ⟨insns, [], explored⟩ 0 initRegState []

/-- The globals of `check_cfg()`, and its marks in `explored_states`. -/
structure CfgState where
  insnState : Nat → Nat
  insnStack : List Nat
  marks : List Nat

/-- `DISCOVERED`, `EXPLORED`. -/
def DISCOVERED : Nat := 0x10
def EXPLORED : Nat := 0x20

/-- `FALLTHROUGH`, `BRANCH`. -/
inductive Edge
  | fallthrough
  | branch
deriving DecidableEq

def Edge.val : Edge → Nat
  | .fallthrough => 1
  | .branch => 2

/-- Write one entry of `insn_state`. -/
def CfgState.setState (c : CfgState) (t v : Nat) : CfgState :=
  { c with insnState := fun i => if i = t then v else c.insnState i }

def CfgState.markTarget (c : CfgState) (e : Edge) (w : Nat) : CfgState :=
  { c with marks := if e = .branch then w :: c.marks else c.marks }

/-- `push_insn()`; the flag says that `w` was pushed. -/
def pushInsn (len t : Nat) (w : Int) (e : Edge) (c : CfgState) : Except Errno (Bool × CfgState) :=
  if DISCOVERED + e.val ≤ c.insnState t then pure (false, c)
  else do
    rejectIf (w < 0 ∨ (len : Int) ≤ w) .einval
    let wn := w.toNat
    let c := c.markTarget e wn
    if c.insnState wn = 0 then do
      rejectIf (len ≤ c.insnStack.length) .e2big
      let c := (c.setState t (DISCOVERED + e.val)).setState wn DISCOVERED
      pure (true, { c with insnStack := wn :: c.insnStack })
    else do
      rejectIf (c.insnState wn / 16 * 16 = DISCOVERED) .einval
      rejectIf (c.insnState wn ≠ EXPLORED) .efault
      pure (false, c.setState t (DISCOVERED + e.val))

/-- `mark_explored:`. -/
def CfgState.markExplored (c : CfgState) (t : Nat) : CfgState :=
  { c.setState t EXPLORED with insnStack := c.insnStack.tail }

/-- One pass from `peek_stack:`, for the instruction on top. -/
def cfgStep (t : Nat) (c : CfgState) : Except Errno CfgState :=
  let insn := fetch insns t
  let len := insns.length
  match insn.code with
  | .jmp .exit _ => pure (c.markExplored t)
  | .jmp .ja src => do
      rejectIf (src ≠ .k) .einval
      let (pushed, c) ← pushInsn len t (t + insn.off.toInt + 1) .fallthrough c
      if pushed then pure c
      else if t + 1 < len then
        pure ({ c with marks := (t + 1) :: c.marks }.markExplored t)
      else pure (c.markExplored t)
  | .jmp .call _ => do
      let (pushed, c) ← pushInsn len t (t + 1) .fallthrough c
      if pushed then pure c else pure (c.markExplored t)
  | .jmp _ _ => do
      let (pushed, c) ← pushInsn len t (t + 1) .fallthrough c
      if pushed then pure c
      else do
        let (pushed, c) ← pushInsn len t (t + insn.off.toInt + 1) .branch c
        if pushed then pure c else pure (c.markExplored t)
  | _ => do
      let (pushed, c) ← pushInsn len t (t + 1) .fallthrough c
      if pushed then pure c else pure (c.markExplored t)

/-- The loop of `check_cfg()`.  Each pass pushes a new instruction or pops one, so `2 * insn_cnt +
1` passes are enough. -/
def cfgLoop (insns : List Insn) : Nat → CfgState → Except Errno CfgState
  | 0, _ => .error .efault
  | fuel + 1, c =>
    match c.insnStack with
    | [] => .ok c
    | t :: _ =>
      match cfgStep insns t c with
      | .error e => .error e
      | .ok c => cfgLoop insns fuel c

/-- `check_cfg()`: the table of explored states with its marks. -/
def checkCfg : Except Errno ExploredStates := do
  let c ← cfgLoop insns (2 * insns.length + 1)
    { insnState := fun i => if i = 0 then DISCOVERED else 0
      insnStack := [0]
      marks := [] }
  rejectIf (¬ ∀ i : Nat, i < insns.length → c.insnState i = EXPLORED) .einval
  pure (fun i => if i ∈ c.marks then some [] else none)

def maxUsedMaps : Nat := 64

/-- Remember a map in `env->used_maps`. -/
def recordMap (used : List (BitVec 64)) (map : BitVec 64) : Except Errno (List (BitVec 64)) :=
  if map ∈ used then pure used
  else do
    rejectIf (maxUsedMaps ≤ used.length) .e2big
    pure (used ++ [map])

/-- `replace_map_fd_with_map_ptr()`; `mapGet` is `fdget()` and `__bpf_map_get()`. -/
def replaceMapFdWithMapPtr (mapGet : BitVec 32 → Except Errno (BitVec 64)) :
    List (BitVec 64) → List Insn → Except Errno (List Insn)
  | _, [] => pure []
  | used, insn :: rest =>
    match insn.code with
    | .ldx mode _ => do
        rejectIf (mode ≠ .mem ∨ insn.imm ≠ 0) .einval
        let rest ← replaceMapFdWithMapPtr mapGet used rest
        pure (insn :: rest)
    | .stx mode _ => do
        rejectIf ((mode ≠ .mem ∧ mode ≠ .xadd) ∨ insn.imm ≠ 0) .einval
        let rest ← replaceMapFdWithMapPtr mapGet used rest
        pure (insn :: rest)
    | .ld .imm .dw =>
      match rest with
      | [] => .error .einval
      | insn1 :: rest => do
          rejectIf (insn1.code ≠ .ld .imm .w ∨ insn1.dstReg ≠ 0 ∨ insn1.srcReg ≠ 0 ∨ insn1.off ≠ 0)
            .einval
          if insn.srcReg = 0 then do
            let rest ← replaceMapFdWithMapPtr mapGet used rest
            pure (insn :: insn1 :: rest)
          else do
            rejectIf (insn.srcReg ≠ 1) .einval
            let map ← mapGet insn.imm
            let used ← recordMap used map
            let rest ← replaceMapFdWithMapPtr mapGet used rest
            pure ({ insn with imm := map.setWidth 32 } ::
              { insn1 with imm := (map >>> 32).setWidth 32 } :: rest)
    | _ => do
        let rest ← replaceMapFdWithMapPtr mapGet used rest
        pure (insn :: rest)

/-- `bpf_check()` through `do_check()`, with `eq` as `states_equal()`: the program with map
pointers, the same with the marks of `do_check()`, and the trace. -/
def bpfCheckMarked (cfg : Cfg) (eq : VState → VState → Bool)
    (mapGet : BitVec 32 → Except Errno (BitVec 64)) (prog : List Insn) :
    Except Errno (List Insn × List Insn × Trace) := do
  rejectIf (prog.length = 0 ∨ bpfMaxInsns < prog.length) .e2big
  let insns ← replaceMapFdWithMapPtr mapGet [] prog
  let explored ← checkCfg insns
  let (marked, trace) ← doCheckWith cfg eq insns explored
  pure (insns, marked, trace)

/-- `bpfCheckMarked` without the marks. -/
def bpfCheckWith (eq : VState → VState → Bool)
    (mapGet : BitVec 32 → Except Errno (BitVec 64)) (prog : List Insn) :
    Except Errno (List Insn × Trace) := do
  let (insns, _, trace) ← bpfCheckMarked cfg eq mapGet prog
  pure (insns, trace)

/-- `bpf_check()` up to and including `do_check()`. -/
def bpfCheck (mapGet : BitVec 32 → Except Errno (BitVec 64))
    (prog : List Insn) : Except Errno (List Insn × Trace) :=
  bpfCheckWith cfg statesEqual mapGet prog

end LinuxKernel.Bpf
