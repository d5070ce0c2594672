import Mathlib.Algebra.Order.Ring.Int

/-!
# eBPF instructions

The instruction set shared by the verifier, the interpreter and the converter of classic filters,
after `include/uapi/linux/bpf_common.h` and `include/uapi/linux/bpf.h`.

The fields of the opcode byte (`BPF_CLASS`, `BPF_SIZE`, `BPF_MODE`, `BPF_OP` and `BPF_SRC`) are
disjoint, so an opcode is kept as a class with the fields that class uses.
-/

namespace LinuxKernel.Bpf

/-- The fields for registers have four bits. -/
instance neZero_sixteen : NeZero 16 :=
  ⟨by decide⟩

instance neZero_thirtyTwo : NeZero 32 :=
  ⟨by decide⟩

/-- `BPF_SIZE(code)`. -/
inductive Size
  | w | h | b | dw
deriving DecidableEq

/-- `BPF_MODE(code)`; `rsvd` is the unassigned value `0xe0`. -/
inductive Mode
  | imm | abs | ind | mem | len | msh | xadd | rsvd
deriving DecidableEq

/-- `BPF_SRC(code)`. -/
inductive Src
  | k | x
deriving DecidableEq

/-- `BPF_OP(code)` in the arithmetic classes. -/
inductive AluOp
  | add | sub | mul | div | or | and | lsh | rsh
  | neg | mod | xor | mov | arsh | end_ | opE0 | opF0
deriving DecidableEq

/-- `BPF_OP(code)` in the jump class. -/
inductive JmpOp
  | ja | jeq | jgt | jge | jset | jne | jsgt | jsge
  | call | exit | opA0 | opB0 | opC0 | opD0 | opE0 | opF0
deriving DecidableEq

/-- An opcode byte.  Class 6 is `BPF_RET`, 7 is `BPF_ALU64` (classic: `BPF_MISC`). -/
inductive Code
  | ld (mode : Mode) (size : Size)
  | ldx (mode : Mode) (size : Size)
  | st (mode : Mode) (size : Size)
  | stx (mode : Mode) (size : Size)
  | alu (op : AluOp) (src : Src)
  | jmp (op : JmpOp) (src : Src)
  | ret (rest : Fin 32)
  | alu64 (op : AluOp) (src : Src)
deriving DecidableEq

def Size.bits : Size → Nat
  | .w => 0x00
  | .h => 0x08
  | .b => 0x10
  | .dw => 0x18

def Mode.bits : Mode → Nat
  | .imm => 0x00
  | .abs => 0x20
  | .ind => 0x40
  | .mem => 0x60
  | .len => 0x80
  | .msh => 0xa0
  | .xadd => 0xc0
  | .rsvd => 0xe0

def Src.bits : Src → Nat
  | .k => 0x00
  | .x => 0x08

def AluOp.bits : AluOp → Nat
  | .add => 0x00
  | .sub => 0x10
  | .mul => 0x20
  | .div => 0x30
  | .or => 0x40
  | .and => 0x50
  | .lsh => 0x60
  | .rsh => 0x70
  | .neg => 0x80
  | .mod => 0x90
  | .xor => 0xa0
  | .mov => 0xb0
  | .arsh => 0xc0
  | .end_ => 0xd0
  | .opE0 => 0xe0
  | .opF0 => 0xf0

def JmpOp.bits : JmpOp → Nat
  | .ja => 0x00
  | .jeq => 0x10
  | .jgt => 0x20
  | .jge => 0x30
  | .jset => 0x40
  | .jne => 0x50
  | .jsgt => 0x60
  | .jsge => 0x70
  | .call => 0x80
  | .exit => 0x90
  | .opA0 => 0xa0
  | .opB0 => 0xb0
  | .opC0 => 0xc0
  | .opD0 => 0xd0
  | .opE0 => 0xe0
  | .opF0 => 0xf0

def Code.toByte : Code → Nat
  | .ld m s => 0x00 + m.bits + s.bits
  | .ldx m s => 0x01 + m.bits + s.bits
  | .st m s => 0x02 + m.bits + s.bits
  | .stx m s => 0x03 + m.bits + s.bits
  | .alu op s => 0x04 + op.bits + s.bits
  | .jmp op s => 0x05 + op.bits + s.bits
  | .ret r => 0x06 + 8 * r.val
  | .alu64 op s => 0x07 + op.bits + s.bits

def Size.ofBits (n : Nat) : Size :=
  match n / 8 % 4 with
  | 0 => .w
  | 1 => .h
  | 2 => .b
  | _ => .dw

def Mode.ofBits (n : Nat) : Mode :=
  match n / 32 % 8 with
  | 0 => .imm
  | 1 => .abs
  | 2 => .ind
  | 3 => .mem
  | 4 => .len
  | 5 => .msh
  | 6 => .xadd
  | _ => .rsvd

def Src.ofBits (n : Nat) : Src :=
  match n / 8 % 2 with
  | 0 => .k
  | _ => .x

def AluOp.ofBits (n : Nat) : AluOp :=
  match n / 16 % 16 with
  | 0 => .add
  | 1 => .sub
  | 2 => .mul
  | 3 => .div
  | 4 => .or
  | 5 => .and
  | 6 => .lsh
  | 7 => .rsh
  | 8 => .neg
  | 9 => .mod
  | 10 => .xor
  | 11 => .mov
  | 12 => .arsh
  | 13 => .end_
  | 14 => .opE0
  | _ => .opF0

def JmpOp.ofBits (n : Nat) : JmpOp :=
  match n / 16 % 16 with
  | 0 => .ja
  | 1 => .jeq
  | 2 => .jgt
  | 3 => .jge
  | 4 => .jset
  | 5 => .jne
  | 6 => .jsgt
  | 7 => .jsge
  | 8 => .call
  | 9 => .exit
  | 10 => .opA0
  | 11 => .opB0
  | 12 => .opC0
  | 13 => .opD0
  | 14 => .opE0
  | _ => .opF0

/-- Split an opcode byte into its class and fields. -/
def Code.ofByte (n : Nat) : Code :=
  match n % 8 with
  | 0 => .ld (Mode.ofBits n) (Size.ofBits n)
  | 1 => .ldx (Mode.ofBits n) (Size.ofBits n)
  | 2 => .st (Mode.ofBits n) (Size.ofBits n)
  | 3 => .stx (Mode.ofBits n) (Size.ofBits n)
  | 4 => .alu (AluOp.ofBits n) (Src.ofBits n)
  | 5 => .jmp (JmpOp.ofBits n) (Src.ofBits n)
  | 6 => .ret ⟨n / 8 % 32, Nat.mod_lt _ (by decide)⟩
  | _ => .alu64 (AluOp.ofBits n) (Src.ofBits n)

theorem Code.ofByte_toByte (c : Code) : Code.ofByte c.toByte = c := by
  cases c with
  | ld m s => cases m <;> cases s <;> rfl
  | ldx m s => cases m <;> cases s <;> rfl
  | st m s => cases m <;> cases s <;> rfl
  | stx m s => cases m <;> cases s <;> rfl
  | alu op s => cases op <;> cases s <;> rfl
  | jmp op s => cases op <;> cases s <;> rfl
  | ret r => revert r; decide
  | alu64 op s => cases op <;> cases s <;> rfl

theorem Code.toByte_ofByte : ∀ n < 256, (Code.ofByte n).toByte = n := by
  decide +kernel

structure Insn where
  code : Code
  dstReg : Fin 16 := 0
  srcReg : Fin 16 := 0
  off : BitVec 16 := 0
  imm : BitVec 32 := 0
deriving DecidableEq

instance : Inhabited Insn := ⟨{ code := .ld .imm .w }⟩

/-! The macros of `include/linux/filter.h` that put instructions together. -/

def ldxMem (size : Size) (dst src : Fin 16) (off : BitVec 16) : Insn :=
  { code := .ldx .mem size, dstReg := dst, srcReg := src, off := off }

def stxMem (size : Size) (dst src : Fin 16) (off : BitVec 16) : Insn :=
  { code := .stx .mem size, dstReg := dst, srcReg := src, off := off }

def alu32Imm (op : AluOp) (dst : Fin 16) (imm : BitVec 32) : Insn :=
  { code := .alu op .k, dstReg := dst, imm := imm }

def alu32Reg (op : AluOp) (dst src : Fin 16) : Insn :=
  { code := .alu op .x, dstReg := dst, srcReg := src }

/-- `BPF_ENDIAN`; `BPF_FROM_BE` is `BPF_X`. -/
def endian (type : Src) (dst : Fin 16) (len : BitVec 32) : Insn :=
  { code := .alu .end_ type, dstReg := dst, imm := len }

def mov32Imm (dst : Fin 16) (imm : BitVec 32) : Insn :=
  { code := .alu .mov .k, dstReg := dst, imm := imm }

def mov32Raw (type : Src) (dst src : Fin 16) (imm : BitVec 32) : Insn :=
  { code := .alu .mov type, dstReg := dst, srcReg := src, imm := imm }

def ldAbs (size : Size) (imm : BitVec 32) : Insn :=
  { code := .ld .abs size, imm := imm }

/-- `BPF_EMIT_CALL`; `imm` stands for the function. -/
def emitCall (imm : BitVec 32) : Insn :=
  { code := .jmp .call .k, imm := imm }

def mov64Reg (dst src : Fin 16) : Insn :=
  { code := .alu64 .mov .x, dstReg := dst, srcReg := src }

def mov64Imm (dst : Fin 16) (imm : BitVec 32) : Insn :=
  { code := .alu64 .mov .k, dstReg := dst, imm := imm }

def jmpImm (op : JmpOp) (dst : Fin 16) (imm : BitVec 32) (off : BitVec 16) : Insn :=
  { code := .jmp op .k, dstReg := dst, off := off, imm := imm }

def exitInsn : Insn :=
  { code := .jmp .exit .k }

/-- `bpf_size_to_bytes()`, for all values of the field. -/
def Size.bytes : Size → Nat
  | .w => 4
  | .h => 2
  | .b => 1
  | .dw => 8

theorem Size.bytes_pos (s : Size) : 0 < s.bytes := by
  cases s <;> decide

def regFP : Nat := 10

def maxBpfReg : Nat := 11

def maxBpfStack : Nat := 512

def bpfMaxInsns : Nat := 4096

/-- Negated error numbers returned by the code. -/
inductive Errno
  | eperm | enoent | e2big | ebadf | enomem | eacces | efault | einval
  | eagain | enolck | edeadlk
deriving DecidableEq

end LinuxKernel.Bpf
