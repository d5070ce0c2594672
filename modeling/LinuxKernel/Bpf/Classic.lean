import LinuxKernel.Bpf.Insn
import LinuxKernel.Lib.Checked

/-!
# Classic filters

`struct sock_filter` and its check, `bpf_check_classic()`, of `net/core/filter.c`, and the machine
of classic filters (`Documentation/networking/filter.txt`): an accumulator and an index register
of 32 bits, both zero at first, and 16 words of memory.  A load that cannot be done and a division
by an index register of zero end the filter with the value 0.

The opcode is looked at through `Code`.  `BPF_LD | BPF_IMM` and `BPF_ST` have no size, so they
decode as words, `BPF_MISC` is the class of `BPF_ALU64`, with `BPF_TAX` in the place of `BPF_ADD`
and `BPF_TXA` in that of `BPF_NEG`, and `BPF_RET | BPF_K` and `BPF_RET | BPF_A` are the codes 0
and 2 of their class.
-/

namespace LinuxKernel.Bpf

open Lib

structure SockFilter where
  code : BitVec 16
  jt : BitVec 8 := 0
  jf : BitVec 8 := 0
  k : BitVec 32 := 0
deriving DecidableEq

instance : Inhabited SockFilter := ⟨{ code := 0 }⟩

/-- The fields of the opcode; a code of more than a byte means nothing. -/
def SockFilter.op (f : SockFilter) : Option Code :=
  if f.code.toNat < 256 then some (Code.ofByte f.code.toNat) else none

def bpfStmt (code : Code) (k : BitVec 32) : SockFilter :=
  { code := BitVec.ofNat 16 code.toByte, k := k }

def bpfMemwords : Nat := 16

/-- The ancillary loads that are done by a function call. -/
inductive AncFn
  | payOffset | nlattr | nlattrNest | cpu | random
deriving DecidableEq

inductive Anc
  | protocol | pkttype | ifindex | mark | queue | hatype | rxhash | aluXorX
  | vlanTag | vlanTagPresent | vlanTpid
  | call (fn : AncFn)
deriving DecidableEq

def skfAdOff : BitVec 32 := -0x1000

/-- The `SKF_AD_*` load that an offset stands for. -/
def ancOf (k : BitVec 32) : Option Anc :=
  match (k - skfAdOff).toNat with
  | 0 => some .protocol
  | 4 => some .pkttype
  | 8 => some .ifindex
  | 12 => some (.call .nlattr)
  | 16 => some (.call .nlattrNest)
  | 20 => some .mark
  | 24 => some .queue
  | 28 => some .hatype
  | 32 => some .rxhash
  | 36 => some (.call .cpu)
  | 40 => some .aluXorX
  | 44 => some .vlanTag
  | 48 => some .vlanTagPresent
  | 52 => some (.call .payOffset)
  | 56 => some (.call .random)
  | 60 => some .vlanTpid
  | _ => none

/-- The arithmetic that classic filters have. -/
def AluOp.classic : AluOp → Src → Bool
  | .neg, .x => false
  | .mov, _ | .arsh, _ | .end_, _ | .opE0, _ | .opF0, _ => false
  | _, _ => true

/-- The conditional jumps that classic filters have. -/
def JmpOp.classic : JmpOp → Bool
  | .jeq | .jgt | .jge | .jset => true
  | _ => false

def chkCodeAllowed : Code → Bool
  | .alu op src => op.classic src
  | .ld .abs size => decide (size ≠ .dw)
  | .ld .ind size => decide (size ≠ .dw)
  | .ld .len .w => true
  | .ld .imm .w => true
  | .ld .mem .w => true
  | .ldx .len .w => true
  | .ldx .msh .b => true
  | .ldx .imm .w => true
  | .ldx .mem .w => true
  | .st .imm .w => true
  | .stx .imm .w => true
  | .alu64 .add .k => true
  | .alu64 .neg .k => true
  | .ret r => decide (r = 0 ∨ r = 2)
  | .jmp .ja .k => true
  | .jmp op _ => op.classic
  | _ => false

def checkSpecial (flen pc : Nat) (f : SockFilter) : Code → Except Errno Unit
  | .alu .div .k => rejectIf (f.k = 0) .einval
  | .alu .mod .k => rejectIf (f.k = 0) .einval
  | .alu .lsh .k => rejectIf (32 ≤ f.k.toNat) .einval
  | .alu .rsh .k => rejectIf (32 ≤ f.k.toNat) .einval
  | .ld .mem .w => rejectIf (bpfMemwords ≤ f.k.toNat) .einval
  | .ldx .mem .w => rejectIf (bpfMemwords ≤ f.k.toNat) .einval
  | .st .imm .w => rejectIf (bpfMemwords ≤ f.k.toNat) .einval
  | .stx .imm .w => rejectIf (bpfMemwords ≤ f.k.toNat) .einval
  | .jmp .ja .k => rejectIf (flen - pc - 1 ≤ f.k.toNat) .einval
  | .jmp _ _ =>
    rejectIf (flen ≤ pc + f.jt.toNat + 1 ∨ flen ≤ pc + f.jf.toNat + 1) .einval
  | .ld .abs _ =>
    -- ancillary operation unknown or unsupported
    rejectIf (ancOf f.k = none ∧ skfAdOff.toNat ≤ f.k.toNat) .einval
  | _ => pure ()

/-- The loop of `bpf_check_classic()`. -/
def checkClassicLoop (flen : Nat) : Nat → List SockFilter → Except Errno Unit
  | _, [] => pure ()
  | pc, f :: rest =>
    match f.op with
    | none => .error .einval
    | some code => do
        rejectIf (chkCodeAllowed code = false) .einval
        checkSpecial flen pc f code
        checkClassicLoop flen (pc + 1) rest

/-- What `check_load_and_stores()` knows: for each instruction the cells written on all ways seen
to it, and those written on the way from the one before. -/
structure MemChecks where
  masks : Nat → BitVec 16
  memvalid : BitVec 16

/-- Cell `k` of the memory. -/
def memBit (k : BitVec 32) : BitVec 16 :=
  (1 : BitVec 16) <<< k.toNat

/-- A jump must set the masks on its target. -/
def MemChecks.jump (s : MemChecks) (target : Nat) (memvalid : BitVec 16) : MemChecks :=
  { s with
    masks := fun i =>
      if i = target then s.masks i &&& memvalid else s.masks i }

/-- One instruction of `check_load_and_stores()`, after `memvalid` was restricted to its mask. -/
def checkMem (pc : Nat) (f : SockFilter) (s : MemChecks)
    (memvalid : BitVec 16) : Option Code → Except Errno MemChecks
  | some (.st .imm .w) | some (.stx .imm .w) =>
    pure { s with memvalid := memvalid ||| memBit f.k }
  | some (.ld .mem .w) | some (.ldx .mem .w) => do
      rejectIf (memvalid &&& memBit f.k = 0) .einval
      pure { s with memvalid := memvalid }
  | some (.jmp .ja .k) =>
    pure { s.jump (pc + 1 + f.k.toNat) memvalid with memvalid := -1 }
  | some (.jmp op _) =>
    if op.classic then
      pure
        { (s.jump (pc + 1 + f.jt.toNat) memvalid).jump
            (pc + 1 + f.jf.toNat) memvalid with memvalid := -1 }
    else pure { s with memvalid := memvalid }
  | _ => pure { s with memvalid := memvalid }

/-- The loop of `check_load_and_stores()`. -/
def checkMemLoop : Nat → List SockFilter → MemChecks → Except Errno Unit
  | _, [], _ => pure ()
  | pc, f :: rest, s => do
      let s ← checkMem pc f s (s.memvalid &&& s.masks pc) f.op
      checkMemLoop (pc + 1) rest s

def checkLoadAndStores (filter : List SockFilter) : Except Errno Unit :=
  checkMemLoop 0 filter { masks := fun _ => -1, memvalid := 0 }

def bpfCheckClassic (filter : List SockFilter) : Except Errno Unit := do
  rejectIf (filter.length = 0 ∨ bpfMaxInsns < filter.length) .einval
  checkClassicLoop filter.length 0 filter
  match (filter.getD (filter.length - 1) default).op with
  | some (.ret 0) => checkLoadAndStores filter
  | some (.ret 2) => checkLoadAndStores filter
  | _ => .error .einval

/-- The device a packet came from. -/
structure NetDev where
  ifindex : BitVec 32
  type : BitVec 16
deriving DecidableEq

/-- A packet and what the kernel knows about it.  `pkt` is the data at an offset; it, `protocol`
and `vlanProto` are in host byte order. -/
structure Skb where
  len : BitVec 32
  mark : BitVec 32
  hash : BitVec 32
  pktType : BitVec 8
  queueMapping : BitVec 16
  vlanTci : BitVec 16
  vlanProto : BitVec 16
  protocol : BitVec 16
  dev : Option NetDev
  pkt : BitVec 32 → Size → Option (BitVec 32)

/-- What the ancillary functions return. -/
abbrev AncData := AncFn → BitVec 32 → BitVec 32 → BitVec 32

structure ClassicState where
  pc : Nat
  a : BitVec 32
  x : BitVec 32
  mem : Nat → BitVec 32

/-- The result of one instruction. -/
inductive ClassicOutcome
  | next (s : ClassicState)
  | ret (v : BitVec 32)

/-- Arithmetic.  A division by zero has no result; shifts are taken modulo 32. -/
def classicAlu (op : AluOp) (a b : BitVec 32) : Option (BitVec 32) :=
  match op with
  | .add => some (a + b)
  | .sub => some (a - b)
  | .mul => some (a * b)
  | .div => if b = 0 then none else some (a / b)
  | .mod => if b = 0 then none else some (a % b)
  | .or => some (a ||| b)
  | .and => some (a &&& b)
  | .xor => some (a ^^^ b)
  | .lsh => some (a <<< (b.toNat % 32))
  | .rsh => some (a >>> (b.toNat % 32))
  | .neg => some (-a)
  | _ => none

def classicCond (op : JmpOp) (a b : BitVec 32) : Bool :=
  match op with
  | .jeq => a == b
  | .jgt => b.ult a
  | .jge => b.ule a
  | .jset => (a &&& b) != 0
  | _ => false

/-- `4 * ([k] & 0xf)`, the length of an IP header. -/
def mshValue (v : BitVec 32) : BitVec 32 :=
  (v &&& 0xf) <<< 2

def ancLoad (skb : Skb) (anc : AncData) (a x : BitVec 32) : Anc → Option (BitVec 32)
  | .protocol => some (skb.protocol.setWidth 32)
  | .pkttype => some ((skb.pktType &&& 7).setWidth 32)
  | .ifindex => skb.dev.map NetDev.ifindex
  | .hatype => skb.dev.map (fun d => d.type.setWidth 32)
  | .mark => some skb.mark
  | .queue => some (skb.queueMapping.setWidth 32)
  | .rxhash => some skb.hash
  | .aluXorX => some (a ^^^ x)
  | .vlanTag => some ((skb.vlanTci &&& ~~~ 0x1000).setWidth 32)
  | .vlanTagPresent => some (if skb.vlanTci &&& 0x1000 = 0 then 0 else 1)
  | .vlanTpid => some (skb.vlanProto.setWidth 32)
  | .call fn => some (anc fn a x)

namespace ClassicState

variable (s : ClassicState)

/-- The second operand: the index register or the constant. -/
def operand (f : SockFilter) : Src → BitVec 32
  | .x => s.x
  | .k => f.k

/-- Go on with a new accumulator; without a value the filter returns 0. -/
def loadA : Option (BitVec 32) → ClassicOutcome
  | some v => .next { s with pc := s.pc + 1, a := v }
  | none => .ret 0

/-- The same for the index register. -/
def loadX : Option (BitVec 32) → ClassicOutcome
  | some v => .next { s with pc := s.pc + 1, x := v }
  | none => .ret 0

/-- `M[k] = v`. -/
def store (k : BitVec 32) (v : BitVec 32) : ClassicOutcome :=
  .next { s with
    pc := s.pc + 1
    mem := fun i => if i = k.toNat then v else s.mem i }

/-- One instruction of the classic machine. -/
def exec (skb : Skb) (anc : AncData) (s : ClassicState) (f : SockFilter) : Code → ClassicOutcome
  | .alu op src => s.loadA (classicAlu op s.a (s.operand f src))
  | .ld .abs size =>
    match ancOf f.k with
    | some anc' => s.loadA (ancLoad skb anc s.a s.x anc')
    | none => s.loadA (skb.pkt f.k size)
  | .ld .ind size => s.loadA (skb.pkt (s.x + f.k) size)
  | .ld .len _ => s.loadA (some skb.len)
  | .ld .imm _ => s.loadA (some f.k)
  | .ld .mem _ => s.loadA (some (s.mem f.k.toNat))
  | .ldx .len _ => s.loadX (some skb.len)
  | .ldx .imm _ => s.loadX (some f.k)
  | .ldx .mem _ => s.loadX (some (s.mem f.k.toNat))
  | .ldx .msh _ => s.loadX ((skb.pkt f.k .b).map mshValue)
  | .st _ _ => s.store f.k s.a
  | .stx _ _ => s.store f.k s.x
  | .jmp .ja _ => .next { s with pc := s.pc + f.k.toNat + 1 }
  | .jmp op src =>
    if classicCond op s.a (s.operand f src) then
      .next { s with pc := s.pc + f.jt.toNat + 1 }
    else .next { s with pc := s.pc + f.jf.toNat + 1 }
  | .alu64 .add _ => s.loadX (some s.a)
  | .alu64 _ _ => s.loadA (some s.x)
  | .ret r => if r = 0 then .ret f.k else .ret s.a
  | _ => .ret 0

/-- One step of a filter.  `anc pc` is what the ancillary functions return at `pc`; no instruction
is executed twice. -/
def step (filter : List SockFilter) (skb : Skb) (anc : Nat → AncData)
    (s : ClassicState) : ClassicOutcome :=
  match (filter.getD s.pc default).op with
  | some code => s.exec skb (anc s.pc) (filter.getD s.pc default) code
  | none => .ret 0

/-- At most `n` steps of a filter. -/
def run (filter : List SockFilter) (skb : Skb) (anc : Nat → AncData) :
    Nat → ClassicState → Option (BitVec 32)
  | 0, _ => none
  | n + 1, s =>
    match s.step filter skb anc with
    | .ret v => some v
    | .next s => run filter skb anc n s

/-- The start of a filter; nothing is known about its memory. -/
def init (mem : Nat → BitVec 32) : ClassicState where
  pc := 0
  a := 0
  x := 0
  mem := mem

end ClassicState

end LinuxKernel.Bpf
