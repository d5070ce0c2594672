import LinuxKernel.Lib.Checked
import Mathlib.Algebra.Ring.Nat
import Mathlib.Data.List.Sort

/-!
# The ASN.1 decoder

`asn1_ber_decoder` of `lib/asn1_decoder.c` runs a bytecode machine over a buffer.  One
pass from `next_op` to `next_op` is one step here; a read outside the buffer is a fault.
Sizes are natural numbers and a difference of sizes wraps like a `size_t`.
-/

namespace LinuxKernel.Asn1

open Lib

inductive Errmsg
  | dataOverrun
  | machineOverrun
  | jumpStackUnderflow
  | jumpStackOverflow
  | consStackUnderflow
  | consStackOverflow
  | consLength
  | missingEoc
  | invalidEoc
  | unsupportedLength
  | indefiniteLenPrimitive
  | unexpectedTag
  | longTagNotSupported
  | reservedOpcode
  | stacksNotEmpty
deriving DecidableEq

/-- A step fails with a message, or reads outside the buffer. -/
inductive Fail
  | fault
  | error (errmsg : Errmsg)
deriving DecidableEq

/-- The difference of two values of type `size_t`. -/
def sizeSub (a b : Nat) : Nat :=
  if b ≤ a then a - b else 2 ^ 64 - (b - a)

/-- `data[i]`. -/
def byteAt (data : List UInt8) (i : Nat) : Except Fail UInt8 :=
  match data[i]? with
  | some b => .ok b
  | none => .error .fault

/-- The number of bytes of a length in its long form. -/
def lengthBytes (len : UInt8) : Nat :=
  len.toNat - 0x80

/-- The bytes of a long length, most significant first. -/
def readLen (data : List UInt8) : Nat → Nat → Nat → Except Fail (Nat × Nat)
  | 0, dp, len => .ok (len, dp)
  | n + 1, dp, len => do
      let b ← byteAt data dp
      readLen data n (dp + 1) (len * 256 + b.toNat)

section Indefinite

variable (data : List UInt8) (datalen : Nat)

def skipLongTag (dp : Nat) : Except Fail Nat :=
  if sizeSub datalen dp < 2 then
    .error (.error .dataOverrun)
  else
    match h : data[dp]? with
    | none => .error .fault
    | some tmp => if tmp &&& 0x80 ≠ 0 then skipLongTag (dp + 1) else .ok (dp + 1)
termination_by data.length - dp
decreasing_by
  obtain ⟨hlt, -⟩ := List.getElem?_eq_some_iff.mp h
  omega

/-- What one pass from `next_tag` finds, with the cursor behind it. -/
inductive Found
  | eoc (dp : Nat)
  | nested (dp : Nat)
  | element (dp : Nat)
deriving DecidableEq

/-- The cursor behind what was found. -/
def Found.dp : Found → Nat
  | .eoc dp => dp
  | .nested dp => dp
  | .element dp => dp

/-- The end of a tag whose first byte lies before `dp`. -/
def tagEnd (tag : UInt8) (dp : Nat) : Except Fail Nat :=
  if tag &&& 0x1f = 0x1f then skipLongTag data datalen dp else .ok dp

/-- The length at `dp` of an element with the tag, and the way past it. -/
def passLength (tag : UInt8) (dp : Nat) : Except Fail Found := do
  let len ← byteAt data dp
  if len ≤ 0x7f then
    return .element (dp + 1 + len.toNat)
  else if len = 0x80 then
    if tag &&& 0x20 = 0 then throw (.error .indefiniteLenPrimitive) else return .nested (dp + 1)
  else
    rejectIf (lengthBytes len > 7) (Fail.error .unsupportedLength)
    rejectIf (lengthBytes len > sizeSub datalen (dp + 1)) (Fail.error .dataOverrun)
    let r ← readLen data (lengthBytes len) (dp + 1) 0
    return .element (r.2 + r.1)

/-- One pass from `next_tag` of `asn1_find_indefinite_length`. -/
def nextTag (dp : Nat) : Except Fail Found := do
  rejectIf (sizeSub datalen dp < 2)
    (Fail.error (if datalen = dp then .missingEoc else .dataOverrun))
  let tag ← byteAt data dp
  if tag = 0 then
    let zero ← byteAt data (dp + 1)
    if zero ≠ 0 then throw (.error .invalidEoc) else return .eoc (dp + 2)
  else
    let dp ← tagEnd data datalen tag (dp + 1)
    passLength data datalen tag dp

variable {data} {datalen}

variable {b : UInt8} {i dp dp' n len : Nat} {tag : UInt8} {found : Found}

theorem lt_of_byteAt (h : byteAt data i = .ok b) : i < data.length := by
  unfold byteAt at h
  split at h
  · next hsome => exact (List.getElem?_eq_some_iff.mp hsome).1
  · cases h

theorem readLen_dp {r : Nat × Nat} (h : readLen data n dp len = .ok r) : r.2 = dp + n := by
  induction n generalizing dp len with
  | zero =>
    cases h
    rfl
  | succ n ih =>
    rw [readLen, bind_eq_ok] at h
    obtain ⟨b, -, hrest⟩ := h
    have := ih hrest
    omega

theorem lt_skipLongTag (h : skipLongTag data datalen dp = .ok dp') : dp < dp' := by
  fun_induction skipLongTag data datalen dp with
  | case1 | case2 => cases h
  | case3 dp _ _ _ _ ih => exact Nat.lt_of_succ_lt (ih h)
  | case4 dp =>
    cases h
    exact Nat.lt_succ_self dp

theorem le_tagEnd (h : tagEnd data datalen tag dp = .ok dp') : dp ≤ dp' := by
  unfold tagEnd at h
  split_ifs at h
  · exact le_of_lt (lt_skipLongTag h)
  · cases h
    exact le_rfl

theorem lt_passLength (h : passLength data datalen tag dp = .ok found) : dp < found.dp := by
  unfold passLength at h
  rw [bind_eq_ok] at h
  obtain ⟨len, -, h⟩ := h
  split_ifs at h
  · cases h
    simp only [Found.dp]
    omega
  · cases h
    exact Nat.lt_succ_self dp
  · simp only [ok_iff] at h
    obtain ⟨-, -, -, -, r, hread, rfl⟩ := h
    have hdp := readLen_dp hread
    simp only [Found.dp]
    omega

theorem nextTag_spec (h : nextTag data datalen dp = .ok found) :
    dp < found.dp ∧ dp < data.length := by
  simp only [nextTag, bind_eq_ok] at h
  obtain ⟨-, -, tag, htag, h⟩ := h
  refine ⟨?_, lt_of_byteAt htag⟩
  split_ifs at h
  · rw [bind_eq_ok] at h
    obtain ⟨zero, -, h⟩ := h
    split_ifs at h
    cases h
    simp only [Found.dp]
    omega
  · rw [bind_eq_ok] at h
    obtain ⟨dp', htagEnd, h⟩ := h
    have hle := le_tagEnd htagEnd
    have hlt := lt_passLength h
    omega

variable (data) (datalen)

/-- `asn1_find_indefinite_length` at a level: the cursor behind the element. -/
def findIndefiniteEnd (dp indefLevel : Nat) : Except Fail Nat :=
  match h : nextTag data datalen dp with
  | .error e => .error e
  | .ok (.eoc dp') =>
    if indefLevel ≤ 1 then .ok dp' else findIndefiniteEnd dp' (indefLevel - 1)
  | .ok (.nested dp') => findIndefiniteEnd dp' (indefLevel + 1)
  | .ok (.element dp') => findIndefiniteEnd dp' indefLevel
termination_by data.length - dp
decreasing_by
  all_goals
    have hspec := nextTag_spec h
    simp only [Found.dp] at hspec
    omega

/-- `asn1_find_indefinite_length`: the length and the cursor behind the element. -/
def findIndefiniteLength (dp : Nat) : Except Fail (Nat × Nat) := do
  let dp' ← findIndefiniteEnd data datalen dp 1
  return (sizeSub dp' dp, dp')

end Indefinite

/-- The length of each command, `0` where the table has no entry, up to `ASN1_OP__NR`. -/
def opLength (op : UInt8) : Option Nat :=
  match op.toNat with
  | 0x00 | 0x01 => some 2
  | 0x02 | 0x03 | 0x04 | 0x05 => some 3
  | 0x08 | 0x09 => some 1
  | 0x0a | 0x0b => some 2
  | 0x11 => some 2
  | 0x13 | 0x15 => some 3
  | 0x18 | 0x19 => some 1
  | 0x1a | 0x1b => some 2
  | 0x1c | 0x1d => some 1
  | 0x1e | 0x1f => some 2
  | 0x20 | 0x21 => some 1
  | 0x22 | 0x23 | 0x24 | 0x25 => some 2
  | 0x26 | 0x27 => some 3
  | 0x28 => some 1
  | n => if n < 0x29 then some 0 else none

/-- The cases of the `switch` over the commands. -/
inductive OpKind
  | matchAnyAct
  | matchAct
  | matchSkip
  | matchJump
  | condFail
  | complete
  | endCons
  | maybeAct
  | act
  | ret
  | reserved
deriving DecidableEq

def opKind (op : UInt8) : OpKind :=
  match op.toNat with
  | 0x0a | 0x0b | 0x1a | 0x1b => .matchAnyAct
  | 0x02 | 0x03 | 0x13 => .matchAct
  | 0x00 | 0x01 | 0x08 | 0x09 | 0x11 | 0x18 | 0x19 => .matchSkip
  | 0x04 | 0x05 | 0x15 => .matchJump
  | 0x1c => .condFail
  | 0x1d => .complete
  | 0x20 | 0x21 | 0x22 | 0x23 | 0x24 | 0x25 | 0x26 | 0x27 => .endCons
  | 0x1f => .maybeAct
  | 0x1e => .act
  | 0x28 => .ret
  | _ => .reserved

def matchesTag : UInt8 :=
  0x1b

def hasBit (op bit : UInt8) : Bool :=
  op &&& bit != 0

/-- `ASN1_OP_MATCH__SKIP`. -/
def matchSkipBit : UInt8 :=
  0x01

/-- `ASN1_OP_MATCH__ANY`. -/
def matchAnyBit : UInt8 :=
  0x08

/-- `ASN1_OP_MATCH__COND`. -/
def matchCondBit : UInt8 :=
  0x10

/-- `ASN1_OP_END__OF`. -/
def endOfBit : UInt8 :=
  0x02

/-- `ASN1_OP_END__ACT`. -/
def endActBit : UInt8 :=
  0x04

def consBit : UInt8 :=
  0x20

/-- The bits of `flags`. -/
structure Flags where
  indefiniteLength : Bool
  matched : Bool
  lastMatched : Bool
  cons : Bool
deriving DecidableEq

def Flags.none : Flags :=
  ⟨false, false, false, false⟩

/-- An entry of the three stacks of constructed elements. -/
structure Frame where
  dp : Nat
  hdrlen : Nat
  datalen : Nat
deriving DecidableEq

/-- A `struct asn1_decoder`.  The machine goes on in memory behind `machlen`; an action takes the
context, the header length, a tag and a slice. -/
structure Decoder (Ctx : Type) where
  machine : Nat → UInt8
  machlen : Nat
  actions : UInt8 → Ctx → Nat → UInt8 → Nat → Nat → Int × Ctx

/-- The variables of `asn1_ber_decoder` at `next_op`. -/
structure State (Ctx : Type) where
  pc : Nat
  dp : Nat
  tdp : Nat
  len : Nat
  datalen : Nat
  hdr : Nat
  tag : UInt8
  flags : Flags
  consStack : List Frame
  jumpStack : List UInt8
  context : Ctx

/-- A call of an action with what it returned. -/
structure Call where
  act : UInt8
  hdrlen : Nat
  tag : UInt8
  value : Nat
  vlen : Nat
  ret : Int
deriving DecidableEq

/-- What a step did to the remembered slice `tdp`, `len`: it is that of the element just met (if
its length is known) or of the construct just ended, or neither. -/
inductive Event
  | element (lengthKnown : Bool)
  | ended
  | again
  | other
deriving DecidableEq

/-- How a step ends. -/
inductive Result (Ctx : Type)
  | ret (value : Int)
  | next (event : Event) (s : State Ctx)

/-- A step: the action it called, and how it ended. -/
structure Outcome (Ctx : Type) where
  call : Option Call
  result : Except Fail (Result Ctx)

def nrConsStack : Nat :=
  10

def nrJumpStack : Nat :=
  10

def ebadmsg : Int :=
  74

def emsgsize : Int :=
  90

end LinuxKernel.Asn1
