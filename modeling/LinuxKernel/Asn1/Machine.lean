import LinuxKernel.Asn1.Decoder

/-!
# The steps of the ASN.1 decoder

A step fetches a command, takes a tag and a length from the buffer when the command is to
match one, and carries the command out.  A run goes from step to step and collects the
calls of actions.
-/

namespace LinuxKernel.Asn1

open Lib Fail

variable {Ctx : Type} (d : Decoder Ctx) (data : List UInt8) (op : UInt8) (s : State Ctx)

/-- What the bytes behind a tag say. -/
structure Header where
  len : Nat
  dp : Nat
  hdr : Nat
  indefiniteLength : Bool

/-- The length behind a tag; `dp` is at its first byte. -/
def readHeader (datalen dp : Nat) (tag : UInt8) : Except Fail Header := do
  let len ← byteAt data dp
  if len ≤ 0x7f then
    return ⟨len.toNat, dp + 1, 2, false⟩
  else if len = 0x80 then
    rejectIf (tag &&& consBit = 0) (error .indefiniteLenPrimitive)
    rejectIf (2 > sizeSub datalen (dp + 1)) (error .dataOverrun)
    return ⟨0x80, dp + 1, 2, true⟩
  else
    rejectIf (lengthBytes len > 2) (error .unsupportedLength)
    rejectIf (dp + 1 ≥ sizeSub datalen (lengthBytes len)) (error .dataOverrun)
    let r ← readLen data (lengthBytes len) (dp + 1) 0
    rejectIf (r.1 > sizeSub datalen r.2) (error .dataOverrun)
    return ⟨r.1, r.2, 2 + (lengthBytes len), false⟩

/-- The bits in which the tags of the machine and the data differ. -/
def tagDifference (optag tag : UInt8) : UInt8 :=
  (optag ^^^ tag) &&& ~~~(optag &&& consBit)

/-- The tag is not the one that the command asks for. -/
def differs (tag : UInt8) : Bool :=
  !hasBit op matchAnyBit && tagDifference (d.machine (s.pc + 1)) tag != 0

/-- `FLAG_CONS`: the command expects a compound form. -/
def expectsCons : Bool :=
  !hasBit op matchAnyBit && d.machine (s.pc + 1) &&& consBit != 0

/-- For an expected compound form the start and end are stacked. -/
def pushCons : Except Fail (State Ctx) :=
  if s.flags.cons then
    if s.consStack.length ≥ nrConsStack then
      .error (.error .consStackOverflow)
    else if s.flags.indefiniteLength then
      .ok { s with consStack := ⟨s.dp % 65536, s.hdr, 0⟩ :: s.consStack }
    else
      .ok { s with
        consStack := ⟨s.dp % 65536, s.hdr, s.datalen % 65536⟩ :: s.consStack
        datalen := s.dp + s.len }
  else
    .ok s

/-- A command that matches a tag is passed over, or has matched an element. -/
inductive Tagged (Ctx : Type)
  | skip (s : State Ctx)
  | matched (s : State Ctx)

/-- A tag and a length are taken from the data. -/
def takeTag (n : Nat) (s : State Ctx) : Except Fail (Tagged Ctx) := do
  rejectIf (s.dp ≥ sizeSub s.datalen 1) (error .dataOverrun)
  let tag ← byteAt data s.dp
  rejectIf (tag &&& 0x1f = 0x1f) (error .longTagNotSupported)
  if differs d op s tag then
    rejectIf (hasBit op matchSkipBit = false) (error .unexpectedTag)
    return .skip { s with
      pc := s.pc + n
      hdr := 2
      tag := tag
      flags := { Flags.none with cons := expectsCons d op s } }
  else
    let h ← readHeader data s.datalen (s.dp + 1) tag
    let s' ← pushCons { s with
      dp := h.dp
      len := h.len
      hdr := h.hdr
      tag := tag
      flags := ⟨h.indefiniteLength, true, false, expectsCons d op s⟩ }
    return .matched { s' with tdp := s'.dp }

/-- A conditional match is skipped. -/
def skips : Bool :=
  (hasBit op matchCondBit && s.flags.matched) || (hasBit op matchSkipBit && s.dp == s.datalen)

/-- The action gets the slice at `value` of the remembered length. -/
def callAction (act tag : UInt8) (value : Nat) : Call × State Ctx :=
  let r := d.actions act s.context s.hdr tag value s.len
  (⟨act, s.hdr, tag, value, s.len, r.1⟩, { s with context := r.2 })

/-- An action is called and a negative result returned. -/
def actThen (act tag : UInt8) (value : Nat)
    (rest : State Ctx → Except Fail (Result Ctx)) : Outcome Ctx :=
  let c := callAction d s act tag value
  if c.1.ret < 0 then ⟨some c.1, .ok (.ret c.1.ret)⟩ else ⟨some c.1, rest c.2⟩

/-- `skip_data`: a leaf is passed over. -/
def skipData (n : Nat) (s : State Ctx) : Except Fail (Result Ctx) :=
  if s.flags.cons then
    .ok (.next (.element (!s.flags.indefiniteLength)) { s with pc := s.pc + n })
  else if s.flags.indefiniteLength then do
    let r ← findIndefiniteLength data s.datalen s.dp
    return .next (.element true) { s with len := r.1, dp := r.2, pc := s.pc + n }
  else
    .ok (.next (.element true) { s with dp := s.dp + s.len, pc := s.pc + n })

/-- The construct goes on with its next element, or is closed. -/
inductive Closing (Ctx : Type)
  | again (s : State Ctx)
  | closed (s : State Ctx)

/-- An indefinite construct ends with an end-of-contents mark. -/
def closeIndefinite (f : Frame) (rest : List Frame) : Except Fail (Closing Ctx) := do
  rejectIf (sizeSub s.datalen s.dp < 2) (error .dataOverrun)
  let b ← byteAt data s.dp
  if b ≠ 0 then
    rejectIf (hasBit op endOfBit = false) (error .missingEoc)
    return .again { s with
      tdp := f.dp, hdr := f.hdrlen, len := s.datalen, pc := (d.machine (s.pc + 1)).toNat }
  else
    let b' ← byteAt data (s.dp + 1)
    rejectIf (b' ≠ 0) (error .invalidEoc)
    return .closed { s with
      consStack := rest
      tdp := f.dp
      hdr := f.hdrlen
      dp := s.dp + 2
      len := sizeSub (sizeSub (s.dp + 2) f.dp) 2 }

/-- A construct of definite length ends at its end. -/
def closeDefinite (f : Frame) (rest : List Frame) : Except Fail (Closing Ctx) :=
  if s.dp < s.datalen ∧ hasBit op endOfBit then
    .ok (.again { s with
      tdp := f.dp, hdr := f.hdrlen, len := s.datalen, pc := (d.machine (s.pc + 1)).toNat })
  else if s.dp ≠ s.datalen then
    .error (.error .consLength)
  else
    .ok (.closed { s with
      consStack := rest
      tdp := f.dp
      hdr := f.hdrlen
      datalen := f.datalen
      len := sizeSub s.datalen f.dp })

/-- The last construct is taken from the stack. -/
def close : Except Fail (Closing Ctx) := do
  rejectIf ((op = 0x21 ∨ op = 0x25) ∧ s.flags.matched = false) (error .unexpectedTag)
  match s.consStack with
  | [] => throw (.error .consStackUnderflow)
  | f :: rest =>
    if f.datalen = 0 then closeIndefinite d data op s f rest else closeDefinite d op s f rest

/-- The action of a command that ends a construct. -/
def endAct : UInt8 :=
  if hasBit op endOfBit then d.machine (s.pc + 2) else d.machine (s.pc + 1)

/-- The commands that end a construct.  The result of their action is ignored. -/
def endCons (n : Nat) (s : State Ctx) : Outcome Ctx :=
  match close d data op s with
  | .error e => ⟨none, .error e⟩
  | .ok (.again s') => ⟨none, .ok (.next .again s')⟩
  | .ok (.closed s') =>
    if hasBit op endActBit then
      let c := callAction d s' (endAct d op s) 0 s'.tdp
      ⟨some c.1, .ok (.next .ended { c.2 with pc := s.pc + n })⟩
    else
      ⟨none, .ok (.next .ended { s' with pc := s.pc + n })⟩

def act (n : Nat) (s : State Ctx) : Outcome Ctx :=
  actThen d s (d.machine (s.pc + 1)) s.tag s.tdp fun s' =>
    .ok (.next .other { s' with pc := s.pc + n })

/-- The `switch` over the commands. -/
def exec (n : Nat) (s : State Ctx) : Outcome Ctx :=
  match opKind op with
  | .matchAnyAct => actThen d s (d.machine (s.pc + 1)) s.tag s.dp (skipData data n)
  | .matchAct => actThen d s (d.machine (s.pc + 2)) s.tag s.dp (skipData data n)
  | .matchSkip => ⟨none, skipData data n s⟩
  | .matchJump =>
    if s.jumpStack.length = nrJumpStack then
      ⟨none, .error (.error .jumpStackOverflow)⟩
    else
      ⟨none, .ok (.next (.element (!s.flags.indefiniteLength)) { s with
        jumpStack := UInt8.ofNat (s.pc + n) :: s.jumpStack
        pc := (d.machine (s.pc + 2)).toNat })⟩
  | .condFail =>
    if s.flags.matched then ⟨none, .ok (.next .other { s with pc := s.pc + n })⟩
    else ⟨none, .error (.error .unexpectedTag)⟩
  | .complete =>
    if s.jumpStack ≠ [] ∨ s.consStack ≠ [] then ⟨none, .error (.error .stacksNotEmpty)⟩
    else ⟨none, .ok (.ret 0)⟩
  | .endCons => endCons d data op n s
  | .maybeAct =>
    if s.flags.lastMatched then act d n s
    else ⟨none, .ok (.next .other { s with pc := s.pc + n })⟩
  | .act => act d n s
  | .ret =>
    match s.jumpStack with
    | [] => ⟨none, .error (.error .jumpStackUnderflow)⟩
    | pc :: rest =>
      ⟨none, .ok (.next .other { s with
        jumpStack := rest
        pc := pc.toNat
        flags := { s.flags with matched := true, lastMatched := true } })⟩
  | .reserved => ⟨none, .error (.error .reservedOpcode)⟩

/-- The command at `pc` with its length, if it lies in the machine.  From `ASN1_OP__NR` on a
command is refused whatever its length. -/
def fetch : Except Fail (UInt8 × Nat) :=
  if s.pc ≥ d.machlen then
    .error (.error .machineOverrun)
  else
    match opLength (d.machine s.pc) with
    | none => .error (.error .reservedOpcode)
    | some n =>
      if s.pc + n > d.machlen then .error (.error .machineOverrun)
      else .ok (d.machine s.pc, n)

variable {d s} in
theorem fetch_op {op : UInt8} {n : Nat} (h : fetch d s = .ok (op, n)) : op = d.machine s.pc := by
  unfold fetch at h
  split_ifs at h
  split at h
  · cases h
  · split_ifs at h
    cases h
    rfl

/-- A fetched command. -/
def stepOp (n : Nat) (s : State Ctx) : Outcome Ctx :=
  if op ≤ matchesTag then
    if skips op s then
      ⟨none, .ok (.next .other { s with
        flags := { s.flags with lastMatched := false }, pc := s.pc + n })⟩
    else
      match takeTag d data op n s with
      | .error e => ⟨none, .error e⟩
      | .ok (.skip s') => ⟨none, .ok (.next .other s')⟩
      | .ok (.matched s') => exec d data op n s'
  else
    exec d data op n s

/-- From `next_op` to `next_op`. -/
def step : Outcome Ctx :=
  match fetch d s with
  | .error e => ⟨none, .error e⟩
  | .ok (op, n) => stepOp d data op n s

variable (context : Ctx)

/-- The check of `datalen`, and the variables at the start. -/
def enter : Except Int (State Ctx) :=
  if data.length > 65535 then
    .error (-emsgsize)
  else
    .ok ⟨0, 0, 0, 0, data.length, 0, 0, Flags.none, [], [], context⟩

/-- What the decoder returns with a step. -/
def Outcome.value (o : Outcome Ctx) : Option Int :=
  match o.result with
  | .ok (.ret v) => some v
  | .ok (.next _ _) => none
  | .error (.error _) => some (-ebadmsg)
  | .error .fault => none

/-- The remembered slice is that of an element or construct. -/
def Event.sliceKnown : Event → Bool → Bool
  | .element lengthKnown, _ => lengthKnown
  | .ended, _ => true
  | .again, _ => false
  | .other, known => known

/-- The states at `next_op` when each step meets `ok`, with the calls made before and whether the
remembered slice is known. -/
inductive Run (ok : State Ctx → Bool → Prop) : List Call → State Ctx → Bool → Prop
  | start {s : State Ctx} (h : enter data context = .ok s) : Run ok [] s true
  | next {calls : List Call} {s s' : State Ctx} {known : Bool} {event : Event}
      (hrun : Run ok calls s known)
      (hok : ok s known)
      (hstep : (step d data s).result = .ok (.next event s')) :
      Run ok (calls ++ (step d data s).call.toList) s' (event.sliceKnown known)

end LinuxKernel.Asn1
