import LinuxKernel.Lib.Tiling

/-!
# The queue of the fragments of a datagram

`ip_frag_queue` and `ip_frag_reasm` of `net/ipv4/ip_fragment.c`.  A queue holds a chain of buffers,
a pointer to its last one and a few counters.  A buffer is named by its address; a pointer to one
that is not in the chain is a fault.  Memory operations succeed.
-/

namespace LinuxKernel.Net

open Lib

/-- A buffer in the chain: its address, `FRAG_CB(skb)->offset`, what is left of its data and its
header length. -/
structure Frag where
  skb : Nat
  offset : Int
  data : List UInt8
  ihl : Nat
deriving DecidableEq

def Frag.len (f : Frag) : Int :=
  f.data.length

/-- A fragment that arrives: the address of its buffer, the fields of its header, where that starts
in the data, and the mark of a datagram known to be complete. -/
structure Packet where
  skb : Nat
  fragOff : UInt16
  tos : UInt8
  ihl : Nat
  networkOffset : Nat
  data : List UInt8
  fragComplete : Bool
deriving DecidableEq

/-- `IP_OFFSET`, in bytes. -/
def Packet.offset (p : Packet) : Int :=
  (((p.fragOff &&& 0x1fff).toNat * 8 : Nat) : Int)

/-- `IP_MF`. -/
def Packet.moreFragments (p : Packet) : Bool :=
  p.fragOff &&& 0x2000 != 0

/-- `IP_DF`. -/
def Packet.dontFragment (p : Packet) : Bool :=
  p.fragOff &&& 0x4000 != 0

def Packet.payload (p : Packet) : List UInt8 :=
  p.data.drop (p.networkOffset + p.ihl)

/-- Where the fragment ends, by the length of the buffer. -/
def Packet.stop (p : Packet) : Int :=
  p.offset + p.data.length - p.networkOffset - p.ihl

def ip4FragEcn (tos : UInt8) : UInt8 :=
  1 <<< (tos &&& 3)

/-- A `struct ipq`. -/
structure Ipq where
  fragments : List Frag
  fragmentsTail : Option Nat
  len : Int
  meat : Int
  firstIn : Bool
  lastIn : Bool
  complete : Bool
  ecn : UInt8
  maxSize : Nat
  maxDfSize : Nat
deriving DecidableEq

/-- A new queue; `ip4_frag_init` takes the ECN bits of the packet that it is created for. -/
def Ipq.init (tos : UInt8) : Ipq :=
  ⟨[], none, 0, 0, false, false, false, ip4FragEcn tos, 0, 0⟩

/-- The queue restarts, and its timer was still pending. -/
structure Circumstances where
  tooFar : Bool
  timerPending : Bool
deriving DecidableEq

variable (q : Ipq) (p : Packet)

/-- `ip_frag_reinit`, when the timer was pending. -/
def ipFragReinit : Ipq :=
  { q with
    fragments := [], fragmentsTail := none, len := 0, meat := 0
    firstIn := false, lastIn := false, complete := false, ecn := 0 }

/-- The end of the fragment, with the queue's length and flag set by it; `none` for a corrupt
fragment. -/
def setEnd : Option (Ipq × Int) :=
  if p.moreFragments then
    let stop := p.stop - p.stop % 8
    if stop > q.len then
      if q.lastIn then none else some ({ q with len := stop }, stop)
    else
      some (q, stop)
  else if p.stop < q.len ∨ (q.lastIn = true ∧ p.stop ≠ q.len) then
    none
  else
    some ({ q with lastIn := true, len := p.stop }, p.stop)

/-- The chain before and behind the place for `offset`; `none` for a wrong pointer to the last
buffer. -/
def place (offset : Int) : Option (List Frag × List Frag) :=
  match q.fragmentsTail with
  | none => some ([], [])
  | some tail =>
    match q.fragments.find? fun f => f.skb = tail with
    | none => none
    | some last =>
      if last.offset < offset then
        some (q.fragments.takeWhile (fun f => f.skb ≠ tail) ++ [last], [])
      else
        some (q.fragments.span fun f => f.offset < offset)

/-- What is left of the new data behind the preceding buffer, with its offset; `none` if nothing.
-/
def trimFront (before : List Frag) (offset stop : Int) (data : List UInt8) :
    Option (Int × List UInt8) :=
  match before.getLast? with
  | none => some (offset, data)
  | some prev =>
    let i := prev.offset + prev.len - offset
    if i > 0 then
      if stop ≤ offset + i then none else some (offset + i, data.drop i.toNat)
    else
      some (offset, data)

/-- The loop over the following buffers: those covered up to `stop` are dropped, one partly covered
loses its head. -/
def eatNext (stop : Int) : List Frag → Int → List Frag × Int
  | [], meat => ([], meat)
  | next :: rest, meat =>
    if next.offset < stop then
      let i := stop - next.offset
      if i < next.len then
        ({ next with offset := next.offset + i, data := next.data.drop i.toNat } :: rest, meat - i)
      else
        eatNext stop rest (meat - next.len)
    else
      (next :: rest, meat)

/-- The buffer is put into the chain and counted. -/
def link (before after : List Frag) (meat offset : Int) (data : List UInt8) : Ipq :=
  let fragsize := data.length + p.ihl
  { q with
    fragments := before ++ ⟨p.skb, offset, data, p.ihl⟩ :: after
    fragmentsTail := if after.isEmpty then some p.skb else q.fragmentsTail
    meat := meat + data.length
    ecn := q.ecn ||| ip4FragEcn p.tos
    firstIn := q.firstIn || offset == 0
    maxSize := if fragsize > q.maxSize then fragsize % 65536 else q.maxSize
    maxDfSize :=
      if p.dontFragment ∧ fragsize > q.maxDfSize then fragsize % 65536 else q.maxDfSize }

def ipFragEcnTable (ecn : UInt8) : UInt8 :=
  match ecn.toNat with
  | 0x0c | 0x0a | 0x0e => 3
  | 0x09 | 0x05 | 0x03 | 0x07 | 0x0d | 0x0b | 0x0f => 0xff
  | _ => 0

structure Datagram where
  payload : List UInt8
  totLen : Int
  ecn : UInt8
  fragMaxSize : Nat
  dontFragment : Bool
deriving DecidableEq

def enoent : Int :=
  2

def e2big : Int :=
  7

def einval : Int :=
  22

def enomem : Int :=
  12

def etimedout : Int :=
  110

/-- `ip_frag_reasm`: the last buffer to come becomes the head, with the contents of the first, so
the order of the contents stays. -/
def ipFragReasm (head : Frag) : Except Int Datagram × Ipq :=
  let q' := { q with complete := true }
  let ecn := ipFragEcnTable q.ecn
  let len := head.ihl + q.len
  if ecn = 0xff then
    (.error (-einval), q')
  else if len > 65535 then
    (.error (-e2big), q')
  else
    (.ok ⟨q.fragments.flatMap Frag.data, len, ecn, max q.maxDfSize q.maxSize,
      q.maxDfSize = q.maxSize⟩, { q' with fragments := [], fragmentsTail := none })

/-- What `ip_frag_queue` does with a fragment. -/
inductive Outcome
  | fault
  | error (err : Int) (q : Ipq)
  | inProgress (q : Ipq)
  | reasm (q : Ipq) (result : Except Int Datagram) (q' : Ipq)

/-- The last part of `ip_frag_queue`: the datagram is complete or not. -/
def finish : Outcome :=
  if q.firstIn ∧ q.lastIn ∧ q.complete = false ∧ q.meat = q.len then
    match q.fragments with
    | [] => .fault
    | head :: _ => .reasm q (ipFragReasm q head).1 (ipFragReasm q head).2
  else
    .inProgress q

/-- The middle of `ip_frag_queue`, for a fragment up to `stop`. -/
def insertFrag (stop : Int) : Outcome :=
  if stop = p.offset then
    .error (-einval) q
  else if p.networkOffset + p.ihl > p.data.length then
    .error (-enomem) q
  else
    let data := p.payload.take (stop - p.offset).toNat
    match place q p.offset with
    | none => .fault
    | some (before, next) =>
      match trimFront before p.offset stop data with
      | none => .error (-einval) q
      | some (offset, data) =>
        let eaten := eatNext stop next q.meat
        finish (link q p before eaten.1 eaten.2 offset data)

/-- A queue takes the fragment, after a restart if need be. -/
def takeFrag : Outcome :=
  match setEnd q p with
  | none => .error (-einval) q
  | some (q', stop) => insertFrag q' p stop

/-- `ip_frag_queue` finds the queue too old for the fragment. -/
def tooOld (c : Circumstances) (q : Ipq) (p : Packet) : Bool :=
  !p.fragComplete && !q.fragments.isEmpty && c.tooFar

def ipFragQueue (c : Circumstances) (q : Ipq) (p : Packet) : Outcome :=
  if q.complete then
    .error (-enoent) q
  else if tooOld c q p then
    if c.timerPending then takeFrag (ipFragReinit q) p
    else .error (-etimedout) { q with complete := true }
  else
    takeFrag q p

end LinuxKernel.Net
