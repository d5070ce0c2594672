import LinuxKernel.Bpf.VerifierState

/-!
# Access to the fields of a packet buffer

`convert_skb_access()` and `bpf_net_convert_ctx_access()` of `net/core/filter.c`: the instructions
that stand for an access to a field of `struct __sk_buff`.  The offsets of the fields of `struct
sk_buff` depend on the configuration of the kernel and are parameters.  Bit fields are little
endian and pointers have 64 bits.
-/

namespace LinuxKernel.Bpf

/-- `offsetof()` of the fields of `sk_buff`, `net_device` and `qdisc_skb_cb` that programs can
reach. -/
structure SkbOffsets where
  len : BitVec 16
  mark : BitVec 16
  pktType : BitVec 16
  queueMapping : BitVec 16
  vlanTci : BitVec 16
  vlanProto : BitVec 16
  protocol : BitVec 16
  priority : BitVec 16
  skbIif : BitVec 16
  dev : BitVec 16
  hash : BitVec 16
  tcIndex : BitVec 16
  cb : BitVec 16
  netIfindex : BitVec 16
  netType : BitVec 16
  qdiscData : BitVec 16
  qdiscTcClassid : BitVec 16
  /-- `CONFIG_NET_SCHED` -/
  netSched : Bool

/-- The fields that classic and extended programs have in common. -/
inductive SkbField
  | mark | pkttype | queue | vlanTag | vlanTagPresent
deriving DecidableEq

def pktTypeMax : BitVec 32 := 7

def vlanTagPresent : BitVec 32 := 0x1000

def convertSkbAccess (o : SkbOffsets) (field : SkbField) (dst src : Fin 16) : List Insn :=
  match field with
  | .mark => [ldxMem .w dst src o.mark]
  | .pkttype =>
    [ldxMem .b dst src o.pktType, alu32Imm .and dst pktTypeMax]
  | .queue => [ldxMem .h dst src o.queueMapping]
  | .vlanTag =>
    [ldxMem .h dst src o.vlanTci, alu32Imm .and dst (~~~ vlanTagPresent)]
  | .vlanTagPresent =>
    [ldxMem .h dst src o.vlanTci, alu32Imm .rsh dst 12, alu32Imm .and dst 1]

/-- A store for a write, a load for a read. -/
def ldstMem (t : AccessType) (size : Size) (dst src : Fin 16) (off : BitVec 16) : Insn :=
  match t with
  | .write => stxMem size dst src off
  | .read => ldxMem size dst src off

def bpfNetConvertCtxAccess (o : SkbOffsets) (t : AccessType) (dst src : Fin 16)
    (ctxOff : BitVec 16) : List Insn :=
  match ctxOff.toInt with
  | 0 => [ldxMem .w dst src o.len]
  | 4 => convertSkbAccess o .pkttype dst src
  | 8 => [ldstMem t .w dst src o.mark]
  | 12 => convertSkbAccess o .queue dst src
  | 16 => [ldxMem .h dst src o.protocol]
  | 20 => convertSkbAccess o .vlanTagPresent dst src
  | 24 => convertSkbAccess o .vlanTag dst src
  | 28 => [ldxMem .h dst src o.vlanProto]
  | 32 => [ldstMem t .w dst src o.priority]
  | 36 => [ldxMem .w dst src o.skbIif]
  | 40 =>
    [ldxMem .dw dst src o.dev, jmpImm .jeq dst 0 1, ldxMem .w dst dst o.netIfindex]
  | 44 =>
    if o.netSched then [ldstMem t .h dst src o.tcIndex]
    else
      match t with
      | .write => [mov64Reg dst dst]
      | .read => [mov64Imm dst 0]
  | 68 => [ldxMem .w dst src o.hash]
  | 72 => [stxMem .h dst src (o.cb + o.qdiscTcClassid)]
  | off =>
    if 48 ≤ off ∧ off ≤ 64 then
      [ldstMem t .w dst src (ctxOff - 48 + o.cb + o.qdiscData)]
    else []

end LinuxKernel.Bpf
