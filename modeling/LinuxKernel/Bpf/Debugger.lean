import LinuxKernel.Bpf.ClassicRun

/-!
# The debugger of classic filters

`bpf_single_step()` and `bpf_run_all()` of `tools/net/bpf_dbg.c`, compared with the kernel on the
same packet.  The debugger does loads from behind the end of the packet, since it compares sizes
without regard to the sign.  It goes on after a load of a word relative to X that it did not do, and
it loads the length of the packet to A where it should load it to X.
-/

namespace LinuxKernel.Bpf

open Lib BitVec ClassicState

@[ext]
structure BpfRegs where
  a : BitVec 32
  x : BitVec 32
  m : Nat → BitVec 32
  r : BitVec 32
  rs : Bool
  pc : BitVec 16

/-- A packet of a capture file: the memory from it on, `pkt_caplen` and `pkt_len`. -/
structure Capture where
  pkt : Nat → BitVec 8
  caplen : BitVec 32
  len : BitVec 32

def bpfReset : BpfRegs where
  a := 0
  x := 0
  m := fun _ => 0
  r := 0
  rs := false
  pc := 0

def setReturn (regs : BpfRegs) : BpfRegs :=
  { regs with r := 0, rs := true }

/-- `d = pkt_caplen - off; d >= sizeof(..)`, where `d` becomes a `size_t`. -/
def Capture.enough (p : Capture) (off : BitVec 32) (size : Size) : Bool :=
  decide (size.bytes ≤ ((p.caplen - off).signExtend 64).toNat)

/-- `extract_u32()`, `extract_u16()` and `extract_u8()`. -/
def Capture.extract (p : Capture) (off : BitVec 32) (size : Size) : BitVec 32 :=
  loadBE p.pkt off.toNat size.bytes

/-- A load from the packet: the registers behind it, and the places read. -/
def Capture.load (p : Capture) (off : BitVec 32) (size : Size)
    (done : BitVec 32 → BpfRegs) (failed : BpfRegs) : BpfRegs × List Nat :=
  if p.enough off size then
    (done (p.extract off size), List.range' off.toNat size.bytes)
  else (failed, [])

/-- `BPF_X` or `BPF_K`. -/
def BpfRegs.operand (regs : BpfRegs) (f : SockFilter) : Src → BitVec 32
  | .x => regs.x
  | .k => f.k

def BpfRegs.jump (regs : BpfRegs) (f : SockFilter) (cond : Bool) : BpfRegs :=
  { regs with
    pc := regs.pc + (if cond then f.jt else f.jf).setWidth 16 }

/-- Arithmetic; a shift by 32 or more is taken modulo 32. -/
def BpfRegs.alu (regs : BpfRegs) (b : BitVec 32) : AluOp → BpfRegs
  | .lsh => { regs with a := regs.a <<< (b.toNat % 32) }
  | .rsh => { regs with a := regs.a >>> (b.toNat % 32) }
  | .add => { regs with a := regs.a + b }
  | .sub => { regs with a := regs.a - b }
  | .mul => { regs with a := regs.a * b }
  | .div => if b = 0 then setReturn regs else { regs with a := regs.a / b }
  | .mod => if b = 0 then setReturn regs else { regs with a := regs.a % b }
  | .and => { regs with a := regs.a &&& b }
  | .or => { regs with a := regs.a ||| b }
  | .xor => { regs with a := regs.a ^^^ b }
  | _ => regs

/-- `bpf_single_step()`: the registers, and the places read. -/
def bpfSingleStep (p : Capture) (f : SockFilter) (regs : BpfRegs) : BpfRegs × List Nat :=
  match f.op with
  | some (.ret 0) => ({ regs with r := f.k, rs := true }, [])
  | some (.ret 2) => ({ regs with r := regs.a, rs := true }, [])
  | some (.ret 1) => ({ regs with r := regs.x, rs := true }, [])
  | some (.alu64 .add .k) => ({ regs with x := regs.a }, [])
  | some (.alu64 .neg .k) => ({ regs with a := regs.x }, [])
  | some (.st .imm .w) =>
    ({ regs with
        m := fun i => if i = f.k.toNat then regs.a else regs.m i }, [])
  | some (.stx .imm .w) =>
    ({ regs with
        m := fun i => if i = f.k.toNat then regs.x else regs.m i }, [])
  | some (.ld .abs .dw) => (regs, [])
  | some (.ld .abs size) =>
    p.load f.k size (fun v => { regs with a := v }) (setReturn regs)
  | some (.ld .ind .w) =>
    -- this load does not set the return value
    p.load (regs.x + f.k) .w (fun v => { regs with a := v }) regs
  | some (.ld .ind .dw) => (regs, [])
  | some (.ld .ind size) =>
    p.load (regs.x + f.k) size (fun v => { regs with a := v }) (setReturn regs)
  | some (.ldx .msh .b) =>
    p.load f.k .b (fun v => { regs with x := (v &&& 0xf) <<< 2 }) (setReturn regs)
  | some (.ld .len .w) => ({ regs with a := p.len }, [])
  | some (.ldx .len .w) =>
    -- the length goes to A here as well
    ({ regs with a := p.len }, [])
  | some (.ld .imm .w) => ({ regs with a := f.k }, [])
  | some (.ldx .imm .w) => ({ regs with x := f.k }, [])
  | some (.ld .mem .w) => ({ regs with a := regs.m f.k.toNat }, [])
  | some (.ldx .mem .w) => ({ regs with x := regs.m f.k.toNat }, [])
  | some (.jmp .ja .k) => ({ regs with pc := regs.pc + f.k.setWidth 16 }, [])
  | some (.jmp .jgt src) =>
    (regs.jump f ((regs.operand f src).ult regs.a), [])
  | some (.jmp .jge src) =>
    (regs.jump f ((regs.operand f src).ule regs.a), [])
  | some (.jmp .jeq src) => (regs.jump f (regs.a == regs.operand f src), [])
  | some (.jmp .jset src) =>
    (regs.jump f ((regs.a &&& regs.operand f src) != 0), [])
  | some (.alu .neg .k) => ({ regs with a := -regs.a }, [])
  | some (.alu op src) => (regs.alu (regs.operand f src) op, [])
  | _ => (regs, [])

/-- The body of the loop of `bpf_run_all()`, without breakpoints. -/
def BpfRegs.next (p : Capture) (filter : List SockFilter) (regs : BpfRegs) : BpfRegs × List Nat :=
  let (regs, reads) := bpfSingleStep p (filter.getD regs.pc.toNat default) regs
  ({ regs with pc := regs.pc + 1 }, reads)

/-- `bpf_run_all()` for at most `fuel` steps: the verdict and the places of the packet read. -/
def bpfRunAll (p : Capture) (filter : List SockFilter) :
    Nat → BpfRegs → Option (BitVec 32 × List Nat)
  | 0, regs => if regs.rs then some (regs.r, []) else none
  | fuel + 1, regs =>
    if regs.rs then some (regs.r, [])
    else
      (bpfRunAll p filter fuel (regs.next p filter).1).map
        (fun out => (out.1, (regs.next p filter).2 ++ out.2))

variable {p : Capture} {l : LinearSkb} {skb : Skb} {off v k : BitVec 32}

section Linear

def skfNetOff : BitVec 32 := -0x100000

def skfLlOff : BitVec 32 := -0x200000

/-- A packet in one piece: the bytes from `skb->head` to the tail, and where the data and the
headers are. -/
structure LinearSkb where
  head : List (BitVec 8)
  data : Nat
  networkHeader : BitVec 16
  macHeader : BitVec 16
  data_le : data ≤ head.length
  small : head.length < 2 ^ 31

namespace LinearSkb

def len (l : LinearSkb) : Nat :=
  l.head.length - l.data

/-- `skb_header_pointer()`; there is nothing but the linear part. -/
def skbHeaderPointer (l : LinearSkb) (k : BitVec 32) (size : Nat) : Option Nat :=
  if (size : Int) ≤ (l.len : Int) - k.toInt then some (l.data + k.toNat)
  else none

def bpfInternalLoadPointerNegHelper (l : LinearSkb) (k : BitVec 32) (size : Nat) : Option Nat :=
  let ptr : Option Int :=
    if skfNetOff.toInt ≤ k.toInt then
      some (l.networkHeader.toNat + k.toInt - skfNetOff.toInt)
    else if skfLlOff.toInt ≤ k.toInt then
      some (l.macHeader.toNat + k.toInt - skfLlOff.toInt)
    else none
  match ptr with
  | some p =>
    if 0 ≤ p ∧ p + size ≤ l.head.length then some p.toNat else none
  | none => none

def bpfLoadPointer (l : LinearSkb) (k : BitVec 32) (size : Nat) : Option Nat :=
  if 0 ≤ k.toInt then l.skbHeaderPointer k size
  else l.bpfInternalLoadPointerNegHelper k size

/-- The loads of `__bpf_prog_run()` from the packet. -/
def pkt (l : LinearSkb) (k : BitVec 32) (size : Size) : Option (BitVec 32) :=
  (l.bpfLoadPointer k size.bytes).map (fun p => loadBE (fun i => l.head.getD i 0) p size.bytes)

end LinearSkb

/-- One packet in the kernel and, captured as a whole, in the debugger. -/
structure Captured (p : Capture) (l : LinearSkb) (skb : Skb) : Prop where
  caplen : p.caplen = BitVec.ofNat 32 l.len
  len : p.len = BitVec.ofNat 32 l.len
  bytes : ∀ i < l.len, p.pkt i = l.head.getD (l.data + i) 0
  skbLen : skb.len = BitVec.ofNat 32 l.len
  skbPkt : ∀ off size, skb.pkt off size = l.pkt off size

theorem LinearSkb.len_lt (l : LinearSkb) : l.len < 2 ^ 31 :=
  lt_of_le_of_lt (Nat.sub_le _ _) l.small

variable (h : Captured p l skb)

include h

theorem Captured.toNat_caplen : p.caplen.toNat = l.len := by
  have := l.len_lt
  rw [h.caplen, toNat_ofNat]
  omega

theorem Captured.enough_iff (hoff : off.toNat ≤ p.caplen.toNat) (size : Size) :
    p.enough off size = true ↔ off.toNat + size.bytes ≤ p.caplen.toNat := by
  have hlen := l.len_lt
  have hcap := h.toNat_caplen
  have hsub : (p.caplen - off).toNat = p.caplen.toNat - off.toNat := toNat_sub_of_le hoff
  have hpos : (p.caplen - off).signExtend 64 = (p.caplen - off).setWidth 64 :=
    signExtend_eq_setWidth_of_msb_false (msb_eq_false_iff_two_mul_lt.mpr (by omega))
  unfold Capture.enough
  rw [decide_eq_true_iff, hpos, toNat_setWidth_64, hsub]
  omega

theorem Captured.enough_behind (hoff : p.caplen.toNat < off.toNat)
    (hskf : off.toNat < skfLlOff.toNat) (size : Size) : p.enough off size = true := by
  have hlen := l.len_lt
  have hcap := h.toNat_caplen
  have hlo : skfLlOff.toNat = 2 ^ 32 - 0x200000 := rfl
  have hsize : size.bytes ≤ 8 := by cases size <;> decide
  have hsub : (p.caplen - off).toNat = 2 ^ 32 + p.caplen.toNat - off.toNat := by
    rw [toNat_sub]
    omega
  have hext : (p.caplen - off).toNat ≤ ((p.caplen - off).signExtend 64).toNat := by
    rw [toNat_signExtend, toNat_setWidth_64]
    exact Nat.le_add_right _ _
  unfold Capture.enough
  rw [decide_eq_true_iff]
  omega

theorem Captured.pkt_eq (hoff : off.toNat ≤ p.caplen.toNat) (size : Size) :
    skb.pkt off size = if p.enough off size then some (p.extract off size) else none := by
  have hlen := l.len_lt
  have hcap := h.toNat_caplen
  have hint : off.toInt = off.toNat := toInt_eq_toNat_of_lt (by omega)
  rw [h.skbPkt, LinearSkb.pkt, LinearSkb.bpfLoadPointer,
    if_pos (by omega), LinearSkb.skbHeaderPointer, hint]
  by_cases hfit : off.toNat + size.bytes ≤ p.caplen.toNat
  · rw [if_pos (by omega), if_pos ((h.enough_iff hoff size).mpr hfit)]
    refine congrArg some (loadBE_congr ?_)
    intro k hk
    rw [h.bytes _ (by omega), Nat.add_assoc]
  · rw [if_neg (by omega), if_neg (mt (h.enough_iff hoff size).mp hfit)]
    rfl

end Linear

section Agreement

/-- The registers of the debugger in a state of the classic machine. -/
def regsOf (s : ClassicState) : BpfRegs where
  a := s.a
  x := s.x
  m := s.mem
  r := 0
  rs := false
  pc := BitVec.ofNat 16 s.pc

/-- A step of the debugger read inside of the packet and has the outcome of the classic machine. -/
def Agrees (p : Capture) (out : ClassicOutcome) (res : BpfRegs × List Nat) : Prop :=
  (∀ i ∈ res.2, i < p.caplen.toNat) ∧ match out with
    | .next s => res.1 = regsOf s
    | .ret v => res.1.rs = true ∧ res.1.r = v

/-- `bpf_curr.Pc++`. -/
def pcInc (res : BpfRegs × List Nat) : BpfRegs × List Nat :=
  ({ res.1 with pc := res.1.pc + 1 }, res.2)

def ClassicState.pktOff (filter : List SockFilter) (s : ClassicState) : Option (BitVec 32) :=
  match (s.insn filter).op with
  | some (.ld .abs _) => some (s.insn filter).k
  | some (.ldx .msh _) => some (s.insn filter).k
  | some (.ld .ind _) => some (s.x + (s.insn filter).k)
  | _ => none

/-- A load with an offset that means `SKF_AD_OFF`, `SKF_NET_OFF` or `SKF_LL_OFF`. -/
def SkfLoad (filter : List SockFilter) (s : ClassicState) : Prop :=
  ∃ off, s.pktOff filter = some off ∧ skfLlOff.toNat ≤ off.toNat

/-- The debugger does the next instruction right: a load does not start behind the end of the
packet, one of a word relative to X does not reach behind it, and the length is loaded to X only if
it is in A and X already. -/
def DebugOk (p : Capture) (filter : List SockFilter) (s : ClassicState) : Prop :=
  match (s.insn filter).op with
  | some (.ld .abs _) => (s.insn filter).k.toNat ≤ p.caplen.toNat
  | some (.ldx .msh _) => (s.insn filter).k.toNat ≤ p.caplen.toNat
  | some (.ld .ind .w) =>
    (s.x + (s.insn filter).k).toNat + 4 ≤ p.caplen.toNat
  | some (.ld .ind _) => (s.x + (s.insn filter).k).toNat ≤ p.caplen.toNat
  | some (.ldx .len _) => s.a = p.len ∧ s.x = p.len
  | _ => True

variable {filter : List SockFilter} {anc : Nat → AncData} {s : ClassicState}

theorem next_regsOf (p : Capture) (hin : s.pc < filter.length)
    (hmax : filter.length ≤ bpfMaxInsns) :
    (regsOf s).next p filter = pcInc (bpfSingleStep p (s.insn filter) (regsOf s)) := by
  have hpc : (regsOf s).pc.toNat = s.pc := by
    unfold bpfMaxInsns at hmax
    change (BitVec.ofNat 16 s.pc).toNat = s.pc
    rw [toNat_ofNat]
    omega
  unfold BpfRegs.next
  rw [hpc]
  rfl

theorem agrees_jump (s : ClassicState) (a x : BitVec 32) (mem : Nat → BitVec 32) {d : BitVec 16}
    {j : Nat} (hd : BitVec.ofNat 16 j = d) :
    Agrees p (.next { pc := s.pc + j + 1, a := a, x := x, mem := mem })
      (pcInc
        ({ regsOf s with
            a := a, x := x, m := mem, pc := (regsOf s).pc + d }, [])) := by
  subst hd
  constructor
  · intro i hi
    cases hi
  · refine BpfRegs.ext rfl rfl rfl rfl rfl ?_
    simp [pcInc, regsOf, ofNat_add]

/-- A step that reads nothing and goes on behind the instruction. -/
theorem agrees_next (s : ClassicState) (a x : BitVec 32) (mem : Nat → BitVec 32) :
    Agrees p (.next { pc := s.pc + 1, a := a, x := x, mem := mem })
      (pcInc ({ regsOf s with a := a, x := x, m := mem }, [])) := by
  have h := agrees_jump (p := p) s a x mem (rfl : BitVec.ofNat 16 0 = 0)
  rwa [Nat.add_zero, BitVec.add_zero] at h

theorem agrees_ret {regs : BpfRegs} (hrs : regs.rs = true) (hr : regs.r = v) :
    Agrees p (.ret v) (pcInc (regs, [])) := by
  constructor
  · intro i hi
    cases hi
  · exact ⟨hrs, hr⟩

variable {failed : BpfRegs} {done : BitVec 32 → BpfRegs} {src : Src}

variable (h : Captured p l skb)

include h

theorem Captured.load_agrees (hoff : off.toNat ≤ p.caplen.toNat) (size : Size)
    (out : Option (BitVec 32) → ClassicOutcome)
    (hsome : ∀ v, Agrees p (out (some v)) (pcInc (done v, [])))
    (hnone : p.enough off size = false → Agrees p (out none) (pcInc (failed, []))) :
    Agrees p (out (skb.pkt off size)) (pcInc (p.load off size done failed)) := by
  rw [h.pkt_eq hoff, Capture.load]
  cases henough : p.enough off size with
  | true =>
    have hfit := (h.enough_iff hoff size).mp henough
    refine ⟨?_, (hsome (p.extract off size)).2⟩
    intro i hi
    obtain ⟨k, hk, rfl⟩ := List.mem_range'.mp hi
    omega
  | false => exact hnone henough

theorem Captured.load_behind (hoff : p.caplen.toNat < off.toNat) (hskf : off.toNat < skfLlOff.toNat)
    (size : Size) {out : ClassicOutcome} :
    ¬ Agrees p out (pcInc (p.load off size done failed)) := by
  rintro ⟨hreads, -⟩
  rw [Capture.load, if_pos (h.enough_behind hoff hskf size)] at hreads
  have hfirst := hreads off.toNat (List.mem_range'.mpr ⟨0, size.bytes_pos, by omega⟩)
  omega

omit h in
theorem ancOf_small (h : k.toNat < 2 ^ 31) : ancOf k = none := by
  have hlarge : 0x1000 ≤ (k - skfAdOff).toNat := by
    have hoff : skfAdOff.toNat = 2 ^ 32 - 0x1000 := rfl
    rw [toNat_sub]
    omega
  unfold ancOf
  split <;> first | rfl | omega

omit h in
theorem operand_regsOf (insn : SockFilter) : (regsOf s).operand insn src = s.operand insn src := by
  cases src <;> rfl

omit h in
theorem alu_agrees {op : AluOp} (hclassic : op.classic src = true)
    (hop : (s.insn filter).op = some (.alu op src)) :
    Agrees p (s.loadA (classicAlu op s.a (s.operand (s.insn filter) src)))
      (pcInc (bpfSingleStep p (s.insn filter) (regsOf s))) := by
  unfold bpfSingleStep
  rw [hop]
  cases op with
  | neg =>
    cases src with
    | x => cases hclassic
    | k => exact agrees_next s _ _ _
  | mov | arsh | end_ | opE0 | opF0 => cases src <;> cases hclassic
  | div | mod =>
    simp only [BpfRegs.alu, operand_regsOf, classicAlu]
    by_cases hzero : s.operand (s.insn filter) src = 0
    · rw [if_pos hzero, if_pos hzero]
      exact agrees_ret rfl rfl
    · rw [if_neg hzero, if_neg hzero]
      exact agrees_next s _ _ _
  | _ =>
    simp only [BpfRegs.alu, operand_regsOf, classicAlu]
    exact agrees_next s _ _ _

omit h in
theorem cond_agrees {op : JmpOp} (hclassic : op.classic = true)
    (hop : (s.insn filter).op = some (.jmp op src)) :
    Agrees p
      (if classicCond op s.a (s.operand (s.insn filter) src) then
        .next { s with pc := s.pc + (s.insn filter).jt.toNat + 1 }
      else .next { s with pc := s.pc + (s.insn filter).jf.toNat + 1 })
      (pcInc (bpfSingleStep p (s.insn filter) (regsOf s))) := by
  have hstep : bpfSingleStep p (s.insn filter) (regsOf s) =
        ((regsOf s).jump (s.insn filter)
          (classicCond op s.a (s.operand (s.insn filter) src)), []) := by
    rw [← operand_regsOf]
    unfold bpfSingleStep
    rw [hop]
    rcases JmpOp.classic_cases hclassic with rfl | rfl | rfl | rfl <;> rfl
  rw [hstep]
  cases classicCond op s.a (s.operand (s.insn filter) src) with
  | true | false => exact agrees_jump s _ _ _ (ofNat_toNat _ _)

variable (hf : FilterOk filter) (hin : s.pc < filter.length)

include hf hin

/-- The debugger does a step right in the states of `DebugOk`. -/
theorem Captured.step_agrees (hok : DebugOk p filter s) :
    Agrees p (s.step filter skb anc) ((regsOf s).next p filter) := by
  obtain ⟨code, hop, hallowed, -⟩ := hf.insn s.pc hin
  change (s.insn filter).op = some code at hop
  have hlen := l.len_lt
  have hcap := h.toNat_caplen
  unfold DebugOk at hok
  rw [next_regsOf p hin hf.max, step_eq hop]
  rw [hop] at hok
  have hload (v : BitVec 32) := agrees_next (p := p) s v s.x s.mem
  have hloadX (v : BitVec 32) := agrees_next (p := p) s s.a v s.mem
  cases hallowed with
  | alu hclassic => exact alu_agrees hclassic hop
  | cond hclassic =>
    rw [exec_cond hclassic]
    exact cond_agrees hclassic hop
  | @ldAbs size hsize =>
    have hk : (s.insn filter).k.toNat ≤ p.caplen.toNat := hok
    unfold exec bpfSingleStep
    rw [hop, ancOf_small (by omega)]
    cases size with
    | dw => exact absurd rfl hsize
    | _ => exact h.load_agrees hk _ s.loadA hload (fun _ => agrees_ret rfl rfl)
  | @ldInd size hsize =>
    unfold exec bpfSingleStep
    rw [hop]
    cases size with
    | dw => exact absurd rfl hsize
    | w =>
      have hk : (s.x + (s.insn filter).k).toNat + 4 ≤ p.caplen.toNat := hok
      refine h.load_agrees (Nat.le_of_add_right_le hk) .w s.loadA hload ?_
      intro henough
      have hfit := (h.enough_iff (Nat.le_of_add_right_le hk) .w).mpr hk
      cases henough.symm.trans hfit
    | _ => exact h.load_agrees hok _ s.loadA hload (fun _ => agrees_ret rfl rfl)
  | ldxMsh =>
    unfold exec bpfSingleStep
    rw [hop]
    exact h.load_agrees hok .b (fun v => s.loadX (v.map mshValue))
      (fun v => hloadX (mshValue v)) (fun _ => agrees_ret rfl rfl)
  | ldLen =>
    unfold exec bpfSingleStep
    rw [hop, h.skbLen, ← h.len]
    exact hload _
  | ldxLen =>
    obtain ⟨ha, hx⟩ := hok
    unfold exec bpfSingleStep
    rw [hop, h.skbLen, ← h.len]
    have hboth := agrees_next (p := p) s s.a s.x s.mem
    nth_rewrite 2 [ha] at hboth
    nth_rewrite 1 [hx] at hboth
    exact hboth
  | retK | retA =>
    unfold exec bpfSingleStep
    rw [hop]
    exact agrees_ret rfl rfl
  | ja =>
    unfold exec bpfSingleStep
    rw [hop]
    exact agrees_jump s _ _ _ (ofNat_toNat _ _)
  | _ =>
    unfold exec bpfSingleStep
    rw [hop]
    exact agrees_next s _ _ _

/-- And in no others, if the offset means nothing else to the kernel. -/
theorem Captured.step_agrees_iff (hskf : ¬ SkfLoad filter s) :
    Agrees p (s.step filter skb anc) ((regsOf s).next p filter) ↔ DebugOk p filter s := by
  refine ⟨?_, h.step_agrees hf hin⟩
  obtain ⟨code, hop, hallowed, -⟩ := hf.insn s.pc hin
  change (s.insn filter).op = some code at hop
  have hsmall (off : BitVec 32) (hoff : s.pktOff filter = some off) :
      off.toNat < skfLlOff.toNat := by
    by_contra hge
    exact hskf ⟨off, hoff, Nat.le_of_not_lt hge⟩
  unfold pktOff at hsmall
  unfold DebugOk
  rw [next_regsOf p hin hf.max, step_eq hop]
  rw [hop] at hsmall ⊢
  intro hag
  unfold bpfSingleStep at hag
  rw [hop] at hag
  cases hallowed with
  | @ldAbs size hsize =>
    refine Nat.le_of_not_lt fun hlt => ?_
    cases size with
    | dw => exact absurd rfl hsize
    | _ => exact h.load_behind hlt (hsmall _ rfl) _ hag
  | @ldInd size hsize =>
    have hoff : (s.x + (s.insn filter).k).toNat ≤ p.caplen.toNat := by
      refine Nat.le_of_not_lt fun hlt => ?_
      cases size with
      | dw => exact absurd rfl hsize
      | _ => exact h.load_behind hlt (hsmall _ rfl) _ hag
    cases size with
    | dw => exact absurd rfl hsize
    | w =>
      refine (h.enough_iff hoff .w).mp ?_
      by_contra hnot
      -- the kernel returns, the debugger does not
      change Agrees p (s.loadA (skb.pkt (s.x + (s.insn filter).k) .w))
        (pcInc (p.load (s.x + (s.insn filter).k) .w _ (regsOf s))) at hag
      rw [h.pkt_eq hoff, Capture.load, if_neg hnot, if_neg hnot] at hag
      cases hag.2.1
    | h | b => exact hoff
  | ldxMsh =>
    refine Nat.le_of_not_lt fun hlt => ?_
    exact h.load_behind hlt (hsmall _ rfl) .b hag
  | ldxLen =>
    unfold exec at hag
    rw [h.skbLen, ← h.len] at hag
    have hregs := hag.2
    exact ⟨(congrArg BpfRegs.a hregs).symm, congrArg BpfRegs.x hregs⟩
  | @cond op src hclassic =>
    rcases JmpOp.classic_cases hclassic with rfl | rfl | rfl | rfl <;> trivial
  | _ => trivial

theorem Captured.run_agrees (fuel : Nat) (hfuel : filter.length ≤ s.pc + fuel)
    (hok : ∀ s', Visits filter skb anc s s' → DebugOk p filter s') :
    ∃ v reads, s.run filter skb anc fuel = some v ∧
        bpfRunAll p filter fuel (regsOf s) = some (v, reads) ∧
        ∀ i ∈ reads, i < p.caplen.toNat := by
  induction fuel generalizing s with
  | zero => exact absurd hin (by omega)
  | succ fuel ih =>
    obtain ⟨hs, hrest⟩ := forall_visits_iff.mp hok
    obtain ⟨hreads, hregs⟩ : Agrees p (s.step filter skb anc) ((regsOf s).next p filter) :=
      h.step_agrees hf hin hs
    rw [run, bpfRunAll, if_neg (by exact Bool.false_ne_true)]
    cases hstep : s.step filter skb anc with
    | ret v =>
      rw [hstep] at hregs
      have hdone : bpfRunAll p filter fuel ((regsOf s).next p filter).1 = some (v, []) := by
        cases fuel <;> rw [bpfRunAll, if_pos hregs.1, hregs.2]
      rw [hdone]
      refine ⟨v, _, rfl, rfl, ?_⟩
      rwa [List.append_nil]
    | next s' =>
      rw [hstep] at hregs
      have hmem := hf.next_mem hin hstep
      have hlt := lt_of_mem_classicSuccs hmem
      obtain ⟨v, reads, hv, hrun, hin'⟩ := ih (hf.succ_lt hin hmem) (by omega) (hrest s' hstep)
      refine ⟨v, ((regsOf s).next p filter).2 ++ reads, hv, ?_, ?_⟩
      · rw [hregs, hrun]
        rfl
      · exact List.forall_mem_append.mpr ⟨hreads, hin'⟩

omit hf hin in
theorem DebugOk.not_devMissing (hok : DebugOk p filter s) : ¬ DevMissing filter skb s := by
  rintro ⟨-, hanc, size, hop⟩
  have hlen := l.len_lt
  have hcap := h.toNat_caplen
  unfold DebugOk at hok
  rw [hop] at hok
  have hk : (s.insn filter).k.toNat ≤ p.caplen.toNat := hok
  rw [ancOf_small (by omega)] at hanc
  rcases hanc with hanc | hanc <;> cases hanc

end Agreement

/-- The debugger and the kernel on one packet, captured as a whole.  A step of the debugger reads
inside of the packet and has the outcome of the kernel exactly in the states of `DebugOk`.  If all
steps are done in such states, both return the same value, and no read is outside of the packet. -/
theorem bpfRunAll_agrees (o : SkbOffsets) {filter : List SockFilter}
    (hcheck : bpfCheckClassic filter = .ok ()) :
    ∃ prog, bpfMigrateFilter o filter = .ok prog ∧
        ∀ {W : World} {n : Nat} (L : Layout W n) (skb : Skb) (heap : Heap W)
          (fns : Int → AncFns) (regs : Nat → BitVec 64)
          (stack : Nat → BitVec 8) (l : LinearSkb) (p : Capture),
          SkbAt o L skb heap → Captured p l skb →
            (∀ s, Visits filter skb (ancData o filter fns) (init fun _ => 0) s →
                ¬ SkfLoad filter s →
                  (Agrees p (s.step filter skb (ancData o filter fns)) ((regsOf s).next p filter) ↔
                    DebugOk p filter s)) ∧
              ((∀ s, Visits filter skb (ancData o filter fns) (init fun _ => 0) s →
                    DebugOk p filter s) →
                ∃ v reads, bpfRunAll p filter filter.length bpfReset = some (v, reads) ∧
                    (∀ i ∈ reads, i < p.caplen.toNat) ∧
                    Returns L fns (Machine.skbInit L prog heap regs stack) v) := by
  have hf := bpfCheckClassic_ok hcheck
  obtain ⟨prog, hprog, hplaced⟩ := bpfMigrateFilter_ok (o := o) hf
  refine ⟨prog, hprog, ?_⟩
  intro W n L skb heap fns regs stack l p hskb hcap
  constructor
  · intro s hvisit hskf
    exact hcap.step_agrees_iff hf (hf.visits_inside hf.pos hvisit) hskf
  intro hok
  obtain ⟨v, w, hv, hret, hiff⟩ := hplaced.run hf hskb fns regs stack (fun _ => 0)
  obtain ⟨v', reads, hv', hrun, hreads⟩ :=
    hcap.run_agrees hf hf.pos filter.length (Nat.le_add_left _ _) hok
  cases hv.symm.trans hv'
  obtain rfl : w = v := hiff.mpr fun s hvisit hmiss =>
    absurd hmiss ((hok s hvisit).not_devMissing hcap)
  exact ⟨w, reads, hrun, hreads, hret⟩

def oneByte : LinearSkb where
  head := [0x45]
  data := 0
  networkHeader := 0
  macHeader := 0
  data_le := by decide
  small := by decide

def oneByteSkb : Skb :=
  { emptySkb with len := 1, pkt := oneByte.pkt }

def oneByteHeap : Heap noMaps :=
  { zeroHeap with
    ctx := fun i => if i = 128 then 1 else 0
    pkt := fun off size => (oneByte.pkt off size).map (BitVec.setWidth 64) }

/-- The packet in the debugger, with zeros behind it. -/
def oneByteCapture : Capture where
  pkt := fun i => if i = 0 then 0x45 else 0
  caplen := 1
  len := 1

theorem oneByteSkb_at : SkbAt skbOffsets filterLayout oneByteSkb oneByteHeap := by
  constructor
  case pkt => exact fun _ _ _ => rfl
  all_goals exact ⟨by decide, by decide, by decide⟩

theorem oneByte_captured : Captured oneByteCapture oneByte oneByteSkb where
  caplen := rfl
  len := rfl
  bytes := by decide
  skbLen := rfl
  skbPkt := fun _ _ => rfl

/-- The entry to a filter for the packet. -/
def oneByteInit (prog : List Insn) : Machine noMaps :=
  Machine.skbInit filterLayout prog oneByteHeap (fun _ => 0) (fun _ => 0)

/-- Return the first byte. -/
def firstByteFilter : List SockFilter :=
  [bpfStmt (.ld .abs .b) 0, bpfStmt (.ret 2) 0]

/-- The first byte of the packet, in the debugger and in the kernel. -/
theorem bpfRunAll_agrees_firstByte :
    bpfCheckClassic firstByteFilter = .ok () ∧
      ∃ prog v reads, bpfMigrateFilter skbOffsets firstByteFilter = .ok prog ∧
          bpfRunAll oneByteCapture firstByteFilter 2 bpfReset = some (v, reads) ∧
          (∀ i ∈ reads, i < 1) ∧
          Returns filterLayout zeroFns (oneByteInit prog) v := by
  have hcheck : bpfCheckClassic firstByteFilter = .ok () := by decide
  obtain ⟨prog, hprog, hruns⟩ := bpfRunAll_agrees skbOffsets hcheck
  obtain ⟨-, hall⟩ := hruns filterLayout oneByteSkb oneByteHeap zeroFns (fun _ => 0)
      (fun _ => 0) oneByte oneByteCapture oneByteSkb_at oneByte_captured
  obtain ⟨v, reads, hrun, hreads, hret⟩ := hall (by
    intro s hvisit
    rcases hvisit.cases_head with rfl | ⟨s₁, hnext, hvisit⟩
    · exact Nat.zero_le 1
    · cases hnext
      rcases hvisit.cases_head with rfl | ⟨s₂, hnext, -⟩
      · trivial
      · cases hnext)
  exact ⟨hcheck, prog, v, reads, hprog, hrun, hreads, hret⟩

/-- Return X after the length was loaded to it. -/
def lenFilter : List SockFilter :=
  [bpfStmt (.ldx .len .w) 0, bpfStmt (.alu64 .neg .k) 0, bpfStmt (.ret 2) 0]

/-- Accept if there is a word at offset X. -/
def wordFilter : List SockFilter :=
  [bpfStmt (.ld .ind .w) 0, bpfStmt (.ret 0) 1]

/-- Accept if there is a byte at offset 2. -/
def thirdByteFilter : List SockFilter :=
  [bpfStmt (.ld .abs .b) 2, bpfStmt (.ret 0) 1]

def KernelReturns (filter : List SockFilter) (v : BitVec 32) : Prop :=
  bpfCheckClassic filter = .ok () ∧
    ∃ prog, bpfMigrateFilter skbOffsets filter = .ok prog ∧
      Returns filterLayout zeroFns (oneByteInit prog) v

/-- Three filters without `SKF_*` loads on which the verdicts differ.  In the last the debugger
reads behind the packet. -/
theorem bpfRunAll_disagrees :
    SkbAt skbOffsets filterLayout oneByteSkb oneByteHeap ∧
      Captured oneByteCapture oneByte oneByteSkb ∧
      (KernelReturns lenFilter 1 ∧ bpfRunAll oneByteCapture lenFilter 3 bpfReset = some (0, [])) ∧
      (KernelReturns wordFilter 0 ∧ bpfRunAll oneByteCapture wordFilter 2 bpfReset = some (1, [])) ∧
      (KernelReturns thirdByteFilter 0 ∧
        bpfRunAll oneByteCapture thirdByteFilter 2 bpfReset = some (1, [2])) := by
  refine ⟨oneByteSkb_at, oneByte_captured, ⟨⟨by decide, _, rfl, 5, _, rfl⟩, ?_⟩,
    ⟨⟨by decide, _, rfl, 5, _, rfl⟩, ?_⟩, ⟨by decide, _, rfl, 5, _, rfl⟩, ?_⟩
  · rfl
  · rfl
  · rfl

end LinuxKernel.Bpf
