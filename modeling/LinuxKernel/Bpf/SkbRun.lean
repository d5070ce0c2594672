import LinuxKernel.Bpf.ConvertLayout
import LinuxKernel.Bpf.MemAccess

/-!
# Running converted filters

What a converted filter runs on: a `struct sk_buff` as its context, which may point to a `struct
net_device` (one of the objects of the layout that the verifier knows as map values), and the
functions that ancillary loads call, which may return something else at every instruction.
-/

namespace LinuxKernel.Bpf

open Lib Machine

/-- The function behind the number in a call. -/
def ancFnOf : Nat → Option AncFn
  | 101 => some .payOffset
  | 102 => some .nlattr
  | 103 => some .nlattrNest
  | 104 => some .cpu
  | 105 => some .random
  | _ => none

/-- All ancillary functions take the context, A and X. -/
def ancProto : FuncProto where
  retType := .integer
  arg1Type := .ptrToCtx
  arg2Type := .anything
  arg3Type := .anything

/-- The functions of converted filters; `ctxSize` is `sizeof(struct sk_buff)`. -/
def skbOps (ctxSize : Nat) : VerifierOps where
  getFuncProto := fun f => (ancFnOf f).map (fun _ => ancProto)
  isValidAccess := fun _ _ _ => false
  ctxSize := ctxSize
  valid_in_ctx := by
    intro off size t h
    cases h
  tail_call := by
    intro fn h
    cases h

/-- What the ancillary functions return.  They get all 64 bits of the
registers. -/
abbrev AncFns := AncFn → BitVec 64 → BitVec 64 → BitVec 32

variable {W : World} {n k : Nat} {L : Layout W n} {fns : Int → AncFns} {m m' : Machine W}

section Env

/-- Surroundings in which the packet stays as it is. -/
def ancEnv (fns : AncFns) : Env W (skbOps n) where
  perturb := id
  helper := fun f args h =>
    { ret :=
        match ancFnOf f, args with
        | some fn, _ :: .scalar a :: .scalar x :: _ =>
          .int ((fns fn a x).setWidth 64)
        | _, _ => .int 0
      heap := h
      writes := fun _ => none }
  ret_ok := by
    intro f fn args h hfn
    obtain ⟨fn', -, rfl⟩ := Option.map_eq_some_iff.mp hfn
    change ∃ v, _ = RetVal.int v
    dsimp only
    split
    · exact ⟨_, rfl⟩
    · exact ⟨_, rfl⟩
  writes_ok := by
    intro f args h j b hb
    cases hb

/-- No program array holds a program. -/
def noArrays : ProgArrays W :=
  fun _ _ => none

def Machine.skbInit (L : Layout W n) (prog : List Insn) (heap : Heap W)
    (regs : Nat → BitVec 64) (stack : Nat → BitVec 8) : Machine W :=
  @Machine.init W (skbOps n) L prog heap regs stack

def Machine.skbStep (L : Layout W n) (fns : Int → AncFns) (m : Machine W) : Outcome W :=
  @Machine.step W (skbOps n) L (ancEnv (fns m.pc)) noArrays m

def Machine.skbExec (L : Layout W n) (fns : Int → AncFns) (m : Machine W)
    (insn : Insn) : Outcome W :=
  @Machine.exec W (skbOps n) L (ancEnv (fns m.pc)) noArrays m insn

/-- `k` steps; `fns` are the ancillary functions at each instruction. -/
def Machine.runAt (L : Layout W n) (fns : Int → AncFns) : Nat → Machine W → Outcome W
  | 0, m => .next m
  | k + 1, m =>
    match m.skbStep L fns with
    | .next m' => Machine.runAt L fns k m'
    | out => out

def NextStep (L : Layout W n) (fns : Int → AncFns) (m m' : Machine W) : Prop :=
  m.skbStep L fns = .next m'

/-- The run gets from `m` to `m'`. -/
def Reaches (L : Layout W n) (fns : Int → AncFns) : Machine W → Machine W → Prop :=
  Relation.ReflTransGen (NextStep L fns)

/-- The run from `m` returns `v`. -/
def Returns (L : Layout W n) (fns : Int → AncFns) (m : Machine W) (v : BitVec 32) : Prop :=
  ∃ k m', m.runAt L fns k = .ret v m'

variable {v w : BitVec 32}

theorem Returns.of_step (h : m.skbStep L fns = .ret v m') : Returns L fns m v := by
  refine ⟨1, m', ?_⟩
  rw [runAt, h]

theorem Returns.of_reaches (hreach : Reaches L fns m m') (h : Returns L fns m' v) :
    Returns L fns m v := by
  induction hreach using Relation.ReflTransGen.head_induction_on with
  | refl => exact h
  | head hstep _ ih =>
    obtain ⟨k, m'', hk⟩ := ih
    refine ⟨k + 1, m'', ?_⟩
    rw [runAt, hstep]
    exact hk

theorem Machine.runAt_ret_add (h : m.runAt L fns k = .ret v m') (j : Nat) :
    m.runAt L fns (k + j) = .ret v m' := by
  induction k generalizing m with
  | zero => cases h
  | succ k ih =>
    rw [Nat.add_right_comm]
    rw [runAt] at h ⊢
    cases hstep : m.skbStep L fns with
    | next m₁ =>
      rw [hstep] at h
      exact ih h
    | _ =>
      rw [hstep] at h
      exact h

theorem Returns.unique (hv : Returns L fns m v) (hw : Returns L fns m w) : v = w := by
  obtain ⟨k, m₁, hk⟩ := hv
  obtain ⟨j, m₂, hj⟩ := hw
  have hboth := runAt_ret_add hk j
  rw [Nat.add_comm, runAt_ret_add hj k] at hboth
  cases hboth
  rfl

end Env

section Code

/-- The instructions `insns` are in `prog` at `a`. -/
def CodeAt (prog : List Insn) (a : Nat) (insns : List Insn) : Prop :=
  ∀ q < insns.length, fetch prog ((a + q : Nat) : Int) = insns.getD q default ∧ a + q < prog.length

variable {rest : List Insn} {insn : Insn} {a r : Nat}

theorem CodeAt.tail {prog : List Insn} (h : CodeAt prog a (insn :: rest)) :
    CodeAt prog (a + 1) rest := by
  intro q hq
  have := h (q + 1) (by simpa using hq)
  rwa [List.getD_cons_succ, Nat.add_comm q, ← Nat.add_assoc] at this

variable (h : CodeAt m.prog a (insn :: rest))

include h

theorem CodeAt.step_eq (hpc : m.pc = a) : m.skbStep L fns = m.skbExec L fns insn := by
  obtain ⟨hfetch, hlt⟩ := h 0 (Nat.zero_lt_succ _)
  rw [Nat.add_zero] at hfetch hlt
  have hinsn : fetch m.prog m.pc = insn := by
    rw [hpc]
    exact hfetch
  unfold skbStep step
  rw [if_neg (by omega), hinsn]
  rfl

theorem CodeAt.next (hpc : m.pc = a) (hexec : m.skbExec L fns insn = .next m') :
    Reaches L fns m m' :=
  .single ((h.step_eq hpc).trans hexec)

theorem CodeAt.advance (hpc : m.pc = a) (hexec : m.skbExec L fns insn = .next m')
    (hprog : m'.prog = m.prog) (hpc' : m'.pc = m.pc + 1) :
    Reaches L fns m m' ∧ CodeAt m'.prog (a + 1) rest ∧ m'.pc = (a + 1 : Nat) := by
  refine ⟨h.next hpc hexec, ?_, ?_⟩
  · rw [hprog]
    exact h.tail
  · rw [hpc', hpc]
    push_cast
    rfl

theorem CodeAt.setReg (hpc : m.pc = a) {v : BitVec 64}
    (hexec : m.skbExec L fns insn = .next ((m.setReg r v).advance 0)) :
    Reaches L fns m ((m.setReg r v).advance 0) ∧
      CodeAt ((m.setReg r v).advance 0).prog (a + 1) rest ∧
      ((m.setReg r v).advance 0).pc = (a + 1 : Nat) :=
  h.advance hpc hexec rfl (by
    change m.pc + 0 + 1 = m.pc + 1
    omega)

omit h

theorem CodeAt.exit (h : CodeAt m.prog a (exitInsn :: rest)) (hpc : m.pc = a) {v : BitVec 32}
    (hv : m.regs 0 = v.setWidth 64) : Returns L fns m v := by
  have hexec : m.skbExec L fns exitInsn = .ret ((m.regs 0).setWidth 32) m :=
    rfl
  have hlow : (v.setWidth 64).setWidth 32 = v := by simp
  rw [hv, hlow] at hexec
  exact .of_step ((h.step_eq hpc).trans hexec)

end Code

/-- A field at an offset of a memory of `size` bytes. -/
structure FieldAt (size : Nat) (mem : Nat → BitVec 8) (off : BitVec 16)
    (bytes : Nat) (v : BitVec 64) : Prop where
  small : off.toNat < 2 ^ 15
  inside : off.toNat + bytes ≤ size
  value : loadLE mem off.toNat bytes = v

/-- The packet is what the context and the packet data are. -/
structure SkbAt (o : SkbOffsets) (L : Layout W n) (skb : Skb) (heap : Heap W) : Prop where
  len : FieldAt n heap.ctx o.len 4 (skb.len.setWidth 64)
  mark : FieldAt n heap.ctx o.mark 4 (skb.mark.setWidth 64)
  hash : FieldAt n heap.ctx o.hash 4 (skb.hash.setWidth 64)
  pktType : FieldAt n heap.ctx o.pktType 1 (skb.pktType.setWidth 64)
  queueMapping : FieldAt n heap.ctx o.queueMapping 2 (skb.queueMapping.setWidth 64)
  vlanTci : FieldAt n heap.ctx o.vlanTci 2 (skb.vlanTci.setWidth 64)
  vlanProto : FieldAt n heap.ctx o.vlanProto 2 ((bswap16 skb.vlanProto).setWidth 64)
  protocol : FieldAt n heap.ctx o.protocol 2 ((bswap16 skb.protocol).setWidth 64)
  dev : match skb.dev with
    | none => FieldAt n heap.ctx o.dev 8 0
    | some d =>
      ∃ v, FieldAt n heap.ctx o.dev 8 (L.val v) ∧
          FieldAt (W.size n (.val v)) (heap.val v) o.netIfindex 4 (d.ifindex.setWidth 64) ∧
          FieldAt (W.size n (.val v)) (heap.val v) o.netType 2 (d.type.setWidth 64)
  pkt : ∀ off size, size ≠ .dw → heap.pkt off size = (skb.pkt off size).map (BitVec.setWidth 64)

variable {off : BitVec 16} {bytes : Nat} {v : BitVec 64}

theorem signExtend_of_small (h : off.toNat < 2 ^ 15) :
    off.signExtend 64 = BitVec.ofNat 64 off.toNat := by
  rw [BitVec.signExtend_eq_setWidth_of_msb_false]
  · apply BitVec.eq_of_toNat_eq
    rw [BitVec.toNat_setWidth, BitVec.toNat_ofNat]
  · rw [BitVec.msb_eq_decide]
    simpa using h

end LinuxKernel.Bpf
