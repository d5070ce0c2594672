import LinuxKernel.Bpf.ClassicSim
import LinuxKernel.Bpf.ConvertCtx

/-!
# Runs of converted filters

The rest of the instructions of classic filters, one step of the classic machine as a piece of a
run of the converted filter, and whole runs.

One kind of instruction is not converted to what it means.  A load of `SKF_AD_IFINDEX` or
`SKF_AD_HATYPE` from a packet without a device should end the filter with 0.  Its code exits with
`BPF_REG_0`, which is A.
-/

namespace LinuxKernel.Bpf

open Lib List ClassicState

variable {W : World} {n len i q : Nat} {o : SkbOffsets} {L : Layout W n} {filter : List SockFilter}
  {skb : Skb} {fns : Int → AncFns} {prog b : List Insn} {heap : Heap W} {valid : Nat → BitVec 16}
  {s : ClassicState}

section Simulation

variable {m m' : Machine W}

@[simp]
theorem cmpInsn_off (f : SockFilter) (op : JmpOp) (src : Src) (off : BitVec 16) :
    (cmpInsn f op src off).off = off := by
  unfold cmpInsn
  split <;> rfl

theorem cmpPrologue_length_le (f : SockFilter) (src : Src) : (cmpPrologue f src).length ≤ 1 := by
  unfold cmpPrologue
  split <;> simp

variable {op : JmpOp} {insn : Insn} {size : Size}

theorem ClassicState.exec_cond (hop : op.classic = true) (skb : Skb) (anc : AncData)
    (s : ClassicState) (f : SockFilter) (src : Src) :
    s.exec skb anc f (.jmp op src) =
      if classicCond op s.a (s.operand f src) then
        .next { s with pc := s.pc + f.jt.toNat + 1 }
      else .next { s with pc := s.pc + f.jf.toNat + 1 } := by
  rcases JmpOp.classic_cases hop with rfl | rfl | rfl | rfl <;> rfl

variable (hc : Converted o L filter skb prog heap valid) (h : Sim o L filter prog heap valid s m)

include hc h

theorem Sim.cond {src : Src} (hop : (s.insn filter).op = some (.jmp op src))
    (hclassic : op.classic = true)
    (hspecial : checkSpecial filter.length s.pc (s.insn filter) (.jmp op src) = .ok ()) :
    Simulates o L filter fns prog heap valid m
      (if classicCond op s.a (s.operand (s.insn filter) src) then
        .next { s with pc := s.pc + (s.insn filter).jt.toNat + 1 }
      else .next { s with pc := s.pc + (s.insn filter).jf.toNat + 1 }) := by
  obtain ⟨hjt, hjf⟩ := checkSpecial_cond hclassic hspecial
  have hsucc := classicSuccs_cond hclassic s.pc (s.insn filter) src
  rw [← hop] at hsucc
  have hout : memOut (valid s.pc) (s.insn filter) (s.insn filter).op = valid s.pc := by
    rw [hop]
    rfl
  have htrue : s.pc + (s.insn filter).jt.toNat + 1 ∈
        classicSuccs s.pc (s.insn filter) (s.insn filter).op := by
    rw [hsucc, mem_cons]
    exact .inl (Nat.add_right_comm _ _ _)
  have hfalse : s.pc + (s.insn filter).jf.toNat + 1 ∈
        classicSuccs s.pc (s.insn filter) (s.insn filter).op := by
    rw [hsucc, mem_cons, mem_singleton]
    exact .inr (Nat.add_right_comm _ _ _)
  obtain ⟨b, hb, -⟩ := hc.placed.block s.pc h.inside
  have hconv : convertCondJmp (some (addrTable o filter)) filter.length s.pc
        (s.insn filter) op src = .ok b := by
    change convertInsn o _ _ s.pc (s.insn filter) = _ at hb
    rw [convertInsn, hop] at hb
    rcases JmpOp.classic_cases hclassic with rfl | rfl | rfl | rfl <;> exact hb
  obtain ⟨hcode, hlen⟩ := hc.code h hb
  have hpre := cmpPrologue_length_le (s.insn filter) src
  have hcast (j : Nat) : ((s.pc : Int) + (j : Int) + 1) = ((s.pc + j + 1 : Nat) : Int) := by
    push_cast
    rfl
  -- behind a block that ends with the comparison is the next instruction
  have hnext {insn : Insn} (hblock : b = cmpPrologue (s.insn filter) src ++ [insn]) :
      ((codeAddr o filter s.pc + (cmpPrologue (s.insn filter) src).length : Nat) : Int) + 0 + 1 =
        codeAddr o filter (s.pc + 1) := by
    rw [hblock, length_append, length_singleton] at hlen
    omega
  unfold convertCondJmp at hconv
  simp only [hcast] at hconv
  split at hconv
  · -- 'jump_false' is the next instruction
    next hjf0 =>
    simp only [ok_iff] at hconv
    obtain ⟨off, hoff, rfl⟩ := hconv
    obtain ⟨m₁, hr, hframe, ha, hx, -, hpc⟩ :=
      h.compare fns (.inl hclassic) (jmpCond_classic hclassic _ _) hcode
    cases hcond : classicCond op s.a (s.operand (s.insn filter) src) with
    | true =>
      rw [hcond] at hpc
      exact h.jump hc htrue hout hr hframe ha hx
        (hpc.trans (hc.ok.jmpOff h.inside hjt (by omega) hoff))
    | false =>
      rw [hcond] at hpc
      refine h.jump hc hfalse hout hr hframe ha hx (hpc.trans ?_)
      rw [hjf0]
      exact hnext rfl
  split at hconv
  · -- JEQ has become JNE, and 'jump_true' is the next instruction
    next hjt0 =>
    obtain ⟨hjt0, rfl⟩ := hjt0
    simp only [ok_iff] at hconv
    obtain ⟨off, hoff, rfl⟩ := hconv
    obtain ⟨m₁, hr, hframe, ha, hx, -, hpc⟩ := h.compare fns (.inr rfl) (jmpCond_jne _ _) hcode
    cases hcond : classicCond .jeq s.a (s.operand (s.insn filter) src) with
    | true =>
      rw [hcond] at hpc
      refine h.jump hc htrue hout hr hframe ha hx (hpc.trans ?_)
      rw [hjt0]
      exact hnext rfl
    | false =>
      rw [hcond] at hpc
      exact h.jump hc hfalse hout hr hframe ha hx
        (hpc.trans (hc.ok.jmpOff h.inside hjf (by omega) hoff))
  -- two instructions
  simp only [ok_iff] at hconv
  obtain ⟨off, hoff, off', hoff', rfl⟩ := hconv
  obtain ⟨m₁, hr, hframe, ha, hx, hcode1, hpc⟩ :=
    h.compare fns (.inl hclassic) (jmpCond_classic hclassic _ _) hcode
  cases hcond : classicCond op s.a (s.operand (s.insn filter) src) with
  | true =>
    rw [hcond] at hpc
    exact h.jump hc htrue hout hr hframe ha hx
      (hpc.trans (hc.ok.jmpOff h.inside hjt (by omega) hoff))
  | false =>
    rw [hcond, if_neg (by decide), Int.add_zero] at hpc
    have hja : m₁.skbExec L fns { code := .jmp .ja .k, off := off' } =
        .next (m₁.advance off'.toInt) :=
      rfl
    refine h.jump hc hfalse hout (hr.trans (hcode1.next hpc hja))
      (hframe.trans (.advance m₁ _)) ha hx ?_
    rw [Machine.advance_pc, hpc]
    exact hc.ok.jmpOff h.inside hjf (by omega) hoff'

theorem Sim.ldAbs (hop : (s.insn filter).op = some (.ld .abs size)) (hsize : size ≠ .dw)
    (hanc : ancOf (s.insn filter).k = none) :
    Simulates o L filter fns prog heap valid m (s.loadA (skb.pkt (s.insn filter).k size)) := by
  have hplain : Plain filter valid s := .of_op hop rfl rfl
  have hext : convertBpfExtensions o (s.insn filter).k = none := by
    rw [convertBpfExtensions, hanc]
  have hb : Emits o filter s [rawInsn (.ld .abs size) (s.insn filter).k] := by
    rw [Emits, convertInsn, hop]
    cases size with
    | dw => exact absurd rfl hsize
    | _ => simp only [hext]; rfl
  refine h.loadPkt hc hplain hb hsize ?_
  cases size with
  | dw => exact absurd rfl hsize
  | _ => rfl

theorem Sim.ldInd (hop : (s.insn filter).op = some (.ld .ind size)) (hsize : size ≠ .dw) :
    Simulates o L filter fns prog heap valid m
      (s.loadA (skb.pkt (s.x + (s.insn filter).k) size)) := by
  have hplain : Plain filter valid s := .of_op hop rfl rfl
  have hb : Emits o filter s [rawInsn (.ld .ind size) (s.insn filter).k] := by
    rw [Emits, convertInsn, hop]
    cases size with
    | dw => exact absurd rfl hsize
    | _ => rfl
  refine h.loadPkt hc hplain hb hsize ?_
  have hoff : ((rawInsn (.ld .ind size) (s.insn filter).k).imm64 +
          m.regs 7).setWidth 32 = s.x + (s.insn filter).k := by
    rw [BitVec.setWidth_add _ _ (by decide), setWidth_imm64, h.x, BitVec.add_comm]
    simp [rawInsn]
  rw [← hoff]
  cases size with
  | dw => exact absurd rfl hsize
  | _ => rfl

theorem Sim.ret (hb : Emits o filter s [insn, exitInsn]) {v : BitVec 32}
    (hexec : m.skbExec L fns insn = .next ((m.setReg 0 (v.setWidth 64)).advance 0)) :
    Returns L fns m v := by
  obtain ⟨hreach, hcode, hpc⟩ := (hc.code h hb).1.setReg h.pc hexec
  exact .of_reaches hreach (hcode.exit hpc (by simp))

variable (fns) in
/-- The code of an instruction does the step of the classic machine, unless it asks about a device
and there is none. -/
theorem Sim.step (hdev : ¬ DevMissing filter skb s) : Simulates o L filter fns prog heap valid m
      (s.step filter skb (ancData o filter fns)) := by
  obtain ⟨code, hop, hallowed, hspecial⟩ := hc.ok.insn s.pc h.inside
  change (s.insn filter).op = some code at hop
  change checkSpecial _ s.pc (s.insn filter) code = _ at hspecial
  rw [step_eq hop]
  have hemits (b : List Insn) (hb : convertInsn o (some (addrTable o filter)) filter.length s.pc
      (s.insn filter) = .ok b) : Emits o filter s b :=
    hb
  rw [convertInsn, hop] at hemits
  have hmem := hc.mem s.pc h.inside
  cases hallowed with
  | alu hclassic => exact h.alu hc hop hclassic hspecial
  | @ldAbs size hsize =>
    unfold exec
    cases hanc : ancOf (s.insn filter).k with
    | none => exact h.ldAbs hc hop hsize hanc
    | some anc => exact (h.ancLoad hc hop hsize hanc).1 hdev
  | ldInd hsize => exact h.ldInd hc hop hsize
  | ldLen =>
    have hb : Emits o filter s [ldxMem .w regA regCtx o.len] := hemits _ rfl
    exact h.loadA hc (.of_op hop rfl rfl) hb (h.exec_ldxCtx fns hc.skb.len)
  | ldxLen =>
    have hb : Emits o filter s [ldxMem .w regX regCtx o.len] := hemits _ rfl
    exact h.loadX hc (.of_op hop rfl rfl) hb (h.exec_ldxCtx fns hc.skb.len)
  | ldImm =>
    have hb : Emits o filter s [mov32Imm regA (s.insn filter).k] := hemits _ rfl
    exact h.loadA hc (.of_op hop rfl rfl) hb (exec_mov32Imm L fns regA _)
  | ldxImm =>
    have hb : Emits o filter s [mov32Imm regX (s.insn filter).k] := hemits _ rfl
    exact h.loadX hc (.of_op hop rfl rfl) hb (exec_mov32Imm L fns regX _)
  | ldMem =>
    have hb : Emits o filter s [ldxMem .w regA regFp (memOff (s.insn filter).k)] := hemits _ rfl
    have hk := Nat.lt_of_not_le ((rejectIf_eq_ok _ _ _).mp hspecial)
    exact h.loadA hc (.of_op hop rfl rfl) hb
      (exec_ldxMem L fns (h.load_mem hk (hmem.load (.inl hop))))
  | ldxMem =>
    have hb : Emits o filter s [ldxMem .w regX regFp (memOff (s.insn filter).k)] := hemits _ rfl
    have hk := Nat.lt_of_not_le ((rejectIf_eq_ok _ _ _).mp hspecial)
    exact h.loadX hc (.of_op hop rfl rfl) hb
      (exec_ldxMem L fns (h.load_mem hk (hmem.load (.inr hop))))
  | ldxMsh => exact h.ldxMsh hc hop
  | st =>
    have hb : Emits o filter s [stxMem .w regFp regA (memOff (s.insn filter).k)] := hemits _ rfl
    have hk := Nat.lt_of_not_le ((rejectIf_eq_ok _ _ _).mp hspecial)
    exact h.store hc hk (by rw [hop]; rfl) (by rw [hop]; rfl) hb h.a
  | stx =>
    have hb : Emits o filter s [stxMem .w regFp regX (memOff (s.insn filter).k)] := hemits _ rfl
    have hk := Nat.lt_of_not_le ((rejectIf_eq_ok _ _ _).mp hspecial)
    exact h.store hc hk (by rw [hop]; rfl) (by rw [hop]; rfl) hb h.x
  | tax =>
    have hb : Emits o filter s [mov64Reg regX regA] := hemits _ rfl
    refine h.loadX hc (.of_op hop rfl rfl) hb ?_
    rw [exec_mov64Reg, ← h.a]
    rfl
  | txa =>
    have hb : Emits o filter s [mov64Reg regA regX] := hemits _ rfl
    refine h.loadA hc (.of_op hop rfl rfl) hb ?_
    rw [exec_mov64Reg, ← h.x]
    rfl
  | retK =>
    have hb : Emits o filter s [mov32Raw .k 0 regA (s.insn filter).k, exitInsn] := hemits _ rfl
    exact h.ret hc hb (exec_mov32Imm L fns regA _)
  | retA =>
    have hb : Emits o filter s [mov32Raw .x 0 regA (s.insn filter).k, exitInsn] := hemits _ rfl
    refine h.ret hc hb ?_
    change Outcome.next ((m.setReg 0 (((m.regs 0).setWidth 32).setWidth 64)).advance 0) = _
    rw [h.a]
    simp
  | ja => exact h.ja hc hop hspecial
  | cond hclassic =>
    rw [exec_cond hclassic]
    exact h.cond hc hop hclassic hspecial

variable (fns) in
/-- A load from a missing device: the filter returns 0, its conversion A. -/
theorem Sim.step_devMissing (hdev : DevMissing filter skb s) :
    Returns L fns m s.a ∧ s.step filter skb (ancData o filter fns) = .ret 0 := by
  obtain ⟨hnone, hanc, size, hop⟩ := hdev
  obtain ⟨code, hop', hallowed, -⟩ := hc.ok.insn s.pc h.inside
  cases hop'.symm.trans hop
  have hsize : size ≠ .dw := by
    cases hallowed with
    | ldAbs hsize => exact hsize
  have hload : ∀ anc, ancOf (s.insn filter).k = some anc → Returns L fns m s.a := fun anc hanc' =>
    (h.ancLoad hc hop hsize hanc').2 ⟨hnone, hanc, size, hop⟩
  rw [ClassicState.step_eq hop]
  unfold ClassicState.exec
  rcases hanc with hanc | hanc
  all_goals
    refine ⟨hload _ hanc, ?_⟩
    rw [hanc]
    simp [Bpf.ancLoad, hnone, ClassicState.loadA]

end Simulation

section Runs

variable {anc : Nat → AncData}

/-- A step of the classic machine that does not return. -/
def ClassicState.Next (filter : List SockFilter) (skb : Skb)
    (anc : Nat → AncData) (s s' : ClassicState) : Prop :=
  s.step filter skb anc = .next s'

/-- The run from `s` comes to `s'`. -/
def ClassicState.Visits (filter : List SockFilter) (skb : Skb)
    (anc : Nat → AncData) : ClassicState → ClassicState → Prop :=
  Relation.ReflTransGen (ClassicState.Next filter skb anc)

variable {v : Option (BitVec 32)} {s' : ClassicState}

theorem ClassicState.loadA_next (h : s.loadA v = .next s') : s'.pc = s.pc + 1 := by
  cases v with
  | none => cases h
  | some v =>
    cases h
    rfl

theorem ClassicState.loadX_next (h : s.loadX v = .next s') : s'.pc = s.pc + 1 := by
  cases v with
  | none => cases h
  | some v =>
    cases h
    rfl

theorem FilterOk.next_mem (hf : FilterOk filter) (hin : s.pc < filter.length)
    (h : ClassicState.Next filter skb anc s s') :
    s'.pc ∈ classicSuccs s.pc (s.insn filter) (s.insn filter).op := by
  obtain ⟨code, hop, hallowed, -⟩ := hf.insn s.pc hin
  change (s.insn filter).op = some code at hop
  rw [ClassicState.Next, step_eq hop] at h
  rw [hop]
  cases hallowed with
  | ldAbs =>
    unfold exec at h
    cases hanc : ancOf (s.insn filter).k with
    | none | some _ =>
      rw [hanc] at h
      exact mem_singleton.mpr (loadA_next h)
  | alu | ldInd => exact mem_singleton.mpr (loadA_next h)
  | ldxMsh => exact mem_singleton.mpr (loadX_next h)
  | retK | retA => cases h
  | ja =>
    cases h
    exact mem_singleton.mpr (Nat.add_right_comm _ _ _)
  | cond hclassic =>
    rw [exec_cond hclassic] at h
    rw [classicSuccs_cond hclassic]
    split at h <;> cases h <;> simp [Nat.add_right_comm]
  | _ =>
    cases h
    exact mem_singleton_self _

theorem FilterOk.visits_inside (hf : FilterOk filter) (hin : s.pc < filter.length)
    (h : ClassicState.Visits filter skb anc s s') : s'.pc < filter.length := by
  induction h with
  | refl => exact hin
  | tail _ hnext ih => exact hf.succ_lt ih (hf.next_mem ih hnext)

/-- A state visits itself and what the next one visits. -/
theorem ClassicState.forall_visits_iff {P : ClassicState → Prop} :
    (∀ s', ClassicState.Visits filter skb anc s s' → P s') ↔
      P s ∧
        ∀ s₁, ClassicState.Next filter skb anc s s₁ →
          ∀ s', ClassicState.Visits filter skb anc s₁ s' → P s' := by
  constructor
  · intro h
    exact ⟨h s .refl, fun s₁ hnext s' hvisit => h s' (.head hnext hvisit)⟩
  · rintro ⟨hs, hrest⟩ s' hvisit
    rcases hvisit.cases_head with rfl | ⟨s₁, hnext, hvisit⟩
    · exact hs
    · exact hrest s₁ hnext s' hvisit

end Runs

variable (fns) in
/-- A run to its end.  The results agree exactly if no device is missing with A not 0. -/
theorem Sim.run {m : Machine W} (h : Sim o L filter prog heap valid s m)
    (hc : Converted o L filter skb prog heap valid) (fuel : Nat)
    (hfuel : filter.length ≤ s.pc + fuel) :
    ∃ v w, s.run filter skb (ancData o filter fns) fuel = some v ∧
        Returns L fns m w ∧
        (w = v ↔
          ∀ s', ClassicState.Visits filter skb (ancData o filter fns) s s' →
              DevMissing filter skb s' → s'.a = 0) := by
  induction fuel generalizing s m with
  | zero => exact absurd h.inside (by omega)
  | succ fuel ih =>
    rw [ClassicState.run, forall_visits_iff]
    by_cases hdev : DevMissing filter skb s
    · obtain ⟨hret, hstep⟩ := h.step_devMissing fns hc hdev
      rw [hstep]
      refine ⟨0, s.a, rfl, hret, fun ha => ⟨fun _ => ha, ?_⟩, fun ha => ha.1 hdev⟩
      intro s₁ hnext
      cases hstep.symm.trans hnext
    have hsim := h.step fns hc hdev
    cases hstep : s.step filter skb (ancData o filter fns) with
    | ret v =>
      rw [hstep] at hsim
      refine ⟨v, v, rfl, hsim, fun _ => ⟨?_, ?_⟩, fun _ => rfl⟩
      · intro hmiss
        exact absurd hmiss hdev
      · intro s₁ hnext
        cases hstep.symm.trans hnext
    | next s₁ =>
      rw [hstep] at hsim
      obtain ⟨m', hreach, hsim'⟩ := hsim
      have hlt := lt_of_mem_classicSuccs (hc.ok.next_mem h.inside hstep)
      obtain ⟨v, w, hv, hw, hiff⟩ := ih hsim' (by omega)
      refine ⟨v, w, hv, .of_reaches hreach hw, hiff.trans ?_⟩
      constructor
      · intro hall
        refine ⟨fun hmiss => absurd hmiss hdev, ?_⟩
        intro s₂ hnext
        cases hstep.symm.trans hnext
        exact hall
      · rintro ⟨-, hall⟩
        exact hall s₁ hstep

theorem Converted.start (hc : Converted o L filter skb prog heap valid) (hvalid : valid 0 = 0)
    (fns : Int → AncFns) (regs : Nat → BitVec 64) (stack : Nat → BitVec 8) (mem : Nat → BitVec 32) :
    ∃ m, Reaches L fns (Machine.skbInit L prog heap regs stack) m ∧
        Sim o L filter prog heap valid (init mem) m := by
  have hcode : CodeAt prog 0 [mov64Reg regCtx 1] := by
    intro q hq
    obtain rfl : q = 0 := Nat.lt_one_iff.mp hq
    have hpos : codeAddr o filter 0 ≤ codeAddr o filter filter.length :=
      codeAddr_mono o filter (Nat.zero_le _)
    rw [hc.placed.length]
    exact ⟨hc.placed.start, hpos⟩
  refine ⟨_, hcode.next rfl (exec_mov64Reg L fns regCtx 1), ?_⟩
  exact
    { inside := hc.ok.pos
      pc := rfl
      prog := rfl
      heap := rfl
      a := rfl
      x := rfl
      ctx := rfl
      fp := rfl
      mem := by
        intro k _ hk
        change (valid 0).getLsbD k = true at hk
        simp [hvalid] at hk }

/-- Every jump in the code of a jump leads to the code of an instruction that the classic jump may
lead to, so no offset was truncated. -/
def JumpsLand (o : SkbOffsets) (filter : List SockFilter) (prog : List Insn) : Prop :=
  ∀ i < filter.length, ∀ op src,
    (filter.getD i default).op = some (.jmp op src) →
      ∀ q, codeAddr o filter i ≤ q → q < codeAddr o filter (i + 1) →
        (fetch prog (q : Int)).isBranch = true → ∃ t ∈ classicSuccs i (filter.getD i default)
              (filter.getD i default).op,
            (fetch prog (q : Int)).target q = codeAddr o filter t

theorem convertCondJmp_branch {addrs : Option (Nat → Int)} {f : SockFilter} {op : JmpOp}
    {src : Src} (h : convertCondJmp addrs len i f op src = .ok b) (hq : q < b.length)
    (hbranch : (b.getD q default).isBranch = true) :
    q ≤ 2 ∧
      ∃ j, (j = f.jt ∨ j = f.jf) ∧
        emitJmp addrs len i (i + j.toNat + 1) q = .ok (b.getD q default).off := by
  have hpre := cmpPrologue_length_le f src
  -- the code in front of the comparison does not jump
  have hbehind (rest : List Insn)
      (hq : ((cmpPrologue f src ++ rest).getD q default).isBranch = true) :
      ∃ p, q = (cmpPrologue f src).length + p ∧
        (cmpPrologue f src ++ rest).getD q default = rest.getD p default := by
    by_cases hlt : q < (cmpPrologue f src).length
    · exfalso
      rw [getD_append _ _ _ _ hlt] at hq
      unfold cmpPrologue at hq hlt
      split at hlt
      · next htmp =>
        rw [if_pos htmp] at hq
        obtain rfl : q = 0 := Nat.lt_one_iff.mp hlt
        cases hq
      · cases hlt
    · refine ⟨q - (cmpPrologue f src).length, by omega, ?_⟩
      exact getD_append_right _ _ _ _ (by omega)
  unfold convertCondJmp at h
  split at h
  · simp only [ok_iff] at h
    obtain ⟨off, hoff, rfl⟩ := h
    obtain ⟨p, rfl, heq⟩ := hbehind _ hbranch
    rw [length_append, length_singleton] at hq
    obtain rfl : p = 0 := by omega
    rw [heq]
    exact ⟨by omega, f.jt, .inl rfl, by simpa using hoff⟩
  split at h
  · simp only [ok_iff] at h
    obtain ⟨off, hoff, rfl⟩ := h
    obtain ⟨p, rfl, heq⟩ := hbehind _ hbranch
    rw [length_append, length_singleton] at hq
    obtain rfl : p = 0 := by omega
    rw [heq]
    exact ⟨by omega, f.jf, .inr rfl, by simpa using hoff⟩
  simp only [ok_iff] at h
  obtain ⟨off, hoff, off', hoff', rfl⟩ := h
  obtain ⟨p, rfl, heq⟩ := hbehind _ hbranch
  rw [length_append, length_cons, length_singleton] at hq
  rw [heq]
  obtain rfl | rfl : p = 0 ∨ p = 1 := by omega
  · exact ⟨by omega, f.jt, .inl rfl, by simpa using hoff⟩
  · exact ⟨by omega, f.jf, .inr rfl, by simpa using hoff'⟩

theorem Placed.jumpsLand (hp : Placed o filter prog) (hf : FilterOk filter) :
    JumpsLand o filter prog := by
  intro i hi op src hop q hlo hhi hbranch
  obtain ⟨b, hb, hlen, hfetch⟩ := hp.block i hi
  obtain ⟨p, rfl⟩ := Nat.exists_eq_add_of_le hlo
  have hp : p < b.length := by omega
  rw [hfetch p hp] at hbranch ⊢
  obtain ⟨code, hop', hallowed, hspecial⟩ := hf.insn i hi
  cases hop'.symm.trans hop
  rw [hop]
  rw [convertInsn, hop] at hb
  cases hallowed with
  | ja =>
    have hk := Nat.lt_of_not_le ((rejectIf_eq_ok _ _ _).mp hspecial)
    simp only [ok_iff] at hb
    obtain ⟨off, hoff, rfl⟩ := hb
    obtain rfl : p = 0 := Nat.lt_one_iff.mp hp
    rw [target_ja hi hf.max hk] at hoff
    refine ⟨i + 1 + (filter.getD i default).k.toNat, mem_singleton_self _, ?_⟩
    rw [Nat.add_right_comm]
    exact hf.jmpOff hi (by omega) (Nat.zero_le 2) hoff
  | cond hclassic =>
    obtain ⟨hjt, hjf⟩ := checkSpecial_cond hclassic hspecial
    have hb' : convertCondJmp (some (addrTable o filter)) filter.length i
          (filter.getD i default) op src = .ok b := by
      rcases JmpOp.classic_cases hclassic with rfl | rfl | rfl | rfl <;> exact hb
    obtain ⟨hp2, j, hj, hoff⟩ := convertCondJmp_branch hb' hp hbranch
    refine ⟨i + 1 + j.toNat, ?_, ?_⟩
    · rw [classicSuccs_cond hclassic]
      rcases hj with rfl | rfl <;> simp
    · have hlt : i + j.toNat + 1 < filter.length := by
        rcases hj with rfl | rfl <;> assumption
      rw [Nat.add_right_comm]
      exact hf.jmpOff hi hlt hp2 (by push_cast; exact hoff)

theorem Placed.run (hplaced : Placed o filter prog) (hf : FilterOk filter)
    (hskb : SkbAt o L skb heap) (fns : Int → AncFns) (regs : Nat → BitVec 64)
    (stack : Nat → BitVec 8) (mem : Nat → BitVec 32) :
    ∃ v w, (init mem).run filter skb (ancData o filter fns) filter.length = some v ∧
      Returns L fns (Machine.skbInit L prog heap regs stack) w ∧
      (w = v ↔ ∀ s, ClassicState.Visits filter skb (ancData o filter fns) (init mem) s →
        DevMissing filter skb s → s.a = 0) := by
  obtain ⟨valid, hstart, hmem⟩ := hf.mem
  have hc : Converted o L filter skb prog heap valid := ⟨hf, hplaced, hskb, hmem⟩
  obtain ⟨m, hreach, hsim⟩ := hc.start hstart fns regs stack mem
  obtain ⟨v, w, hv, hw, hiff⟩ := hsim.run fns hc filter.length (Nat.le_add_left _ _)
  exact ⟨v, w, hv, .of_reaches hreach hw, hiff⟩

/-- An accepted filter is converted without truncated offsets, and the conversion runs to an end on
every packet.  It returns what the filter returns exactly if no load from a device is executed
without one and with A not 0. -/
theorem bpfMigrateFilter_returns_iff (o : SkbOffsets) {filter : List SockFilter}
    (hcheck : bpfCheckClassic filter = .ok ()) :
    ∃ prog, bpfMigrateFilter o filter = .ok prog ∧ JumpsLand o filter prog ∧
        ∀ {W : World} {n : Nat} (L : Layout W n) (skb : Skb) (heap : Heap W)
          (fns : Int → AncFns) (regs : Nat → BitVec 64)
          (stack : Nat → BitVec 8) (mem : Nat → BitVec 32),
          SkbAt o L skb heap →
            (∃ w, Returns L fns (Machine.skbInit L prog heap regs stack) w) ∧
              ∃ v, (ClassicState.init mem).run filter skb (ancData o filter fns)
                    filter.length = some v ∧
                  (Returns L fns (Machine.skbInit L prog heap regs stack) v ↔
                    ∀ s, ClassicState.Visits filter skb (ancData o filter fns)
                          (ClassicState.init mem) s →
                        DevMissing filter skb s → s.a = 0) := by
  have hf := bpfCheckClassic_ok hcheck
  obtain ⟨prog, hprog, hplaced⟩ := bpfMigrateFilter_ok (o := o) hf
  refine ⟨prog, hprog, hplaced.jumpsLand hf, ?_⟩
  intro W n L skb heap fns regs stack mem hskb
  obtain ⟨v, w, hv, hret, hiff⟩ := hplaced.run hf hskb fns regs stack mem
  refine ⟨⟨w, hret⟩, v, hv, ?_⟩
  rw [← hiff]
  constructor
  · exact hret.unique
  · rintro rfl
    exact hret

/-- The stack and a `struct sk_buff`. -/
def filterLayout : Layout noMaps 232 :=
  flatLayout 232 0x10000 0x20000 (by decide) (by decide +kernel)

/-- An empty packet without a device, such as one from a netlink socket. -/
def emptySkb : Skb where
  len := 0
  mark := 0
  hash := 0
  pktType := 0
  queueMapping := 0
  vlanTci := 0
  vlanProto := 0
  protocol := 0
  dev := none
  pkt := fun _ _ => none

theorem emptySkb_at : SkbAt skbOffsets filterLayout emptySkb zeroHeap := by
  constructor
  case pkt => exact fun _ _ _ => rfl
  all_goals exact ⟨by decide, by decide, by decide⟩

def zeroFns : Int → AncFns :=
  fun _ _ _ _ => 0

/-- The entry to a filter for the empty packet. -/
def filterInit (prog : List Insn) : Machine noMaps :=
  Machine.skbInit filterLayout prog zeroHeap (fun _ => 0) (fun _ => 0)

/-- Load a constant, then the device index, and return 0. -/
def ifindexFilter (a : BitVec 32) : List SockFilter :=
  [bpfStmt (.ld .imm .w) a, bpfStmt (.ld .abs .w) (skfAdOff + 8), bpfStmt (.ret 0) 0]

/-- The conversion of a filter that looks for the device with 0 in A is right without a device. -/
theorem bpfMigrateFilter_returns_iff_ifindex :
    bpfCheckClassic (ifindexFilter 0) = .ok () ∧
      ∃ prog, bpfMigrateFilter skbOffsets (ifindexFilter 0) = .ok prog ∧
          Returns filterLayout zeroFns (filterInit prog) 0 := by
  have hcheck : bpfCheckClassic (ifindexFilter 0) = .ok () := by decide
  obtain ⟨prog, hprog, -, hruns⟩ := bpfMigrateFilter_returns_iff skbOffsets hcheck
  obtain ⟨-, v, hv, hiff⟩ := hruns filterLayout emptySkb zeroHeap zeroFns (fun _ => 0) (fun _ => 0)
      (fun _ => 0) emptySkb_at
  refine ⟨hcheck, prog, hprog, ?_⟩
  cases hv
  refine hiff.mpr ?_
  -- A is 0 in all states of this run
  intro s hvisit _
  rcases hvisit.cases_head with rfl | ⟨s₁, hnext, hvisit⟩
  · rfl
  · cases hnext
    rcases hvisit.cases_head with rfl | ⟨s₂, hnext, -⟩
    · rfl
    · cases hnext

/-- With 5 in A the filter returns 0, but its conversion returns 5. -/
theorem bpfMigrateFilter_ifindex_returns_a :
    bpfCheckClassic (ifindexFilter 5) = .ok () ∧
      SkbAt skbOffsets filterLayout emptySkb zeroHeap ∧
      (ClassicState.init (fun _ => 0)).run (ifindexFilter 5) emptySkb
          (ancData skbOffsets (ifindexFilter 5) zeroFns) 3 = some 0 ∧
      ∃ prog, bpfMigrateFilter skbOffsets (ifindexFilter 5) = .ok prog ∧
          Returns filterLayout zeroFns (filterInit prog) 5 := by
  refine ⟨by decide, emptySkb_at, rfl, _, rfl, 5, _, rfl⟩

end LinuxKernel.Bpf
