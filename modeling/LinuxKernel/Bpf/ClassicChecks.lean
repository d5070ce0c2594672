import LinuxKernel.Bpf.Classic
import Mathlib.Data.List.Sort

/-!
# What `bpf_check_classic()` establishes

An accepted filter has allowed opcodes only, its jumps lead forward inside the filter, its last
instruction returns, and each instruction has a set of memory cells that every way to it has
stored to, with the cell that it loads.
-/

namespace LinuxKernel.Bpf

open Lib List

/-- The allowed opcodes, one constructor for each kind of instruction. -/
inductive AllowedCode : Code → Prop
  | alu {op : AluOp} {src : Src} (h : op.classic src = true) : AllowedCode (.alu op src)
  | ldAbs {size : Size} (h : size ≠ .dw) : AllowedCode (.ld .abs size)
  | ldInd {size : Size} (h : size ≠ .dw) : AllowedCode (.ld .ind size)
  | ldLen : AllowedCode (.ld .len .w)
  | ldImm : AllowedCode (.ld .imm .w)
  | ldMem : AllowedCode (.ld .mem .w)
  | ldxLen : AllowedCode (.ldx .len .w)
  | ldxMsh : AllowedCode (.ldx .msh .b)
  | ldxImm : AllowedCode (.ldx .imm .w)
  | ldxMem : AllowedCode (.ldx .mem .w)
  | st : AllowedCode (.st .imm .w)
  | stx : AllowedCode (.stx .imm .w)
  | tax : AllowedCode (.alu64 .add .k)
  | txa : AllowedCode (.alu64 .neg .k)
  | retK : AllowedCode (.ret 0)
  | retA : AllowedCode (.ret 2)
  | ja : AllowedCode (.jmp .ja .k)
  | cond {op : JmpOp} {src : Src} (h : op.classic = true) : AllowedCode (.jmp op src)

variable {op : JmpOp} {pc flen t : Nat} {rest filter : List SockFilter} {f : SockFilter}
  {code : Option Code} {s s' : MemChecks} {a b c memvalid : BitVec 16} {target : Nat}

theorem JmpOp.classic_cases (h : op.classic = true) :
    op = .jeq ∨ op = .jgt ∨ op = .jge ∨ op = .jset := by
  cases op <;> simp [JmpOp.classic] at h ⊢

theorem allowedCode_of_chk {code : Code} (h : chkCodeAllowed code = true) : AllowedCode code := by
  unfold chkCodeAllowed at h
  split at h
  case h_1 => exact .alu h
  case h_2 => exact .ldAbs (of_decide_eq_true h)
  case h_3 => exact .ldInd (of_decide_eq_true h)
  case h_4 => exact .ldLen
  case h_5 => exact .ldImm
  case h_6 => exact .ldMem
  case h_7 => exact .ldxLen
  case h_8 => exact .ldxMsh
  case h_9 => exact .ldxImm
  case h_10 => exact .ldxMem
  case h_11 => exact .st
  case h_12 => exact .stx
  case h_13 => exact .tax
  case h_14 => exact .txa
  case h_15 =>
    rcases of_decide_eq_true h with rfl | rfl
    · exact .retK
    · exact .retA
  case h_16 => exact .ja
  case h_17 => exact .cond h
  case h_18 => cases h

/-- What the loop of `bpf_check_classic()` knows about one instruction. -/
def InsnOk (flen pc : Nat) (f : SockFilter) : Prop :=
  ∃ code, f.op = some code ∧ AllowedCode code ∧ checkSpecial flen pc f code = .ok ()

theorem checkClassicLoop_ok (h : checkClassicLoop flen pc rest = .ok ()) :
    ∀ j < rest.length, InsnOk flen (pc + j) (rest.getD j default) := by
  induction rest generalizing pc with
  | nil =>
    intro j hj
    cases hj
  | cons f rest ih =>
    unfold checkClassicLoop at h
    split at h
    · cases h
    next code hop =>
    simp only [ok_iff, Bool.not_eq_false] at h
    obtain ⟨_, hallowed, _, hspecial, hrest⟩ := h
    intro j hj
    cases j with
    | zero => exact ⟨code, hop, allowedCode_of_chk hallowed, hspecial⟩
    | succ j =>
      have := ih hrest j (by simpa using hj)
      rwa [Nat.add_right_comm, Nat.add_assoc] at this

def MemSub (a b : BitVec 16) : Prop :=
  ∀ i, a.getLsbD i = true → b.getLsbD i = true

theorem MemSub.refl (a : BitVec 16) : MemSub a a :=
  fun _ h => h

theorem MemSub.trans (h1 : MemSub a b) (h2 : MemSub b c) : MemSub a c :=
  fun i h => h2 i (h1 i h)

theorem MemSub.and_left : MemSub (a &&& b) a := by
  intro i h
  rw [BitVec.getLsbD_and, Bool.and_eq_true] at h
  exact h.1

theorem MemSub.and_right : MemSub (a &&& b) b := by
  intro i h
  rw [BitVec.getLsbD_and, Bool.and_eq_true] at h
  exact h.2

def classicSuccs (pc : Nat) (f : SockFilter) : Option Code → List Nat
  | some (.ret _) => []
  | some (.jmp .ja .k) => [pc + 1 + f.k.toNat]
  | some (.jmp op _) =>
    if op.classic then [pc + 1 + f.jt.toNat, pc + 1 + f.jf.toNat]
    else [pc + 1]
  | _ => [pc + 1]

theorem classicSuccs_cond (hop : op.classic = true) (pc : Nat) (f : SockFilter) (src : Src) :
    classicSuccs pc f (some (.jmp op src)) = [pc + 1 + f.jt.toNat, pc + 1 + f.jf.toNat] := by
  rcases JmpOp.classic_cases hop with rfl | rfl | rfl | rfl <;> rfl

/-- The cells that are written after an instruction. -/
def memOut (valid : BitVec 16) (f : SockFilter) : Option Code → BitVec 16
  | some (.st .imm .w) | some (.stx .imm .w) => valid ||| memBit f.k
  | _ => valid

def loadsMem (code : Option Code) : Prop :=
  code = some (.ld .mem .w) ∨ code = some (.ldx .mem .w)

/-- The sets of written cells fit the instruction at `pc`. -/
structure MemOk (valid : Nat → BitVec 16) (pc : Nat) (f : SockFilter) : Prop where
  load : loadsMem f.op → valid pc &&& memBit f.k ≠ 0
  succ : ∀ t ∈ classicSuccs pc f f.op, MemSub (valid t) (memOut (valid pc) f f.op)

theorem MemChecks.jump_masks (t : Nat) : MemSub ((s.jump target memvalid).masks t) (s.masks t) := by
  unfold MemChecks.jump
  dsimp only
  split
  · exact .and_left
  · exact .refl _

theorem MemChecks.jump_target : MemSub ((s.jump target memvalid).masks target) memvalid := by
  unfold MemChecks.jump
  dsimp only
  rw [if_pos rfl]
  exact .and_right

/-- Masks only shrink, a load is from a written cell, and successors are reached with written
cells. -/
theorem checkMem_ok (h : checkMem pc f s memvalid code = .ok s') :
    (∀ t, MemSub (s'.masks t) (s.masks t)) ∧
      (loadsMem code → memvalid &&& memBit f.k ≠ 0) ∧
      ∀ t ∈ classicSuccs pc f code, (t = pc + 1 ∧ MemSub s'.memvalid (memOut memvalid f code)) ∨
          MemSub (s'.masks t) (memOut memvalid f code) := by
  have plain : ∀ code, classicSuccs pc f code = [pc + 1] →
        memOut memvalid f code = memvalid →
        ∀ t ∈ classicSuccs pc f code, (t = pc + 1 ∧ MemSub memvalid (memOut memvalid f code)) ∨
            MemSub (s.masks t) (memOut memvalid f code) := by
    intro code hsucc hout t ht
    rw [hsucc, mem_singleton] at ht
    rw [hout]
    exact .inl ⟨ht, .refl _⟩
  unfold checkMem at h
  split at h
  case h_1 | h_2 =>
    cases h
    refine ⟨fun t => .refl _, by simp [loadsMem], ?_⟩
    intro t ht
    exact .inl ⟨mem_singleton.mp ht, .refl _⟩
  case h_3 | h_4 =>
    simp only [ok_iff] at h
    obtain ⟨-, hne, rfl⟩ := h
    exact ⟨fun t => .refl _, fun _ => hne, plain _ rfl rfl⟩
  case h_5 =>
    cases h
    refine ⟨s.jump_masks, by simp [loadsMem], ?_⟩
    intro t ht
    obtain rfl := mem_singleton.mp ht
    exact .inr s.jump_target
  case h_6 op src hja =>
    split at h
    · next hop =>
      cases h
      refine ⟨?_, by simp [loadsMem], ?_⟩
      · intro t
        exact ((s.jump _ _).jump_masks t).trans (s.jump_masks t)
      intro t ht
      rw [classicSuccs_cond hop, mem_cons, mem_singleton] at ht
      rcases ht with rfl | rfl
      · exact .inr (((s.jump _ _).jump_masks _).trans s.jump_target)
      · exact .inr (s.jump _ _).jump_target
    next hop =>
    cases h
    refine ⟨fun t => .refl _, by simp [loadsMem], plain _ ?_ rfl⟩
    unfold classicSuccs
    split
    · next heq => cases heq
    · next heq =>
      cases heq
      exact absurd rfl (hja · rfl)
    · next heq =>
      cases heq
      rw [if_neg hop]
    · rfl
  case h_7 hst hstx hld hldx hja hjmp =>
    cases h
    refine ⟨fun t => .refl _, ?_, ?_⟩
    · rintro (hload | hload)
      · exact absurd hload hld
      · exact absurd hload hldx
    intro t ht
    have hout : memOut memvalid f code = memvalid := by
      unfold memOut
      split
      · exact absurd rfl hst
      · exact absurd rfl hstx
      · rfl
    have hmem : t = pc + 1 := by
      unfold classicSuccs at ht
      split at ht
      · cases ht
      · exact absurd rfl hja
      · next op src _ => exact absurd rfl (hjmp op src)
      · exact mem_singleton.mp ht
    rw [hout]
    exact .inl ⟨hmem, .refl _⟩

theorem lt_of_mem_classicSuccs (h : t ∈ classicSuccs pc f code) : pc < t := by
  unfold classicSuccs at h
  split at h <;> try split at h
  all_goals simp only [mem_cons, not_mem_nil, or_false] at h <;> omega

theorem checkMemLoop_ok (h : checkMemLoop pc rest s = .ok ()) :
    ∃ valid : Nat → BitVec 16, valid pc = s.memvalid &&& s.masks pc ∧
        (∀ t, pc < t → MemSub (valid t) (s.masks t)) ∧
        ∀ j < rest.length, MemOk valid (pc + j) (rest.getD j default) := by
  induction rest generalizing pc s with
  | nil =>
    refine ⟨fun t =>
      if t = pc then s.memvalid &&& s.masks pc else s.masks t,
      if_pos rfl, ?_, ?_⟩
    · intro t ht
      dsimp only
      rw [if_neg (by omega)]
      exact .refl _
    · intro j hj
      cases hj
  | cons f rest ih =>
    unfold checkMemLoop at h
    rw [bind_eq_ok] at h
    obtain ⟨s', hmem, hrest⟩ := h
    obtain ⟨hmasks, hload, hsucc⟩ := checkMem_ok hmem
    obtain ⟨valid', hpc, hsub, hok⟩ := ih hrest
    -- the set at `pc` does not change any more: all jumps lead forward
    have hlater : ∀ t, pc < t →
          (if t = pc then s.memvalid &&& s.masks pc else valid' t) = valid' t :=
      fun t ht => if_neg (by omega)
    refine ⟨fun t =>
      if t = pc then s.memvalid &&& s.masks pc else valid' t,
      if_pos rfl, ?_, ?_⟩
    · intro t ht
      dsimp only
      rw [hlater t ht]
      rcases Nat.lt_or_ge (pc + 1) t with hlt | hge
      · exact (hsub t hlt).trans (hmasks t)
      · obtain rfl : t = pc + 1 := by omega
        rw [hpc]
        exact (MemSub.and_right).trans (hmasks _)
    intro j hj
    cases j with
    | zero =>
      refine ⟨?_, ?_⟩
      · intro hl
        rw [if_pos (Nat.add_zero pc)]
        exact hload hl
      intro t ht
      rw [hlater t (lt_of_mem_classicSuccs ht), if_pos (Nat.add_zero pc)]
      rcases hsucc t ht with ⟨rfl, hsub'⟩ | hsub'
      · rw [hpc]
        exact (MemSub.and_left).trans hsub'
      rcases Nat.lt_or_ge (pc + 1) t with hlt | hge
      · exact (hsub t hlt).trans hsub'
      have hlt := lt_of_mem_classicSuccs ht
      obtain rfl : t = pc + 1 := by
        simp only [Nat.add_zero] at hlt
        omega
      rw [hpc]
      exact (MemSub.and_right).trans hsub'
    | succ j =>
      have hj' := hok j (by simpa using hj)
      rw [Nat.add_right_comm, Nat.add_assoc] at hj'
      refine ⟨?_, ?_⟩
      · intro hl
        rw [hlater _ (by omega)]
        exact hj'.load hl
      · intro t ht
        have hlt := lt_of_mem_classicSuccs ht
        rw [hlater t (by omega), hlater _ (by omega)]
        exact hj'.succ t ht

structure FilterOk (filter : List SockFilter) : Prop where
  pos : 0 < filter.length
  max : filter.length ≤ bpfMaxInsns
  insn : ∀ i < filter.length, InsnOk filter.length i (filter.getD i default)
  last : ∃ r, (filter.getD (filter.length - 1) default).op = some (.ret r)
  mem : ∃ valid : Nat → BitVec 16,
      valid 0 = 0 ∧ ∀ i < filter.length, MemOk valid i (filter.getD i default)

theorem bpfCheckClassic_ok (h : bpfCheckClassic filter = .ok ()) : FilterOk filter := by
  unfold bpfCheckClassic at h
  simp only [ok_iff, not_or, not_lt] at h
  obtain ⟨_, ⟨hpos, hmax⟩, _, hloop, hlast⟩ := h
  obtain ⟨r, hret, hmem⟩ :
      ∃ r, (filter.getD (filter.length - 1) default).op = some (.ret r) ∧
        checkLoadAndStores filter = .ok () := by
    split at hlast
    · next hop => exact ⟨_, hop, hlast⟩
    · next hop => exact ⟨_, hop, hlast⟩
    · cases hlast
  obtain ⟨valid, hstart, -, hvalid⟩ := checkMemLoop_ok hmem
  refine ⟨by omega, hmax, ?_, ⟨r, hret⟩, valid, ?_, ?_⟩
  · intro i hi
    have := checkClassicLoop_ok hloop i hi
    rwa [Nat.zero_add] at this
  · rw [hstart]
    exact BitVec.zero_and
  · intro i hi
    have := hvalid i hi
    rwa [Nat.zero_add] at this

end LinuxKernel.Bpf
