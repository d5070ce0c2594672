import LinuxKernel.Bpf.ClassicRun

/-!
# Runs of accepted classic filters

Every jump of an accepted filter leads forward, so that a run executes each instruction
at most once and comes to its end.  What is loaded from the scratch memory has been
stored before, on the way that the run took.
-/

namespace LinuxKernel.Bpf

open Lib ClassicState

variable {filter : List SockFilter} {skb : Skb} {anc : Nat → AncData} {s s' s₀ : ClassicState}
  {v : Option (BitVec 32)} {flen pc n : Nat}

/-- The instruction stores to cell `k`. -/
def storesMem (f : SockFilter) (k : BitVec 32) : Prop :=
  (f.op = some (.st .imm .w) ∨ f.op = some (.stx .imm .w)) ∧ f.k = k

/-- A run from `s₀` to `s` has stored to cell `k`. -/
def StoredBefore (filter : List SockFilter) (skb : Skb) (anc : Nat → AncData)
    (s₀ s : ClassicState) (k : BitVec 32) : Prop :=
  ∃ s₁ s₂, ClassicState.Visits filter skb anc s₀ s₁ ∧ storesMem (s₁.insn filter) k ∧
    ClassicState.Next filter skb anc s₁ s₂ ∧ ClassicState.Visits filter skb anc s₂ s

/-- A load of what is not there, or a division by zero. -/
def Aborts (filter : List SockFilter) (skb : Skb) (anc : Nat → AncData) (s : ClassicState) : Prop :=
  (∃ size, (s.insn filter).op = some (.ld .abs size) ∧ (ancOf (s.insn filter).k).elim
      (skb.pkt (s.insn filter).k size) (ancLoad skb (anc s.pc) s.a s.x) = none) ∨
    (∃ size, (s.insn filter).op = some (.ld .ind size) ∧
      skb.pkt (s.x + (s.insn filter).k) size = none) ∨
    (s.insn filter).op = some (.ldx .msh .b) ∧ skb.pkt (s.insn filter).k .b = none ∨
    s.x = 0 ∧ ((s.insn filter).op = some (.alu .div .x) ∨ (s.insn filter).op = some (.alu .mod .x))

theorem ClassicState.loadA_ret {w : BitVec 32} (h : s.loadA v = .ret w) : v = none ∧ w = 0 := by
  cases v with
  | none =>
    cases h
    exact ⟨rfl, rfl⟩
  | some v => cases h

theorem ClassicState.loadX_ret {w : BitVec 32} (h : s.loadX v = .ret w) : v = none ∧ w = 0 := by
  cases v with
  | none =>
    cases h
    exact ⟨rfl, rfl⟩
  | some v => cases h

/-- Only a division by zero has no result; by a constant it is refused. -/
theorem classicAlu_eq_none {op : AluOp} {src : Src} {f : SockFilter}
    (hclassic : op.classic src = true) (hspecial : checkSpecial flen pc f (.alu op src) = .ok ())
    (h : classicAlu op s.a (s.operand f src) = none) :
    s.x = 0 ∧ src = .x ∧ (op = .div ∨ op = .mod) := by
  cases op with
  | div | mod =>
    simp only [classicAlu] at h
    split at h
    · cases src with
      | x => exact ⟨‹_›, rfl, by simp⟩
      | k => exact absurd ‹_› ((rejectIf_eq_ok _ _ _).mp hspecial)
    · cases h
  | mov | arsh | end_ | opE0 | opF0 => cases src <;> cases hclassic
  | _ => cases h

theorem FilterOk.ret_cases (hf : FilterOk filter) (hin : s.pc < filter.length) {v : BitVec 32}
    (h : s.step filter skb anc = .ret v) :
    (∃ r, (s.insn filter).op = some (.ret r)) ∨ v = 0 ∧ Aborts filter skb anc s := by
  obtain ⟨code, hop, hallowed, hspecial⟩ := hf.insn s.pc hin
  change (s.insn filter).op = some code at hop
  rw [step_eq hop] at h
  unfold Aborts
  rw [hop]
  cases hallowed with
  | retK | retA => exact .inl ⟨_, rfl⟩
  | @alu op src hclassic =>
    obtain ⟨hnone, rfl⟩ := loadA_ret h
    obtain ⟨hx, rfl, rfl | rfl⟩ := classicAlu_eq_none hclassic hspecial hnone
    · exact .inr ⟨rfl, .inr (.inr (.inr ⟨hx, .inl rfl⟩))⟩
    · exact .inr ⟨rfl, .inr (.inr (.inr ⟨hx, .inr rfl⟩))⟩
  | ldAbs =>
    unfold exec at h
    cases hanc : ancOf (s.insn filter).k with
    | none | some _ =>
      rw [hanc] at h
      exact .inr ⟨(loadA_ret h).2, .inl ⟨_, rfl, (loadA_ret h).1⟩⟩
  | ldInd => exact .inr ⟨(loadA_ret h).2, .inr (.inl ⟨_, rfl, (loadA_ret h).1⟩)⟩
  | ldxMsh =>
    obtain ⟨hnone, rfl⟩ := loadX_ret h
    exact .inr ⟨rfl, .inr (.inr (.inl ⟨rfl, Option.map_eq_none_iff.mp hnone⟩))⟩
  | cond hclassic =>
    rw [exec_cond hclassic] at h
    split at h <;> cases h
  | _ => cases h

/-- As many steps as instructions are left of the filter are enough. -/
theorem FilterOk.run_returns (hf : FilterOk filter) (skb : Skb) (anc : Nat → AncData)
    (hin : s.pc < filter.length) (hn : filter.length ≤ s.pc + n) :
    ∃ v, s.run filter skb anc n = some v := by
  induction n generalizing s with
  | zero => omega
  | succ n ih =>
    unfold run
    cases hstep : s.step filter skb anc with
    | ret v => exact ⟨v, rfl⟩
    | next s' =>
      have hmem := hf.next_mem hin hstep
      have hlt := lt_of_mem_classicSuccs hmem
      exact ih (hf.succ_lt hin hmem) (by omega)

theorem FilterOk.stored {valid : Nat → BitVec 16} (hf : FilterOk filter) (hstart : valid 0 = 0)
    (hmem : ∀ i < filter.length, MemOk valid i (filter.getD i default)) (hpc : s₀.pc = 0)
    (h : ClassicState.Visits filter skb anc s₀ s) {k : BitVec 32}
    (hk : (valid s.pc).getLsbD k.toNat = true) : StoredBefore filter skb anc s₀ s k := by
  induction h with
  | refl => simp [hpc, hstart] at hk
  | @tail s s' hvisit hnext ih =>
    have hin : s.pc < filter.length := hf.visits_inside (hpc ▸ hf.pos) hvisit
    have hout := (hmem s.pc hin).succ _ (hf.next_mem hin hnext) _ hk
    by_cases hold : (valid s.pc).getLsbD k.toNat = true
    · obtain ⟨s₁, s₂, hbefore, hstores, hstep, hafter⟩ := ih hold
      exact ⟨s₁, s₂, hbefore, hstores, hstep, hafter.tail hnext⟩
    refine ⟨s, s', hvisit, ?_, hnext, .refl⟩
    have hbit : (memBit (s.insn filter).k).getLsbD k.toNat = true → (s.insn filter).k = k := by
      intro hbit
      rw [memBit_eq, BitVec.getLsbD_twoPow, Bool.and_eq_true] at hbit
      exact BitVec.eq_of_toNat_eq (of_decide_eq_true hbit.2)
    change (memOut (valid s.pc) (s.insn filter) (s.insn filter).op).getLsbD k.toNat = true at hout
    unfold memOut at hout
    split at hout
    · rw [BitVec.getLsbD_or, Bool.or_eq_true] at hout
      exact ⟨.inl ‹_›, hbit (hout.resolve_left hold)⟩
    · rw [BitVec.getLsbD_or, Bool.or_eq_true] at hout
      exact ⟨.inr ‹_›, hbit (hout.resolve_left hold)⟩
    · exact absurd hout hold

/-- What a run from `s₀` does: it stays inside of the filter, returns after at most as many
instructions as the filter has, at a `BPF_RET` or with 0 where a load or a division cannot be done,
and loads what it stored. -/
structure SafeRun (filter : List SockFilter) (skb : Skb) (anc : Nat → AncData)
    (s₀ : ClassicState) : Prop where
  inside : ∀ s, ClassicState.Visits filter skb anc s₀ s → s.pc < filter.length
  returns : ∃ v, s₀.run filter skb anc filter.length = some v
  last : ∀ s v, ClassicState.Visits filter skb anc s₀ s → s.step filter skb anc = .ret v →
    (∃ r, (s.insn filter).op = some (.ret r)) ∨ v = 0 ∧ Aborts filter skb anc s
  loads : ∀ s, ClassicState.Visits filter skb anc s₀ s → loadsMem (s.insn filter).op →
    (s.insn filter).k.toNat < bpfMemwords ∧ StoredBefore filter skb anc s₀ s (s.insn filter).k

/-- Every run of an accepted filter on any packet is safe. -/
theorem bpfCheckClassic_safe (h : bpfCheckClassic filter = .ok ()) (skb : Skb)
    (anc : Nat → AncData) (mem : Nat → BitVec 32) : SafeRun filter skb anc (.init mem) := by
  have hf := bpfCheckClassic_ok h
  obtain ⟨valid, hstart, hmem⟩ := hf.mem
  have hinside : ∀ s, ClassicState.Visits filter skb anc (.init mem) s → s.pc < filter.length :=
    fun s hvisit => hf.visits_inside hf.pos hvisit
  refine ⟨hinside, hf.run_returns skb anc hf.pos (Nat.le_add_left _ _), ?_, ?_⟩
  · intro s v hvisit hret
    exact hf.ret_cases (hinside s hvisit) hret
  intro s hvisit hload
  refine ⟨?_, hf.stored hstart hmem rfl hvisit ?_⟩
  · obtain ⟨code, hop, -, hspecial⟩ := hf.insn s.pc (hinside s hvisit)
    change (s.insn filter).op = some code at hop
    rw [hop] at hload
    obtain hload | hload := hload
    all_goals
      cases hload
      exact not_le.mp ((rejectIf_eq_ok _ _ _).mp hspecial)
  · have hvalid := (hmem s.pc (hinside s hvisit)).load hload
    by_contra hnot
    rw [memBit_eq, BitVec.and_twoPow] at hvalid
    exact hvalid (if_neg hnot)

/-- The length is stored, compared and loaded again. -/
def lengthFilter : List SockFilter :=
  [bpfStmt (.ld .len .w) 0, bpfStmt (.st .imm .w) 3,
    { bpfStmt (.jmp .jgt .k) 64 with jf := 1 }, bpfStmt (.ld .mem .w) 3, bpfStmt (.ret 2) 0]

theorem bpfCheckClassic_safe_length :
    SafeRun lengthFilter emptySkb (fun _ _ _ _ => 0) (.init fun _ => 0) :=
  bpfCheckClassic_safe (by decide) _ _ _

/-- A run that ends at a load. -/
theorem ifindexFilter_ends_at_load :
    bpfCheckClassic (ifindexFilter 0) = .ok () ∧
      ∃ s, ClassicState.Visits (ifindexFilter 0) emptySkb (fun _ _ _ _ => 0) (.init fun _ => 0) s ∧
        s.step (ifindexFilter 0) emptySkb (fun _ _ _ _ => 0) = .ret 0 ∧
        ∀ r, (s.insn (ifindexFilter 0)).op ≠ some (.ret r) := by
  refine ⟨by decide, _, .single rfl, rfl, ?_⟩
  intro r hr
  cases hr

end LinuxKernel.Bpf
