import LinuxKernel.Bpf.Safety

/-!
# Runs along the control flow graph

A step of a machine follows an edge of the graph that `check_cfg()` has walked, except for a
tail call, which leaves the program.  The graph has no cycle, so no instruction of an
accepted program is executed twice before a tail call.
-/

namespace LinuxKernel.Bpf

open Lib Relation Machine

variable {W : World} {ops : VerifierOps} {L : Layout W ops.ctxSize} {env : Env W ops}
  {arrays : ProgArrays W} {m m' : Machine W} {insn : Insn} {isMap : BitVec 64 → Prop} {size : Size}

/-- The call of `bpf_tail_call`. -/
def Insn.isTailCall (insn : Insn) : Bool :=
  match insn.code with
  | .jmp .call .k => insn.imm.toNat = funcTailCall
  | .jmp .call .x => true
  | _ => false

/-- An outcome that goes on in the same program, at a distance. -/
def Outcome.Moves (m : Machine W) (d : Int) (o : Outcome W) : Prop :=
  ∀ m', o = .next m' → m'.prog = m.prog ∧ m'.pc = m.pc + d + 1

theorem finishAlu_moves (r : AluRes) : (m.finishAlu insn r).Moves m 0 := by
  intro m' h
  cases r <;> cases h
  exact ⟨rfl, rfl⟩

theorem loadPkt_moves (off : BitVec 32) (size : Size) : (m.loadPkt L off size).Moves m 0 := by
  intro m' h
  unfold loadPkt at h
  split at h
  · split at h <;> cases h
    exact ⟨rfl, rfl⟩
  · cases h

theorem doStore_moves (v : BitVec 64) : (m.doStore L insn size v).Moves m 0 := by
  intro m' h
  unfold doStore store at h
  split at h
  · next m'' hs =>
    cases h
    split at hs <;> cases hs <;> exact ⟨rfl, rfl⟩
  · cases h

theorem doXadd_moves : (m.doXadd L insn size).Moves m 0 := by
  intro m' h
  unfold doXadd at h
  split at h
  · exact doStore_moves _ m' h
  · cases h

theorem call_moves : (m.call L env insn).Moves m 0 := by
  intro m' h
  unfold call at h
  split at h <;> cases h
  exact ⟨rfl, rfl⟩

/-- A step that is no tail call follows an edge, or loads a 64-bit immediate and skips its second
half. -/
theorem exec_flows {t : Nat} (hpc : m.pc = t) (htail : m.insn.isTailCall = false)
    (h : m.exec L env arrays m.insn = .next m') :
    m'.prog = m.prog ∧ ((fetch m.prog t).code = .ld .imm .dw ∧ m'.pc = t + 1 + 1 ∨
      ∃ e, edge m.prog t e = some m'.pc) := by
  have hfall : ∀ {o : Outcome W}, fallEdge m.prog t = some ((t : Int) + 1) → o.Moves m 0 →
      o = .next m' → m'.prog = m.prog ∧ ((fetch m.prog t).code = .ld .imm .dw ∧
        m'.pc = t + 1 + 1 ∨ ∃ e, edge m.prog t e = some m'.pc) := by
    intro o hedge hmoves ho
    obtain ⟨hprog, hnext⟩ := hmoves m' ho
    refine ⟨hprog, .inr ⟨.fallthrough, ?_⟩⟩
    rw [hnext, hpc, Int.add_zero]
    exact hedge
  unfold insn at h htail
  rw [hpc] at h htail
  unfold exec at h
  split at h
  · exact hfall (by simp [fallEdge, *]) (finishAlu_moves _) h
  · exact hfall (by simp [fallEdge, *]) (finishAlu_moves _) h
  · next hcode =>
    cases h
    exact ⟨rfl, .inl ⟨hcode, congrArg (· + 1 + 1) hpc⟩⟩
  · cases h
  · exact hfall (by simp [fallEdge, *]) (loadPkt_moves _ _) h
  · cases h
  · exact hfall (by simp [fallEdge, *]) (loadPkt_moves _ _) h
  · cases h
  · refine hfall (by simp [fallEdge, *]) (fun m' h => ?_) h
    split at h <;> cases h
    exact ⟨rfl, rfl⟩
  · cases h
  · exact hfall (by simp [fallEdge, *]) (doStore_moves _) h
  · cases h
  · exact hfall (by simp [fallEdge, *]) (doStore_moves _) h
  · exact hfall (by simp [fallEdge, *]) (doXadd_moves) h
  · exact hfall (by simp [fallEdge, *]) (doXadd_moves) h
  · cases h
  · next hcode =>
    rw [if_neg (by simpa [Insn.isTailCall, hcode] using htail)] at h
    exact hfall (by simp [fallEdge, *]) call_moves h
  · next hcode => simp [Insn.isTailCall, hcode] at htail
  · next hcode =>
    cases h
    refine ⟨rfl, .inr ⟨.fallthrough, ?_⟩⟩
    simp [edge, fallEdge, hcode, advance, hpc]
  · cases h
  · next op src _ _ _ _ hcode =>
    have hcond : jmpCond op (m.regs (fetch m.prog t).dstReg) (m.operand (fetch m.prog t) src) =
        none ∨ fallEdge m.prog t = some ((t : Int) + 1) ∧
          branchEdge m.prog t = some (t + (fetch m.prog t).off.toInt + 1) := by
      cases op <;> simp [jmpCond, fallEdge, branchEdge, hcode]
    rcases hcond with hnone | ⟨hf, hb⟩
    · rw [hnone] at h
      cases h
    · unfold condJmp at h
      split at h <;> cases h
      · exact ⟨rfl, .inr ⟨.branch, hb.trans (by rw [← hpc]; rfl)⟩⟩
      · exact ⟨rfl, .inr ⟨.fallthrough, hf.trans (by rw [← hpc]; simp [advance])⟩⟩
  · cases h

/-- One step that is not a tail call. -/
def Machine.Proceeds (L : Layout W ops.ctxSize) (m m' : Machine W) : Prop :=
  ∃ (env : Env W ops) (arrays : ProgArrays W),
    m.insn.isTailCall = false ∧ m.step L env arrays = .next m'

/-- The machine went from `t` to `w` along the control flow graph. -/
structure Went (m m' : Machine W) (t w : Nat) : Prop where
  prog : m'.prog = m.prog
  pc : m.pc = t
  lt : t < m.prog.length
  pc' : m'.pc = w
  flows : TransGen (Flows m.prog) t w

theorem Machine.Proceeds.went (hcfg : CfgOk m.prog) (hprog : ProgOk isMap m.prog)
    (h : m.Proceeds L m') : ∃ t w, Went m m' t w := by
  obtain ⟨env, arrays, htail, hstep⟩ := h
  unfold step at hstep
  split at hstep
  · cases hstep
  next hin =>
  obtain ⟨t, ht⟩ : ∃ t : Nat, m.pc = t := ⟨m.pc.toNat, by omega⟩
  have hlt : t < m.prog.length := by omega
  obtain ⟨hsame, ⟨hcode, hpc⟩ | ⟨e, he⟩⟩ :=
    exec_flows (m := { m with heap := env.perturb m.heap }) ht htail hstep
  · have hfirst : Flows m.prog t (t + 1) := ⟨.fallthrough, by simp [edge, fallEdge, hcode]⟩
    have hsecond : (fetch m.prog (t + 1 : Nat)).code = .ld .imm .w := (hprog.ldImm t hcode).1
    refine ⟨t, t + 1 + 1, hsame, ht, hlt, hpc, .tail (.single hfirst) ⟨.fallthrough, ?_⟩⟩
    simp only [edge, fallEdge, hsecond]
    rfl
  · have hin' := hcfg.inProg t hlt e _ he
    obtain ⟨w, hw⟩ : ∃ w : Nat, m'.pc = w := ⟨m'.pc.toNat, by have := hin'.1; omega⟩
    exact ⟨t, w, hsame, ht, hlt, hw, .single ⟨e, hw ▸ he⟩⟩

theorem went_of_run (hcfg : CfgOk m.prog) (hprog : ProgOk isMap m.prog)
    (h : TransGen (Machine.Proceeds L) m m') : ∃ t w, Went m m' t w := by
  induction h with
  | single h => exact h.went hcfg hprog
  | tail _ hlast ih =>
    obtain ⟨t, w, hrun⟩ := ih
    obtain ⟨w', u, hstep⟩ := hlast.went (hrun.prog ▸ hcfg) (hrun.prog ▸ hprog)
    obtain rfl : w = w' := Int.ofNat.inj (hrun.pc'.symm.trans hstep.pc)
    refine ⟨t, u, hstep.prog.trans hrun.prog, hrun.pc, hrun.lt, hstep.pc', hrun.flows.trans ?_⟩
    exact hrun.prog ▸ hstep.flows

/-- `check_cfg()` ends, with `-EINVAL` or with a graph without edges out of the program, cycles and
unreached instructions, and accepts every such graph.  A run without tail calls never comes back to
an instruction. -/
theorem checkCfg_exact {insns : List Insn} (h : insns ≠ []) :
    (∀ err, checkCfg insns = .error err → err = .einval) ∧
      ((∃ explored, checkCfg insns = .ok explored) ↔ CfgOk insns) ∧
      ∀ mapGet prog explored, replaceMapFdWithMapPtr mapGet [] prog = .ok insns →
        checkCfg insns = .ok explored → ∀ (W : World) (ops : VerifierOps)
          (L : Layout W ops.ctxSize) (m m' : Machine W), m.prog = insns →
            TransGen (Machine.Proceeds L) m m' → m'.pc ≠ m.pc := by
  have hens := checkCfg_ensures (List.length_pos_of_ne_nil h)
  refine ⟨fun err herr => (hens.of_error herr).1, ⟨fun ⟨_, hok⟩ => hens.of_ok hok, fun hcfg => ?_⟩,
    ?_⟩
  · cases hcheck : checkCfg insns with
    | error err => exact absurd hcfg (hens.of_error hcheck).2
    | ok explored => exact ⟨explored, rfl⟩
  · rintro mapGet prog explored hrep hok W ops L m m' rfl hrun heq
    have hcfg := hens.of_ok hok
    obtain ⟨t, w, hwent⟩ := went_of_run hcfg (replaced_of_ok hrep).progOk hrun
    obtain rfl : w = t := Int.ofNat.inj (hwent.pc'.symm.trans (heq.trans hwent.pc))
    exact hcfg.acyclic w hwent.lt hwent.flows

/-- A conditional jump over an instruction. -/
theorem checkCfg_exact_forward :
    CfgOk [{ code := .alu64 .mov .k }, { code := .jmp .jeq .k, off := 1 },
      { code := .alu64 .mov .k }, { code := .jmp .exit .k }] :=
  (checkCfg_exact (List.cons_ne_nil _ _)).2.1.mp ⟨_, rfl⟩

end LinuxKernel.Bpf
