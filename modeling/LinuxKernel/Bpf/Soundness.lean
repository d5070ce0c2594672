import LinuxKernel.Bpf.InsnSound
import LinuxKernel.Bpf.SkFilter

/-!
# Soundness of the verifier

The states that `do_check()` looked at describe every machine that a run of an accepted program
goes through, as long as the run executes no 32-bit move of a negative immediate.  After such a
move, a comparison with the same immediate takes a branch that `check_cond_jmp_op()` took for dead
and never checked.
-/

namespace LinuxKernel.Bpf

open Lib Machine

section Soundness

variable {W : World} {cfg : Cfg} {L : Layout W cfg.ops.ctxSize} {m m' : Machine W}
  {insns : List Insn}

theorem ProgOk.mono {isMap isMap' : BitVec 64 → Prop} (h : ProgOk isMap insns)
    (himp : ∀ a, isMap a → isMap' a) : ProgOk isMap' insns := by
  refine ⟨h.ldx, h.stx, ?_⟩
  intro i hi
  obtain ⟨hnext, hsrc⟩ := h.ldImm i hi
  exact ⟨hnext, hsrc.imp_right (himp _)⟩

/-- What pruning keeps holds for a state of the trace. -/
theorem Covered.exists_state {eq : VState → VState → Bool} {P : VState → Prop} {trace : Trace}
    {i : Int} {st : VState} (h : Covered (Covers eq) trace (i, st))
    (hmono : ∀ old, eq old st = true → P st → P old) (hst : P st) : ∃ s, (i, s) ∈ trace ∧ P s := by
  obtain ⟨⟨j, s⟩, hmem, hidx, heq⟩ := h
  simp only at hidx heq
  subst hidx
  rcases heq with rfl | heq
  · exact ⟨s, hmem, hst⟩
  · exact ⟨s, hmem, hmono s heq hst⟩

/-- A state that may be pruned describes only machines of the explored one. -/
theorem statesEqual_describes {old cur : VState} (h : statesEqual old cur = true) {ctxSize : Nat}
    (L : Layout W ctxSize) : {m : Machine W | Describes L cur m} ⊆ {m | Describes L old m} :=
  fun _ hm => hm.of_statesEqual h

theorem Loaded.explored (h : Loaded cfg L m.prog) (hpc : m.pc = 0)
    (hd : Describes L initRegState m) : Explored cfg L m := by
  obtain ⟨gpl, leaks, fds, prog, trace, hcheck⟩ := h
  obtain ⟨-, htrace⟩ := bpfCheckWith_ok hcheck
  obtain ⟨s, hmem, hs⟩ := Covered.exists_state (P := (Describes L · m)) htrace.start
    (fun _ => .of_statesEqual) hd
  exact ⟨gpl, leaks, fds, prog, trace, s, hcheck, hpc ▸ hmem, hs⟩

theorem explored_init (h : Loaded cfg L insns) (heap : Heap W) (regs : Nat → BitVec 64)
    (stack : Nat → BitVec 8) : Explored cfg L (init L insns heap regs stack) := by
  refine Loaded.explored h rfl (describes_iff.mpr ?_)
  exact tracks_initRegState ⟨rfl, rfl⟩ ⟨rfl, rfl⟩ rfl rfl

/-- A state that knows nothing about R1 stands for the one on entry. -/
theorem statesEqual_describes_init :
    Describes (skLayout true) (initRegState.setReg 1 (initRegState.regs 0)) (skInit true []) := by
  have hequal : statesEqual (initRegState.setReg 1 (initRegState.regs 0)) initRegState = true := by
    decide +kernel
  refine statesEqual_describes hequal (skLayout true) ?_
  exact describes_iff.mpr (tracks_initRegState ⟨rfl, rfl⟩ ⟨rfl, rfl⟩ rfl rfl)

theorem Explored.perturb (h : Explored cfg L m) (heap : Heap W) :
    Explored cfg L { m with heap := heap } := by
  obtain ⟨gpl, leaks, fds, prog, trace, s, hcheck, hmem, hd⟩ := h
  refine ⟨gpl, leaks, fds, prog, trace, s, hcheck, hmem, describes_iff.mpr ?_⟩
  exact (describes_iff.mp hd).congr rfl rfl rfl rfl rfl rfl

theorem step_eq_exec (hin : InProg m.prog m.pc) (env : Env W cfg.ops) (arrays : ProgArrays W) :
    m.step L env arrays = ({ m with heap := env.perturb m.heap } : Machine W).exec L env arrays
        m.insn := by
  unfold step
  rw [if_neg]
  · rfl
  · rintro (hlt | hle)
    · exact absurd hin.1 (by omega)
    · exact absurd hin.2 (by omega)

variable (hmap : cfg.map = L.mapOf)

include hmap

theorem Explored.insnChecked (h : Explored cfg L m) :
    InProg m.prog m.pc ∧
      ∃ next, InsnChecked cfg L next m ∧
        ∀ i st, (i, st) ∈ next.targets → ∀ m' : Machine W,
          m'.prog = m.prog → m'.pc = i → Describes L st m' →
          Explored cfg L m' := by
  obtain ⟨gpl, leaks, fds, prog, trace, s, hcheck, hmem, hd⟩ := h
  obtain ⟨hprog, htrace⟩ := bpfCheckWith_ok hcheck
  obtain ⟨hin, ⟨next, mark⟩, hinsn⟩ := htrace.checked _ hmem
  have hprog' : ProgOk (fun a => ∃ k, a = L.map k) m.prog := by
    refine hprog.mono fun a hfd => ?_
    simp only [Layout.mapGet, ok_iff] at hfd
    obtain ⟨-, k, -, rfl⟩ := hfd
    exact ⟨k, rfl⟩
  have hok : InsnChecked (cfg.withRights gpl leaks) L next m :=
    checkInsn_ok hmap hprog' hin hd hinsn
  refine ⟨hin, next, { hok with }, ?_⟩
  intro i st htarget m' hp hpc hst
  have hcov := htrace.closed.closed hmem ⟨next, mark, hinsn, htarget⟩
  obtain ⟨s', hmem', hs'⟩ := Covered.exists_state (P := (Describes L · m')) hcov
    (fun _ => .of_statesEqual) hst
  refine ⟨gpl, leaks, fds, prog, trace, s', ?_, ?_, hs'⟩
  · rw [hp]
    exact hcheck
  · rw [hpc]
    exact hmem'

theorem Explored.step (h : Explored cfg L m) (hneg : m.insn.isNegMov32 = false)
    (hstep : m.Steps cfg L m') : Explored cfg L m' := by
  obtain ⟨env, arrays, harr, hstep⟩ := hstep
  obtain ⟨hin, next, hok, hnext⟩ := (h.perturb (env.perturb m.heap)).insnChecked hmap
  have ho := hok.outcome hneg env arrays
  rw [step_eq_exec (m := m) hin] at hstep
  change OutcomeOk L arrays next _ (exec L env arrays _ m.insn) at ho
  rw [hstep] at ho
  rcases ho with ⟨st, htarget, hd, hp⟩ | ⟨⟨k, i, hk⟩, hd, hpc⟩
  · exact hnext _ st htarget m' hp rfl hd
  · exact (harr k i m'.prog hk).explored hpc hd

theorem Explored.stepSafe (h : Explored cfg L m) : StepSafe cfg L m := by
  obtain ⟨hin, next, hok, -⟩ := h.insnChecked hmap
  refine ⟨hin, hok.reads, hok.accesses, hok.call, ?_, ?_⟩
  · intro env arrays
    obtain ⟨-, next', hok', -⟩ := (h.perturb (env.perturb m.heap)).insnChecked hmap
    rw [step_eq_exec hin]
    exact hok'.notWild env arrays
  · intro hjmp m' hstep
    refine h.step hmap ?_ hstep
    by_contra hneg
    simp only [Insn.isNegMov32, Bool.not_eq_false, Bool.and_eq_true, decide_eq_true_eq] at hneg
    simp [Insn.isCondJmp, hneg.1] at hjmp

/-- A run without 32-bit moves of negative immediates stays within what `do_check()` explored. -/
theorem explored_of_runs (h : Explored cfg L m)
    (hrun : Runs cfg L (fun m => m.insn.isNegMov32 = false) m m') : Explored cfg L m' := by
  induction hrun with
  | refl => exact h
  | tail _ hstep ih => exact ih.step hmap hstep.1 hstep.2

/-- Soundness: in every run of an accepted program without 32-bit moves of negative immediates each
step is safe, and each state is described by one that `do_check()` explored. -/
theorem verifier_sound {insns : List Insn} (hload : Loaded cfg L insns)
    (heap : Heap W) (regs : Nat → BitVec 64) (stack : Nat → BitVec 8)
    (hrun : Runs cfg L (fun m => m.insn.isNegMov32 = false)
        (init L insns heap regs stack) m) : Explored cfg L m ∧ StepSafe cfg L m := by
  have hexp := explored_of_runs hmap (explored_init hload heap regs stack) hrun
  exact ⟨hexp, hexp.stepSafe hmap⟩

end Soundness

/-- A filter that keeps `skb->len` on its stack. -/
def stackProg : List Insn :=
  [⟨.ldx .mem .w, 2, 1, 0, 0⟩,
    ⟨.stx .mem .dw, 10, 2, -8, 0⟩,
    ⟨.ldx .mem .dw, 0, 10, -8, 0⟩,
    ⟨.jmp .exit .k, 0, 0, 0, 0⟩]

theorem verifier_sound_stackProg :
    ∃ m, Runs (skFilterCfg false) (skLayout false)
          (fun m => m.insn.isNegMov32 = false) (skInit false stackProg) m ∧
        m.pc = 2 ∧
        Explored (skFilterCfg false) (skLayout false) m ∧
        StepSafe (skFilterCfg false) (skLayout false) m := by
  have hload : Loaded (skFilterCfg false) (skLayout false) stackProg :=
    .of_check true false noFds stackProg (by decide +kernel)
  obtain ⟨m, hrun, hpc⟩ : ∃ m, Runs (skFilterCfg false) (skLayout false)
          (fun m => m.insn.isNegMov32 = false) (skInit false stackProg) m ∧
        m.pc = 2 :=
    ⟨_, skStep (skStep .refl rfl rfl) rfl rfl, rfl⟩
  exact ⟨m, hrun, hpc, verifier_sound rfl hload zeroHeap (fun _ => 0) (fun _ => 0) hrun⟩

/-- A filter that moves -1 to the lower half of a register and jumps unless the register is -1; the
target is never checked. -/
def negMov32Prog : List Insn :=
  [⟨.alu .mov .k, 2, 0, 0, -1⟩,
    ⟨.jmp .jne .k, 2, 0, 2, -1⟩,
    ⟨.alu64 .mov .k, 0, 0, 0, 0⟩,
    ⟨.jmp .exit .k, 0, 0, 0, 0⟩,
    ⟨.ldx .mem .dw, 0, 9, 0, 0⟩,
    ⟨.jmp .exit .k, 0, 0, 0, 0⟩]

/-- Accepted for an unprivileged user, it reads a register that was never written and loads from
that address. -/
theorem verifier_unsound_negMov32 :
    Loaded (skFilterCfg false) (skLayout false) negMov32Prog ∧
      ∃ m, Runs (skFilterCfg false) (skLayout false) (fun _ => True) (skInit false negMov32Prog) m ∧
          m.pc = 4 ∧ 9 ∈ m.insn.reads (skFilterCfg false).ops ∧
          m.regW 9 = false ∧
          m.step (skLayout false) (quietEnv _) noProgs = .wild ∧
          ¬ StepSafe (skFilterCfg false) (skLayout false) m := by
  refine ⟨.of_check true false noFds negMov32Prog (by decide +kernel), _,
    skStep (skStep .refl trivial rfl) trivial rfl, rfl, ?_, rfl, rfl, ?_⟩
  · exact List.mem_singleton.mpr rfl
  · intro hsafe
    exact hsafe.notWild (quietEnv _) noProgs rfl

end LinuxKernel.Bpf
