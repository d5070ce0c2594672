import LinuxKernel.Bpf.Soundness

/-!
# Programs that may not leak pointers

With `allow_ptr_leaks` off, two runs of an accepted program in two systems that differ in
addresses only should return the same value and leave the same contents behind.

Five places let addresses through: a move of a register to itself turns a pointer into an unknown
value, `check_xadd()` looks neither at its source register nor at the slot it overwrites,
`check_ld_abs()` does not look at the index register, and `states_equal()` lets an unknown value
stand for a pointer.  A 32-bit move of a negative immediate makes unchecked code run.  Runs that
keep clear of them agree.
-/

namespace LinuxKernel.Bpf

open Lib

section NonLeak

variable {W : World}

/-- The verifier's view of a program without that right. -/
def unprivCfg (ops : VerifierOps) (progType : ProgType) (gpl : Bool)
    (L : Layout W ops.ctxSize) : Cfg where
  ops := ops
  progType := progType
  gplCompatible := gpl
  allowPtrLeaks := false
  map := L.mapOf

/-- A program accepted in two systems, in the first also when an unknown value does not cover a
pointer. -/
def LoadedTwice (ops : VerifierOps) (progType : ProgType)
    (L₁ L₂ : Layout W ops.ctxSize) (p₁ p₂ : List Insn) : Prop :=
  ∃ gpl fds prog, (∃ trace,
        bpfCheck (unprivCfg ops progType gpl L₁) (L₁.mapGet fds) prog = .ok (p₁, trace)) ∧
      (∃ trace, bpfCheck (unprivCfg ops progType gpl L₂) (L₂.mapGet fds) prog = .ok (p₂, trace)) ∧
      ∃ trace, bpfCheckWith (unprivCfg ops progType gpl L₁) statesEqualNoPtr
          (L₁.mapGet fds) prog = .ok (p₁, trace)

/-- `n` steps; what surrounds the program may change with each. -/
def Machine.run {ops : VerifierOps} (L : Layout W ops.ctxSize)
    (env : Nat → Env W ops) (arrays : Nat → ProgArrays W) (m : Machine W) :
    Nat → Outcome W
  | 0 => .next m
  | n + 1 =>
    match Machine.run L env arrays m n with
    | .next m' => m'.step L (env n) (arrays n)
    | o => o

/-- Two runs return the same value and leave the same in the context and in all map values. -/
def Outcome.Agree : Outcome W → Outcome W → Prop
  | .next m₁, .next m₂ => m₁.heap = m₂.heap
  | .ret v₁ m₁, .ret v₂ m₂ => v₁ = v₂ ∧ m₁.heap = m₂.heap
  | .defaultLabel, .defaultLabel => True
  | .divByZero, .divByZero => True
  | _, _ => False

variable {cfg : Cfg} {trace : Trace}

variable {ops : VerifierOps} {progType : ProgType}
  {L₁ L₂ : Layout W ops.ctxSize} {m₁ m₂ : Machine W}

/-- Two machines at a point explored without the pruning rule, in a state that tracks them. -/
def ExploredTwice (ops : VerifierOps) (progType : ProgType)
    (L₁ L₂ : Layout W ops.ctxSize) (m₁ m₂ : Machine W) : Prop :=
  Aligned m₁ m₂ ∧ ProgRel L₁ L₂ m₁.prog m₂.prog ∧
    ∃ gpl fds prog trace s, bpfCheckWith (unprivCfg ops progType gpl L₁) statesEqualNoPtr
          (L₁.mapGet fds) prog = .ok (m₁.prog, trace) ∧
        (m₁.pc, s) ∈ trace ∧ Tracks L₁ L₂ s m₁ m₂

theorem bpfCheckWith_replaced {eq : VState → VState → Bool}
    {mapGet : BitVec 32 → Except Errno (BitVec 64)} {prog insns : List Insn}
    (h : bpfCheckWith cfg eq mapGet prog = .ok (insns, trace)) : Replaced mapGet prog insns := by
  obtain ⟨marked, h⟩ := bpfCheckWith_marked h
  exact replaced_of_ok (bpfCheckMarked_ok h).1

theorem LoadedTwice.explored (h : LoadedTwice ops progType L₁ L₂ m₁.prog m₂.prog)
    (hal : Aligned m₁ m₂) (hpc : m₁.pc = 0) (hd : Tracks L₁ L₂ initRegState m₁ m₂) :
    ExploredTwice ops progType L₁ L₂ m₁ m₂ := by
  obtain ⟨gpl, fds, prog, ⟨-, -⟩, ⟨trace₂, h2⟩, trace, hstrict⟩ := h
  obtain ⟨-, htrace⟩ := bpfCheckWith_ok hstrict
  obtain ⟨s, hmem, hs⟩ := Covered.exists_state (P := (Tracks L₁ L₂ · m₁ m₂)) htrace.start
    (fun _ heq h => h.of_statesEqualNoPtr heq) hd
  have hp := (bpfCheckWith_replaced hstrict).progRel (bpfCheckWith_replaced h2)
  exact ⟨hal, hp, gpl, fds, prog, trace, s, hstrict, hpc ▸ hmem, hs⟩

theorem ExploredTwice.step (h : ExploredTwice ops progType L₁ L₂ m₁ m₂) (hfree : LeakFree L₁ m₁ m₂)
    (env : Env W ops) {arrays₁ arrays₂ : ProgArrays W}
    (harr : ArraysRel (LoadedTwice ops progType L₁ L₂) arrays₁ arrays₂) :
    (m₁.step L₁ env arrays₁).Agree (m₂.step L₂ env arrays₂) ∧
      ∀ m₁' m₂', m₁.step L₁ env arrays₁ = .next m₁' →
        m₂.step L₂ env arrays₂ = .next m₂' →
        ExploredTwice ops progType L₁ L₂ m₁' m₂' := by
  obtain ⟨hal, hp, gpl, fds, prog, trace, s, hstrict, hmem, hd⟩ := h
  obtain ⟨hprog, htrace⟩ := bpfCheckWith_ok hstrict
  obtain ⟨hin, ⟨next, mark⟩, hinsn⟩ := htrace.checked _ hmem
  have hin2 : InProg m₂.prog m₂.pc := by
    unfold InProg at *
    rw [← hal.pc, hp.length]
    exact hin
  have hstep1 := @step_eq_exec W (unprivCfg ops progType gpl L₁) L₁ m₁ hin env arrays₁
  have hstep2 := @step_eq_exec W (unprivCfg ops progType gpl L₁) L₂ m₂ hin2 env arrays₂
  have ho : @OutcomeRel W (unprivCfg ops progType gpl L₁) L₁ L₂
        (LoadedTwice ops progType L₁ L₂) next m₁ m₂
        (m₁.step L₁ env arrays₁) (m₂.step L₂ env arrays₂) := by
    rw [show m₁.step L₁ env arrays₁ = _ from hstep1, show m₂.step L₂ env arrays₂ = _ from hstep2]
    have hrel : InsnRel (unprivCfg ops progType gpl L₁) L₁ L₂ next
          { m₁ with heap := env.perturb m₁.heap } { m₂ with heap := env.perturb m₂.heap } :=
      checkInsn_rel (.inl rfl) (hd.congr rfl rfl rfl rfl rfl rfl)
        ⟨hal.pc, hal.tailCallCnt, by rw [hal.heap]⟩ rfl hprog hp hin hinsn
    exact hrel.outcome { hfree with } _ arrays₁ arrays₂ harr env
  constructor
  · generalize m₁.step L₁ env arrays₁ = o₁, m₂.step L₂ env arrays₂ = o₂ at ho
    cases o₁ with
    | next m₁' =>
      cases o₂ with
      | next m₂' => exact ho.1.heap
      | _ => exact ho
    | _ => cases o₂ <;> exact ho
  intro m₁' m₂' h1 h2
  rw [h1, h2] at ho
  obtain ⟨hal', ⟨st, htarget, hst, hp1, hp2⟩ | ⟨hP, hst, hpc⟩⟩ := ho
  · have hcov := htrace.closed.closed hmem ⟨next, mark, hinsn, htarget⟩
    obtain ⟨s', hmem', hs'⟩ := Covered.exists_state (P := (Tracks L₁ L₂ · m₁' m₂')) hcov
      (fun _ heq h => h.of_statesEqualNoPtr heq) hst
    refine ⟨hal', ?_, gpl, fds, prog, trace, s', ?_, hmem', hs'⟩
    · rw [hp1, hp2]
      exact hp
    · rw [hp1]
      exact hstrict
  · exact hP.explored hal' hpc hst

/-- Runs of every length agree, and while they go on stay at explored points. -/
theorem run_agree (h : ExploredTwice ops progType L₁ L₂ m₁ m₂) (env : Nat → Env W ops)
    {arrays₁ arrays₂ : Nat → ProgArrays W}
    (harr : ∀ t, ArraysRel (LoadedTwice ops progType L₁ L₂) (arrays₁ t) (arrays₂ t)) (n : Nat)
    (hfree : ∀ t < n, ∀ a b, m₁.run L₁ env arrays₁ t = .next a →
        m₂.run L₂ env arrays₂ t = .next b → LeakFree L₁ a b) :
    (m₁.run L₁ env arrays₁ n).Agree (m₂.run L₂ env arrays₂ n) ∧
      ∀ a b, m₁.run L₁ env arrays₁ n = .next a →
        m₂.run L₂ env arrays₂ n = .next b →
        ExploredTwice ops progType L₁ L₂ a b := by
  induction n with
  | zero =>
    refine ⟨h.1.heap, ?_⟩
    rintro a b ⟨⟩ ⟨⟩
    exact h
  | succ n ih =>
    obtain ⟨hagree, hexp⟩ := ih (fun t ht => hfree t (by omega))
    simp only [Machine.run]
    cases hr1 : m₁.run L₁ env arrays₁ n with
    | next a =>
      cases hr2 : m₂.run L₂ env arrays₂ n with
      | next b =>
        exact (hexp a b hr1 hr2).step (hfree n (by omega) a b hr1 hr2) (env n) (harr n)
      | _ =>
        rw [hr1, hr2] at hagree
        exact hagree.elim
    | _ =>
      rw [hr1] at hagree
      cases hr2 : m₂.run L₂ env arrays₂ n <;> rw [hr2] at hagree <;> first
          | exact hagree.elim
          | exact ⟨hagree, by simp⟩

/-- Non-leakage: two runs of a program accepted without the right to leak pointers, in systems that
differ only in addresses, return and leave behind the same, if no step lets an address into a
number. -/
theorem no_pointer_leak {p₁ p₂ : List Insn} (hload : LoadedTwice ops progType L₁ L₂ p₁ p₂)
    (heap : Heap W) (regs₁ regs₂ : Nat → BitVec 64) (stack₁ stack₂ : Nat → BitVec 8)
    (env : Nat → Env W ops) (arrays₁ arrays₂ : Nat → ProgArrays W)
    (harr : ∀ t, ArraysRel (LoadedTwice ops progType L₁ L₂) (arrays₁ t) (arrays₂ t)) (n : Nat)
    (hfree : ∀ t < n, ∀ a b,
        (Machine.init L₁ p₁ heap regs₁ stack₁).run L₁ env arrays₁ t = .next a →
        (Machine.init L₂ p₂ heap regs₂ stack₂).run L₂ env arrays₂ t = .next b →
        LeakFree L₁ a b) :
    ((Machine.init L₁ p₁ heap regs₁ stack₁).run L₁ env arrays₁ n).Agree
      ((Machine.init L₂ p₂ heap regs₂ stack₂).run L₂ env arrays₂ n) := by
  have hstart : ExploredTwice ops progType L₁ L₂ (.init L₁ p₁ heap regs₁ stack₁)
        (.init L₂ p₂ heap regs₂ stack₂) :=
    LoadedTwice.explored hload ⟨rfl, rfl, rfl⟩ rfl
      (tracks_initRegState ⟨rfl, rfl⟩ ⟨rfl, rfl⟩ rfl rfl)
  exact (run_agree hstart env harr n hfree).1

theorem LeakFree.of_code {ctxSize : Nat} {L : Layout W ctxSize}
    (hmov : ∀ src, m₁.insn.code ≠ .alu .mov src) (hmov64 : m₁.insn.code ≠ .alu64 .mov .x)
    (hxadd : ∀ size, m₁.insn.code ≠ .stx .xadd size) (hind : ∀ size, m₁.insn.code ≠ .ld .ind size) :
    LeakFree L m₁ m₂ := by
  constructor
  · simp [Insn.isNegMov32, hmov .k]
  · rintro (h | h)
    · exact absurd h hmov64
    · exact absurd h (hmov .x)
  · intro size h
    exact absurd h (hxadd size)
  · intro size h
    exact absurd h (hind size)

/-- A program was accepted, as it stands, when it may not leak pointers. -/
def AcceptedUnpriv (ops : VerifierOps) (progType : ProgType)
    (L : Layout W ops.ctxSize) (fds : BitVec 32 → Except Errno W.MapId)
    (prog : List Insn) : Prop :=
  ∃ trace, bpfCheck (unprivCfg ops progType true L) (L.mapGet fds) prog = .ok (prog, trace)

end NonLeak

/-- A second layout for socket filters, with other addresses. -/
def skLayoutHigh : Layout noMaps (skFilterOps false).ctxSize :=
  flatLayout sizeofSkBuff 0x40000 0x50000 sizeofSkBuff_lt (by decide)

/-- A socket filter on an empty packet, in quiet surroundings. -/
def skRun (L : Layout noMaps (skFilterOps false).ctxSize) (prog : List Insn)
    (n : Nat) : Outcome noMaps :=
  (Machine.init L prog zeroHeap (fun _ => 0) (fun _ => 0)).run L
    (fun _ => quietEnv _) (fun _ => noProgs) n

theorem no_pointer_leak_stackProg : (skRun (skLayout false) stackProg 4).Agree
      (skRun skLayoutHigh stackProg 4) := by
  have hload : LoadedTwice (skFilterOps false) .socketFilter (skLayout false)
        skLayoutHigh stackProg stackProg :=
    ⟨true, noFds, stackProg, ok_of_toOption_map_fst (by decide +kernel),
      ok_of_toOption_map_fst (by decide +kernel),
      ok_of_toOption_map_fst (by decide +kernel)⟩
  refine no_pointer_leak hload zeroHeap (fun _ => 0) (fun _ => 0) (fun _ => 0)
    (fun _ => 0) (fun _ => quietEnv _) (fun _ => noProgs) (fun _ => noProgs)
    (fun _ k => k.elim) 4 ?_
  intro t ht a b ha _
  obtain rfl | rfl | rfl | rfl : t = 0 ∨ t = 1 ∨ t = 2 ∨ t = 3 := by omega
  all_goals
    cases ha
    apply LeakFree.of_code <;> (intros; intro hcode; cases hcode)

/-- A filter that moves the frame pointer through a move to itself. -/
def selfMovProg : List Insn :=
  [⟨.alu64 .mov .x, 6, 10, 0, 0⟩,
    ⟨.alu64 .mov .x, 6, 6, 0, 0⟩,
    ⟨.alu64 .mov .x, 0, 6, 0, 0⟩,
    ⟨.jmp .exit .k, 0, 0, 0, 0⟩]

/-- A filter that adds the frame pointer to `skb->cb[0]`. -/
def xaddProg : List Insn :=
  [⟨.alu64 .mov .k, 0, 0, 0, 0⟩,
    ⟨.stx .xadd .w, 1, 10, 48, 0⟩,
    ⟨.jmp .exit .k, 0, 0, 0, 0⟩]

/-- A filter with two paths to its exit: R0 is `skb->len` on the one checked first, the frame
pointer on the other. -/
def pruneProg : List Insn :=
  [⟨.ldx .mem .w, 2, 1, 0, 0⟩,
    ⟨.alu64 .mov .x, 0, 2, 0, 0⟩,
    ⟨.jmp .jge .k, 2, 0, 2, 0⟩,
    ⟨.jmp .jge .k, 2, 0, 0, 0⟩,
    ⟨.jmp .exit .k, 0, 0, 0, 0⟩,
    ⟨.alu64 .mov .x, 0, 10, 0, 0⟩,
    ⟨.jmp .ja .k, 0, 0, -3, 0⟩]

/-- All three are accepted for an unprivileged user.  The second leaves the frame pointer in the
context, the others return it. -/
theorem pointer_leaked :
    (∀ prog ∈ [selfMovProg, xaddProg, pruneProg],
        AcceptedUnpriv (skFilterOps false) .socketFilter (skLayout false) noFds prog ∧
          AcceptedUnpriv (skFilterOps false) .socketFilter skLayoutHigh noFds prog) ∧
      (∃ m₁ m₂,
        skRun (skLayout false) selfMovProg 4 = .ret 0x10000 m₁ ∧
          skRun skLayoutHigh selfMovProg 4 = .ret 0x40000 m₂) ∧
      (∃ m₁ m₂,
        skRun (skLayout false) xaddProg 3 = .ret 0 m₁ ∧
          skRun skLayoutHigh xaddProg 3 = .ret 0 m₂ ∧
          m₁.heap.ctx 50 = 1 ∧ m₂.heap.ctx 50 = 4) ∧
      ∃ m₁ m₂, skRun (skLayout false) pruneProg 6 = .ret 0x10000 m₁ ∧
          skRun skLayoutHigh pruneProg 6 = .ret 0x40000 m₂ := by
  refine ⟨?_, ⟨_, _, rfl, rfl⟩, ⟨_, _, rfl, rfl, rfl, rfl⟩, ⟨_, _, rfl, rfl⟩⟩
  simp only [List.forall_mem_cons, List.not_mem_nil, false_implies, implies_true, and_true]
  refine ⟨⟨?_, ?_⟩, ⟨?_, ?_⟩, ?_, ?_⟩ <;> exact ok_of_toOption_map_fst (by decide +kernel)

end LinuxKernel.Bpf
