import LinuxKernel.Bpf.CheckCfg

/-!
# What an accepted program guarantees

`replace_map_fd_with_map_ptr()` leaves only well-formed loads, stores and 64-bit immediates
(`ProgOk`).  `do_check()` stops without an error only when no branch is pending; then the
instructions, with the states it looked at them in, form a set closed under the checker's
successors up to pruning (`TraceOk`).
-/

namespace LinuxKernel.Bpf

open Lib List

/-- The instruction forms that `replace_map_fd_with_map_ptr()` lets through; it writes the pointers
`isMap` into pseudo `BPF_LD_IMM64`s. -/
structure ProgOk (isMap : BitVec 64 → Prop) (insns : List Insn) : Prop where
  ldx : ∀ i mode size, (insns.getD i default).code = .ldx mode size → mode = .mem
  stx : ∀ i mode size, (insns.getD i default).code = .stx mode size → mode = .mem ∨ mode = .xadd
  ldImm : ∀ i, (insns.getD i default).code = .ld .imm .dw →
      (insns.getD (i + 1) default).code = .ld .imm .w ∧
        ((insns.getD i default).srcReg = 0 ∨ isMap
            (ldImm64 (insns.getD i default) (insns.getD (i + 1) default)))

theorem ProgOk.nil (isMap : BitVec 64 → Prop) : ProgOk isMap [] := by
  constructor
  all_goals simp [default]

variable {isMap : BitVec 64 → Prop} {mapGet : BitVec 32 → Except Errno (BitVec 64)} {cfg : Cfg}
  {idx : Int} {insns : List Insn} {t : RegType} {n left : Nat} {s : VState} {next : Next} {i : Int}
  {mark : Option RegType} {head rest head' : List (VState × Int)} {st cur : VState}
  {explored explored' : ExploredStates} {trace out : Trace} {eq : VState → VState → Bool}
  {env : VerifierEnv} {marked prog insns' insns₁ insns₂ : List Insn}

theorem ProgOk.cons {insn : Insn} {rest : List Insn} (h : ProgOk isMap rest)
    (hldx : ∀ mode size, insn.code = .ldx mode size → mode = .mem)
    (hstx : ∀ mode size, insn.code = .stx mode size → mode = .mem ∨ mode = .xadd)
    (hld : insn.code = .ld .imm .dw →
        (rest.getD 0 default).code = .ld .imm .w ∧
          (insn.srcReg = 0 ∨ isMap (ldImm64 insn (rest.getD 0 default)))) :
    ProgOk isMap (insn :: rest) := by
  constructor
  · intro i mode size hi
    cases i with
    | zero => exact hldx mode size hi
    | succ i => exact h.ldx i mode size hi
  · intro i mode size hi
    cases i with
    | zero => exact hstx mode size hi
    | succ i => exact h.stx i mode size hi
  · intro i hi
    cases i with
    | zero => exact hld hi
    | succ i => exact h.ldImm i hi

theorem ldImm64_split (a : BitVec 64) :
    (((a >>> 32).setWidth 32 : BitVec 32) ++ (a.setWidth 32 : BitVec 32) : BitVec 64) = a := by
  apply BitVec.eq_of_getLsbD_eq
  intro i hi
  rw [BitVec.getLsbD_append]
  by_cases h : i < 32
  · simp [h]
  · have hsub : i - 32 < 32 := by omega
    have hadd : 32 + (i - 32) = i := by omega
    simp [h, hsub, hadd]

/-- What `replace_map_fd_with_map_ptr()` makes of a program. -/
inductive Replaced (mapGet : BitVec 32 → Except Errno (BitVec 64)) : List Insn → List Insn → Prop
  | nil : Replaced mapGet [] []
  | keep {insn : Insn} {rest out : List Insn} (h : Replaced mapGet rest out)
      (hldx : ∀ mode size, insn.code = .ldx mode size → mode = .mem)
      (hstx : ∀ mode size, insn.code = .stx mode size → mode = .mem ∨ mode = .xadd)
      (hld : insn.code ≠ .ld .imm .dw) : Replaced mapGet (insn :: rest) (insn :: out)
  | number {insn insn1 : Insn} {rest out : List Insn} (h : Replaced mapGet rest out)
      (hcode : insn.code = .ld .imm .dw) (hcode1 : insn1.code = .ld .imm .w)
      (hsrc : insn.srcReg = 0) : Replaced mapGet (insn :: insn1 :: rest) (insn :: insn1 :: out)
  | map {insn insn1 : Insn} {rest out : List Insn} {map : BitVec 64} (h : Replaced mapGet rest out)
      (hcode : insn.code = .ld .imm .dw) (hcode1 : insn1.code = .ld .imm .w)
      (hsrc : insn.srcReg ≠ 0) (hmap : mapGet insn.imm = .ok map) :
      Replaced mapGet (insn :: insn1 :: rest)
        ({ insn with imm := map.setWidth 32 } ::
          { insn1 with imm := (map >>> 32).setWidth 32 } :: out)

theorem replaced_of_ok {used : List (BitVec 64)}
    (h : replaceMapFdWithMapPtr mapGet used prog = .ok insns) : Replaced mapGet prog insns := by
  fun_induction replaceMapFdWithMapPtr mapGet used prog generalizing insns with
  | case1 =>
    cases h
    exact .nil
  | case2 used insn rest mode size hcode ih =>
    simp only [ok_iff, not_or, not_not] at h
    obtain ⟨-, ⟨rfl, -⟩, out, hout, rfl⟩ := h
    refine .keep (ih hout) ?_ ?_ ?_
    all_goals simp [hcode]
  | case3 used insn rest mode size hcode ih =>
    simp only [ok_iff, not_or, not_and_or, not_not] at h
    obtain ⟨-, ⟨hmode, -⟩, out, hout, rfl⟩ := h
    refine .keep (ih hout) ?_ ?_ ?_
    all_goals simp [hcode, hmode]
  | case4 => cases h
  | case5 used insn hcode insn1 rest ihNumber ihMap =>
    simp only [ok_iff, not_or, not_not] at h
    obtain ⟨-, ⟨hcode1, -⟩, h⟩ := h
    split at h <;> simp only [ok_iff] at h
    · next hsrc =>
      obtain ⟨out, hout, rfl⟩ := h
      exact .number (ihNumber hout) hcode hcode1 hsrc
    · next hsrc =>
      obtain ⟨-, -, map, hmap, used', -, out, hout, rfl⟩ := h
      exact .map (ihMap used' hout) hcode hcode1 hsrc hmap
  | case6 used insn rest hldx hstx hld ih =>
    simp only [ok_iff] at h
    obtain ⟨out, hout, rfl⟩ := h
    exact .keep (ih hout) (fun m z hc => absurd hc (hldx m z))
      (fun m z hc => absurd hc (hstx m z)) hld

theorem Replaced.progOk (h : Replaced mapGet prog insns) :
    ProgOk (fun a => ∃ fd, mapGet fd = .ok a) insns := by
  induction h with
  | nil => exact .nil _
  | keep h hldx hstx hld ih => exact ih.cons hldx hstx fun hc => absurd hc hld
  | number h hcode hcode1 hsrc ih =>
    refine (ih.cons ?_ ?_ ?_).cons ?_ ?_ ?_
    all_goals simp [hcode, hcode1, hsrc]
  | @map insn insn1 rest out map h hcode hcode1 hsrc hmap ih =>
    refine (ih.cons ?_ ?_ ?_).cons ?_ ?_ ?_
    any_goals simp [hcode, hcode1]
    refine .inr ⟨insn.imm, ?_⟩
    rw [hmap]
    exact congrArg Except.ok (ldImm64_split map).symm

/-! ### Marked loads and stores -/

/-- `do_check()` writes to `imm` of these instructions only. -/
def Insn.Markable (insn : Insn) : Prop :=
  (∃ mode size, insn.code = .ldx mode size) ∨ ∃ mode size, insn.code = .stx mode size ∧ mode ≠ .xadd

/-- Two programs that differ only in the marks of `do_check()`. -/
structure SameButMarks (insns insns' : List Insn) : Prop where
  length : insns'.length = insns.length
  insn : ∀ i, fetch insns' i = fetch insns i ∨
      (fetch insns i).Markable ∧ ∃ imm, fetch insns' i = { fetch insns i with imm := imm }

theorem SameButMarks.refl (insns : List Insn) : SameButMarks insns insns :=
  ⟨rfl, fun _ => .inl rfl⟩

theorem checkInsn_sameButMarks (hok : ProgOk isMap insns) (hsame : SameButMarks insns insns')
    (n : Nat) (hidx : 0 ≤ idx) (s : VState) :
    checkInsn cfg insns' n idx s = checkInsn cfg insns n idx s := by
  rcases hsame.insn idx with heq | ⟨hmark, imm, heq⟩
  · -- only a 64-bit immediate looks at a second instruction
    have hsnd :
        (fetch insns idx).code = .ld .imm .dw → fetch insns' (idx + 1) = fetch insns (idx + 1) := by
      intro hcode
      have hnext : (idx + 1).toNat = idx.toNat + 1 := by omega
      have hld : (fetch insns (idx + 1)).code = .ld .imm .w := by
        have := (hok.ldImm idx.toNat hcode).1
        simpa only [fetch, hnext] using this
      rcases hsame.insn (idx + 1) with h | ⟨h, -⟩
      · exact h
      · rcases h with ⟨m, z, h⟩ | ⟨m, z, h, -⟩ <;> cases hld.symm.trans h
    unfold checkInsn
    dsimp only
    rw [heq]
    split
    case h_13 size hcode =>
      by_cases hsize : size = .dw
      · subst hsize
        rw [hsnd hcode]
      · simp [checkLdImm, rejectIf, hsize, bind, Except.bind]
    all_goals rfl
  unfold checkInsn
  dsimp only
  rw [heq]
  rcases hmark with ⟨m, z, hcode⟩ | ⟨m, z, hcode, hne⟩
  · simp only [hcode]
  · cases m with
    | xadd => exact absurd rfl hne
    | _ => simp only [hcode]

theorem fetch_set (k : Nat) (insn : Insn) (i : Int) : fetch (insns.set k insn) i =
      if i.toNat = k ∧ k < insns.length then insn else fetch insns i := by
  simp only [fetch, getD_eq_getElem?_getD, getElem?_set]
  grind

theorem SameButMarks.markInsn (hsame : SameButMarks insns insns₁)
    (hmark : (fetch insns idx).Markable) (h : Bpf.markInsn insns₁ idx t = .ok insns₂) :
    SameButMarks insns insns₂ := by
  unfold Bpf.markInsn at h
  dsimp only at h
  split at h
  · cases h
    refine ⟨by simp [hsame.length], ?_⟩
    intro i
    rw [fetch_set]
    split
    · next hi =>
      have hfi : ∀ l, fetch l i = fetch l idx := by
        simp only [fetch, hi.1, implies_true]
      rw [hfi]
      refine .inr ⟨hmark, t.val, ?_⟩
      rcases hsame.insn idx with h | ⟨-, imm, h⟩
      all_goals rw [h]
    · exact hsame.insn i
  · simp only [ok_iff] at h
    obtain ⟨-, -, rfl⟩ := h
    exact hsame

/-! ### One instruction -/

theorem checkInsn_stackSize {r : Next × Option RegType} (h : checkInsn cfg insns n idx s = .ok r) :
    checkInsn cfg insns 0 idx s = .ok r := by
  unfold checkInsn at h ⊢
  dsimp only at h ⊢
  split at h
  case h_10 op src hcall hja hexit hcode =>
    simp only [checkCondJmpOp, ok_iff] at h ⊢
    obtain ⟨next, ⟨u, hop, s₁, hs1, s₂, hs2, hnext⟩, hr⟩ := h
    refine ⟨next, ⟨u, hop, s₁, hs1, s₂, hs2, ?_⟩, hr⟩
    split at hnext
    · next hknown =>
        rw [if_pos hknown]
        exact hnext
    · next hknown =>
        rw [if_neg hknown]
        simp only [ok_iff] at hnext ⊢
        obtain ⟨u, -, hrest⟩ := hnext
        exact ⟨u, by omega, hrest⟩
  all_goals exact h

theorem checkInsn_mark (h : checkInsn cfg insns n idx s = .ok (next, some t)) :
    (fetch insns idx).Markable := by
  unfold checkInsn at h
  dsimp only at h
  split at h
  case h_3 mode size hcode => exact .inl ⟨mode, size, hcode⟩
  case h_5 mode size hne hcode =>
    refine .inr ⟨mode, size, hcode, ?_⟩
    intro hx
    exact hne hx
  case h_14 => cases h
  case h_15 => cases h
  all_goals
    simp only [ok_iff, Prod.mk.injEq, reduceCtorEq, and_false, exists_false] at h

theorem goto_targets_nonneg (hi : 0 ≤ i) : ∀ b ∈ (Next.goto i s).targets, 0 ≤ b.1 := by
  intro b hb
  rw [Next.targets, mem_singleton] at hb
  subst hb
  exact hi

/-- A jump goes where `check_cfg()` looked, all else forward. -/
theorem checkInsn_targets_nonneg (hidx : 0 ≤ idx)
    (hfall : ∀ w ∈ fallEdge insns idx.toNat, InProg insns w)
    (hbranch : ∀ w ∈ branchEdge insns idx.toNat, InProg insns w)
    (h : checkInsn cfg insns n idx s = .ok (next, mark)) : ∀ b ∈ next.targets, 0 ≤ b.1 := by
  have hcast := Int.toNat_of_nonneg hidx
  unfold checkInsn at h
  dsimp only at h
  split at h
  case h_8 src hcode =>
    simp only [ok_iff, Prod.mk.injEq] at h
    obtain ⟨-, -, rfl, -⟩ := h
    have hw := hfall (idx + (fetch insns idx).off.toInt + 1) (by
      simp [fallEdge, hcast, hcode])
    exact goto_targets_nonneg hw.1
  case h_10 op src hcall hja hexit hcode =>
    simp only [checkCondJmpOp, ok_iff, Prod.mk.injEq] at h
    obtain ⟨next', ⟨-, -, s₁, -, s₂, -, hnext⟩, rfl, -⟩ := h
    have hw := hbranch (idx + (fetch insns idx).off.toInt + 1) (by
      simp only [branchEdge, hcast, hcode]
      rfl)
    split at hnext
    · split at hnext
      · cases hnext
        exact goto_targets_nonneg hw.1
      · cases hnext
        exact goto_targets_nonneg (by omega)
    simp only [ok_iff] at hnext
    obtain ⟨-, -, ⟨cur, other⟩, -, rfl⟩ := hnext
    intro b hb
    simp only [Next.targets, mem_cons, not_mem_nil, or_false] at hb
    rcases hb with rfl | rfl
    · exact (by omega : 0 ≤ idx + 1)
    · exact hw.1
  case h_9 src hcode =>
    simp only [ok_iff, Prod.mk.injEq] at h
    obtain ⟨-, -, s₁, -, -, -, rfl, -⟩ := h
    intro b hb
    cases hb
  case h_14 => cases h
  case h_15 => cases h
  all_goals
    simp only [ok_iff, Prod.mk.injEq] at h
  case h_1 | h_2 | h_4 | h_11 | h_12 | h_13 =>
    obtain ⟨s₁, -, rfl, -⟩ := h
    exact goto_targets_nonneg (by omega)
  case h_3 | h_5 =>
    obtain ⟨s₁, -, s₂, -, s₃, -, rfl, -⟩ := h
    exact goto_targets_nonneg (by omega)
  case h_6 =>
    obtain ⟨-, -, s₁, -, s₂, -, rfl, -⟩ := h
    exact goto_targets_nonneg (by omega)
  case h_7 =>
    obtain ⟨-, -, s₁, -, rfl, -⟩ := h
    exact goto_targets_nonneg (by omega)

/-! ### The whole check -/

/-- The points that the check of one point leads to. -/
def Succ (cfg : Cfg) (insns : List Insn) (a b : Int × VState) : Prop :=
  ∃ next mark, checkInsn cfg insns 0 a.1 a.2 = .ok (next, mark) ∧ b ∈ next.targets

/-- A point that was looked at stands for another one. -/
def Covers (eq : VState → VState → Bool) (a b : Int × VState) : Prop :=
  a.1 = b.1 ∧ (a.2 = b.2 ∨ eq a.2 b.2 = true)

/-- An instruction in the program that passed its check. -/
def Checked (cfg : Cfg) (insns : List Insn) (a : Int × VState) : Prop :=
  InProg insns a.1 ∧ ∃ r, checkInsn cfg insns 0 a.1 a.2 = .ok r

/-- The trace of an accepted program: it starts at the entry, each point passed its check, and it
is closed under successors up to pruning. -/
structure TraceOk (cfg : Cfg) (eq : VState → VState → Bool)
    (insns : List Insn) (trace : Trace) : Prop where
  start : Covered (Covers eq) trace (0, initRegState)
  checked : ∀ a ∈ trace, Checked cfg insns a
  closed : Frontier (Succ cfg insns) (Covers eq) trace []

def pending (idx : Int) (cur : VState) (head : List (VState × Int)) : Trace :=
  (idx, cur) :: head.map (fun e => (e.2, e.1))

/-- The invariant of the `do_check()` loop. -/
structure LoopInv (cfg : Cfg) (eq : VState → VState → Bool)
    (insns : List Insn) (env : VerifierEnv) (idx : Int) (cur : VState)
    (trace : Trace) : Prop where
  same : SameButMarks insns env.insns
  explored : ∀ i sl, env.explored i = some sl → ∀ st ∈ sl, ((i : Int), st) ∈ trace
  checked : ∀ a ∈ trace, Checked cfg insns a
  frontier : Frontier (Succ cfg insns) (Covers eq) trace (pending idx cur env.head)
  nonneg : ∀ b ∈ pending idx cur env.head, 0 ≤ b.1

theorem popStack_none (hnonneg : ∀ e ∈ head, 0 ≤ e.2) (h : popStack head = none) : head = [] := by
  cases head with
  | nil => rfl
  | cons e rest =>
    obtain ⟨st, i⟩ := e
    have hi : 0 ≤ i := hnonneg (st, i) mem_cons_self
    simp only [popStack] at h
    split at h
    · omega
    · cases h

theorem popStack_some (h : popStack head = some (i, st, rest)) : head = (st, i) :: rest := by
  cases head with
  | nil => simp [popStack] at h
  | cons e rest' =>
    obtain ⟨st', i'⟩ := e
    simp only [popStack] at h
    split at h
    · cases h
    · cases h
      rfl

variable (hidx : 0 ≤ idx) (hexp : ∀ i sl, explored i = some sl → ∀ st ∈ sl, ((i : Int), st) ∈ trace)

include hidx hexp

theorem isStateVisited_none (h : isStateVisited eq explored idx cur = none) :
    Covered (Covers eq) trace (idx, cur) := by
  unfold isStateVisited at h
  split at h
  · cases h
  next sl hsl =>
    split at h
    · next hany =>
        obtain ⟨st, hst, heq⟩ := any_eq_true.mp hany
        have hmem := hexp idx.toNat sl hsl st hst
        have hcast := Int.toNat_of_nonneg hidx
        rw [hcast] at hmem
        exact ⟨(idx, st), hmem, rfl, Or.inr heq⟩
    · cases h

theorem isStateVisited_some (h : isStateVisited eq explored idx cur = some explored') :
    ∀ i sl, explored' i = some sl → ∀ st ∈ sl, ((i : Int), st) ∈ (idx, cur) :: trace := by
  have hcast := Int.toNat_of_nonneg hidx
  intro i sl hi st hst
  unfold isStateVisited at h
  split at h
  · cases h
    exact mem_cons_of_mem _ (hexp i sl hi st hst)
  next sl' hsl' =>
    split at h
    · cases h
    cases h
    simp only at hi
    split at hi
    · next heq =>
        subst heq
        cases hi
        rw [hcast]
        rcases mem_cons.mp hst with rfl | hst
        · exact mem_cons_self
        · have := hexp _ sl' hsl' st hst
          rw [hcast] at this
          exact mem_cons_of_mem _ this
    · exact mem_cons_of_mem _ (hexp i sl hi st hst)

omit hidx hexp

/-- The points that wait after an instruction are those from before and its successors. -/
theorem nextPoint_some (h : nextPoint head next = some (i, st, head')) :
    pending i st head' = next.targets ++ head.map (fun e => (e.2, e.1)) := by
  cases next with
  | exit =>
    rw [popStack_some h]
    rfl
  | goto _ _ | branch _ _ _ _ =>
    cases h
    rfl

theorem nextPoint_none (hnonneg : ∀ e ∈ head, 0 ≤ e.2) (h : nextPoint head next = none) :
    next.targets ++ head.map (fun e => (e.2, e.1)) = [] := by
  cases next with
  | exit =>
    rw [popStack_none hnonneg h]
    rfl
  | goto _ _ | branch _ _ _ _ => cases h

theorem LoopInv.head_nonneg (h : LoopInv cfg eq insns env idx cur trace) :
    ∀ e ∈ env.head, 0 ≤ e.2 := by
  intro e he
  exact h.nonneg (e.2, e.1) (mem_cons_of_mem _ (mem_map.mpr ⟨e, he, rfl⟩))

theorem LoopInv.skip (h : LoopInv cfg eq insns env idx cur trace)
    (hcov : Covered (Covers eq) trace (idx, cur)) (hpop : popStack env.head = some (i, st, head)) :
    LoopInv cfg eq insns { env with head := head } i st trace := by
  have hpending : env.head.map (fun e => (e.2, e.1)) = pending i st head := by
    rw [popStack_some hpop]
    rfl
  refine ⟨h.same, h.explored, h.checked, ?_, ?_⟩
  · have := h.frontier.skip hcov
    rwa [hpending] at this
  · intro b hb
    refine h.nonneg b (mem_cons_of_mem _ ?_)
    rwa [hpending]

section Loop

variable (hok : ProgOk isMap insns) (hedges : ∀ t < insns.length,
  (∀ w ∈ fallEdge insns t, InProg insns w) ∧ ∀ w ∈ branchEdge insns t, InProg insns w)
include hok hedges

/-- A point joins the trace, its successors wait. -/
theorem LoopInv.look (h : LoopInv cfg eq insns env idx cur trace)
    (hlt : idx < (env.insns.length : Int))
    (hcheck : checkInsn cfg env.insns env.head.length idx cur = .ok (next, mark)) :
    (∀ a ∈ (idx, cur) :: trace, Checked cfg insns a) ∧
      Frontier (Succ cfg insns) (Covers eq) ((idx, cur) :: trace)
        (next.targets ++ env.head.map (fun e => (e.2, e.1))) ∧
      ∀ b ∈ next.targets ++ env.head.map (fun e => (e.2, e.1)), 0 ≤ b.1 := by
  have hidx : 0 ≤ idx := h.nonneg (idx, cur) mem_cons_self
  have hin : InProg insns idx := ⟨hidx, by rw [← h.same.length]; exact hlt⟩
  rw [checkInsn_sameButMarks hok h.same _ hidx] at hcheck
  have hcheck0 := checkInsn_stackSize hcheck
  obtain ⟨hfall, hbranch⟩ := hedges idx.toNat (by have := hin.2; omega)
  have htargets := checkInsn_targets_nonneg hidx hfall hbranch hcheck
  refine ⟨?_, ?_, ?_⟩
  · exact forall_mem_cons.mpr ⟨⟨hin, _, hcheck0⟩, h.checked⟩
  · refine h.frontier.expand ⟨rfl, Or.inl rfl⟩ ?_
    rintro t ⟨next', mark', h', hmem⟩
    cases hcheck0.symm.trans h'
    exact mem_append_left _ hmem
  · intro b hb
    rcases mem_append.mp hb with hb | hb
    · exact htargets b hb
    · exact h.nonneg b (mem_cons_of_mem _ hb)

/-- From any state with the invariant, the final trace is closed and covers the point where the
loop started. -/
theorem doCheckLoop_closed (hinv : LoopInv cfg eq insns env idx cur trace)
    (h : doCheckLoop cfg eq left env idx cur trace = .ok (marked, out)) :
    SameButMarks insns marked ∧ (∀ a ∈ trace, a ∈ out) ∧
      Covered (Covers eq) out (idx, cur) ∧
      (∀ a ∈ out, Checked cfg insns a) ∧
      Frontier (Succ cfg insns) (Covers eq) out [] := by
  induction left generalizing env idx cur trace with
  | zero =>
    unfold doCheckLoop at h
    split at h <;> cases h
  | succ left ih =>
    have hidx : 0 ≤ idx := hinv.nonneg (idx, cur) mem_cons_self
    unfold doCheckLoop at h
    split at h
    · cases h
    next hlt =>
      dsimp only at h
      split at h
      · -- pruned
        next hvis =>
        have hcov := isStateVisited_none hidx hinv.explored hvis
        split at h
        · next hpop =>
            cases h
            have hnil := popStack_none hinv.head_nonneg hpop
            have hfr := hinv.frontier.skip hcov
            rw [hnil] at hfr
            exact ⟨hinv.same, fun a ha => ha, hcov, hinv.checked, hfr⟩
        · next i st head hpop =>
            obtain ⟨hmarks, hsub, -, hchk, hfr⟩ := ih (hinv.skip hcov hpop) h
            obtain ⟨t, ht, hc⟩ := hcov
            exact ⟨hmarks, hsub, ⟨t, hsub t ht, hc⟩, hchk, hfr⟩
      next explored' hvis =>
      rw [bind_eq_ok] at h
      obtain ⟨⟨next, mark⟩, hcheck, h⟩ := h
      rw [bind_eq_ok] at h
      obtain ⟨insns', hmark, h⟩ := h
      obtain ⟨hchk, hfr, hnn⟩ := hinv.look hok hedges (by omega) hcheck
      have hsame : SameButMarks insns insns' := by
        cases mark with
        | none =>
          simp only [applyMark, pure_eq_ok] at hmark
          exact hmark ▸ hinv.same
        | some t =>
          rw [checkInsn_sameButMarks hok hinv.same _ hidx] at hcheck
          exact hinv.same.markInsn (checkInsn_mark hcheck) hmark
      dsimp only at h
      split at h
      · next hnone =>
          cases h
          rw [nextPoint_none hinv.head_nonneg hnone] at hfr
          exact ⟨hsame, fun a ha => mem_cons_of_mem _ ha,
            ⟨_, mem_cons_self, rfl, Or.inl rfl⟩, hchk, hfr⟩
      next i st head hsome =>
        have hpend := nextPoint_some hsome
        rw [← hpend] at hfr hnn
        obtain ⟨hmarks, hsub, -, hchk', hfr'⟩ :=
          ih ⟨hsame, isStateVisited_some hidx hinv.explored hvis, hchk, hfr, hnn⟩ h
        exact ⟨hmarks, fun a ha => hsub a (mem_cons_of_mem _ ha),
          ⟨_, hsub _ mem_cons_self, rfl, Or.inl rfl⟩, hchk', hfr'⟩

end Loop

theorem bpfCheckMarked_ok (h : bpfCheckMarked cfg eq mapGet prog = .ok (insns, marked, trace)) :
    replaceMapFdWithMapPtr mapGet [] prog = .ok insns ∧
      ProgOk (fun a => ∃ fd, mapGet fd = .ok a) insns ∧
      SameButMarks insns marked ∧ TraceOk cfg eq insns trace := by
  unfold bpfCheckMarked at h
  simp only [ok_iff, Prod.mk.injEq, Prod.exists] at h
  obtain ⟨-, -, insns', hrep, explored, hcfg, marked', trace', hdo, rfl, rfl, rfl⟩ := h
  have hok := (replaced_of_ok hrep).progOk
  have hinv : LoopInv cfg eq insns' ⟨insns', [], explored⟩ 0 initRegState [] := by
    refine ⟨.refl insns', ?_, ?_, .nil, ?_⟩
    · intro i sl hi st hst
      rw [checkCfg_explored hcfg hi] at hst
      cases hst
    · intro a ha
      cases ha
    · intro b hb
      simp only [pending, map_nil, mem_singleton] at hb
      subst hb
      exact Int.le_refl 0
  obtain ⟨hmarks, -, hstart, hchk, hfr⟩ := doCheckLoop_closed hok (fun t ht => by
    have hedges := ((checkCfg_ensures (Nat.zero_lt_of_lt ht)).of_ok hcfg).inProg t ht
    exact ⟨hedges .fallthrough, hedges .branch⟩) hinv hdo
  exact ⟨hrep, hok, hmarks, hstart, hchk, hfr⟩

theorem bpfCheckWith_marked (h : bpfCheckWith cfg eq mapGet prog = .ok (insns, trace)) :
    ∃ marked, bpfCheckMarked cfg eq mapGet prog = .ok (insns, marked, trace) := by
  unfold bpfCheckWith at h
  simp only [ok_iff, Prod.mk.injEq, Prod.exists] at h
  obtain ⟨insns', marked, trace', h, rfl, rfl⟩ := h
  exact ⟨marked, h⟩

theorem bpfCheckWith_ok (h : bpfCheckWith cfg eq mapGet prog = .ok (insns, trace)) :
    ProgOk (fun a => ∃ fd, mapGet fd = .ok a) insns ∧ TraceOk cfg eq insns trace := by
  obtain ⟨marked, h⟩ := bpfCheckWith_marked h
  obtain ⟨-, hok, -, htrace⟩ := bpfCheckMarked_ok h
  exact ⟨hok, htrace⟩

end LinuxKernel.Bpf
