import LinuxKernel.Bpf.SkFilter
import LinuxKernel.Bpf.SkbAccess

/-!
# Rewriting of context accesses

`convert_ctx_accesses()` and `adjust_branches()` of `kernel/bpf/verifier.c`.  After the check, a
load or store that was marked as an access to the context is replaced by the instructions that the
program type has for it, and `adjust_branches()` then changes the offsets of jumps.

It looks at the indices of the new program with the old offsets.  For a jump behind the replaced
instruction the two do not fit: a target that is at most as many instructions before the replaced
one as were inserted, or that instruction itself, is taken for one that moves along.
-/

namespace LinuxKernel.Bpf

open Lib List

/-- The jumps with an offset: `BPF_JMP` without `BPF_CALL` and `BPF_EXIT`. -/
def Insn.isBranch (insn : Insn) : Bool :=
  match insn.code with
  | .jmp .call _ => false
  | .jmp .exit _ => false
  | .jmp _ _ => true
  | _ => false

/-- Where the jump at index `i` leads. -/
def Insn.target (insn : Insn) (i : Int) : Int :=
  i + insn.off.toInt + 1

/-- The body of the loop of `adjust_branches()`. -/
def adjustBranch (pos delta i : Nat) (insn : Insn) : Insn :=
  if insn.isBranch then
    if i < pos ∧ (pos : Int) < insn.target i then
      { insn with off := insn.off + BitVec.ofNat 16 delta }
    else if pos < i ∧ insn.target i < (pos : Int) then
      { insn with off := insn.off - BitVec.ofNat 16 delta }
    else insn
  else insn

def adjustBranches (prog : List Insn) (pos delta : Nat) : List Insn :=
  prog.mapIdx (adjustBranch pos delta)

/-- The accesses that `convert_ctx_accesses()` looks at. -/
def ctxAccess : Code → Option AccessType
  | .ldx .mem .w => some .read
  | .stx .mem .w => some .write
  | _ => none

theorem ctxAccess_isBranch {insn : Insn} {t : AccessType} (h : ctxAccess insn.code = some t) :
    insn.isBranch = false := by
  unfold Insn.isBranch
  cases hcode : insn.code with
  | jmp op src =>
    rw [hcode] at h
    cases h
  | _ => rfl

/-- The replacement of one instruction by several. -/
structure Expansion where
  prog : List Insn
  pos : Nat
  buf : List Insn
  pos_lt : pos < prog.length
  isBranch : (fetch prog pos).isBranch = false
  cnt : 2 ≤ buf.length ∧ buf.length < 16

namespace Expansion

/-- The number of instructions that are added. -/
def delta (e : Expansion) : Nat :=
  e.buf.length - 1

/-- The program with room made and the substitutes copied in. -/
def inserted (e : Expansion) : List Insn :=
  e.prog.take e.pos ++ e.buf ++ e.prog.drop (e.pos + 1)

def apply (e : Expansion) : List Insn :=
  adjustBranches e.inserted e.pos e.delta

/-- Where an instruction of the old program is in the new one; a replaced one is at its first
substitute. -/
def image (e : Expansion) (p : Int) : Int :=
  if p ≤ e.pos then p else p + e.delta

@[simp] theorem length_apply (e : Expansion) : e.apply.length = e.prog.length + e.delta := by
  have := e.pos_lt
  have := e.cnt
  simp only [apply, adjustBranches, inserted, delta, length_mapIdx,
    length_append, length_take, length_drop]
  omega

end Expansion

/-- `ops->convert_ctx_access()`: access type, destination and source register,
offset. -/
abbrev CtxConverter :=
  AccessType → Fin 16 → Fin 16 → BitVec 16 → List Insn

/-- The loop of `convert_ctx_accesses()` at `i` with `n` instructions to go, and the expansions
that were done. -/
def convertLoop (convert : CtxConverter) :
    (n : Nat) → (prog : List Insn) → (i : Nat) → i + n = prog.length →
      Except Errno (List Insn × List Expansion)
  | 0, prog, _, _ => pure (prog, [])
  | n + 1, prog, i, hlen =>
    let insn := fetch prog i
    match hacc : ctxAccess insn.code with
    | none => convertLoop convert n prog (i + 1) (by omega)
    | some t =>
      if insn.imm ≠ RegType.ptrToCtx.val then
        -- clear internal mark
        convertLoop convert n (prog.set i { insn with imm := 0 }) (i + 1)
          (by rw [length_set]; omega)
      else
        let buf := convert t insn.dstReg insn.srcReg insn.off
        if hcnt : buf.length = 0 ∨ 16 ≤ buf.length then .error .einval
        else if hone : buf.length = 1 then
          convertLoop convert n (prog.set i (fetch buf 0)) (i + 1) (by rw [length_set]; omega)
        else do
          let e : Expansion :=
            { prog := prog
              pos := i
              buf := buf
              pos_lt := by omega
              isBranch := ctxAccess_isBranch hacc
              cnt := by omega }
          let (out, log) ← convertLoop convert n e.apply (i + buf.length)
            (by
              rw [e.length_apply]
              change i + buf.length + n = prog.length + (buf.length - 1)
              omega)
          pure (out, e :: log)

def convertCtxAccesses (convert : Option CtxConverter) (prog : List Insn) :
    Except Errno (List Insn × List Expansion) :=
  match convert with
  | none => pure (prog, [])
  | some convert => convertLoop convert prog.length prog 0 (by omega)

section OneExpansion

variable (e : Expansion)

/-- The instruction of `prog` at `i` is `insn` up to its offset, and leads to `t`. -/
def LeadsTo (prog : List Insn) (i : Int) (insn : Insn) (t : Int) : Prop :=
  ∃ off, fetch prog i = { insn with off := off } ∧ i + off.toInt + 1 = t

/-- Every jump of the old program leads to the image of its target. -/
def Expansion.JumpsKept : Prop :=
  ∀ j : Nat, j < e.prog.length → (fetch e.prog j).isBranch = true →
    LeadsTo e.apply (e.image j) (fetch e.prog j) (e.image ((fetch e.prog j).target j))

/-- `adjust_branches()` is right for the jump `insn` at `j`: from behind the replaced instruction
it leads neither to it nor to one of the `delta` before it, and a changed offset fits in 16 bits.
-/
def Expansion.BranchOk (j : Nat) (insn : Insn) : Prop :=
  (e.pos < j → insn.target j ≤ e.pos → insn.target j + e.delta < e.pos) ∧
    (j < e.pos → (e.pos : Int) < insn.target j → insn.off.toInt + e.delta < 2 ^ 15) ∧
    (e.pos < j → insn.target j + e.delta < e.pos → -2 ^ 15 ≤ insn.off.toInt - e.delta)

/-- `adjust_branches()` does the right thing for all jumps. -/
def Expansion.Ok : Prop :=
  ∀ j : Nat, j < e.prog.length → (fetch e.prog j).isBranch = true → e.BranchOk j (fetch e.prog j)

instance (j : Nat) (insn : Insn) : Decidable (e.BranchOk j insn) :=
  inferInstanceAs (Decidable (_ ∧ _ ∧ _))

instance : Decidable e.Ok :=
  inferInstanceAs
    (Decidable
      (∀ j : Nat, j < e.prog.length → (fetch e.prog j).isBranch = true →
        e.BranchOk j (fetch e.prog j)))

variable {j : Nat}

theorem fetch_inserted (hj : j ≠ e.pos) : fetch e.inserted (e.image j) = fetch e.prog j := by
  have hpos := e.pos_lt
  have hcnt := e.cnt
  unfold Expansion.inserted Expansion.image fetch
  simp only [getD_eq_getElem?_getD]
  congr 1
  by_cases hlt : j < e.pos
  · rw [if_pos (by omega), Int.toNat_natCast, append_assoc,
      getElem?_append_left (by rw [length_take]; omega),
      getElem?_take_of_lt hlt]
  have hidx : ((j : Int) + e.delta).toNat = j + e.delta := by omega
  have hlen : (e.prog.take e.pos ++ e.buf).length = e.pos + e.delta + 1 := by
    rw [length_append, length_take, Expansion.delta]
    omega
  rw [if_neg (by omega), hidx, getElem?_append_right (by rw [hlen]; omega), hlen,
    getElem?_drop, Int.toNat_natCast]
  congr 1
  omega

theorem fetch_adjustBranches (prog : List Insn) (pos delta i : Nat) :
    fetch (adjustBranches prog pos delta) i = adjustBranch pos delta i (fetch prog i) := by
  simp only [fetch, adjustBranches, getD_eq_getElem?_getD, Int.toNat_natCast, getElem?_mapIdx]
  cases prog[i]? <;> rfl

theorem adjustBranch_eq (pos delta i : Nat) (insn : Insn) :
    adjustBranch pos delta i insn = { insn with off := (adjustBranch pos delta i insn).off } := by
  unfold adjustBranch
  split_ifs <;> rfl

theorem bmod_eq_self_iff (x : Int) : x.bmod (2 ^ 16) = x ↔ -2 ^ 15 ≤ x ∧ x < 2 ^ 15 := by
  constructor
  · intro h
    have hlt : x.bmod (2 ^ 16) < (2 ^ 16 + 1) / 2 := Int.bmod_lt (by decide)
    have hle : -(2 ^ 16 / 2 : Int) ≤ x.bmod (2 ^ 16) := Int.le_bmod (by decide)
    omega
  · rintro ⟨hle, hlt⟩
    exact Int.bmod_eq_of_le (by omega) (by omega)

theorem adjustBranch_target_iff {i : Nat} (hj : j ≠ e.pos) (hi : (i : Int) = e.image j)
    {insn : Insn} (hbranch : insn.isBranch = true) :
    (adjustBranch e.pos e.delta i insn).target i = e.image (insn.target j) ↔ e.BranchOk j insn := by
  have hlo := BitVec.le_toInt insn.off
  have hhi : insn.off.toInt < 2 ^ 15 := BitVec.toInt_lt
  have hdelta : 1 ≤ e.delta := by
    have := e.cnt
    unfold Expansion.delta
    omega
  unfold adjustBranch Expansion.BranchOk
  rw [if_pos hbranch]
  unfold Expansion.image Insn.target at *
  rcases Nat.lt_or_gt_of_ne hj with hlt | hgt
  · -- the jump is before the replaced instruction and stays where it is
    rw [if_pos (by omega)] at hi
    obtain rfl : i = j := by omega
    by_cases htgt : (e.pos : Int) < i + insn.off.toInt + 1
    · rw [if_pos ⟨hlt, htgt⟩, if_neg (by omega), BitVec.toInt_add, BitVec.toInt_ofNat',
        Int.add_bmod_bmod]
      have hfit := bmod_eq_self_iff (insn.off.toInt + e.delta)
      constructor
      · intro h
        have := hfit.mp (by omega)
        omega
      · rintro ⟨-, h, -⟩
        have := hfit.mpr ⟨by omega, h hlt htgt⟩
        omega
    · rw [if_neg (by omega), if_neg (by omega), if_pos (by omega)]
      omega
  -- the jump is behind it and has moved
  rw [if_neg (by omega)] at hi
  rw [if_neg (by omega)]
  by_cases htgt : (i : Int) + insn.off.toInt + 1 < e.pos
  · rw [if_pos ⟨by omega, htgt⟩, if_pos (by omega), BitVec.toInt_sub, BitVec.toInt_ofNat',
      Int.sub_bmod_bmod]
    have hfit := bmod_eq_self_iff (insn.off.toInt - e.delta)
    constructor
    · intro h
      have := hfit.mp (by omega)
      omega
    · rintro ⟨-, -, h⟩
      have := hfit.mpr ⟨h hgt (by omega), by omega⟩
      omega
  · rw [if_neg (by omega)]
    split <;> omega

theorem exists_image (j : Nat) : ∃ i : Nat, (i : Int) = e.image j := by
  refine ⟨(e.image j).toNat, Int.toNat_of_nonneg ?_⟩
  unfold Expansion.image
  split <;> omega

theorem Expansion.jumpsKept_iff : e.JumpsKept ↔ e.Ok := by
  refine forall_congr' fun j => forall_congr' fun hlt =>
    forall_congr' fun hbranch => ?_
  have hj : j ≠ e.pos := by
    rintro rfl
    rw [e.isBranch] at hbranch
    cases hbranch
  obtain ⟨i, hi⟩ := exists_image e j
  rw [← adjustBranch_target_iff e hj hi hbranch]
  have hfetch : fetch e.apply (e.image j) = adjustBranch e.pos e.delta i (fetch e.prog j) := by
    rw [Expansion.apply, ← hi, fetch_adjustBranches, hi, fetch_inserted e hj]
  unfold LeadsTo
  rw [hfetch, adjustBranch_eq, ← hi]
  constructor
  · rintro ⟨off, heq, ht⟩
    have hoff := congrArg Insn.off heq
    simp only at hoff
    subst hoff
    exact ht
  · intro ht
    exact ⟨_, rfl, ht⟩

end OneExpansion

section Run

/-- Where an instruction is after a sequence of expansions. -/
def imageAll (log : List Expansion) (p : Int) : Int :=
  log.foldl (fun p e => e.image p) p

/-- Every jump of `prog` leads, in `out`, to the image of its target. -/
def JumpsKept (prog out : List Insn) (log : List Expansion) : Prop :=
  ∀ j : Nat, (fetch prog j).isBranch = true → LeadsTo out (imageAll log j) (fetch prog j)
      (imageAll log ((fetch prog j).target j))

variable {prog : List Insn} {j : Nat} {out insns marked : List Insn} {log : List Expansion}
  {i n : Nat}

theorem lt_length_of_isBranch (h : (fetch prog j).isBranch = true) : j < prog.length := by
  by_contra hge
  have hdef : fetch prog j = default := by
    unfold fetch
    rw [getD_eq_getElem?_getD, getElem?_eq_none (by simpa using hge)]
    rfl
  rw [hdef] at h
  cases h

theorem JumpsKept.of_set {insn : Insn} (hi : (fetch prog i).isBranch = false)
    (h : JumpsKept (prog.set i insn) out log) : JumpsKept prog out log := by
  intro j hj
  have hne : i ≠ j := by
    rintro rfl
    rw [hi] at hj
    cases hj
  have heq : fetch (prog.set i insn) j = fetch prog j := by
    simp [fetch, getD_eq_getElem?_getD, getElem?_set_ne hne]
  have := h j
  rw [heq] at this
  exact this hj

theorem JumpsKept.of_expansion {e : Expansion} (hok : e.Ok) (h : JumpsKept e.apply out log) :
    JumpsKept e.prog out (e :: log) := by
  intro j hj
  obtain ⟨off, heq, htarget⟩ := e.jumpsKept_iff.mpr hok j (lt_length_of_isBranch hj) hj
  obtain ⟨i, hi⟩ := exists_image e j
  rw [← hi] at heq htarget
  obtain ⟨off', heq', htarget'⟩ := h i (by rw [heq]; exact hj)
  refine ⟨off', ?_, ?_⟩
  · change fetch out (imageAll log (e.image j)) = _
    rw [← hi, heq', heq]
  · change imageAll log (e.image j) + _ + 1 = imageAll log (e.image ((fetch e.prog j).target j))
    rw [← hi, htarget', heq, ← htarget]
    rfl

theorem convertLoop_jumpsKept {convert : CtxConverter} {hlen : i + n = prog.length}
    (h : convertLoop convert n prog i hlen = .ok (out, log)) (hok : ∀ e ∈ log, e.Ok) :
    JumpsKept prog out log := by
  induction n generalizing prog i log with
  | zero =>
    cases h
    intro j _
    exact ⟨_, rfl, rfl⟩
  | succ n ih =>
    unfold convertLoop at h
    dsimp only at h
    split at h
    · exact ih h hok
    next t hacc =>
    have hbranch := ctxAccess_isBranch hacc
    split at h
    · exact (ih h hok).of_set hbranch
    split at h
    · cases h
    split at h
    · exact (ih h hok).of_set hbranch
    · simp only [ok_iff, Prod.exists, Prod.mk.injEq] at h
      obtain ⟨out', log', h, rfl, rfl⟩ := h
      exact .of_expansion (hok _ mem_cons_self) (ih h fun e he => hok e (mem_cons_of_mem _ he))

/-- `do_check()` leaves no marks on jumps. -/
theorem SameButMarks.fetch_branch (h : SameButMarks insns marked)
    (hj : (fetch insns j).isBranch = true) : fetch marked j = fetch insns j := by
  rcases h.insn j with heq | ⟨hmark, -⟩
  · exact heq
  unfold Insn.isBranch at hj
  rcases hmark with ⟨mode, size, hcode⟩ | ⟨mode, size, hcode, -⟩
  all_goals
    rw [hcode] at hj
    cases hj

/-- `bpf_check()` through `convert_ctx_accesses()`: the program with map pointers, the rewritten
one, and the expansions. -/
def bpfCheckConverted (cfg : Cfg) (convert : Option CtxConverter)
    (mapGet : BitVec 32 → Except Errno (BitVec 64)) (prog : List Insn) :
    Except Errno (List Insn × List Insn × List Expansion) := do
  let (insns, marked, _) ← bpfCheckMarked cfg statesEqual mapGet prog
  let (out, log) ← convertCtxAccesses convert marked
  pure (insns, out, log)

/-- In an accepted program an expansion keeps all jumps exactly when it is `Ok`, and if all are,
all jumps lead to the images of their targets in the end. -/
theorem convertCtxAccesses_jumpsKept {cfg : Cfg} {convert : Option CtxConverter}
    {mapGet : BitVec 32 → Except Errno (BitVec 64)} {prog insns out : List Insn}
    {log : List Expansion} (h : bpfCheckConverted cfg convert mapGet prog = .ok (insns, out, log)) :
    (∀ e ∈ log, e.JumpsKept ↔ e.Ok) ∧ ((∀ e ∈ log, e.Ok) → JumpsKept insns out log) := by
  refine ⟨fun e _ => e.jumpsKept_iff, ?_⟩
  intro hok
  unfold bpfCheckConverted at h
  simp only [ok_iff, Prod.exists, Prod.mk.injEq] at h
  obtain ⟨insns', marked, trace, hcheck, out', log', hconv, rfl, rfl, rfl⟩ := h
  have hkept : JumpsKept marked out' log' := by
    cases convert with
    | none =>
      cases hconv
      intro j _
      exact ⟨_, rfl, rfl⟩
    | some convert => exact convertLoop_jumpsKept hconv hok
  obtain ⟨-, -, hmarks, -⟩ := bpfCheckMarked_ok hcheck
  intro j hj
  have := hkept j
  rw [hmarks.fetch_branch hj] at this
  exact this hj

end Run

def skbOffsets : SkbOffsets where
  len := 128
  mark := 180
  pktType := 145
  queueMapping := 140
  vlanTci := 176
  vlanProto := 174
  protocol := 192
  priority := 160
  skbIif := 164
  dev := 32
  hash := 168
  tcIndex := 152
  cb := 40
  netIfindex := 256
  netType := 600
  qdiscData := 8
  qdiscTcClassid := 6
  netSched := true

/-- The check of a socket filter of an unprivileged user. -/
def skCheck (prog : List Insn) : Except Errno (List Insn × List Insn × List Expansion) :=
  bpfCheckConverted (skFilterCfg false)
    (some (bpfNetConvertCtxAccess skbOffsets)) ((skLayout false).mapGet noFds)
    prog

/-- A filter with a jump over an access, between two accesses. -/
def forwardProg : List Insn :=
  [ldxMem .w 0 1 4, jmpImm .jeq 0 0 1, ldxMem .w 0 1 20, exitInsn]

theorem convertCtxAccesses_jumpsKept_forward :
    ∃ out log, skCheck forwardProg = .ok (forwardProg, out, log) ∧ log.length = 2 ∧
        JumpsKept forwardProg out log := by
  have heval : (skCheck forwardProg).toOption.map
          (fun r => (r.1, r.2.2.length, decide (∀ e ∈ r.2.2, e.Ok))) =
        some (forwardProg, 2, true) := by
    decide +kernel
  obtain ⟨⟨insns, out, log⟩, hcheck, hres⟩ := ok_of_toOption_map heval
  simp only [Prod.mk.injEq, decide_eq_true_eq] at hres
  obtain ⟨rfl, hlen, hok⟩ := hres
  exact ⟨out, log, hcheck, hlen, (convertCtxAccesses_jumpsKept hcheck).2 hok⟩

/-- A filter that jumps back to an access. -/
def backwardProg : List Insn :=
  [{ code := .jmp .ja .k, off := 2 }, ldxMem .w 0 1 4, exitInsn, { code := .jmp .ja .k, off := -3 }]

/-- The filter is accepted, and its last jump, to the access at index 1, then leads to the second
of the two instructions in its place. -/
theorem convertCtxAccesses_backward_lost :
    ∃ out log, skCheck backwardProg = .ok (backwardProg, out, log) ∧
        (fetch backwardProg 3).target 3 = 1 ∧ imageAll log 1 = 1 ∧
        imageAll log 3 = 4 ∧ (fetch out 4).isBranch = true ∧
        (fetch out 4).target 4 = 2 ∧ ¬ JumpsKept backwardProg out log := by
  have heval : (skCheck backwardProg).toOption.map
          (fun r => (r.1, imageAll r.2.2 1, imageAll r.2.2 3, fetch r.2.1 4)) =
        some (backwardProg, 1, 4, { code := .jmp .ja .k, off := -3 }) := by
    decide +kernel
  obtain ⟨⟨insns, out, log⟩, hcheck, hres⟩ := ok_of_toOption_map heval
  simp only [Prod.mk.injEq] at hres
  obtain ⟨rfl, htarget, himage, hfetch⟩ := hres
  refine ⟨out, log, hcheck, rfl, htarget, himage, ?_, ?_, ?_⟩
  · rw [hfetch]
    rfl
  · rw [hfetch]
    rfl
  intro hkept
  obtain ⟨off, heq, hlead⟩ := hkept 3 rfl
  change fetch out (imageAll log 3) = _ at heq
  change imageAll log 3 + _ + 1 = imageAll log 1 at hlead
  rw [himage, hfetch] at heq
  have hoff : (-3 : BitVec 16) = off := congrArg Insn.off heq
  subst hoff
  rw [himage, htarget] at hlead
  exact absurd hlead (by decide)

end LinuxKernel.Bpf
