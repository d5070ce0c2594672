import LinuxKernel.Bpf.MemAccess

/-!
# Helper calls that pass their check

The arguments of an accepted call meet the prototype and look the same to the helper in two runs,
the map that `check_func_arg()` remembers is the one the helper is given, and the buffers passed
hold no spilled registers.  So the state after `check_call()` tracks the machines after the call,
whatever the helper returns and writes.
-/

namespace LinuxKernel.Bpf

open Lib Machine FuncProto List

section Args

variable {W : World} {ctxSize i : Nat} {L : Layout W ctxSize}

/-- The verifier's map pointer, zero for none, and the map passed. -/
def MapRel (L : Layout W ctxSize) (a : BitVec 64) : Option W.MapId → Prop
  | none => a = 0
  | some k => a = L.map k

theorem stackOff_stackAddr (hi : i < maxBpfStack) : L.stackOff (L.stackAddr i) = some i := by
  unfold Layout.stackOff Layout.stackAddr
  rw [L.resolve_stack i hi]

variable {L₁ L₂ : Layout W ctxSize} {s : VState} {m₁ m₂ : Machine W} {a₁ a₂ : BitVec 64}
  {n regno w : Nat}

/-- The same buffer without spilled registers in two runs. -/
def PlainBuf (L₁ L₂ : Layout W ctxSize) (s : VState) (a₁ a₂ : BitVec 64) (n : Nat) : Prop :=
  ∃ i, a₁ = L₁.stackAddr i ∧ a₂ = L₂.stackAddr i ∧ 0 < n ∧ i + n ≤ maxBpfStack ∧
    ∀ j < n, s.slot (i + j) = .misc

theorem PlainBuf.bufOk (h : Tracks L₁ L₂ s m₁ m₂) (hb : PlainBuf L₁ L₂ s a₁ a₂ n) :
    BufOk L₁ m₁ a₁ n := by
  obtain ⟨i, ha, -, hn, hend, hall⟩ := hb
  exact ⟨i, ha, hn, hend, fun j hj => h.stackW _ (by omega) (by rw [hall j hj]; decide)⟩

theorem PlainBuf.argVal_eq (h : Tracks L₁ L₂ s m₁ m₂) (hb : PlainBuf L₁ L₂ s a₁ a₂ n) :
    (ArgVal.buf (L₁.stackOff a₁) (m₁.stackBytes L₁ a₁ n) : ArgVal W) =
      .buf (L₂.stackOff a₂) (m₂.stackBytes L₂ a₂ n) := by
  obtain ⟨i, rfl, rfl, hn, hend, hall⟩ := hb
  simp only [stackBytes, stackOff_stackAddr (show i < maxBpfStack by omega)]
  congr 1
  refine map_congr_left fun j hj => ?_
  have hlt := mem_range.mp hj
  exact h.misc _ (by omega) (hall j hlt)

theorem PlainBuf.covers (hb : PlainBuf L₁ L₂ s a₁ a₂ n) (m : Machine W) {j : Nat}
    (hj : ArgVal.Covers (W := W) (.buf (L₁.stackOff a₁) (m.stackBytes L₁ a₁ n)) j) :
    s.slot j = .misc := by
  obtain ⟨i, rfl, -, hn, hend, hall⟩ := hb
  rw [stackBytes, stackOff_stackAddr (by omega)] at hj
  simp only [ArgVal.Covers, length_map, length_range] at hj
  have := hall (j - i) (by omega)
  rwa [Nat.add_sub_cancel' hj.1] at this

theorem checkStackBoundary_rel (h : Tracks L₁ L₂ s m₁ m₂) (hreg : regno < maxBpfReg) {n : Int}
    {u : Unit} (hc : checkStackBoundary s regno n = .ok u) :
    PlainBuf L₁ L₂ s (m₁.regs regno) (m₂.regs regno) n.toNat ∧ 0 < n := by
  unfold checkStackBoundary at hc
  simp only [ok_iff, not_not, not_or] at hc
  obtain ⟨-, htype, -, ⟨hhi, hlo, hend, hpos⟩, hall⟩ := hc
  have hxy := h.reg regno hreg
  simp only [RegRel, htype, BitVec.signExtend] at hxy
  rw [fp_add_ofInt (by omega), fp_add_ofInt (by omega)] at hxy
  refine ⟨⟨_, hxy.1, hxy.2, by omega, ?_, hall⟩, by omega⟩
  unfold stackIdx maxBpfStack at *
  omega

theorem toNat_toInt_of_pos {x : BitVec w} (h : 0 < x.toInt) : x.toInt.toNat = x.toNat := by
  rw [BitVec.toInt_eq_toNat_cond] at h ⊢
  have hlt := x.isLt
  split at h
  · simp_all
  · omega

theorem toNat_signExtend_of_pos {x : BitVec 32} (h : 0 < x.toInt) :
    (x.signExtend 64).toNat = x.toNat := by
  have hmsb : x.msb = false := by
    rw [BitVec.msb_eq_toInt]
    exact decide_eq_false (by omega)
  rw [BitVec.signExtend_eq_setWidth_of_msb_false hmsb, BitVec.toNat_setWidth]
  have := x.isLt
  omega

end Args

variable {W : World} {cfg : Cfg} {L L₁ L₂ : Layout W cfg.ops.ctxSize} {s s' : VState}
  {m m₁ m₂ : Machine W} {o : Option W.MapId} {mapp mapp' map : BitVec 64} {f : BitVec 32}

/-- One argument: it meets the prototype, the remembered map is the one passed, its buffer is
plain, and the helper cannot tell two runs apart. -/
structure ArgRel (L₁ L₂ : Layout W cfg.ops.ctxSize) (s : VState)
    (m₁ m₂ : Machine W) (o : Option W.MapId) (regno : Nat) (t : ArgType)
    (mapp : BitVec 64) : Prop where
  ok : ArgOk L₁ m₁ o regno t
  written : t ≠ .dontcare → m₁.regW regno = true
  mapp : MapRel L₁ mapp (if t = .constMapPtr then L₁.mapAt (m₁.regs regno) else o)
  plain : ∀ j, (m₁.argVal L₁ o regno t).Covers j → s.slot j = .misc
  eq : m₁.argVal L₁ o regno t = m₂.argVal L₂ o regno t
  map : t = .constMapPtr →
    ∃ k, L₁.mapAt (m₁.regs regno) = some k ∧ L₂.mapAt (m₂.regs regno) = some k
  ctx : t = .ptrToCtx → m₁.regs regno = L₁.ctx ∧ m₂.regs regno = L₂.ctx
  number : t = .anything → m₁.regs regno = m₂.regs regno

theorem lastMap_cons_argVal (regno : Nat) (t : ArgType) (rest : List (ArgVal W)) :
    (lastMap (m.argVal L o regno t :: rest)) =
      if t = .constMapPtr then
        (lastMap rest).or (L.mapAt (m.regs regno))
      else lastMap rest := by
  cases t <;> rfl

structure ArgsRel (L₁ L₂ : Layout W cfg.ops.ctxSize) (s : VState) (m₁ m₂ : Machine W)
    (o : Option W.MapId) (args : List (Nat × ArgType)) (mapp : BitVec 64) : Prop where
  ok : ArgsOk L₁ m₁ o args
  mapp : MapRel L₁ mapp ((lastMap (m₁.argVals L₁ o args)).or o)
  plain : ∀ a ∈ m₁.argVals L₁ o args, ∀ j, a.Covers j → s.slot j = .misc
  eq : m₁.argVals L₁ o args = m₂.argVals L₂ o args
  each : ∀ a ∈ args, ∃ o' mapp', ArgRel L₁ L₂ s m₁ m₂ o' a.1 a.2 mapp'

theorem Tracks.helperWrites (h : Tracks L₁ L₂ s m₁ m₂) {writes : Nat → Option (BitVec 8)}
    (hw : ∀ j b, writes j = some b → s.slot j = .misc) (heap : Heap W) :
    Tracks L₁ L₂ s
      { m₁ with
        heap := heap
        stack := fun j => (writes j).getD (m₁.stack j)
        stackW := fun j => (writes j).isSome || m₁.stackW j }
      { m₂ with
        heap := heap
        stack := fun j => (writes j).getD (m₂.stack j)
        stackW := fun j => (writes j).isSome || m₂.stackW j } := by
  have hload : ∀ (m : Machine W) k, s.Spilled k →
      loadLE (fun j => (writes j).getD (m.stack j)) (8 * k) 8 = loadLE m.stack (8 * k) 8 := by
    intro m k hsp
    refine loadLE_congr fun j hlo hhi => ?_
    cases hj : writes j with
    | none => rfl
    | some b =>
      have hslot := hsp (j - 8 * k) (by omega)
      rw [Nat.add_sub_cancel' hlo, hw j b hj] at hslot
      cases hslot
  refine ⟨h.fp, h.reg, fun i hi hmisc => ?_, fun k hk hsp => ?_, h.fpW, h.regW, fun i hi hne => ?_⟩
  · cases hwi : writes i with
    | none => simpa [hwi] using h.misc i hi hmisc
    | some b => simp [hwi]
  · rw [hload m₁ k hsp, hload m₂ k hsp]
    exact h.spill k hk hsp
  · simp [h.stackW i hi hne]

variable (L₂) in
theorem retVal_rel {args : List (ArgVal W)} {t : RetType} {r : RetVal W} (hret : RetOk W args t r)
    (hlast : MapRel L₁ map (lastMap args)) (hc : setReturnReg s t map = .ok s') :
    ∃ v, s' = s.setReg 0 v ∧ RegRel L₁ L₂ v (L₁.retVal r) (L₂.retVal r) := by
  cases t with
  | integer =>
    obtain ⟨x, rfl⟩ := hret
    rw [setReturnReg, pure_eq_ok] at hc
    exact ⟨_, hc.symm, rfl⟩
  | void =>
    rw [setReturnReg, pure_eq_ok] at hc
    exact ⟨_, hc.symm, trivial⟩
  | ptrToMapValueOrNull =>
    simp only [setReturnReg, ok_iff] at hc
    obtain ⟨-, -, rfl⟩ := hc
    refine ⟨_, rfl, ?_⟩
    rcases hret with rfl | ⟨v, rfl, hv⟩
    · exact .inl ⟨rfl, rfl⟩
    · rw [hv] at hlast
      exact .inr ⟨v, rfl, rfl, hlast⟩

/-- The programs in the program arrays of two systems. -/
def ArraysRel (P : List Insn → List Insn → Prop) (arrays₁ arrays₂ : ProgArrays W) : Prop :=
  ∀ k i, (arrays₁ k i = none ∧ arrays₂ k i = none) ∨
    ∃ p₁ p₂, arrays₁ k i = some p₁ ∧ arrays₂ k i = some p₂ ∧ P p₁ p₂

section Checks

variable (hnum : cfg.allowPtrLeaks = false ∨ m₁ = m₂) (hmap : cfg.map = L₁.mapOf)
  (h : Tracks L₁ L₂ s m₁ m₂)

include hnum hmap h

theorem checkFuncArg_rel {regno : Nat} (hreg : regno < maxBpfReg) {t : ArgType}
    (ho : MapRel L₁ mapp o) (hc : checkFuncArg cfg s regno t mapp = .ok mapp') :
    ArgRel L₁ L₂ s m₁ m₂ o regno t mapp' := by
  have hxy := h.reg regno hreg
  cases t with
  | dontcare =>
    cases hc
    exact ⟨trivial, fun hne => absurd rfl hne, ho, (by rintro _ ⟨⟩), rfl, (by rintro ⟨⟩),
      (by rintro ⟨⟩), (by rintro ⟨⟩)⟩
  | anything =>
    simp only [checkFuncArg, ok_iff, Bool.not_eq_true] at hc
    obtain ⟨-, hinit, -, hp, rfl⟩ := hc
    have hw := h.regW regno hreg hinit
    have heq := h.number hnum hreg hp
    exact ⟨hw, fun _ => hw, ho, (by rintro _ ⟨⟩), by simp [argVal, heq], (by rintro ⟨⟩),
      (by rintro ⟨⟩), fun _ => heq⟩
  | constMapPtr =>
    simp only [checkFuncArg, ok_iff, not_not] at hc
    obtain ⟨-, hinit, -, htype, rfl⟩ := hc
    simp only [RegRel, htype, expectedType] at hxy
    obtain ⟨hptr, k, hk1, hk2⟩ := hxy
    have hmaps : L₁.mapAt (m₁.regs regno) = some k ∧ L₂.mapAt (m₂.regs regno) = some k := by
      rw [hk1, hk2]
      exact ⟨L₁.mapAt_map k, L₂.mapAt_map k⟩
    refine ⟨⟨k, hk1⟩, fun _ => h.regW regno hreg hinit, ?_, (by rintro _ ⟨⟩), ?_,
      fun _ => ⟨k, hmaps⟩, (by rintro ⟨⟩), (by rintro ⟨⟩)⟩
    · rw [if_pos rfl, hmaps.1, ← hptr, hk1]
      exact rfl
    · simp [argVal, hmaps.1, hmaps.2]
  | ptrToCtx =>
    simp only [checkFuncArg, ok_iff, not_not] at hc
    obtain ⟨-, hinit, -, htype, rfl⟩ := hc
    simp only [RegRel, htype, expectedType] at hxy
    refine ⟨hxy.1, fun _ => h.regW regno hreg hinit, ho, (by rintro _ ⟨⟩), ?_, (by rintro ⟨⟩),
      fun _ => hxy, (by rintro ⟨⟩)⟩
    simp [argVal, hxy.1, hxy.2]
  | ptrToStack =>
    simp only [checkFuncArg, ok_iff, not_not] at hc
    obtain ⟨-, hinit, -, htype, rfl⟩ := hc
    simp only [RegRel, htype, expectedType] at hxy
    refine ⟨⟨_, hxy.1⟩, fun _ => h.regW regno hreg hinit, ho, (by rintro _ ⟨⟩), ?_,
      (by rintro ⟨⟩), (by rintro ⟨⟩), (by rintro ⟨⟩)⟩
    rw [argVal, argVal, hxy.1, hxy.2, BitVec.add_comm L₁.fp,
      BitVec.add_comm L₂.fp, BitVec.add_sub_cancel, BitVec.add_sub_cancel]
  | ptrToMapKey | ptrToMapValue =>
    simp only [checkFuncArg, ok_iff] at hc
    obtain ⟨-, hinit, -, -, -, hne, u, hbound, rfl⟩ := hc
    obtain ⟨hbuf, hpos⟩ := checkStackBoundary_rel h hreg hbound
    cases o with
    | none => exact absurd ho hne
    | some k =>
      obtain rfl : mapp = L₁.map k := ho
      rw [hmap, mapOf_map] at hbuf hpos
      rw [toNat_toInt_of_pos hpos] at hbuf
      exact ⟨⟨k, rfl, hbuf.bufOk h⟩, fun _ => h.regW regno hreg hinit, rfl,
        fun j hj => hbuf.covers m₁ hj, hbuf.argVal_eq h, (by rintro ⟨⟩), (by rintro ⟨⟩),
        (by rintro ⟨⟩)⟩
  | constStackSize =>
    simp only [checkFuncArg, ok_iff, not_not] at hc
    obtain ⟨-, hinit, -, htype, -, h0, u, hbound, rfl⟩ := hc
    simp only [RegRel, htype, expectedType] at hxy
    obtain ⟨hbuf, hpos⟩ := checkStackBoundary_rel h (show regno - 1 < maxBpfReg by omega) hbound
    rw [toNat_toInt_of_pos hpos, ← toNat_signExtend_of_pos hpos, ← hxy.1] at hbuf
    refine ⟨hbuf.bufOk h, fun _ => h.regW regno hreg hinit, ho, fun j hj => hbuf.covers m₁ hj, ?_,
      (by rintro ⟨⟩), (by rintro ⟨⟩), (by rintro ⟨⟩)⟩
    rw [argVal, hbuf.argVal_eq h, argVal, hxy.1, hxy.2]

theorem checkFuncArgs_rel {args : List (Nat × ArgType)} (hregs : ∀ a ∈ args, a.1 < maxBpfReg)
    (ho : MapRel L₁ mapp o) (hc : checkFuncArgs cfg s args mapp = .ok mapp') :
    ArgsRel L₁ L₂ s m₁ m₂ o args mapp' := by
  induction args generalizing mapp o with
  | nil =>
    cases hc
    exact ⟨trivial, by simpa [argVals, lastMap] using ho, (by simp [argVals]), rfl, (by simp)⟩
  | cons a rest ih =>
    obtain ⟨regno, t⟩ := a
    simp only [checkFuncArgs, bind_eq_ok] at hc
    obtain ⟨mapp₁, harg, hrest⟩ := hc
    have hfst := checkFuncArg_rel hnum hmap h (hregs (regno, t) mem_cons_self) ho harg
    have hsnd := ih (fun a ha => hregs a (mem_cons_of_mem _ ha)) hfst.mapp hrest
    have hnext : (if t = .constMapPtr then L₁.mapAt (m₁.regs regno) else o) =
        if t = .constMapPtr then L₂.mapAt (m₂.regs regno) else o := by
      by_cases ht : t = .constMapPtr
      · obtain ⟨k, hk1, hk2⟩ := hfst.map ht
        rw [hk1, hk2]
      · rw [if_neg ht, if_neg ht]
    refine ⟨⟨hfst.ok, hsnd.ok⟩, ?_, ?_, ?_, ?_⟩
    · have hm := hsnd.mapp
      simp only [argVals]
      rw [lastMap_cons_argVal]
      by_cases ht : t = .constMapPtr
      · obtain ⟨k, hk1, -⟩ := hfst.map ht
        simp only [if_pos ht, hk1] at hm ⊢
        rwa [Option.or_assoc]
      · simpa only [if_neg ht] using hm
    · exact forall_mem_cons.mpr ⟨hfst.plain, hsnd.plain⟩
    · simp only [argVals]
      rw [hfst.eq, hsnd.eq, hnext]
    · exact forall_mem_cons.mpr ⟨⟨_, _, hfst⟩, hsnd.each⟩

theorem checkCall_cases (hc : checkCall cfg s f = .ok s') :
    ∃ fn map, cfg.ops.getFuncProto f.toNat = some fn ∧ ArgsRel L₁ L₂ s m₁ m₂ none fn.args map ∧
        MapRel L₁ map (lastMap (m₁.argVals L₁ none fn.args)) ∧
        setReturnReg (resetCallerSaved s) fn.retType map = .ok s' ∧
        checkMapFuncCompatibility cfg map f.toNat = .ok () := by
  unfold checkCall at hc
  simp only [ok_iff] at hc
  obtain ⟨fn, hfn, map, hargs, s₁, hret, ⟨⟩, hcompat, rfl⟩ := hc
  have hrel : ArgsRel L₁ L₂ s m₁ m₂ none fn.args map :=
    checkFuncArgs_rel hnum hmap h (by simp [FuncProto.args, maxBpfReg]) rfl hargs
  have hlast := hrel.mapp
  rw [Option.or_none] at hlast
  refine ⟨fn, map, ?_, hrel, hlast, hret, hcompat⟩
  unfold findFuncProto at hfn
  simp only [ok_iff] at hfn
  obtain ⟨-, -, hfn⟩ := hfn
  split at hfn
  · cases hfn
  · next fn' hproto =>
    simp only [ok_iff] at hfn
    obtain ⟨-, -, rfl⟩ := hfn
    exact hproto

omit hnum h in
theorem checkMapFuncCompatibility_ok {args : List (ArgVal W)} {f : Nat}
    (hrel : MapRel L₁ map (lastMap args)) (hc : checkMapFuncCompatibility cfg map f = .ok ()) :
    MapFuncOk args f := by
  intro l hl hf k hk
  rw [hk] at hrel
  subst hrel
  unfold checkMapFuncCompatibility at hc
  rw [if_neg (L₁.map_ne_zero k), rejectIf_eq_ok, hmap, mapOf_map] at hc
  by_contra hne
  exact hc ⟨l, hl, hf, hne⟩

theorem checkCall_callOk (hc : checkCall cfg s f = .ok s') :
    CallOk cfg.ops L₁ m₁ f.toNat ∧
      ∀ fn, cfg.ops.getFuncProto f.toNat = some fn → ∀ r ∈ fn.argRegs, m₁.regW r = true := by
  obtain ⟨fn, map, hfn, hargs, hrel, -, hcompat⟩ := checkCall_cases hnum hmap h hc
  refine ⟨⟨fn, hfn, hargs.ok, checkMapFuncCompatibility_ok hmap hrel hcompat⟩, ?_⟩
  intro fn' hfn' r hr
  cases hfn.symm.trans hfn'
  simp only [argRegs, mem_map, mem_filter, decide_eq_true_eq] at hr
  obtain ⟨a, ⟨ha, hne⟩, rfl⟩ := hr
  obtain ⟨_, _, harg⟩ := hargs.each a ha
  exact harg.written hne

theorem checkCall_call_rel (hal : Aligned m₁ m₂) (env : Env W cfg.ops) {insn : Insn}
    (hc : checkCall cfg s insn.imm = .ok s') :
    ∃ m₁' m₂', m₁.call L₁ env insn = .next m₁' ∧ m₂.call L₂ env insn = .next m₂' ∧
        Tracks L₁ L₂ s' m₁' m₂' ∧ Aligned m₁' m₂' ∧
        m₁'.prog = m₁.prog ∧ m₂'.prog = m₂.prog ∧ m₁'.pc = m₁.pc + 1 := by
  obtain ⟨fn, map, hfn, hargs, hlast, hret, -⟩ := checkCall_cases hnum hmap h hc
  have hretOk := env.ret_ok insn.imm.toNat fn (m₁.argVals L₁ none fn.args) m₁.heap hfn
  unfold call
  rw [hfn]
  dsimp only
  rw [← hargs.eq, ← hal.heap]
  generalize hres : env.helper insn.imm.toNat (m₁.argVals L₁ none fn.args) m₁.heap = res at hretOk
  have hw : ∀ j b, res.writes j = some b → s.slot j = .misc := by
    intro j b hj
    rw [← hres] at hj
    obtain ⟨a, ha, hcov⟩ := env.writes_ok _ _ _ j b hj
    exact hargs.plain a ha j hcov
  obtain ⟨v, rfl, hv⟩ := retVal_rel L₂ hretOk hlast hret
  refine ⟨_, _, rfl, rfl, ((h.helperWrites hw res.heap).call hv).advance 0, ?_, rfl, rfl, ?_⟩
  · exact ⟨by simp [advance, setReg, scratch, hal.pc], hal.tailCallCnt, rfl⟩
  · simp [advance, setReg, scratch]

theorem checkCall_tailCall_rel (hal : Aligned m₁ m₂)
    {P : List Insn → List Insn → Prop} {arrays₁ arrays₂ : ProgArrays W}
    (harr : ArraysRel P arrays₁ arrays₂) (hf : f.toNat = funcTailCall)
    (hc : checkCall cfg s f = .ok s') :
    ∃ m₁' m₂', m₁.tailCall L₁ arrays₁ = .next m₁' ∧
        m₂.tailCall L₂ arrays₂ = .next m₂' ∧ Aligned m₁' m₂' ∧
        ((Tracks L₁ L₂ s' m₁' m₂' ∧ m₁'.prog = m₁.prog ∧
            m₂'.prog = m₂.prog ∧ m₁'.pc = m₁.pc + 1) ∨
          P m₁'.prog m₂'.prog ∧ Tracks L₁ L₂ initRegState m₁' m₂' ∧ m₁'.pc = 0) := by
  obtain ⟨fn, map, hfn, hargs, -, hret, -⟩ := checkCall_cases hnum hmap h hc
  rw [hf] at hfn
  obtain rfl := cfg.ops.tail_call fn hfn
  obtain ⟨_, _, hctx⟩ := hargs.each (1, .ptrToCtx) (by simp [args, bpfTailCallProto])
  obtain ⟨_, _, hmapReg⟩ :=
    hargs.each (2, .constMapPtr) (by simp [args, bpfTailCallProto])
  obtain ⟨_, _, hidx⟩ := hargs.each (3, .anything) (by simp [args, bpfTailCallProto])
  obtain ⟨k, hk1, hk2⟩ := hmapReg.map rfl
  have hidx := hidx.number rfl
  simp only [bpfTailCallProto, setReturnReg, pure_eq_ok] at hret
  -- the call falls through with R1 to R5 scratched
  have hout : Tracks L₁ L₂ s' m₁.scratch m₂.scratch := by
    subst hret
    exact h.resetCallerSaved.refineReg trivial fun hne => absurd rfl hne
  unfold tailCall
  simp only [hk1, hk2, ← hidx, ← hal.tailCallCnt]
  have hpc : m₁.scratch.pc + 0 + 1 = m₁.pc + 1 := by
    simp [scratch]
  have hpcs : m₁.scratch.pc + 0 + 1 = m₂.scratch.pc + 0 + 1 := by
    simp [scratch, hal.pc]
  have hfall : Aligned (m₁.scratch.advance 0) (m₂.scratch.advance 0) :=
    ⟨hpcs, hal.tailCallCnt, hal.heap⟩
  split
  · exact ⟨_, _, rfl, rfl, hfall, Or.inl ⟨hout.advance 0, rfl, rfl, hpc⟩⟩
  split
  · exact ⟨_, _, rfl, rfl, hfall, Or.inl ⟨hout.advance 0, rfl, rfl, hpc⟩⟩
  rcases harr k (m₁.regs 3).toNat with ⟨h1, h2⟩ | ⟨p₁, p₂, h1, h2, hP⟩
  · rw [h1, h2]
    exact ⟨_, _, rfl, rfl, ⟨hpcs, rfl, hal.heap⟩,
      Or.inl ⟨hout.congr rfl rfl rfl rfl rfl rfl, rfl, rfl, hpc⟩⟩
  · rw [h1, h2]
    refine ⟨_, _, rfl, rfl, ⟨rfl, rfl, hal.heap⟩, Or.inr ⟨hP, ?_, rfl⟩⟩
    exact tracks_initRegState h.fp (hctx.ctx rfl) h.fpW (hctx.written nofun)

end Checks

end LinuxKernel.Bpf
