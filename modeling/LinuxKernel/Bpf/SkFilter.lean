import LinuxKernel.Bpf.Safety

/-!
# Socket filters

The program type of eBPF socket filters, `sk_filter_ops` of `net/core/filter.c`,
and a layout in which such programs can be run: a stack and a context, no maps.
-/

namespace LinuxKernel.Bpf

/-- `sk_filter_func_proto()`; `sysAdmin` is `capable(CAP_SYS_ADMIN)`. -/
def skFilterFuncProto (sysAdmin : Bool) (funcId : Nat) : Option FuncProto :=
  match funcId with
  | 1 =>
    -- bpf_map_lookup_elem_proto
    some { retType := .ptrToMapValueOrNull
           arg1Type := .constMapPtr
           arg2Type := .ptrToMapKey }
  | 2 =>
    -- bpf_map_update_elem_proto
    some { retType := .integer
           arg1Type := .constMapPtr
           arg2Type := .ptrToMapKey
           arg3Type := .ptrToMapValue
           arg4Type := .anything }
  | 3 =>
    -- bpf_map_delete_elem_proto
    some { retType := .integer
           arg1Type := .constMapPtr
           arg2Type := .ptrToMapKey }
  | 5 =>
    -- bpf_ktime_get_ns_proto
    some { gplOnly := true, retType := .integer }
  | 6 =>
    -- bpf_trace_printk_proto
    if sysAdmin then
      some { gplOnly := true
             retType := .integer
             arg1Type := .ptrToStack
             arg2Type := .constStackSize }
    else none
  | 7 =>
    -- bpf_get_prandom_u32_proto
    some { retType := .integer }
  | 8 =>
    -- bpf_get_smp_processor_id_proto
    some { retType := .integer }
  | 12 => some bpfTailCallProto
  | _ => none

/-- `sizeof(struct __sk_buff)`. -/
def sizeofSkBuff : Nat := 76

def isValidAccess (off : Int) (size : Nat) : Bool :=
  if off < 0 ∨ (sizeofSkBuff : Int) ≤ off then false
  else if off % size ≠ 0 then false
  else if size ≠ 4 then false
  else true

/-- `sk_filter_is_valid_access()`; `tc_classid` is at 72, `cb[0]` at 48, `cb[4]` at 64. -/
def skFilterIsValidAccess (off : Int) (size : Nat) (t : AccessType) : Bool :=
  if off = 72 then false
  else if t = .write ∧ ¬ (48 ≤ off ∧ off ≤ 64) then false
  else isValidAccess off size

theorem isValidAccess_in {off : Int} {size : Nat} (h : isValidAccess off size = true) :
    0 ≤ off ∧ off + (size : Int) ≤ (sizeofSkBuff : Int) := by
  unfold isValidAccess at h
  split at h
  · cases h
  split at h
  · cases h
  split at h
  · cases h
  · next hoff halign hsize =>
    have h4 : size = 4 := not_not.mp hsize
    subst h4
    unfold sizeofSkBuff at *
    omega

def skFilterOps (sysAdmin : Bool) : VerifierOps where
  getFuncProto := skFilterFuncProto sysAdmin
  isValidAccess := skFilterIsValidAccess
  ctxSize := sizeofSkBuff
  valid_in_ctx := by
    intro off size t h
    unfold skFilterIsValidAccess at h
    split at h
    · cases h
    · split at h
      · cases h
      · exact isValidAccess_in h
  tail_call := by
    intro fn h
    simp only [skFilterFuncProto, funcTailCall, Option.some.injEq] at h
    exact h.symm

def noMaps : World where
  MapId := Empty
  ValId := Empty
  maps := fun k => k.elim
  valMap := fun v => v.elim
  decEqVal := fun v => v.elim

/-- The stack below `fp` and the context at `ctx`. -/
def flatLayout (ctxSize : Nat) (fp ctx : BitVec 64) (hsize : ctxSize < 2 ^ 64)
    (hdisj : ∀ i < ctxSize,
        maxBpfStack ≤ (ctx + BitVec.ofNat 64 i - (fp - BitVec.ofNat 64 maxBpfStack)).toNat) :
    Layout noMaps ctxSize where
  fp := fp
  ctx := ctx
  map := fun k => k.elim
  val := fun v => v.elim
  resolve := fun a =>
    let i := (a - (fp - BitVec.ofNat 64 maxBpfStack)).toNat
    let j := (a - ctx).toNat
    if i < maxBpfStack then some (.stack, i)
    else if j < ctxSize then some (.ctx, j)
    else none
  mapAt := fun _ => none
  resolve_stack := by
    intro i hi
    have heq : (BitVec.ofNat 64 i).toNat = i := by
      rw [BitVec.toNat_ofNat]
      exact Nat.mod_eq_of_lt (by unfold maxBpfStack at hi; omega)
    rw [BitVec.add_comm, BitVec.add_sub_cancel]
    simp only [heq, if_pos hi]
  resolve_ctx := by
    intro i hi
    have heq : (BitVec.ofNat 64 i).toNat = i := by
      rw [BitVec.toNat_ofNat]
      exact Nat.mod_eq_of_lt (by omega)
    have hstack := hdisj i hi
    rw [if_neg (by omega), BitVec.add_comm ctx, BitVec.add_sub_cancel]
    simp only [heq, if_pos hi]
  resolve_val := fun v => v.elim
  mapAt_map := fun k => k.elim
  map_ne_zero := fun k => k.elim
  val_ne_zero := fun v => v.elim

/-- Nothing changes, and helpers return zero. -/
def quietEnv (ops : VerifierOps) : Env noMaps ops where
  perturb := id
  helper := fun f _ h =>
    { ret :=
        match (ops.getFuncProto f).map FuncProto.retType with
        | some .ptrToMapValueOrNull => .null
        | _ => .int 0
      heap := h
      writes := fun _ => none }
  ret_ok := by
    intro f fn args h hfn
    rw [hfn]
    cases hret : fn.retType <;> simp [hret, RetOk]
  writes_ok := by
    intro f args h j b hb
    cases hb

def zeroHeap : Heap noMaps where
  ctx := fun _ => 0
  val := fun v => v.elim
  pkt := fun _ _ => none

/-- No program array holds a program. -/
def noProgs : ProgArrays noMaps :=
  fun k => k.elim

/-- The verifier's view of a socket filter. -/
def skFilterCfg (leaks : Bool) : Cfg where
  ops := skFilterOps leaks
  progType := .socketFilter
  gplCompatible := true
  allowPtrLeaks := leaks
  map := fun _ => default

theorem sizeofSkBuff_lt : sizeofSkBuff < 2 ^ 64 := by
  decide

def skLayout (leaks : Bool) : Layout noMaps (skFilterCfg leaks).ops.ctxSize :=
  flatLayout sizeofSkBuff 0x10000 0x20000 sizeofSkBuff_lt (by decide)

/-- No file descriptor is a map. -/
def noFds : BitVec 32 → Except Errno noMaps.MapId :=
  fun _ => .error .einval

theorem Loaded.of_check {W : World} {cfg : Cfg} {L : Layout W cfg.ops.ctxSize} (gpl leaks : Bool)
    (fds : BitVec 32 → Except Errno W.MapId) (prog : List Insn) {insns : List Insn}
    (h : (bpfCheck (cfg.withRights gpl leaks) (L.mapGet fds) prog).toOption.map
        Prod.fst = some insns) : Loaded cfg L insns := by
  obtain ⟨trace, hc⟩ := Lib.ok_of_toOption_map_fst h
  exact ⟨gpl, leaks, fds, prog, trace, hc⟩

/-- The start of a socket filter on an empty packet. -/
def skInit (leaks : Bool) (prog : List Insn) : Machine noMaps :=
  Machine.init (skLayout leaks) prog zeroHeap (fun _ => 0) (fun _ => 0)

theorem skStep {leaks : Bool} {C : Machine noMaps → Prop} {m₀ m m' : Machine noMaps}
    (hrun : Machine.Runs (skFilterCfg leaks) (skLayout leaks) C m₀ m) (hC : C m)
    (hstep : m.step (skLayout leaks) (quietEnv (skFilterCfg leaks).ops) noProgs = .next m') :
    Machine.Runs (skFilterCfg leaks) (skLayout leaks) C m₀ m' :=
  hrun.tail ⟨hC, quietEnv _, noProgs, fun k => k.elim, hstep⟩

end LinuxKernel.Bpf
