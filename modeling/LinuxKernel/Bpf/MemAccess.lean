import LinuxKernel.Bpf.Safety

/-!
# Memory accesses that pass their check

`check_mem_access()` accepts a load or store through a pointer to a map value, to the context or
into the stack.  `checkMemAccess_rel` says which bytes of which object the interpreter then
touches, in two runs.  In the stack cases (`check_stack_write()`, `check_stack_read()`) the new
state tracks the machines after the access.
-/

namespace LinuxKernel.Bpf

open Lib Layout

variable {W : World} {ctxSize r : Nat} {off : Int}

section Locate

variable {L : Layout W ctxSize}

variable {n i : Nat}

theorem fp_add_ofInt (hlo : -(maxBpfStack : Int) ≤ off) :
    L.fp + BitVec.ofInt 64 off = L.stackAddr (stackIdx off) := by
  have hcast : ((stackIdx off : Nat) : Int) = off + maxBpfStack := by
    unfold stackIdx
    omega
  have hnat :
      BitVec.ofNat 64 (stackIdx off) = BitVec.ofInt 64 off + BitVec.ofNat 64 maxBpfStack := by
    rw [← BitVec.ofInt_natCast, hcast, BitVec.ofInt_add, BitVec.ofInt_natCast]
  unfold stackAddr
  rw [hnat, BitVec.add_comm (BitVec.ofInt 64 off), ← BitVec.add_assoc, BitVec.sub_add_cancel]

theorem stackIdx_add_le {size : Size} (hhi : off < 0) (halign : off % (size.bytes : Int) = 0) :
    stackIdx off + size.bytes ≤ maxBpfStack := by
  unfold stackIdx maxBpfStack
  cases size <;> simp only [Size.bytes] at halign ⊢ <;> omega

theorem locate_stack (hlo : -(maxBpfStack : Int) ≤ off) (hn : 0 < n)
    (hsize : stackIdx off + n ≤ maxBpfStack) :
    L.locate (L.fp + BitVec.ofInt 64 off) n = some (.stack, stackIdx off) := by
  unfold locate
  rw [fp_add_ofInt hlo, stackAddr, L.resolve_stack _ (by omega)]
  exact if_pos hsize

theorem locate_val {v : W.ValId} (hn : 0 < n) (hsize : i + n ≤ W.size ctxSize (.val v)) :
    L.locate (L.val v + BitVec.ofNat 64 i) n = some (.val v, i) := by
  unfold locate
  rw [L.resolve_val v i (by omega)]
  exact if_pos hsize

theorem locate_ctx (hn : 0 < n) (hsize : i + n ≤ ctxSize) :
    L.locate (L.ctx + BitVec.ofNat 64 i) n = some (.ctx, i) := by
  unfold locate
  rw [L.resolve_ctx i (by omega)]
  exact if_pos hsize

@[simp] theorem mapOf_map (k : W.MapId) : L.mapOf (L.map k) = W.maps k := by
  unfold mapOf
  rw [L.mapAt_map]

end Locate

variable {cfg : Cfg} {s s' : VState} {size : Size} {valueRegno : Option Nat}

section Access

/-- A place in an object, in the stack by its offset from the frame pointer. -/
inductive Target (W : World)
  | val (v : W.ValId) (i : Nat)
  | ctx (i : Nat)
  | stack (off : Int)

def Layout.target {ctxSize : Nat} (L : Layout W ctxSize) : Target W → BitVec 64
  | .val v i => L.val v + BitVec.ofNat 64 i
  | .ctx i => L.ctx + BitVec.ofNat 64 i
  | .stack off => L.fp + BitVec.ofInt 64 off

/-- Where an access of `n` bytes may go, and the state after its check. -/
inductive TargetOk (cfg : Cfg) (s : VState) (n : Nat) (t : AccessType)
    (valueRegno : Option Nat) (s' : VState) : Target W → Prop
  | val (v : W.ValId) (i : Nat) (hsize : i + n ≤ (W.maps (W.valMap v)).valueSize.toNat)
      (hleak : leaksValue cfg s t valueRegno = false)
      (hs : s' = markLoaded s t valueRegno) :
      TargetOk cfg s n t valueRegno s' (.val v i)
  | ctx (i : Nat) (hvalid : cfg.ops.isValidAccess i n t = true)
      (hleak : leaksValue cfg s t valueRegno = false)
      (hs : s' = markLoaded s t valueRegno) :
      TargetOk cfg s n t valueRegno s' (.ctx i)
  | stack (off : Int) (hlo : -(maxBpfStack : Int) ≤ off) (hhi : off < 0)
      (halign : off % (n : Int) = 0)
      (hwrite : t = .write →
          (cfg.allowPtrLeaks = false → s.slot (stackIdx off) = .spill → n = 8) ∧
          checkStackWrite s off n valueRegno = .ok s')
      (hread : t = .read → checkStackRead s off n valueRegno = .ok s') :
      TargetOk cfg s n t valueRegno s' (.stack off)

variable {x : BitVec 64} {regno : Nat}

/-- The stack cases of `check_mem_access()`, which compute the offset differently. -/
theorem checkStack_target {t : AccessType} (halign : off % (size.bytes : Int) = 0)
    (hdo : (do
      rejectIf (0 ≤ off ∨ off < -(maxBpfStack : Int)) .eacces
      match t with
      | .write => do
          rejectIf (cfg.allowPtrLeaks = false ∧ s.slot (stackIdx off) = .spill ∧ size.bytes ≠ 8)
            .eacces
          checkStackWrite s off size.bytes valueRegno
      | .read => checkStackRead s off size.bytes valueRegno) = (.ok s' : Except Errno VState)) :
    TargetOk (W := W) cfg s size.bytes t valueRegno s' (.stack off) := by
  simp only [ok_iff, not_or] at hdo
  obtain ⟨-, ⟨hhi, hlo⟩, hdo⟩ := hdo
  refine .stack off (by omega) (by omega) halign ?_ ?_
  · rintro rfl
    simp only [ok_iff, not_and, not_not] at hdo
    obtain ⟨-, hspill, hdo⟩ := hdo
    exact ⟨fun hleak hsl => hspill hleak hsl, hdo⟩
  · rintro rfl
    exact hdo

/-- `check_mem_access()` on a register that describes words of two runs: both access the same
place. -/
theorem checkMemAccess_rel {L₁ L₂ : Layout W cfg.ops.ctxSize} {t : AccessType} {y : BitVec 64}
    (hmap : cfg.map = L₁.mapOf) (hx : RegRel L₁ L₂ (s.regs regno) x y)
    (h : checkMemAccess cfg s regno off size t valueRegno = .ok s') :
    ∃ tgt : Target W, x + BitVec.ofInt 64 off = L₁.target tgt ∧
        y + BitVec.ofInt 64 off = L₂.target tgt ∧
        TargetOk cfg s size.bytes t valueRegno s' tgt := by
  unfold checkMemAccess at h
  simp only [ok_iff, not_not] at h
  obtain ⟨-, halign, h⟩ := h
  unfold RegRel at hx
  split at h
  · -- PTR_TO_MAP_VALUE
    next htype =>
    simp only [htype, reduceCtorEq, if_false] at hx h
    simp only [ok_iff, checkMapAccess, pure_eq_ok, not_or] at h
    obtain ⟨-, hleak, -, ⟨h0, hend⟩, rfl⟩ := h
    obtain ⟨v, rfl, rfl, hptr⟩ := hx
    rw [hmap, hptr, mapOf_map] at hend
    have hcast := Int.toNat_of_nonneg (show 0 ≤ off by omega)
    refine ⟨.val v off.toNat, ?_, ?_, .val v off.toNat (by omega) (by simpa using hleak) rfl⟩
    all_goals rw [target, ← BitVec.ofInt_natCast, hcast]
  · -- PTR_TO_CTX
    next htype =>
    simp only [htype, reduceCtorEq, if_false] at hx h
    simp only [ok_iff, checkCtxAccess, pure_eq_ok, Bool.not_eq_false] at h
    obtain ⟨-, hleak, -, hvalid, rfl⟩ := h
    obtain ⟨rfl, rfl⟩ := hx
    have h0 := (cfg.ops.valid_in_ctx _ _ _ hvalid).1
    have hcast := Int.toNat_of_nonneg (show 0 ≤ off by omega)
    refine ⟨.ctx off.toNat, ?_, ?_,
      .ctx off.toNat (by rw [hcast]; exact hvalid) (by simpa using hleak) rfl⟩
    all_goals rw [target, ← BitVec.ofInt_natCast, hcast]
  · -- FRAME_PTR
    next htype =>
    simp only [htype, reduceCtorEq, if_false] at hx h halign
    obtain ⟨rfl, rfl⟩ := hx
    exact ⟨.stack off, rfl, rfl, checkStack_target halign h⟩
  · -- PTR_TO_STACK
    next htype =>
    simp only [htype, if_true] at hx h halign
    obtain ⟨rfl, rfl⟩ := hx
    refine ⟨.stack _, ?_, ?_, checkStack_target halign h⟩
    all_goals rw [BitVec.add_assoc, BitVec.signExtend, ← BitVec.ofInt_add, Int.add_comm, target]
  · cases h

variable (m : Machine W)

def Machine.loadAt (n : Nat) : Target W → BitVec 64
  | .val v i => loadLE (m.heap.val v) i n
  | .ctx i => loadLE m.heap.ctx i n
  | .stack off => loadLE m.stack (stackIdx off) n

/-- The machine after a write to a place. -/
def Machine.storeAt (n : Nat) (w : BitVec 64) : Target W → Machine W
  | .val v i =>
    { m with
      heap := { m.heap with
        val := fun u =>
          if u = v then storeLE (m.heap.val v) i n w else m.heap.val u } }
  | .ctx i =>
    { m with heap := { m.heap with ctx := storeLE m.heap.ctx i n w } }
  | .stack off => m.writeStack (stackIdx off) n w

variable {L : Layout W cfg.ops.ctxSize} {t : AccessType} {tgt : Target W}

/-- The object of a place, and the offset in it. -/
def Target.obj : Target W → Obj W × Nat
  | .val v i => (.val v, i)
  | .ctx i => (.ctx, i)
  | .stack off => (.stack, stackIdx off)

variable (h : TargetOk cfg s size.bytes t valueRegno s' tgt)

include h

theorem TargetOk.locate_eq : L.locate (L.target tgt) size.bytes = some tgt.obj := by
  cases h with
  | val v i hsize hleak hs => exact locate_val size.bytes_pos hsize
  | ctx i hvalid hleak hs =>
    have hin := (cfg.ops.valid_in_ctx _ _ _ hvalid).2
    exact locate_ctx size.bytes_pos (by omega)
  | stack off hlo hhi halign hwrite hread =>
    exact locate_stack hlo size.bytes_pos (stackIdx_add_le hhi halign)

theorem TargetOk.load_eq : m.load L (L.target tgt) size.bytes = some (m.loadAt size.bytes tgt) := by
  rw [Machine.load, h.locate_eq]
  cases tgt <;> rfl

theorem TargetOk.store_eq (w : BitVec 64) :
    m.store L (L.target tgt) size.bytes w = some (m.storeAt size.bytes w tgt) := by
  rw [Machine.store, h.locate_eq]
  cases tgt <;> rfl

end Access

variable {m₁ m₂ : Machine W} {x y : BitVec 64}

/-- A register that the verifier lets an instruction read. -/
def VState.Readable (s : VState) (r : Nat) : Prop :=
  r < maxBpfReg ∧ (s.regs r).type ≠ .notInit

/-- The words stored in two runs: the register checked, or the same word. -/
def StoredRel (s : VState) (m₁ m₂ : Machine W) (x y : BitVec 64) : Option Nat → Prop
  | some r => s.Readable r ∧ x = m₁.regs r ∧ y = m₂.regs r
  | none => x = y

variable {L₁ L₂ : Layout W cfg.ops.ctxSize} {tgt : Target W}

variable (h : Tracks L₁ L₂ s m₁ m₂)

include h

/-- A non-pointer is the same in both runs, if pointers may not leak or there is only one run. -/
theorem Tracks.number (hnum : cfg.allowPtrLeaks = false ∨ m₁ = m₂) (hr : r < maxBpfReg)
    (hp : isPointerValue cfg s r = false) : m₁.regs r = m₂.regs r := by
  rcases hnum with hleaks | rfl
  · have hxy := h.reg r hr
    cases htype : (s.regs r).type <;> simp [isPointerValue, hleaks, htype, RegRel] at hp hxy
    · exact hxy
    · exact hxy.1.trans hxy.2.symm
  · rfl

/-- `check_stack_read()`: the bytes are written, and the new state of the destination describes the
loaded words. -/
theorem Tracks.stackRead (hhi : off < 0) (halign : off % (size.bytes : Int) = 0)
    (hc : checkStackRead s off size.bytes valueRegno = .ok s') :
    (∀ j < size.bytes, m₁.stackW (stackIdx off + j) = true) ∧
      ∃ r, s' = setValueReg s valueRegno r ∧
        RegRel L₁ L₂ r (loadLE m₁.stack (stackIdx off) size.bytes)
          (loadLE m₂.stack (stackIdx off) size.bytes) := by
  have hend := stackIdx_add_le hhi halign
  unfold checkStackRead at hc
  dsimp only at hc
  split at hc
  · simp only [ok_iff, not_not] at hc
    obtain ⟨-, h8, -, hall, rfl⟩ := hc
    rw [h8] at halign hend ⊢
    have hstart : 8 * (stackIdx off / 8) = stackIdx off := by
      unfold stackIdx maxBpfStack
      omega
    refine ⟨fun j hj => ?_, _, rfl, ?_⟩
    · exact h.stackW _ (by omega) (by rw [hall j hj]; decide)
    have hsp : s.Spilled (stackIdx off / 8) := by
      intro j hj
      rw [hstart]
      exact hall j hj
    have := h.spill (stackIdx off / 8) (by unfold maxBpfStack at *; omega) hsp
    rwa [hstart] at this
  simp only [ok_iff, not_not] at hc
  obtain ⟨-, hall, rfl⟩ := hc
  refine ⟨fun j hj => ?_, _, rfl, loadLE_congr fun j hlo hlt => ?_⟩
  · exact h.stackW _ (by omega) (by rw [hall j hj]; decide)
  · refine h.misc j (by omega) ?_
    have := hall (j - stackIdx off) (by omega)
    rwa [Nat.add_sub_cancel' hlo] at this

theorem Tracks.stackWrite (hnum : cfg.allowPtrLeaks = false ∨ m₁ = m₂)
    (halign : off % (size.bytes : Int) = 0) (hv : StoredRel s m₁ m₂ x y valueRegno)
    (hc : checkStackWrite s off size.bytes valueRegno = .ok s') :
    Tracks L₁ L₂ s' (m₁.writeStack (stackIdx off) size.bytes x)
      (m₂.writeStack (stackIdx off) size.bytes y) := by
  have hslot : stackIdx off + size.bytes ≤ 8 * (stackIdx off / 8) + 8 := by
    unfold stackIdx maxBpfStack
    cases size <;> simp only [Size.bytes] at halign ⊢ <;> omega
  unfold checkStackWrite at hc
  dsimp only at hc
  split at hc
  · next r hfilter =>
    simp only [ok_iff, not_not] at hc
    obtain ⟨-, h8, rfl⟩ := hc
    obtain ⟨rfl, -⟩ := Option.filter_eq_some_iff.mp hfilter
    obtain ⟨hr, rfl, rfl⟩ := hv
    rw [h8] at hslot ⊢
    exact h.writeStack hslot (by decide) (fun _ => ⟨rfl, h.reg r hr.1⟩) (by rintro ⟨⟩)
  next hfilter =>
  cases hc
  refine h.writeStack hslot size.bytes_pos (by rintro ⟨⟩) fun _ => ?_
  cases valueRegno with
  | none => exact hv
  | some r =>
    obtain ⟨hr, rfl, rfl⟩ := hv
    refine h.number hnum hr.1 ?_
    have hinit := hr.2
    cases htype : (s.regs r).type <;>
      simp_all [Option.filter, isSpillableRegtype, isPointerValue]

theorem TargetOk.accessOk {t : AccessType} (hok : TargetOk cfg s size.bytes t valueRegno s' tgt) :
    AccessOk cfg.ops L₁ m₁ (L₁.target tgt) size.bytes t := by
  cases hok with
  | val v i hsize hleak hs => exact .val v i rfl hsize (L₁.val_ne_zero v)
  | ctx i hvalid hleak hs => exact .ctx i rfl hvalid
  | stack off hlo hhi halign hwrite hread =>
    refine .stack (stackIdx off) (fp_add_ofInt hlo) (stackIdx_add_le hhi halign) fun ht => ?_
    exact (h.stackRead hhi halign (hread ht)).1

theorem TargetOk.tracks_load (hheap : m₁.heap = m₂.heap)
    (hok : TargetOk cfg s size.bytes .read valueRegno s' tgt) :
    ∃ r, s' = setValueReg s valueRegno r ∧
      RegRel L₁ L₂ r (m₁.loadAt size.bytes tgt) (m₂.loadAt size.bytes tgt) := by
  cases hok with
  | val _ _ _ _ hs | ctx _ _ _ hs =>
    refine ⟨_, hs, ?_⟩
    simp [Machine.loadAt, hheap, RegRel]
  | stack off hlo hhi halign hwrite hread => exact (h.stackRead hhi halign (hread rfl)).2

theorem TargetOk.tracks_store (hnum : cfg.allowPtrLeaks = false ∨ m₁ = m₂) (hal : Aligned m₁ m₂)
    (hv : StoredRel s m₁ m₂ x y valueRegno)
    (hok : TargetOk cfg s size.bytes .write valueRegno s' tgt) :
    Tracks L₁ L₂ s' (m₁.storeAt size.bytes x tgt) (m₂.storeAt size.bytes y tgt) ∧
      Aligned (m₁.storeAt size.bytes x tgt) (m₂.storeAt size.bytes y tgt) := by
  -- a store outside the stack is of a number
  have hword : leaksValue cfg s .write valueRegno = false → x = y := by
    intro hleak
    cases valueRegno with
    | none => exact hv
    | some r =>
      obtain ⟨hr, rfl, rfl⟩ := hv
      exact h.number hnum hr.1 (by simpa [leaksValue] using hleak)
  cases hok with
  | val _ _ _ hleak hs | ctx _ _ hleak hs =>
    obtain rfl := hword hleak
    subst hs
    refine ⟨h.congr rfl rfl rfl rfl rfl rfl, hal.pc, hal.tailCallCnt, ?_⟩
    simp [Machine.storeAt, hal.heap]
  | stack off hlo hhi halign hwrite hread =>
    exact ⟨h.stackWrite hnum halign hv (hwrite rfl).2, hal.pc, hal.tailCallCnt, hal.heap⟩

omit h

theorem storeAt_prog (m : Machine W) (n : Nat) (v : BitVec 64) (tgt : Target W) :
    (m.storeAt n v tgt).prog = m.prog ∧ (m.storeAt n v tgt).pc = m.pc := by
  cases tgt <;> exact ⟨rfl, rfl⟩

end LinuxKernel.Bpf
