import LinuxKernel.Asn1.Machine

/-!
# What the decoder makes of the results of actions

An action that fails ends the decoding, with the result of the action, except at the end
of a construct: there the result is dropped.  So the actions are obeyed exactly when no
action called at the end of a construct fails.
-/

namespace LinuxKernel.Asn1

open Lib

section Shapes

variable {Ctx : Type} {d : Decoder Ctx} {data : List UInt8} {s : State Ctx}

/-- How a step with a command of the kind calls an action and ends. -/
inductive Shape (kind : OpKind) (s : State Ctx) (o : Outcome Ctx) : Prop
  | quiet (hcall : o.call = none)
      (hret : ∀ v, o.result = .ok (.ret v) →
        v = 0 ∧ kind = .complete ∧ s.jumpStack = [] ∧ s.consStack = [])
  | failed (c : Call) (hcall : o.call = some c) (hkind : kind ≠ .endCons) (hneg : c.ret < 0)
      (hret : o.result = .ok (.ret c.ret))
  | accepted (c : Call) (hcall : o.call = some c) (hnonneg : 0 ≤ c.ret)
      (hret : ∀ v, o.result ≠ .ok (.ret v))
  | ended (c : Call) (s' : State Ctx) (hcall : o.call = some c) (hkind : kind = .endCons)
      (hnext : o.result = .ok (.next .ended s'))

variable {kind : OpKind} {s₀ s' : State Ctx}

theorem Shape.of_quiet {r : Except Fail (Result Ctx)} (h : ∀ v, r ≠ .ok (.ret v)) :
    Shape kind s ⟨none, r⟩ :=
  .quiet rfl fun v hv => absurd hv (h v)

theorem Shape.next (event : Event) (s' : State Ctx) : Shape kind s ⟨none, .ok (.next event s')⟩ :=
  .of_quiet nofun

theorem Shape.error (e : Fail) : Shape kind s ⟨none, .error e⟩ :=
  .of_quiet nofun

theorem actThen_shape {act tag : UInt8} {value : Nat} {rest : State Ctx → Except Fail (Result Ctx)}
    (hkind : kind ≠ .endCons) (hrest : ∀ s v, rest s ≠ .ok (.ret v)) :
    Shape kind s₀ (actThen d s act tag value rest) := by
  unfold actThen
  simp only
  split_ifs with hneg
  · exact .failed _ rfl hkind hneg rfl
  · exact .accepted _ rfl (Int.not_lt.mp hneg) fun v => hrest _ v

theorem skipData_ne_ret (n : Nat) (s : State Ctx) (v : Int) : skipData data n s ≠ .ok (.ret v) := by
  unfold skipData
  split_ifs
  · nofun
  · intro h
    obtain ⟨r, -, h⟩ := (bind_eq_ok _ _ _).mp h
    cases h
  · nofun

theorem endCons_shape (op : UInt8) (n : Nat) : Shape .endCons s (endCons d data op n s) := by
  unfold endCons
  split
  · exact .error _
  · exact .next _ _
  · split_ifs
    · exact .ended _ _ rfl rfl rfl
    · exact .next _ _

theorem act_shape (hkind : kind ≠ .endCons) (n : Nat) : Shape kind s₀ (act d n s) :=
  actThen_shape hkind nofun

theorem exec_shape (op : UInt8) (n : Nat) : Shape (opKind op) s (exec d data op n s) := by
  unfold exec
  cases hkind : opKind op with
  | matchAnyAct => exact actThen_shape (by decide) (skipData_ne_ret n)
  | matchAct => exact actThen_shape (by decide) (skipData_ne_ret n)
  | matchSkip => exact .of_quiet (skipData_ne_ret n s)
  | matchJump =>
    simp only
    split_ifs
    · exact .error _
    · exact .next _ _
  | condFail =>
    simp only
    split_ifs
    · exact .next _ _
    · exact .error _
  | complete =>
    simp only
    split_ifs with hstacks
    · exact .error _
    · refine .quiet rfl fun v h => ?_
      cases h
      have hempty := not_or.mp hstacks
      exact ⟨rfl, rfl, not_not.mp hempty.1, not_not.mp hempty.2⟩
  | endCons => exact endCons_shape op n
  | maybeAct =>
    simp only
    split_ifs
    · exact act_shape (by decide) n
    · exact .next _ _
  | act => exact act_shape (by decide) n
  | ret =>
    simp only
    split
    · exact .error _
    · exact .next _ _
  | reserved => exact .error _

theorem opKind_ne_complete {op : UInt8} (h : op ≤ matchesTag) : opKind op ≠ .complete := by
  have hle : op.toNat ≤ 27 := UInt8.le_iff_toNat_le.mp h
  unfold opKind
  split <;> first | omega | decide

theorem Shape.change {o : Outcome Ctx} (h : Shape kind s' o) (hkind : kind ≠ .complete) :
    Shape kind s o := by
  cases h with
  | quiet hcall hret => exact .quiet hcall fun v hv => absurd (hret v hv).2.1 hkind
  | failed c hcall hkind hneg hret => exact .failed c hcall hkind hneg hret
  | accepted c hcall hnonneg hret => exact .accepted c hcall hnonneg hret
  | ended c s' hcall hkind hnext => exact .ended c s' hcall hkind hnext

theorem step_shape (d : Decoder Ctx) (data : List UInt8) (s : State Ctx) :
    Shape (opKind (d.machine s.pc)) s (step d data s) := by
  unfold step
  split
  · exact .error _
  rename_i op n hop
  rw [← fetch_op hop]
  unfold stepOp
  split_ifs with htag hskip
  · exact .next _ _
  · split
    · exact .error _
    · exact .next _ _
    · exact (exec_shape op n).change (opKind_ne_complete htag)
  · exact exec_shape op n

end Shapes

variable {Ctx : Type} (d : Decoder Ctx) (data : List UInt8) (context : Ctx)

/-- Every state that the decoder reaches. -/
abbrev Reaches (calls : List Call) (s : State Ctx) (known : Bool) : Prop :=
  Run d data context (fun _ _ => True) calls s known

/-- A negative result of an action is returned at once; `0` means that no action failed, with both
stacks empty at `ASN1_OP_COMPLETE`. -/
def ActionsObeyed : Prop :=
  ∀ calls s known, Reaches d data context calls s known →
    (∀ c, (step d data s).call = some c → c.ret < 0 → (step d data s).result = .ok (.ret c.ret)) ∧
    ((step d data s).value = some 0 →
      (∀ c ∈ calls ++ (step d data s).call.toList, 0 ≤ c.ret) ∧
        opKind (d.machine s.pc) = .complete ∧ s.jumpStack = [] ∧ s.consStack = [])

/-- An action that the end of a construct calls does not fail. -/
def EndActionAccepts (s : State Ctx) : Prop :=
  opKind (d.machine s.pc) = .endCons → ∀ c, (step d data s).call = some c → 0 ≤ c.ret

variable {d data context}

variable {s : State Ctx}

/-- Given the condition, a step that goes on called no action that failed. -/
theorem call_nonneg_of_next {s' : State Ctx} {event : Event} (hcond : EndActionAccepts d data s)
    (hstep : (step d data s).result = .ok (.next event s')) :
    ∀ c ∈ (step d data s).call.toList, 0 ≤ c.ret := by
  intro c hc
  have hcall : (step d data s).call = some c := Option.mem_toList.mp hc
  cases step_shape d data s with
  | quiet hnone _ =>
    rw [hnone] at hcall
    cases hcall
  | failed c' _ _ _ hret =>
    rw [hret] at hstep
    cases hstep
  | accepted c' hcall' hnonneg _ =>
    rw [hcall'] at hcall
    cases hcall
    exact hnonneg
  | ended c' s'' _ hkind _ => exact hcond hkind c hcall

theorem calls_nonneg
    (hcond : ∀ calls s known, Reaches d data context calls s known → EndActionAccepts d data s)
    {calls : List Call} {known : Bool} (hrun : Reaches d data context calls s known) :
    ∀ c ∈ calls, 0 ≤ c.ret := by
  induction hrun with
  | start _ => nofun
  | next hrun _ hstep ih =>
    exact List.forall_mem_append.mpr ⟨ih, call_nonneg_of_next (hcond _ _ _ hrun) hstep⟩

/-- The actions are obeyed exactly when no action at an end fails. -/
theorem actions_obeyed_iff (d : Decoder Ctx) (data : List UInt8) (context : Ctx) :
    ActionsObeyed d data context ↔
      ∀ calls s known, Reaches d data context calls s known → EndActionAccepts d data s := by
  constructor
  · intro hobeyed calls s known hrun hkind c hcall
    by_contra hneg
    have hret := (hobeyed calls s known hrun).1 c hcall (Int.not_le.mp hneg)
    cases step_shape d data s with
    | quiet hnone _ =>
      rw [hnone] at hcall
      cases hcall
    | failed c' _ hother _ _ => exact hother hkind
    | accepted c' _ _ hne => exact hne _ hret
    | ended c' s' _ _ hnext =>
      rw [hnext] at hret
      cases hret
  intro hcond calls s known hrun
  refine ⟨fun c hcall hneg => ?_, fun hzero => ?_⟩
  · cases step_shape d data s with
    | quiet hnone _ =>
      rw [hnone] at hcall
      cases hcall
    | failed c' hcall' _ _ hret =>
      rw [hcall'] at hcall
      cases hcall
      exact hret
    | accepted c' hcall' hnonneg _ =>
      rw [hcall'] at hcall
      cases hcall
      omega
    | ended c' s' hcall' hkind _ =>
      have := hcond calls s known hrun hkind c hcall
      omega
  unfold Outcome.value at hzero
  split at hzero <;> cases hzero
  rename_i hret
  cases step_shape d data s with
  | quiet hnone hquiet =>
    obtain ⟨-, hkind, hjump, hcons⟩ := hquiet 0 hret
    refine ⟨?_, hkind, hjump, hcons⟩
    rw [hnone, Option.toList_none, List.append_nil]
    exact calls_nonneg hcond hrun
  | failed c' _ _ hneg hret' =>
    rw [hret', Except.ok.injEq, Result.ret.injEq] at hret
    omega
  | accepted c' _ _ hne => exact absurd hret (hne 0)
  | ended c' s' _ _ hnext =>
    rw [hnext] at hret
    cases hret

/-- A sequence whose end has an action. -/
def endActDecoder : Decoder Unit where
  machine := fun pc => [0x00, 0x30, 0x24, 0x00, 0x1d].getD pc 0
  machlen := 5
  actions := fun _ _ _ _ _ _ => (-1, ())

/-- An empty sequence is accepted although the action at its end failed. -/
theorem decoder_drops_failure :
    ∃ calls s known, Reaches endActDecoder [0x30, 0x00] () calls s known ∧
      (∃ c ∈ calls, c.ret = -1) ∧ (step endActDecoder [0x30, 0x00] s).value = some 0 := by
  have hstart : Reaches endActDecoder [0x30, 0x00] () [] _ true := .start rfl
  have hmatch := hstart.next trivial rfl
  have hend := hmatch.next trivial rfl
  exact ⟨_, _, _, hend, ⟨_, List.mem_cons_self, rfl⟩, rfl⟩

end LinuxKernel.Asn1
