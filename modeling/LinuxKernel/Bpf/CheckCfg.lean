import Mathlib.Data.List.Perm.Subperm
import LinuxKernel.Bpf.Verifier
import LinuxKernel.Lib.Graphs

/-!
# What an accepted control flow graph guarantees

`check_cfg()` walks the program depth first and gives up on a jump that leaves it or goes back.  It
wants every instruction explored, so no instruction has a successor outside the
program.  `do_check()` relies on this: it tests `insn_idx` only against `insn_cnt`.
-/

namespace LinuxKernel.Bpf

open Lib List

def InProg (insns : List Insn) (w : Int) : Prop :=
  0 ≤ w ∧ w < (insns.length : Int)

/-- The target of the edge that `check_cfg()` labels `FALLTHROUGH`. -/
def fallEdge (insns : List Insn) (t : Nat) : Option Int :=
  match (fetch insns t).code with
  | .jmp .exit _ => none
  | .jmp .ja _ => some (t + (fetch insns t).off.toInt + 1)
  | _ => some (t + 1)

/-- The target of the edge that `check_cfg()` labels `BRANCH`. -/
def branchEdge (insns : List Insn) (t : Nat) : Option Int :=
  match (fetch insns t).code with
  | .jmp .exit _ => none
  | .jmp .ja _ => none
  | .jmp .call _ => none
  | .jmp _ _ => some (t + (fetch insns t).off.toInt + 1)
  | _ => none

/-- The edge of instruction `t` that `e` stands for. -/
def edge (insns : List Insn) (t : Nat) : Edge → Option Int
  | .fallthrough => fallEdge insns t
  | .branch => branchEdge insns t

def Flows (insns : List Insn) (t w : Nat) : Prop :=
  ∃ e, edge insns t e = some (w : Int)

/-- The programs that `check_cfg()` accepts. -/
structure CfgOk (insns : List Insn) : Prop where
  inProg : ∀ t < insns.length, ∀ e, ∀ w ∈ edge insns t e, InProg insns w
  reached : ∀ t < insns.length, Relation.ReflTransGen (Flows insns) 0 t
  ja : ∀ t < insns.length, (fetch insns t).code ≠ .jmp .ja .x
  acyclic : ∀ t < insns.length, ¬ Relation.TransGen (Flows insns) t t

section Walk

theorem Edge.val_mem (e : Edge) : 0 < e.val ∧ e.val ≤ 2 := by
  cases e <;> decide

variable {t v : Nat} {w : Int} {e : Edge} {insns : List Insn} {state state' : Nat → Nat}
  {above above' done stack done' stack' : List Nat}

/-- The labelled edges of instructions on the stack lead further up. -/
def Known (insns : List Insn) (state : Nat → Nat) : List Nat → List Nat → Prop
  | _, [] => True
  | above, t :: stack =>
    (∀ e, DISCOVERED + e.val ≤ state t → ∀ w ∈ edge insns t e, w.toNat ∈ above) ∧
      Known insns state (t :: above) stack

theorem Known.mono (h : Known insns state above stack) (hsub : above ⊆ above')
    (hsame : ∀ i ∈ stack, state' i = state i) : Known insns state' above' stack := by
  induction stack generalizing above above' with
  | nil => trivial
  | cons t stack ih =>
    obtain ⟨ht, hstack⟩ := forall_mem_cons.mp hsame
    refine ⟨fun e he w hw => hsub (h.1 e (ht ▸ he) w hw), ih h.2 ?_ hstack⟩
    exact cons_subset_cons t hsub

/-- What `insn_state` says of an instruction: whether it is on the stack or done with, and which of
its edges stay inside. -/
structure Entry (insns : List Insn) (done stack : List Nat) (i v : Nat) : Prop where
  white : i ∉ stack → i ∉ done → v = 0
  grey : i ∈ stack → DISCOVERED ≤ v ∧ v ≤ DISCOVERED + 2
  black : i ∈ done → v = EXPLORED ∧ (fetch insns i).code ≠ .jmp .ja .x
  bound : i ∈ stack ∨ i ∈ done → i < insns.length
  edges : ∀ e, DISCOVERED + e.val ≤ v → ∀ w ∈ edge insns i e, InProg insns w

theorem Entry.congr (h : Entry insns done stack t v) (hstack : t ∈ stack' ↔ t ∈ stack)
    (hdone : t ∈ done' ↔ t ∈ done) : Entry insns done' stack' t v := by
  obtain ⟨hwhite, hgrey, hblack, hbound, hedges⟩ := h
  rw [← hstack, ← hdone] at *
  exact ⟨hwhite, hgrey, hblack, hbound, hedges⟩

/-- The walk of `check_cfg()`. -/
structure Walk (insns : List Insn) (above done : List Nat) (state : Nat → Nat)
    (stack : List Nat) : Prop where
  search : Explores (Flows insns) 0 stack done
  known : Known insns state above stack
  entry : ∀ i, Entry insns done stack i (state i)

/-- An edge of the instruction on top is labelled, after those before it. -/
theorem Walk.label (h : Walk insns done done state (t :: stack)) (hsub : done ⊆ above)
    (hself : state' t = DISCOVERED + e.val) (hother : ∀ i, i ≠ t → state' i = state i)
    (hedge : ∀ e', e'.val ≤ e.val → ∀ w ∈ edge insns t e', InProg insns w ∧ w.toNat ∈ above) :
    Walk insns above done state' (t :: stack) := by
  obtain ⟨hstack, hdone⟩ := h.search.notMem
  refine ⟨h.search, ⟨fun e' hi w hw => (hedge e' (by omega) w hw).2, ?_⟩, fun i => ?_⟩
  · exact h.known.2.mono (cons_subset_cons t hsub) fun i hi =>
      hother i fun heq => hstack (heq ▸ hi)
  by_cases hit : i = t
  · rw [hit, hself]
    have hval := e.val_mem
    exact ⟨fun hnot => absurd mem_cons_self hnot, fun _ => by omega,
      fun hmem => absurd hmem hdone, (h.entry t).bound,
      fun e' hi w hw => (hedge e' (by omega) w hw).1⟩
  · exact hother i hit ▸ h.entry i

theorem Walk.push {w : Nat} (h : Walk insns (w :: done) done state (t :: stack))
    (hedge : Flows insns t w) (hw : w < insns.length) (hnew : state w = 0)
    (hself : state' w = DISCOVERED) (hother : ∀ i, i ≠ w → state' i = state i) :
    Walk insns done done state' (w :: t :: stack) := by
  have hstack : w ∉ t :: stack := fun hmem => by
    cases hnew ▸ ((h.entry w).grey hmem).1
  have hdone : w ∉ done := fun hmem => by
    cases hnew.symm.trans ((h.entry w).black hmem).1
  refine ⟨h.search.push hedge fun hmem => (mem_append.mp hmem).elim hstack hdone,
    ⟨fun e hi => ?_, ?_⟩, fun i => ?_⟩
  · have hval := e.val_mem
    omega
  · exact h.known.mono (.refl _) fun i hi => hother i fun heq => hstack (heq ▸ hi)
  by_cases hiw : i = w
  · rw [hiw, hself]
    refine ⟨fun hnot => absurd mem_cons_self hnot, fun _ => ⟨le_rfl, Nat.le_add_right _ _⟩,
      fun hmem => absurd hmem hdone, fun _ => hw, fun e hi => ?_⟩
    have hval := e.val_mem
    omega
  · rw [hother i hiw]
    exact (h.entry i).congr (by rw [mem_cons, or_iff_right hiw]) Iff.rfl

theorem Walk.pop (h : Walk insns done done state (t :: stack)) (hself : state' t = EXPLORED)
    (hother : ∀ i, i ≠ t → state' i = state i) (hja : (fetch insns t).code ≠ .jmp .ja .x)
    (hedge : ∀ e, ∀ w ∈ edge insns t e, InProg insns w ∧ w.toNat ∈ done) :
    Walk insns (t :: done) (t :: done) state' stack := by
  obtain ⟨hstack, -⟩ := h.search.notMem
  refine ⟨h.search.pop fun w ⟨e, he⟩ => (hedge e w he).2,
    h.known.2.mono (.refl _) fun i hi => hother i fun heq => hstack (heq ▸ hi),
    fun i => ?_⟩
  by_cases hit : i = t
  · rw [hit, hself]
    exact ⟨fun _ hnot => absurd mem_cons_self hnot, fun hmem => absurd hmem hstack,
      fun _ => ⟨rfl, hja⟩, fun _ => (h.entry t).bound (.inl mem_cons_self),
      fun e _ w hw => (hedge e w hw).1⟩
  · rw [hother i hit]
    exact (h.entry i).congr (by rw [mem_cons, or_iff_right hit])
      (by rw [mem_cons, or_iff_right hit])

theorem Walk.length_le (h : Walk insns above done state stack) :
    (stack ++ done).length ≤ insns.length := by
  have hsub : stack ++ done ⊆ List.range insns.length := fun i hi =>
    mem_range.mpr ((h.entry i).bound (mem_append.mp hi))
  have hle := (subperm_of_subset h.search.nodup hsub).length_le
  rwa [length_range] at hle

end Walk

variable {t fuel i : Nat} {w : Int} {e : Edge} {insns : List Insn} {c c' : CfgState}
  {done stack : List Nat} {explored : ExploredStates}

/-- An error of `check_cfg()` says what is wrong with the program. -/
def Rejected (insns : List Insn) (err : Errno) : Prop :=
  err = .einval ∧ ¬ CfgOk insns

/-- An edge of the instruction on top of the stack was followed, to a new instruction above it or
to one that is done with. -/
inductive Followed (insns : List Insn) (done : List Nat) (t : Nat) (stack : List Nat)
    (e : Edge) : Bool × CfgState → Prop
  | pushed {c : CfgState} {w : Nat} (hstack : c.insnStack = w :: t :: stack)
      (h : Walk insns done done c.insnState (w :: t :: stack)) :
      Followed insns done t stack e (true, c)
  | known {c : CfgState} (hstack : c.insnStack = t :: stack)
      (h : Walk insns done done c.insnState (t :: stack))
      (hedge : ∀ w ∈ edge insns t e, InProg insns w ∧ w.toNat ∈ done) :
      Followed insns done t stack e (false, c)

variable (hstack : c.insnStack = t :: stack) (h : Walk insns done done c.insnState (t :: stack))
  (hprev : ∀ e', e'.val < e.val → ∀ w ∈ edge insns t e', InProg insns w ∧ w.toNat ∈ done)

include hstack h hprev

theorem pushInsn_ensures (hw : edge insns t e = some w) :
    Ensures (Rejected insns) (pushInsn insns.length t w e c) (Followed insns done t stack e) := by
  have ht : t < insns.length := (h.entry t).bound (.inl mem_cons_self)
  unfold pushInsn
  by_cases hlabel : DISCOVERED + e.val ≤ c.insnState t
  · rw [if_pos hlabel]
    exact .pure (.known hstack h fun u hu => ⟨(h.entry t).edges e hlabel u hu,
      h.known.1 e hlabel u hu⟩)
  rw [if_neg hlabel]
  refine .checkIf (fun hout => ⟨rfl, fun hok => ?_⟩) fun hin => ?_
  · obtain ⟨hlow, hhigh⟩ := hok.inProg t ht e w hw
    omega
  obtain ⟨w, rfl⟩ : ∃ n : Nat, w = n := ⟨w.toNat, by omega⟩
  have hlt : w < insns.length := by omega
  rw [Int.toNat_natCast]
  have hmark : ∀ above, done ⊆ above → w ∈ above → Walk insns above done
      (fun i => if i = t then DISCOVERED + e.val else c.insnState i) (t :: stack) := by
    intro above hsub habove
    refine h.label hsub (if_pos rfl) (fun i hi => if_neg hi) fun e' hle u hu => ?_
    by_cases heq : e' = e
    · subst heq
      cases hw.symm.trans hu
      exact ⟨⟨by omega, by omega⟩, habove⟩
    · have hlt' : e'.val < e.val := by
        cases e' <;> cases e <;> simp_all [Edge.val]
      exact (hprev e' hlt' u hu).imp_right fun hmem => hsub hmem
  simp only [CfgState.markTarget, CfgState.setState, hstack]
  by_cases hwhite : c.insnState w = 0
  · have hne : w ≠ t := fun heq => by
      cases hwhite ▸ heq ▸ ((h.entry t).grey mem_cons_self).1
    have hpush : Walk insns done done (fun i => if i = w then DISCOVERED
        else if i = t then DISCOVERED + e.val else c.insnState i) (w :: t :: stack) :=
      (hmark (w :: done) (subset_cons_self w done) mem_cons_self).push ⟨e, hw⟩ hlt
        ((if_neg hne).trans hwhite) (if_pos rfl) fun i hi => if_neg hi
    rw [if_pos hwhite]
    refine .checkIf (fun hfull => ?_) fun _ => .pure (.pushed rfl hpush)
    have hle := hpush.length_le
    rw [length_append, length_cons] at hle
    omega
  rw [if_neg hwhite]
  by_cases hgrey : w ∈ t :: stack
  · have hrange := (h.entry w).grey hgrey
    refine .checkIf (fun _ => ⟨rfl, fun hok => ?_⟩) fun hnot => absurd ?_ hnot
    · exact hok.acyclic w hlt (h.search.cycle ⟨e, hw⟩ hgrey)
    · unfold DISCOVERED at hrange ⊢
      omega
  have hdone : w ∈ done := not_not.mp fun hnot => hwhite ((h.entry w).white hgrey hnot)
  have hexplored := ((h.entry w).black hdone).1
  refine .checkIf (fun hnot => ?_) fun _ => .checkIf (absurd hexplored) fun _ =>
    .pure (.known rfl (hmark done (.refl done) hdone) fun u hu => ?_)
  · rw [hexplored] at hnot
    cases hnot
  · cases hw.symm.trans hu
    exact ⟨⟨by omega, by omega⟩, hdone⟩

/-- The edge `e` of an instruction, if it has one. -/
def follow (insns : List Insn) (t : Nat) (e : Edge) (c : CfgState) :
    Except Errno (Bool × CfgState) :=
  match edge insns t e with
  | none => pure (false, c)
  | some w => pushInsn insns.length t w e c

theorem follow_ensures :
    Ensures (Rejected insns) (follow insns t e c) (Followed insns done t stack e) := by
  unfold follow
  cases hw : edge insns t e with
  | none => exact .pure (.known hstack h (hw ▸ nofun))
  | some w => exact pushInsn_ensures hstack h hprev hw

omit hstack h hprev

theorem cfgStep_eq (hja : (fetch insns t).code ≠ .jmp .ja .x) :
    ∃ marks : CfgState → List Nat, cfgStep insns t c = (do
      let (pushed, c) ← follow insns t .fallthrough c
      if pushed then pure c
      else do
        let (pushed, c) ← follow insns t .branch c
        if pushed then pure c else pure ({ c with marks := marks c }.markExplored t)) := by
  refine ⟨fun c => if (fetch insns t).code = .jmp .ja .k ∧ t + 1 < insns.length then
    (t + 1) :: c.marks else c.marks, ?_⟩
  unfold cfgStep follow edge fallEdge branchEdge
  cases hcode : (fetch insns t).code with
  | jmp op src =>
    cases op
    case ja =>
      cases src with
      | x => exact absurd hcode hja
      | k =>
        by_cases hlt : t + 1 < insns.length
        all_goals
          simp [rejectIf, hcode, hlt]
          rfl
    all_goals simp [hcode]
  | _ => simp [hcode]

/-- The walk is one pass further: an instruction was pushed, or is done with. -/
def Advanced (insns : List Insn) (done : List Nat) (c c' : CfgState) : Prop :=
  ∃ done', Walk insns done' done' c'.insnState c'.insnStack ∧
    2 * done'.length + c'.insnStack.length = 2 * done.length + c.insnStack.length + 1

include hstack h in
theorem cfgStep_ensures : Ensures (Rejected insns) (cfgStep insns t c) (Advanced insns done c) := by
  have hpushed : ∀ {c' : CfgState} {w : Nat}, c'.insnStack = w :: t :: stack →
      Walk insns done done c'.insnState (w :: t :: stack) → Advanced insns done c c' := by
    intro c' w hstack' hwalk
    refine ⟨done, hstack' ▸ hwalk, ?_⟩
    rw [hstack, hstack', length_cons]
    omega
  by_cases hja : (fetch insns t).code = .jmp .ja .x
  · have herr : cfgStep insns t c = .error .einval := by
      simp [cfgStep, hja, rejectIf]
      rfl
    rw [herr]
    exact .error ⟨rfl, fun hok => hok.ja t ((h.entry t).bound (.inl mem_cons_self)) hja⟩
  obtain ⟨marks, heq⟩ := @cfgStep_eq t insns c hja
  rw [heq]
  refine .bind (follow_ensures hstack h fun e' he' => ?_) fun r _ hfall => ?_
  · exact absurd he' (not_lt.mpr e'.val_mem.1)
  cases hfall with
  | pushed hstack' hwalk => exact .pure (hpushed hstack' hwalk)
  | known hstack' hwalk hfall =>
    refine .bind (follow_ensures hstack' hwalk fun e' he' => ?_) fun r _ hbranch => ?_
    · cases e' with
      | fallthrough => exact hfall
      | branch => exact absurd he' (lt_irrefl _)
    cases hbranch with
    | pushed hstack'' hwalk' => exact .pure (hpushed hstack'' hwalk')
    | @known d hstack'' hwalk' hbranch =>
      have hpop : Walk insns (t :: done) (t :: done)
          (fun i => if i = t then EXPLORED else d.insnState i) stack :=
        hwalk'.pop (if_pos rfl) (fun i hi => if_neg hi) hja
          fun | .fallthrough => hfall | .branch => hbranch
      have htail : d.insnStack.tail = stack := congrArg tail hstack''
      rw [← htail] at hpop
      refine .pure ⟨t :: done, hpop, ?_⟩
      simp only [CfgState.markExplored, htail, hstack, length_cons]
      omega

theorem cfgLoop_ensures (h : Walk insns done done c.insnState c.insnStack)
    (hfuel : 2 * insns.length < fuel + 2 * done.length + c.insnStack.length) :
    Ensures (Rejected insns) (cfgLoop insns fuel c) fun c' =>
      ∃ done', Walk insns done' done' c'.insnState [] := by
  induction fuel generalizing c done with
  | zero =>
    have hle := h.length_le
    rw [length_append] at hle
    omega
  | succ fuel ih =>
    unfold cfgLoop
    cases hstack : c.insnStack with
    | nil => exact .ok ⟨done, hstack ▸ h⟩
    | cons t stack =>
      have hstep := cfgStep_ensures hstack (hstack ▸ h)
      dsimp only
      cases hc : cfgStep insns t c with
      | error err => exact .error (hstep.of_error hc)
      | ok c' =>
        obtain ⟨done', hwalk, hcount⟩ := hstep.of_ok hc
        exact ih hwalk (by omega)

theorem Walk.init (h : 0 < insns.length) :
    Walk insns [] [] (fun i => if i = 0 then DISCOVERED else 0) [0] := by
  refine ⟨.init _ 0, ⟨fun e hi => ?_, trivial⟩, fun i => ?_⟩
  · have hval := e.val_mem
    have hle : DISCOVERED + e.val ≤ DISCOVERED := hi
    omega
  by_cases hi : i = 0
  · rw [if_pos hi, hi]
    refine ⟨fun hnot => absurd mem_cons_self hnot, fun _ => by decide, nofun, fun _ => h,
      fun e hi => ?_⟩
    have hval := e.val_mem
    omega
  rw [if_neg hi]
  have hnot : i ∉ [0] := fun hmem => hi (mem_singleton.mp hmem)
  refine ⟨fun _ _ => rfl, fun hmem => absurd hmem hnot, nofun,
    fun hmem => absurd hmem (not_or.mpr ⟨hnot, nofun⟩), fun e hi => ?_⟩
  unfold DISCOVERED at hi
  omega

theorem checkCfg_ensures (h : 0 < insns.length) :
    Ensures (Rejected insns) (checkCfg insns) fun _ => CfgOk insns := by
  refine .bind (cfgLoop_ensures (.init h) ?_) fun c _ hc => ?_
  · dsimp only [length_nil, length_singleton]
    omega
  obtain ⟨done, hwalk⟩ := hc
  refine .checkIf (fun hnot => ⟨rfl, fun hok => hnot fun i hi => ?_⟩) fun hall => .pure ?_
  · exact ((hwalk.entry i).black (hwalk.search.mem_done (hok.reached i hi))).1
  have hdone : ∀ i < insns.length, c.insnState i = EXPLORED ∧ i ∈ done := by
    intro i hi
    have hi' := not_not.mp hall i hi
    refine ⟨hi', ?_⟩
    by_contra hnot
    cases ((hwalk.entry i).white nofun hnot).symm.trans hi'
  refine ⟨fun t ht e => (hwalk.entry t).edges e ?_,
    fun t ht => hwalk.search.reached t (hdone t ht).2,
    fun t ht => ((hwalk.entry t).black (hdone t ht).2).2,
    fun t ht => hwalk.search.not_cycle (hdone t ht).2⟩
  rw [(hdone t ht).1]
  cases e <;> decide

theorem checkCfg_explored (h : checkCfg insns = .ok explored) {sl : List VState}
    (hi : explored i = some sl) : sl = [] := by
  unfold checkCfg at h
  rw [bind_eq_ok] at h
  obtain ⟨c, -, h⟩ := h
  rw [bind_eq_ok] at h
  obtain ⟨-, -, h⟩ := h
  cases h
  simp only at hi
  split at hi
  · exact (Option.some.inj hi).symm
  · cases hi

end LinuxKernel.Bpf
