import LinuxKernel.Devcg.Restricts

/-!
# The hierarchy of device cgroups

Every call keeps each online cgroup within its parent, with one exception: an exception
that is added to a cgroup is merged with one for the same devices, and the parent may
accept both but not the merged one.
-/

namespace LinuxKernel.Devcg

open Lib Str List Function

variable {h : Hierarchy} {w : World} {cg x : Nat} {ex : ExceptionItem}

section Invariant

variable {child : Nat} {devcg d : DevCgroup}

/-- Each online cgroup is within its parent, which is online. -/
def Nested (h : Hierarchy) (w : World) : Prop :=
  ∀ cg ∈ h.cgroups, ∀ p ∈ h.parent cg, (w cg).online = true →
    (w p).online = true ∧ Restricts (w p) (w cg)

theorem online_iff : devcg.online = true ↔ devcg.behavior ≠ .none := by
  unfold DevCgroup.online
  rw [decide_eq_true_iff]

theorem Hierarchy.parent_ne (h : Hierarchy) {cg p : Nat} (hcg : cg ∈ h.cgroups)
    (hp : p ∈ h.parent cg) : p ≠ cg := by
  obtain ⟨pre, post, hsplit⟩ := append_of_mem hcg
  have hpre := (h.parentsFirst pre cg post hsplit p hp).resolve_left id
  have hnodup := h.nodup
  rw [hsplit, nodup_middle, nodup_cons, mem_append, not_or] at hnodup
  exact fun heq => hnodup.1.1 (heq ▸ hpre)

theorem Nested.update (hw : Nested h w) (hcg : cg ∈ h.cgroups)
    (hparent : ∀ p ∈ h.parent cg, d.online = true → (w p).online = true ∧ Restricts (w p) d)
    (hchildren : ∀ child ∈ h.cgroups, h.parent child = some cg → (w child).online = true →
      d.online = true ∧ Restricts d (w child)) : Nested h (update w cg d) := by
  intro c hc p hp honline
  by_cases hccg : c = cg
  · subst hccg
    have hne := h.parent_ne hc hp
    rw [update_self] at honline ⊢
    rw [update_of_ne hne]
    exact hparent p hp honline
  rw [update_of_ne hccg] at honline ⊢
  by_cases hpcg : p = cg
  · subst hpcg
    rw [update_self]
    exact hchildren c hc hp honline
  · rw [update_of_ne hpcg]
    exact hw c hc p hp honline

theorem notOnline_of_hasOnlineChildren (hnone : hasOnlineChildren h w cg = false)
    (hchild : child ∈ h.cgroups) (hparent : h.parent child = some cg) :
    (w child).online = false := by
  have hall := any_eq_false.mp hnone child hchild
  rw [hparent] at hall
  simpa using hall

theorem Nested.update_leaf (hw : Nested h w) (hcg : cg ∈ h.cgroups)
    (hleaf : ∀ child ∈ h.cgroups, h.parent child = some cg → (w child).online = false)
    (hparent : ∀ p ∈ h.parent cg, d.online = true → (w p).online = true ∧ Restricts (w p) d) :
    Nested h (Function.update w cg d) := by
  refine hw.update hcg hparent fun child hchild hp honline => ?_
  rw [hleaf child hchild hp] at honline
  cases honline

theorem parentOf_of_mem {p : Nat} (hp : p ∈ h.parent cg) : parentOf h w cg = some (w p) :=
  congrArg (Option.map w) hp

variable (hw : Nested h w) (hcg : cg ∈ h.cgroups)

include hw hcg

theorem Nested.online (hnew : w cg = ⟨.none, []⟩)
    (hparent : ∀ p ∈ h.parent cg, (w p).online = true) : Nested h (devcgroupOnline h w cg) := by
  have hleaf : ∀ child ∈ h.cgroups, h.parent child = some cg → (w child).online = false := by
    refine fun child hchild hp => Bool.eq_false_iff.mpr fun honline => ?_
    have hcontra := (hw child hchild cg hp honline).1
    rw [hnew] at hcontra
    cases hcontra
  unfold devcgroupOnline parentOf
  cases hp : h.parent cg with
  | none =>
    refine hw.update_leaf hcg hleaf fun p hp' => ?_
    rw [hp] at hp'
    cases hp'
  | some p =>
    have hcopy : .mk (w p).behavior ((w cg).exceptions ++ (w p).exceptions) = w p := by
      rw [hnew]
      rfl
    simp only [Option.map_some, hcopy]
    refine hw.update_leaf hcg hleaf fun p' hp' _ => ?_
    rw [hp] at hp'
    cases hp'
    have honline := hparent p hp
    exact ⟨honline, .refl (online_iff.mp honline)⟩

theorem Nested.offline (hnone : hasOnlineChildren h w cg = false) :
    Nested h (devcgroupOffline w cg) := by
  refine hw.update_leaf hcg (fun _ => notOnline_of_hasOnlineChildren hnone) fun p _ honline => ?_
  cases honline

theorem Nested.updateAll (honline : (w cg).online = true) (filetype : FileType) :
    Nested h (updateAll h w cg filetype).1 := by
  unfold Devcg.updateAll
  by_cases hchildren : hasOnlineChildren h w cg = true
  · rw [if_pos hchildren]
    exact hw
  rw [if_neg hchildren]
  have hleaf := fun child =>
    @notOnline_of_hasOnlineChildren h w cg child (Bool.eq_false_iff.mpr hchildren)
  cases filetype with
  | deny =>
    refine hw.update_leaf hcg hleaf fun p hp _ => ⟨?_, fun _ => rfl, nofun, nofun⟩
    exact (hw cg hcg p hp honline).1
  | allow =>
    simp only
    by_cases hmay : mayAllowAll (parentOf h w cg) = true
    · rw [if_pos hmay]
      refine hw.update_leaf hcg hleaf fun p hp _ => ?_
      rw [parentOf_of_mem hp] at hmay ⊢
      have hallow : (w p).behavior = .allow := of_decide_eq_true hmay
      have hcopy : .mk .allow (((some (w p)).map DevCgroup.exceptions).getD []) = w p := by
        rw [← hallow]
        rfl
      have hon := (hw cg hcg p hp honline).1
      rw [hcopy]
      exact ⟨hon, .refl (online_iff.mp hon)⟩
    · rw [if_neg hmay]
      exact hw

theorem Nested.allowDevice (honline : (w cg).online = true)
    (hmerge : ∀ p ∈ h.parent cg, (w cg).behavior = .deny → MergeOk (w p) (w cg) ex) :
    Nested h (allowDevice h w cg ex).1 := by
  have hchildren : ∀ child ∈ h.cgroups, h.parent child = some cg → (w child).online = true →
      Restricts (w cg) (w child) := fun child hchild hp hon => (hw child hchild cg hp hon).2
  unfold Devcg.allowDevice
  by_cases hallow : (w cg).behavior = .allow
  · rw [if_pos hallow]
    split_ifs with hremoval
    · refine hw.update hcg (fun p hp _ => ?_) fun child hchild hp hon => ⟨honline, ?_⟩
      · rw [parentOf_of_mem hp] at hremoval
        have hold := hw cg hcg p hp honline
        exact ⟨hold.1, hold.2.child_allow hallow hremoval⟩
      · exact (hchildren child hchild hp hon).parent_rm hallow ex
    · exact hw
  have hdeny := (Behavior.allow_or_deny (online_iff.mp honline)).resolve_left hallow
  rw [if_neg hallow]
  split_ifs with hperm
  · refine hw.update hcg (fun p hp _ => ?_) fun child hchild hp hon => ⟨honline, ?_⟩
    · rw [parentOf_of_mem hp] at hperm
      have hnew : verifyNewEx (w p) ex .deny = true := by
        rw [← hdeny]
        exact hperm
      have hold := hw cg hcg p hp honline
      exact ⟨hold.1, hold.2.child_deny hdeny hnew (hmerge p hp hdeny)⟩
    · exact (hchildren child hchild hp hon).parent_add hallow ex
  · exact hw

end Invariant

section Deny

theorem propagateTo_behavior (root : Behavior) (ex : ExceptionItem) (p c : DevCgroup) :
    (propagateTo root ex p c).behavior = c.behavior := by
  unfold propagateTo
  split_ifs <;> rfl

variable {c p : DevCgroup}

theorem restricts_propagateTo_deny {root : Behavior} (hc : c.behavior = .deny) :
    Restricts p (propagateTo root ex p c) := by
  have hbehavior := (propagateTo_behavior root ex p c).trans hc
  have honline : c.online = true := online_iff.mpr (by rw [hc]; decide)
  refine ⟨fun _ => hbehavior, fun _ walk hwalk => ?_, fun hallow => ?_⟩
  · unfold propagateTo at hwalk
    rw [if_pos honline] at hwalk
    refine valid_revalidate ?_ walk hwalk
    exact hc
  · exact absurd hbehavior (behavior_ne_deny hallow)

theorem exists_parent_of_mem (hx : x ∈ descendants h.parent cg h.cgroups) :
    ∃ p ∈ h.parent x, p = cg ∨ p ∈ descendants h.parent cg h.cgroups := by
  obtain ⟨pre, post, hsplit⟩ := append_of_mem hx
  obtain ⟨p, hp, hbefore⟩ := follows_descendants h.parent cg h.cgroups pre x post hsplit
  exact ⟨p, hp, hbefore.imp_right fun hpre => hsplit ▸ mem_append_left _ hpre⟩

/-- The cgroups after a rule in `devices.deny`. -/
structure Propagated (h : Hierarchy) (w : World) (cg : Nat) (ex : ExceptionItem) (w' : World) :
    Prop where
  self : w' cg = denied (w cg) ex
  below : ∀ x ∈ descendants h.parent cg h.cgroups, ∀ p ∈ h.parent x,
    w' x = propagateTo (w cg).behavior ex (w' p) (w x)
  other : ∀ x, x ≠ cg → x ∉ descendants h.parent cg h.cgroups → w' x = w x

theorem propagated_denyDevice : Propagated h w cg ex (denyDevice h w cg ex).1 := by
  have hroot := @root_notMem_descendants _ cg _ h.parentsFirst
  have hnodup : (descendants h.parent cg h.cgroups).Nodup :=
    h.nodup.sublist (walkFrom_sublist h.parent [cg] h.cgroups)
  obtain ⟨hother, hbelow⟩ := @visitAll_eq _ h.parent (propagateTo (w cg).behavior ex) cg _
    (follows_descendants h.parent cg h.cgroups) hnodup hroot
    (update w cg (denied (w cg) ex))
  have hbehavior : (update w cg (denied (w cg) ex) cg).behavior = (w cg).behavior := by
    rw [update_self]
    rfl
  dsimp only [denyDevice, propagateException]
  rw [hbehavior]
  refine ⟨?_, fun x hx p hp => ?_, fun x hne hx => ?_⟩
  · rw [hother cg hroot]
    exact update_self _ _ _
  · have hne : x ≠ cg := fun heq => hroot (heq ▸ hx)
    rw [hbelow x hx p hp, update_of_ne hne]
  · rw [hother x hx]
    exact update_of_ne hne _ _

variable {w' : World}

theorem Propagated.behavior (hw' : Propagated h w cg ex w') (x : Nat) :
    (w' x).behavior = (w x).behavior := by
  by_cases hcg : x = cg
  · rw [hcg, hw'.self]
    rfl
  by_cases hx : x ∈ descendants h.parent cg h.cgroups
  · obtain ⟨p, hp, -⟩ := exists_parent_of_mem hx
    rw [hw'.below x hx p hp]
    exact propagateTo_behavior _ ex _ _
  · rw [hw'.other x hcg hx]

theorem Propagated.online (hw' : Propagated h w cg ex w') (x : Nat) :
    (w' x).online = (w x).online := by
  unfold DevCgroup.online
  rw [hw'.behavior x]

theorem Nested.parent_allow (hw : Nested h w) {c p : Nat} (hc : c ∈ h.cgroups) (hp : p ∈ h.parent c)
    (hallow : (w c).behavior = .allow) : (w p).behavior = .allow := by
  have honline : (w c).online = true := by
    rw [online_iff, hallow]
    decide
  by_contra hne
  exact behavior_ne_deny hallow ((hw c hc p hp honline).2.deny hne)

theorem Nested.root_allow (hw : Nested h w) :
    ∀ x ∈ descendants h.parent cg h.cgroups,
      (w x).behavior = .allow → (w cg).behavior = .allow := by
  refine walk_induction (follows_descendants h.parent cg h.cgroups) ?_
  intro x hx p hp hprev hallow
  have hmem := (walkFrom_sublist h.parent [cg] h.cgroups).subset hx
  have hpallow := hw.parent_allow hmem hp hallow
  obtain rfl | ⟨-, ih⟩ := hprev
  · exact hpallow
  · exact ih hpallow

theorem Propagated.eq_add (hw : Nested h w) (hw' : Propagated h w cg ex w')
    (hx : x = cg ∨ x ∈ descendants h.parent cg h.cgroups) (hallow : (w x).behavior = .allow) :
    w' x = (w x).withExceptions (devExceptionAdd (w x).exceptions ex) := by
  obtain rfl | hx := hx
  · rw [hw'.self]
    unfold denied DevCgroup.withExceptions
    rw [if_neg (behavior_ne_deny hallow)]
  obtain ⟨p, hp, -⟩ := exists_parent_of_mem hx
  have hmem := (walkFrom_sublist h.parent [cg] h.cgroups).subset hx
  have hpallow := (hw'.behavior p).trans (hw.parent_allow hmem hp hallow)
  have honline : (w x).online = true := online_iff.mpr (by rw [hallow]; decide)
  rw [hw'.below x hx p hp, hw.root_allow x hx hallow, propagateTo, if_pos honline,
    if_pos ⟨rfl, hallow⟩]
  exact revalidate_allow hpallow hallow

theorem Restricts.denied (hold : Restricts p c) (honline : c.online = true) :
    Restricts p (denied c ex) := by
  unfold Devcg.denied
  by_cases hdeny : c.behavior = .deny
  · rw [if_pos hdeny]
    exact hold.child_rm hdeny ex
  · rw [if_neg hdeny]
    have hallow := (Behavior.allow_or_deny (online_iff.mp honline)).resolve_right hdeny
    exact hold.child_add hallow ex

theorem Nested.denyDevice (hw : Nested h w) : Nested h (denyDevice h w cg ex).1 := by
  have hw' := @propagated_denyDevice h w cg ex
  intro c hc p hp honline
  rw [hw'.online c] at honline
  obtain ⟨hponline, hold⟩ := hw c hc p hp honline
  refine ⟨(hw'.online p).trans hponline, ?_⟩
  by_cases hmem : c ∈ descendants h.parent cg h.cgroups
  · by_cases hdeny : (w c).behavior = .deny
    · rw [hw'.below c hmem p hp]
      exact restricts_propagateTo_deny hdeny
    have hallow := (Behavior.allow_or_deny (online_iff.mp honline)).resolve_right hdeny
    obtain ⟨p', hp', hproot⟩ := exists_parent_of_mem hmem
    rw [Option.mem_def.mp hp'] at hp
    cases hp
    rw [hw'.eq_add hw (.inr hmem) hallow, hw'.eq_add hw hproot (hw.parent_allow hc hp' hallow)]
    exact hold.both_add hallow ex
  have hnot : ¬ (p ∈ [cg] ∨ p ∈ descendants h.parent cg h.cgroups) := fun hwalk =>
    hmem (mem_walkFrom h.parentsFirst h.nodup hc hp hwalk)
  rw [not_or, mem_singleton] at hnot
  rw [hw'.other p hnot.1 hnot.2]
  by_cases hccg : c = cg
  · rw [hccg, hw'.self]
    exact (hccg ▸ hold).denied (hccg ▸ honline)
  · rw [hw'.other c hccg hmem]
    exact hold

end Deny

/-- The calls that change the cgroups. -/
inductive Op
  | online (cg : Nat)
  | offline (cg : Nat)
  | write (cg : Nat) (filetype : FileType) (buffer : CStr)

/-- What a call makes of the cgroups. -/
def Op.run (h : Hierarchy) (w : World) : Op → World
  | .online cg => devcgroupOnline h w cg
  | .offline cg => devcgroupOffline w cg
  | .write cg filetype buffer => (devcgroupUpdateAccess h w cg filetype buffer).1

/-- The calls of the cgroup core: a cgroup comes online after its parent and goes offline after its
children, and only an online one has files. -/
def Op.Allowed (h : Hierarchy) (w : World) : Op → Prop
  | .online cg => cg ∈ h.cgroups ∧ w cg = ⟨.none, []⟩ ∧ ∀ p ∈ h.parent cg, (w p).online = true
  | .offline cg => cg ∈ h.cgroups ∧ hasOnlineChildren h w cg = false
  | .write cg _ _ => cg ∈ h.cgroups ∧ (w cg).online = true

instance (h : Hierarchy) (w : World) : (op : Op) → Decidable (op.Allowed h w)
  | .online cg => inferInstanceAs
      (Decidable (cg ∈ h.cgroups ∧ w cg = ⟨.none, []⟩ ∧ ∀ p ∈ h.parent cg, (w p).online = true))
  | .offline cg => inferInstanceAs (Decidable (cg ∈ h.cgroups ∧ hasOnlineChildren h w cg = false))
  | .write cg _ _ => inferInstanceAs (Decidable (cg ∈ h.cgroups ∧ (w cg).online = true))

/-- The parent also accepts what `devices.allow` makes of an exception by merging it into others.
-/
def Op.MergesOk (h : Hierarchy) (w : World) : Op → Prop
  | .write cg .allow buffer =>
    (w cg).behavior = .deny → ∀ ex, readRule buffer = some (.device ex) →
      ∀ p ∈ h.parent cg, MergeOk (w p) (w cg) ex
  | _ => True

/-- The cgroups after calls that meet the condition. -/
inductive Reach (h : Hierarchy) (cond : World → Op → Prop) : World → Prop
  | start : Reach h cond fun _ => ⟨.none, []⟩
  | step {w : World} {op : Op} (hw : Reach h cond w) (hop : op.Allowed h w) (hcond : cond w op) :
      Reach h cond (op.run h w)

theorem Nested.write (hw : Nested h w) {cg : Nat} {filetype : FileType} {buffer : CStr}
    (hop : Op.Allowed h w (.write cg filetype buffer))
    (hcond : Op.MergesOk h w (.write cg filetype buffer)) :
    Nested h (devcgroupUpdateAccess h w cg filetype buffer).1 := by
  obtain ⟨hcg, honline⟩ := hop
  unfold devcgroupUpdateAccess
  cases hrule : readRule buffer with
  | none => exact hw
  | some rule =>
    cases rule with
    | all => exact hw.updateAll hcg honline filetype
    | device ex =>
      cases filetype with
      | allow => exact hw.allowDevice hcg honline fun p hp hdeny => hcond hdeny ex hrule p hp
      | deny => exact hw.denyDevice

theorem Nested.step (hw : Nested h w) {op : Op} (hop : op.Allowed h w) (hcond : op.MergesOk h w) :
    Nested h (op.run h w) := by
  cases op with
  | online cg => exact hw.online hop.1 hop.2.1 hop.2.2
  | offline cg => exact hw.offline hop.1 hop.2
  | write cg filetype buffer => exact hw.write hop hcond

theorem Reach.nested (hw : Reach h (Op.MergesOk h) w) : Nested h w := by
  induction hw with
  | start =>
    intro cg _ p _ honline
    cases honline
  | step _ hop hcond ih => exact ih.step hop hcond

/-- If writes to `devices.allow` merge only into items that the parent accepts, each online cgroup
grants no access that its parent does not. -/
theorem devcgroup_within_parent (hw : Reach h (Op.MergesOk h) w) {cg p : Nat} (hcg : cg ∈ h.cgroups)
    (hp : p ∈ h.parent cg) (honline : (w cg).online = true) {type : DevType} {major minor : UInt32}
    {access : Access} (hgrant : checkPermission (w cg) type major minor access = true) :
    checkPermission (w p) type major minor access = true := by
  obtain ⟨-, hrestricts⟩ := hw.nested cg hcg p hp honline
  exact hrestricts.checkPermission (online_iff.mp honline) hgrant

def rootAndChild : Hierarchy where
  parent cg := if cg = 1 then some 0 else none
  cgroups := [0, 1]
  nodup := by decide
  parentsFirst := by
    intro pre x post heq p hp
    have hsplit : [0] ++ [1] = pre ++ x :: post := heq
    by_cases hx : x = 1
    · subst hx
      simp only [if_true, Option.mem_def, Option.some.injEq] at hp
      cases pre with
      | nil => cases hsplit
      | cons y pre =>
        obtain ⟨hy, -⟩ := List.cons.inj hsplit
        exact .inr (by rw [← hp, ← hy]; exact mem_cons_self)
    · simp only [if_neg hx, Option.mem_def, reduceCtorEq] at hp

/-- `a` to `devices.deny`, `c 1:* r` and `c *:3 w` to `devices.allow` of the root before the child
comes online, then `c 1:3 r` and `c 1:3 w` to `devices.allow` of the child. -/
def mergingCalls : List Op :=
  [.online 0, .write 0 .deny [97], .write 0 .allow [99, 32, 49, 58, 42, 32, 114],
    .write 0 .allow [99, 32, 42, 58, 51, 32, 119], .online 1,
    .write 1 .allow [99, 32, 49, 58, 51, 32, 114], .write 1 .allow [99, 32, 49, 58, 51, 32, 119]]

/-- Each call is allowed and meets the condition when it is made. -/
def AllMeet (h : Hierarchy) (cond : World → Op → Prop) : World → List Op → Prop
  | _, [] => True
  | w, op :: ops => (op.Allowed h w ∧ cond w op) ∧ AllMeet h cond (op.run h w) ops

instance AllMeet.decidable (h : Hierarchy) (cond : World → Op → Prop)
    [∀ w op, Decidable (cond w op)] :
    (w : World) → (ops : List Op) → Decidable (AllMeet h cond w ops)
  | _, [] => inferInstanceAs (Decidable True)
  | w, op :: ops =>
    haveI := AllMeet.decidable h cond (op.run h w) ops
    inferInstanceAs
      (Decidable ((op.Allowed h w ∧ cond w op) ∧ AllMeet h cond (op.run h w) ops))

instance Op.decidableMergesOk (h : Hierarchy) (w : World) : (op : Op) → Decidable (op.MergesOk h w)
  | .write cg .allow buffer =>
    match hrule : readRule buffer with
    | some (.device ex) =>
      decidable_of_iff ((w cg).behavior = .deny → ∀ p ∈ h.parent cg, ∀ walk ∈ (w cg).exceptions,
          walk.sameDevices ex = true →
            verifyNewEx (w p) { walk with access := walk.access ||| ex.access } .deny = true) (by
        simp [Op.MergesOk, MergeOk, hrule])
    | some .all | none => isTrue fun _ ex hex => by cases hrule.symm.trans hex
  | .write _ .deny _ | .online _ | .offline _ => isTrue trivial

def runAll (h : Hierarchy) (ops : List Op) : World :=
  ops.foldl (Op.run h) fun _ => ⟨.none, []⟩

theorem Reach.runAll {cond : World → Op → Prop} {ops : List Op}
    (hmeet : AllMeet h cond (fun _ => ⟨.none, []⟩) ops) : Reach h cond (runAll h ops) := by
  suffices hfrom : ∀ w, Reach h cond w → AllMeet h cond w ops →
      Reach h cond (ops.foldl (Op.run h) w) from hfrom _ .start hmeet
  clear hmeet
  induction ops with
  | nil => exact fun w hw _ => hw
  | cons op ops ih =>
    exact fun w hw hall => ih (op.run h w) (hw.step hall.1.1 hall.1.2) hall.2

/-- `a` to `devices.deny` and `c 1:* rw` to `devices.allow` of the root, then `c 1:* w` to
`devices.deny` and, merged into what is left of the child's exception, to its `devices.allow`. -/
def acceptedCalls : List Op :=
  [.online 0, .write 0 .deny [97], .write 0 .allow [99, 32, 49, 58, 42, 32, 114, 119], .online 1,
    .write 1 .deny [99, 32, 49, 58, 42, 32, 119], .write 1 .allow [99, 32, 49, 58, 42, 32, 119]]

theorem devcgroup_within_parent_merged :
    (runAll rootAndChild acceptedCalls 1).exceptions.length = 1 ∧
      checkPermission (runAll rootAndChild acceptedCalls 1) .char 1 3 (ACC_READ ||| ACC_WRITE) =
        true ∧
      checkPermission (runAll rootAndChild acceptedCalls 0) .char 1 3 (ACC_READ ||| ACC_WRITE) =
        true := by
  have hreach : Reach rootAndChild (Op.MergesOk rootAndChild)
      (runAll rootAndChild acceptedCalls) := .runAll (by decide)
  have hgrant : checkPermission (runAll rootAndChild acceptedCalls 1) .char 1 3
      (ACC_READ ||| ACC_WRITE) = true := by decide
  have hchild : 1 ∈ rootAndChild.cgroups := by decide
  exact ⟨by decide, hgrant, devcgroup_within_parent hreach hchild (by decide) (by decide) hgrant⟩

/-- The parent accepted both rules; the child merged them into an item that it would not accept. -/
theorem devcgroup_merge_exceeds_parent :
    Reach rootAndChild (fun _ _ => True) (runAll rootAndChild mergingCalls) ∧
      rootAndChild.parent 1 = some 0 ∧ (runAll rootAndChild mergingCalls 1).online = true ∧
      checkPermission (runAll rootAndChild mergingCalls 1) .char 1 3 (ACC_READ ||| ACC_WRITE) =
        true ∧
      checkPermission (runAll rootAndChild mergingCalls 0) .char 1 3 (ACC_READ ||| ACC_WRITE) =
        false :=
  ⟨.runAll (by decide), by decide, by decide, by decide, by decide⟩

end LinuxKernel.Devcg
