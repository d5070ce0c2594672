import Mathlib.Tactic.IntervalCases
import LinuxKernel.Acl.PosixAcl

/-!
# Evaluation of access control lists

A list that `posix_acl_valid` accepts consists of the entries of the owner, the named users,
the owning group, the named groups, the mask and the others, in this order.  On such a list
`posix_acl_permission` decides as POSIX.1e does.
-/

namespace LinuxKernel.Acl

open Lib List Entry

/-- The entry grants all of `want`. -/
def Entry.Permits (pa : Entry) (want : BitVec 32) : Prop :=
  pa.bits &&& want = want

instance (pa : Entry) (want : BitVec 32) : Decidable (pa.Permits want) :=
  inferInstanceAs (Decidable (_ = _))

def Entry.matchesUser (cred : Cred) (pa : Entry) : Bool :=
  match pa.tag with
  | .user uid => uid = cred.fsuid
  | _ => false

/-- An entry for the owning group or another group of the process. -/
def Entry.matchesGroup (inode : Inode) (cred : Cred) (pa : Entry) : Bool :=
  match pa.tag with
  | .groupObj => inGroupP cred inode.gid
  | .group gid => inGroupP cred gid
  | _ => false

/-- The mask entry, if there is one, grants all of `want`. -/
def MaskPermits (acl : PosixAcl) (want : BitVec 32) : Prop :=
  ∀ pa ∈ acl, pa.tag = .mask → pa.Permits want

/-- The decision of POSIX.1e, with the first of several entries for one user. -/
def PosixGrants (inode : Inode) (cred : Cred) (acl : PosixAcl) (want : BitVec 32) : Prop :=
  if inode.uid = cred.fsuid then
    ∃ pa ∈ acl, pa.tag = .userObj ∧ pa.Permits want
  else
    match acl.find? (·.matchesUser cred) with
    | some pa => pa.Permits want ∧ MaskPermits acl want
    | none =>
      if ∃ pa ∈ acl, pa.matchesGroup inode cred = true then
        ∃ pa ∈ acl, pa.matchesGroup inode cred = true ∧ pa.Permits want ∧ MaskPermits acl want
      else
        ∃ pa ∈ acl, pa.tag = .other ∧ pa.Permits want

variable {pa : Entry}

section Parts

/-- The parts of a valid list. -/
structure Parts where
  owner : Entry
  users : List Entry
  group : Entry
  groups : List Entry
  mask : Option Entry
  other : Entry
  owner_tag : owner.tag = .userObj
  users_tag : ∀ pa ∈ users, ∃ uid, pa.tag = .user uid
  group_tag : group.tag = .groupObj
  groups_tag : ∀ pa ∈ groups, ∃ gid, pa.tag = .group gid
  mask_tag : ∀ pa ∈ mask, pa.tag = .mask
  other_tag : other.tag = .other

def Parts.acl (p : Parts) : PosixAcl :=
  p.owner :: (p.users ++ p.group :: (p.groups ++ (p.mask.toList ++ [p.other])))

variable {acl : PosixAcl} {needsMask : Bool} {state : State}

theorem einval_ne : ¬ -EINVAL = 0 := by
  decide

theorem validLoop_cons (h : validLoop state needsMask (pa :: acl) = 0) :
    (pa.tag = .userObj ∧ state = .userObj ∧ validLoop .user needsMask acl = 0) ∨
      (∃ uid, pa.tag = .user uid ∧ state = .user ∧ validLoop .user true acl = 0) ∨
      (pa.tag = .groupObj ∧ state = .user ∧ validLoop .group needsMask acl = 0) ∨
      (∃ gid, pa.tag = .group gid ∧ state = .group ∧ validLoop .group true acl = 0) ∨
      (pa.tag = .mask ∧ state = .group ∧ validLoop .other needsMask acl = 0) ∨
      (pa.tag = .other ∧ (state = .other ∨ state = .group ∧ needsMask = false) ∧
        validLoop .done needsMask acl = 0) := by
  rw [validLoop, validStep] at h
  cases htag : pa.tag with
  | unknown => simp [htag, EINVAL] at h
  | _ =>
    simp only [htag] at h
    split_ifs at h
    all_goals simp_all [EINVAL]

theorem validLoop_done (h : validLoop .done needsMask acl = 0) : acl = [] := by
  cases acl with
  | nil => rfl
  | cons pa acl =>
    simpa using validLoop_cons h

theorem validLoop_other (h : validLoop .other needsMask acl = 0) :
    ∃ other : Entry, other.tag = .other ∧ acl = [other] := by
  cases acl with
  | nil => exact absurd h einval_ne
  | cons pa acl =>
    have hcases := validLoop_cons h
    simp only [reduceCtorEq, false_and, and_false, or_false, exists_false, false_or,
      true_and] at hcases
    obtain ⟨htag, hrest⟩ := hcases
    exact ⟨pa, htag, by rw [validLoop_done hrest]⟩

theorem validLoop_group (h : validLoop .group needsMask acl = 0) :
    ∃ (groups : List Entry) (mask : Option Entry) (other : Entry),
      (∀ pa ∈ groups, ∃ gid, pa.tag = .group gid) ∧ (∀ pa ∈ mask, pa.tag = .mask) ∧
        other.tag = .other ∧ acl = groups ++ (mask.toList ++ [other]) := by
  induction acl generalizing needsMask with
  | nil => exact absurd h einval_ne
  | cons pa acl ih =>
    have hcases := validLoop_cons h
    simp only [reduceCtorEq, false_and, and_false, exists_false, false_or, true_and] at hcases
    obtain ⟨gid, htag, hrest⟩ | ⟨htag, hrest⟩ | ⟨htag, -, hrest⟩ := hcases
    · obtain ⟨groups, mask, other, hgroups, hmask, hother, rfl⟩ := ih hrest
      exact ⟨pa :: groups, mask, other, forall_mem_cons.mpr ⟨⟨gid, htag⟩, hgroups⟩, hmask,
        hother, rfl⟩
    · obtain ⟨other, hother, rfl⟩ := validLoop_other hrest
      refine ⟨[], some pa, other, nofun, fun e he => ?_, hother, rfl⟩
      cases he
      exact htag
    · rw [validLoop_done hrest]
      exact ⟨[], none, pa, nofun, nofun, htag, rfl⟩

theorem validLoop_user (h : validLoop .user needsMask acl = 0) :
    ∃ (users : List Entry) (group : Entry) (rest : List Entry) (needs : Bool),
      (∀ pa ∈ users, ∃ uid, pa.tag = .user uid) ∧ group.tag = .groupObj ∧
        validLoop .group needs rest = 0 ∧ acl = users ++ group :: rest := by
  induction acl generalizing needsMask with
  | nil => exact absurd h einval_ne
  | cons pa acl ih =>
    have hcases := validLoop_cons h
    simp only [reduceCtorEq, false_and, and_false, or_false, exists_false, false_or,
      true_and] at hcases
    obtain ⟨uid, htag, hrest⟩ | ⟨htag, hrest⟩ := hcases
    · obtain ⟨users, group, rest, needs, husers, hgroup, hvalid, rfl⟩ := ih hrest
      exact ⟨pa :: users, group, rest, needs, forall_mem_cons.mpr ⟨⟨uid, htag⟩, husers⟩,
        hgroup, hvalid, rfl⟩
    · exact ⟨[], pa, acl, _, nofun, htag, hrest, rfl⟩

theorem exists_parts (h : posixAclValid acl = 0) : ∃ p : Parts, p.acl = acl := by
  cases acl with
  | nil => exact absurd h einval_ne
  | cons owner acl =>
    have hcases := validLoop_cons h
    simp only [reduceCtorEq, false_and, and_false, or_false, exists_false, true_and] at hcases
    obtain ⟨howner, hrest⟩ := hcases
    obtain ⟨users, group, rest, needs, husers, hgroup, hvalid, rfl⟩ := validLoop_user hrest
    obtain ⟨groups, mask, other, hgroups, hmask, hother, rfl⟩ := validLoop_group hvalid
    exact ⟨⟨owner, users, group, groups, mask, other, howner, husers, hgroup, hgroups, hmask,
      hother⟩, rfl⟩

end Parts

variable {inode : Inode} {cred : Cred} {want bits : BitVec 32}

section Permission

theorem ne_mask_of_group (h : pa.tag = .groupObj ∨ ∃ gid, pa.tag = .group gid) :
    pa.tag ≠ .mask := by
  obtain h | ⟨gid, h⟩ := h <;> rw [h] <;> exact Tag.noConfusion

variable {other : Entry} {mask : Option Entry} {xs users groups : List Entry} {found : Bool}

variable (hmask : ∀ m ∈ mask, m.tag = .mask) (hother : other.tag = .other)

include hmask hother

theorem maskPerm_eq (hxs : ∀ x ∈ xs, x.tag ≠ .mask) :
    maskPerm pa want (xs ++ (mask.toList ++ [other])) =
      if pa.Permits want ∧ ∀ m ∈ mask, m.Permits want then 0 else -EACCES := by
  induction xs with
  | nil =>
    cases mask with
    | none =>
      have htag : other.tag ≠ .mask := by
        rw [hother]
        decide
      simp [maskPerm, htag, checkPerm, Entry.Permits]
    | some m =>
      simp [maskPerm, hmask m rfl, Entry.Permits, and_and_eq_right_iff]
  | cons x xs ih =>
    obtain ⟨hx, hrest⟩ := forall_mem_cons.mp hxs
    rw [cons_append, maskPerm, if_neg hx]
    exact ih hrest

theorem permissionLoop_users (husers : ∀ x ∈ users, ∃ uid, x.tag = .user uid)
    (hxs : ∀ x ∈ xs, x.tag ≠ .mask) :
    permissionLoop inode cred want found (users ++ (xs ++ (mask.toList ++ [other]))) =
      match users.find? (·.matchesUser cred) with
      | some pa => if pa.Permits want ∧ ∀ m ∈ mask, m.Permits want then 0 else -EACCES
      | none => permissionLoop inode cred want found (xs ++ (mask.toList ++ [other])) := by
  induction users with
  | nil => rfl
  | cons x users ih =>
    obtain ⟨⟨uid, huid⟩, hrest⟩ := forall_mem_cons.mp husers
    rw [cons_append, permissionLoop, huid]
    simp only
    by_cases heq : uid = cred.fsuid
    · have hmatch : x.matchesUser cred = true := by simp [matchesUser, huid, heq]
      have hbehind : ∀ y ∈ users ++ xs, y.tag ≠ .mask := by
        refine forall_mem_append.mpr ⟨fun y hy => ?_, hxs⟩
        obtain ⟨u, hu⟩ := hrest y hy
        rw [hu]
        exact Tag.noConfusion
      rw [if_pos heq, find?_cons_of_pos hmatch, ← append_assoc, maskPerm_eq hmask hother hbehind]
    · have hmatch : ¬ x.matchesUser cred = true := by simp [matchesUser, huid, heq]
      rw [if_neg heq, find?_cons_of_neg hmatch]
      exact ih hrest

theorem permissionLoop_groups
    (hgroups : ∀ x ∈ groups, x.tag = .groupObj ∨ ∃ gid, x.tag = .group gid) :
    permissionLoop inode cred want found (groups ++ (mask.toList ++ [other])) =
      if ∃ pa ∈ groups, pa.matchesGroup inode cred = true ∧ pa.Permits want then
        if ∀ m ∈ mask, m.Permits want then 0 else -EACCES
      else if found = true ∨ ∃ pa ∈ groups, pa.matchesGroup inode cred = true then -EACCES
      else checkPerm other want := by
  induction groups generalizing found with
  | nil =>
    cases mask with
    | none => simp [permissionLoop, hother]
    | some m => simp [permissionLoop, hother, hmask m rfl]
  | cons x groups ih =>
    obtain ⟨hx, hrest⟩ := forall_mem_cons.mp hgroups
    have hbehind : ∀ y ∈ groups, y.tag ≠ .mask := fun y hy => ne_mask_of_group (hrest y hy)
    have hstep : permissionLoop inode cred want found (x :: (groups ++ (mask.toList ++ [other]))) =
        if x.matchesGroup inode cred = true then
          if x.Permits want then maskPerm x want (groups ++ (mask.toList ++ [other]))
          else permissionLoop inode cred want true (groups ++ (mask.toList ++ [other]))
        else permissionLoop inode cred want found (groups ++ (mask.toList ++ [other])) := by
      obtain htag | ⟨gid, htag⟩ := hx
      all_goals
        simp only [permissionLoop, matchesGroup, htag]
        rfl
    rw [cons_append, hstep]
    by_cases hmatch : x.matchesGroup inode cred = true
    · rw [if_pos hmatch]
      by_cases hpermits : x.Permits want
      · have hex : ∃ pa ∈ x :: groups, pa.matchesGroup inode cred = true ∧ pa.Permits want :=
          ⟨x, mem_cons_self, hmatch, hpermits⟩
        rw [if_pos hpermits, maskPerm_eq hmask hother hbehind, if_pos hex]
        simp only [hpermits, true_and]
      · rw [if_neg hpermits, ih hrest]
        simp [hmatch, hpermits]
    · rw [if_neg hmatch, ih hrest]
      simp [hmatch]

end Permission

variable (p : Parts)

theorem Parts.mem_acl :
    pa ∈ p.acl ↔ pa = p.owner ∨ pa ∈ p.users ∨ pa = p.group ∨ pa ∈ p.groups ∨ pa ∈ p.mask ∨
      pa = p.other := by
  unfold Parts.acl
  simp only [mem_cons, mem_append, Option.mem_toList, Option.mem_def, not_mem_nil, or_false]

/-- Which part holds an entry with a given tag. -/
def Parts.Holds (p : Parts) (pa : Entry) : Tag → Prop
  | .userObj => pa = p.owner
  | .user _ => pa ∈ p.users
  | .groupObj => pa = p.group
  | .group _ => pa ∈ p.groups
  | .mask => pa ∈ p.mask
  | .other => pa = p.other
  | .unknown => False

theorem Parts.holds (h : pa ∈ p.acl) {tag : Tag} (htag : pa.tag = tag) : p.Holds pa tag := by
  subst htag
  rw [p.mem_acl] at h
  obtain rfl | h | rfl | h | h | rfl := h
  · rw [p.owner_tag]
    rfl
  · obtain ⟨uid, htag⟩ := p.users_tag pa h
    rw [htag]
    exact h
  · rw [p.group_tag]
    rfl
  · obtain ⟨gid, htag⟩ := p.groups_tag pa h
    rw [htag]
    exact h
  · rw [p.mask_tag pa h]
    exact h
  · rw [p.other_tag]
    rfl

theorem Parts.maskPermits_iff : MaskPermits p.acl want ↔ ∀ m ∈ p.mask, m.Permits want := by
  constructor
  · exact fun h m hm => h m (p.mem_acl.mpr (by simp [hm])) (p.mask_tag m hm)
  · exact fun h m hm htag => h m (p.holds hm htag)

theorem Parts.find?_acl :
    p.acl.find? (·.matchesUser cred) = p.users.find? (·.matchesUser cred) := by
  have howner : ¬ p.owner.matchesUser cred = true := by simp [matchesUser, p.owner_tag]
  have hrest : (p.group :: (p.groups ++ (p.mask.toList ++ [p.other]))).find?
      (·.matchesUser cred) = none := by
    rw [find?_eq_none]
    intro x hx
    simp only [mem_cons, mem_append, Option.mem_toList, not_mem_nil, or_false] at hx
    obtain rfl | hx | hx | rfl := hx
    · simp [matchesUser, p.group_tag]
    · obtain ⟨gid, htag⟩ := p.groups_tag x hx
      simp [matchesUser, htag]
    · simp [matchesUser, p.mask_tag x hx]
    · simp [matchesUser, p.other_tag]
  rw [Parts.acl, find?_cons_of_neg howner, find?_append, hrest, Option.or_none]

theorem Parts.matchesGroup_iff :
    (pa ∈ p.acl ∧ pa.matchesGroup inode cred = true) ↔
      pa ∈ p.group :: p.groups ∧ pa.matchesGroup inode cred = true := by
  refine and_congr_left fun hmatch => ⟨fun h => ?_, fun h => ?_⟩
  · unfold matchesGroup at hmatch
    cases htag : pa.tag with
    | groupObj => exact mem_cons.mpr (.inl (p.holds h htag))
    | group gid => exact mem_cons_of_mem _ (p.holds h htag)
    | _ => simp [htag] at hmatch
  · rw [p.mem_acl]
    obtain rfl | h := mem_cons.mp h
    · exact .inr (.inr (.inl rfl))
    · exact .inr (.inr (.inr (.inl h)))

theorem Parts.permissionLoop_eq (hne : inode.uid ≠ cred.fsuid) :
    permissionLoop inode cred want false p.acl = match p.users.find? (·.matchesUser cred) with
      | some pa => if pa.Permits want ∧ ∀ m ∈ p.mask, m.Permits want then 0 else -EACCES
      | none =>
        if ∃ pa ∈ p.group :: p.groups, pa.matchesGroup inode cred = true ∧ pa.Permits want then
          if ∀ m ∈ p.mask, m.Permits want then 0 else -EACCES
        else if ∃ pa ∈ p.group :: p.groups, pa.matchesGroup inode cred = true then -EACCES
        else checkPerm p.other want := by
  have hgroups : ∀ x ∈ p.group :: p.groups, x.tag = .groupObj ∨ ∃ gid, x.tag = .group gid := by
    exact forall_mem_cons.mpr ⟨Or.inl p.group_tag, fun x hx => .inr (p.groups_tag x hx)⟩
  have hnomask : ∀ x ∈ p.group :: p.groups, x.tag ≠ .mask := fun x hx =>
    ne_mask_of_group (hgroups x hx)
  rw [Parts.acl, permissionLoop, p.owner_tag]
  simp only [if_neg hne]
  rw [← cons_append, permissionLoop_users p.mask_tag p.other_tag p.users_tag hnomask,
    permissionLoop_groups p.mask_tag p.other_tag hgroups]
  simp only [Bool.false_eq_true, false_or]

theorem Parts.permission :
    (PosixGrants inode cred p.acl want → permissionLoop inode cred want false p.acl = 0) ∧
      (¬ PosixGrants inode cred p.acl want →
        permissionLoop inode cred want false p.acl = -EACCES) := by
  unfold PosixGrants
  by_cases howner : inode.uid = cred.fsuid
  · have hloop : permissionLoop inode cred want false p.acl =
        if p.owner.Permits want then 0 else -EACCES := by
      rw [Parts.acl, permissionLoop, p.owner_tag]
      exact if_pos howner
    have hmem : p.owner ∈ p.acl := p.mem_acl.mpr (.inl rfl)
    rw [if_pos howner, hloop]
    refine ⟨fun ⟨pa, hpa, htag, hpermits⟩ => ?_, fun hnot => ?_⟩
    · obtain rfl : pa = p.owner := p.holds hpa htag
      exact if_pos hpermits
    · exact if_neg fun hpermits => hnot ⟨p.owner, hmem, p.owner_tag, hpermits⟩
  rw [if_neg howner, p.permissionLoop_eq howner, p.find?_acl, p.maskPermits_iff]
  cases p.users.find? (·.matchesUser cred) with
  | some pa => exact ⟨fun h => if_pos h, fun h => if_neg h⟩
  | none =>
    have hexists : ∀ P : Entry → Prop, (∃ pa ∈ p.acl, pa.matchesGroup inode cred = true ∧ P pa) ↔
          ∃ pa ∈ p.group :: p.groups, pa.matchesGroup inode cred = true ∧ P pa := by
      intro P
      refine exists_congr fun pa => ?_
      rw [← and_assoc, p.matchesGroup_iff, and_assoc]
    have hsome := hexists fun _ => True
    simp only [and_true] at hsome
    simp only [hexists, hsome]
    by_cases hsuffices : ∃ pa ∈ p.group :: p.groups,
        pa.matchesGroup inode cred = true ∧ pa.Permits want
    · obtain ⟨pa, hpa, hmatch, hpermits⟩ := hsuffices
      rw [if_pos ⟨pa, hpa, hmatch⟩, if_pos ⟨pa, hpa, hmatch, hpermits⟩]
      refine ⟨fun ⟨_, _, _, _, hmask⟩ => if_pos hmask, fun hnot => if_neg fun hmask => ?_⟩
      exact hnot ⟨pa, hpa, hmatch, hpermits, hmask⟩
    rw [if_neg hsuffices]
    by_cases hmatch : ∃ pa ∈ p.group :: p.groups, pa.matchesGroup inode cred = true
    · rw [if_pos hmatch, if_pos hmatch]
      refine ⟨fun ⟨pa, hpa, hm, hpermits, _⟩ => ?_, fun _ => rfl⟩
      exact absurd ⟨pa, hpa, hm, hpermits⟩ hsuffices
    rw [if_neg hmatch, if_neg hmatch, checkPerm]
    refine ⟨fun ⟨pa, hpa, htag, hpermits⟩ => ?_, fun hnot => if_neg fun hpermits => ?_⟩
    · obtain rfl : pa = p.other := p.holds hpa htag
      exact if_pos hpermits
    · exact hnot ⟨p.other, p.mem_acl.mpr (by simp), p.other_tag, hpermits⟩

variable {acl : PosixAcl} {mode mode' : BitVec 16} {n : Int}

theorem equivLoop_notEquiv (h : equivLoop mode 1 acl = some (mode', n)) : n = 1 := by
  induction acl generalizing mode with
  | nil =>
    cases h
    rfl
  | cons pa acl ih =>
    rw [equivLoop] at h
    cases htag : pa.tag with
    | unknown => simp [equivStep, htag] at h
    | _ =>
      simp only [equivStep, htag] at h
      exact ih h

theorem equivLoop_zero (h : equivLoop mode 0 acl = some (mode', 0)) :
    ∀ pa ∈ acl, pa.tag = .userObj ∨ pa.tag = .groupObj ∨ pa.tag = .other := by
  induction acl generalizing mode with
  | nil => nofun
  | cons x acl ih =>
    rw [equivLoop] at h
    refine forall_mem_cons.mpr ?_
    cases htag : x.tag with
    | unknown => simp [equivStep, htag] at h
    | user _ | group _ | mask =>
      simp only [equivStep, htag] at h
      exact absurd (equivLoop_notEquiv h) (by decide)
    | _ =>
      simp only [equivStep, htag] at h
      exact ⟨by decide, ih h⟩

def modeOf (mode : BitVec 16) (owner group other : Entry) : BitVec 16 :=
  (mode &&& ~~~S_IRWXUGO) ||| (0 ||| (owner.perm &&& S_IRWXO) <<< 6 |||
    (group.perm &&& S_IRWXO) <<< 3 ||| (other.perm &&& S_IRWXO))

theorem Parts.equivMode (h : (posixAclEquivMode p.acl mode).1 = 0) :
    p.acl = [p.owner, p.group, p.other] ∧
      (posixAclEquivMode p.acl mode).2 = modeOf mode p.owner p.group p.other := by
  unfold posixAclEquivMode at h
  cases hloop : equivLoop 0 0 p.acl with
  | none =>
    rw [hloop] at h
    exact absurd h einval_ne
  | some r =>
    rw [hloop] at h
    have htags := equivLoop_zero (hloop.trans (congrArg some (Prod.ext rfl h)))
    simp only [Parts.acl, forall_mem_cons, forall_mem_append, Option.mem_toList] at htags
    obtain ⟨-, husers, -, hgroups, hmask, -⟩ := htags
    have husers : p.users = [] := eq_nil_iff_forall_not_mem.mpr fun pa hpa => by
      obtain ⟨uid, htag⟩ := p.users_tag pa hpa
      simpa [htag] using husers pa hpa
    have hgroups : p.groups = [] := eq_nil_iff_forall_not_mem.mpr fun pa hpa => by
      obtain ⟨gid, htag⟩ := p.groups_tag pa hpa
      simpa [htag] using hgroups pa hpa
    have hmask : p.mask = none := Option.eq_none_iff_forall_not_mem.mpr fun pa hpa => by
      simpa [p.mask_tag pa hpa] using hmask pa hpa
    have hacl : p.acl = [p.owner, p.group, p.other] := by
      rw [Parts.acl, husers, hgroups, hmask]
      rfl
    refine ⟨hacl, ?_⟩
    rw [hacl]
    simp only [posixAclEquivMode, equivLoop, equivStep, p.owner_tag, p.group_tag, p.other_tag]
    rfl

theorem rwx_bit {i : Nat} (h : (7#32).getLsbD i = true) : i < 3 := by
  by_contra hge
  have hlt := BitVec.lt_of_getLsbD h
  interval_cases i <;> simp at h hge

theorem getLsbD_modeOf (owner group other : Entry) {i : Nat} (hi : i < 3) :
    ((modeOf mode owner group other).setWidth 32 >>> 6).getLsbD i = owner.perm.getLsbD i ∧
      ((modeOf mode owner group other).setWidth 32 >>> 3).getLsbD i = group.perm.getLsbD i ∧
      ((modeOf mode owner group other).setWidth 32).getLsbD i = other.perm.getLsbD i := by
  unfold modeOf S_IRWXUGO S_IRWXO
  interval_cases i <;> simp

theorem aclPermissionCheck_bits (hwant : want &&& ~~~mayRwx = 0)
    (hbits : ∀ i < 3, bits.getLsbD i = pa.perm.getLsbD i) :
    (if want &&& ~~~bits &&& mayRwx = 0 then 0 else -EACCES : Int) = checkPerm pa want := by
  have hlow : ∀ i, want.getLsbD i = true → i < 3 := fun i hi =>
    rwx_bit (and_not_eq_zero_iff.mp hwant i hi)
  have hrwx : want &&& ~~~bits &&& mayRwx = want &&& ~~~bits := by
    rw [BitVec.and_comm, ← BitVec.and_assoc, and_eq_right_iff.mpr (and_not_eq_zero_iff.mp hwant)]
  have hiff : want &&& ~~~bits &&& mayRwx = 0 ↔ pa.bits &&& want = want := by
    rw [hrwx, and_eq_right_iff]
    refine and_not_eq_zero_iff.trans (forall_congr' fun i => imp_congr_right fun hi => ?_)
    have hlt : i < 32 := BitVec.lt_of_getLsbD hi
    rw [hbits i (hlow i hi), Entry.bits, BitVec.getLsbD_setWidth, decide_eq_true hlt, Bool.true_and]
  simp only [checkPerm, hiff]

theorem permissionLoop_mode (hwant : want &&& ~~~mayRwx = 0)
    (hacl : p.acl = [p.owner, p.group, p.other]) :
    permissionLoop inode cred want false p.acl =
      aclPermissionCheck inode cred (modeOf mode p.owner p.group p.other) want := by
  have hbits := fun i => @getLsbD_modeOf mode p.owner p.group p.other i
  rw [hacl, permissionLoop, p.owner_tag]
  unfold aclPermissionCheck
  simp only
  by_cases howner : inode.uid = cred.fsuid
  · rw [if_pos howner, if_pos howner.symm]
    exact (aclPermissionCheck_bits hwant fun i hi => (hbits i hi).1).symm
  have hne : ¬ cred.fsuid = inode.uid := fun h => howner h.symm
  rw [if_neg howner, if_neg hne, permissionLoop, p.group_tag]
  simp only
  by_cases hgroup : inGroupP cred inode.gid = true
  · have hmask : maskPerm p.group want [p.other] = checkPerm p.group want := by
      simp [maskPerm, p.other_tag]
    have hother : permissionLoop inode cred want true [p.other] = -EACCES := by
      simp [permissionLoop, p.other_tag]
    have hcheck : (if p.group.bits &&& want = want then checkPerm p.group want else -EACCES) =
        checkPerm p.group want := by
      unfold checkPerm
      split_ifs <;> rfl
    rw [if_pos hgroup, if_pos hgroup, hmask, hother, hcheck]
    exact (aclPermissionCheck_bits hwant fun i hi => (hbits i hi).2.1).symm
  · have hother : permissionLoop inode cred want false [p.other] = checkPerm p.other want := by
      simp [permissionLoop, p.other_tag]
    rw [if_neg hgroup, if_neg hgroup, hother]
    exact (aclPermissionCheck_bits hwant fun i hi => (hbits i hi).2.2).symm

/-- On a valid list `posix_acl_permission` grants what POSIX.1e grants, and what the mode bits
grant where `posix_acl_equiv_mode` stores them. -/
theorem posix_acl_permission_exact (inode : Inode) (cred : Cred) (hvalid : posixAclValid acl = 0)
    {want : BitVec 32} (hwant : want &&& ~~~mayRwx = 0) :
    (PosixGrants inode cred acl want → posixAclPermission inode cred acl want = 0) ∧
      (¬ PosixGrants inode cred acl want → posixAclPermission inode cred acl want = -EACCES) ∧
      ∀ mode, (posixAclEquivMode acl mode).1 = 0 →
        posixAclPermission inode cred acl want =
          aclPermissionCheck inode cred (posixAclEquivMode acl mode).2 want := by
  obtain ⟨p, rfl⟩ := exists_parts hvalid
  have hkeep : want &&& 0x87 = want := by
    rw [BitVec.and_comm, and_eq_right_iff]
    intro i hi
    have hlt := rwx_bit (and_not_eq_zero_iff.mp hwant i hi)
    interval_cases i <;> rfl
  unfold posixAclPermission
  rw [hkeep]
  refine ⟨p.permission.1, p.permission.2, fun mode hequiv => ?_⟩
  obtain ⟨hacl, hmode⟩ := p.equivMode hequiv
  rw [hmode]
  exact permissionLoop_mode p hwant hacl

/-- User 3 may read and write, but the mask leaves only reading. -/
def maskedAcl : PosixAcl :=
  [⟨.userObj, 6⟩, ⟨.user 3, 6⟩, ⟨.groupObj, 4⟩, ⟨.mask, 4⟩, ⟨.other, 0⟩]

theorem posix_acl_permission_exact_masked :
    posixAclPermission ⟨1, 2⟩ ⟨3, 2, []⟩ maskedAcl 4 = 0 ∧
      posixAclPermission ⟨1, 2⟩ ⟨3, 2, []⟩ maskedAcl 2 = -EACCES := by
  have hvalid : posixAclValid maskedAcl = 0 := by decide
  refine ⟨(posix_acl_permission_exact _ _ hvalid (by decide)).1 ?_,
    (posix_acl_permission_exact _ _ hvalid (by decide)).2.1 ?_⟩
  · rw [PosixGrants, if_neg (by decide)]
    exact ⟨by decide, by unfold MaskPermits; decide⟩
  · rw [PosixGrants, if_neg (by decide)]
    exact fun h => absurd h.2 (by unfold MaskPermits; decide)

end LinuxKernel.Acl
