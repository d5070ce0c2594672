import LinuxKernel.Devcg.DeviceCgroup
import LinuxKernel.Lib.Masks

/-!
# A cgroup within its parent

A relation between a cgroup and its parent that is kept by the changes of either one.  It
implies that the parent grants what the cgroup grants.
-/

namespace LinuxKernel.Devcg

open Lib List

variable {ex walk e old : ExceptionItem} {l todo cur : List ExceptionItem} {type : DevType}
  {major minor a b n : UInt32} {access : Access}

section Items

variable {p c : ExceptionItem}

/-- An item is about the devices of another, with all of its access. -/
structure Covers (walk ex : ExceptionItem) : Prop where
  type : walk.type = ex.type
  major : walk.major = ex.major
  minor : walk.minor = ex.minor
  access : ex.access &&& ~~~walk.access = 0

theorem Covers.refl (ex : ExceptionItem) : Covers ex ex :=
  ⟨rfl, rfl, rfl, mask_refl _⟩

theorem Covers.trans (h : Covers walk ex) (h' : Covers ex e) : Covers walk e :=
  ⟨h.type.trans h'.type, h.major.trans h'.major, h.minor.trans h'.minor,
    mask_trans h'.access h.access⟩

theorem sameDevices_iff :
    walk.sameDevices ex = true ↔
      walk.type = ex.type ∧ walk.major = ex.major ∧ walk.minor = ex.minor := by
  unfold ExceptionItem.sameDevices
  simp only [Bool.and_eq_true, decide_eq_true_eq, and_assoc]

theorem Covers.sameDevices_iff (h : Covers walk ex) :
    walk.sameDevices e = true ↔ ex.sameDevices e = true := by
  rw [Devcg.sameDevices_iff, Devcg.sameDevices_iff, h.type, h.major, h.minor]

theorem contains_iff :
    ex.contains type major minor access = true ↔
      type = ex.type ∧ (ex.major = anyNumber ∨ ex.major = major) ∧
        (ex.minor = anyNumber ∨ ex.minor = minor) ∧ access &&& ~~~ex.access = 0 := by
  unfold ExceptionItem.contains
  simp only [Bool.and_eq_true, Bool.or_eq_true, decide_eq_true_eq, beq_iff_eq, and_assoc]

theorem overlaps_iff :
    ex.overlaps type major minor access = true ↔
      type = ex.type ∧ (ex.major = anyNumber ∨ major = anyNumber ∨ ex.major = major) ∧
        (ex.minor = anyNumber ∨ minor = anyNumber ∨ ex.minor = minor) ∧
          access &&& ex.access ≠ 0 := by
  unfold ExceptionItem.overlaps
  simp only [Bool.and_eq_true, Bool.or_eq_true, decide_eq_true_eq, beq_iff_eq, and_assoc, or_assoc]

theorem number_trans (h : a = anyNumber ∨ a = b) (h' : b = anyNumber ∨ b = n) :
    a = anyNumber ∨ a = n := by
  obtain hany | rfl := h
  · exact .inl hany
  · exact h'

theorem contains_trans (h : e.contains c.type c.major c.minor c.access = true)
    (hc : c.contains type major minor access = true) :
    e.contains type major minor access = true := by
  rw [contains_iff] at h hc ⊢
  obtain ⟨htype, hmajor, hminor, haccess⟩ := h
  obtain ⟨htype', hmajor', hminor', haccess'⟩ := hc
  exact ⟨htype'.trans htype, number_trans hmajor hmajor', number_trans hminor hminor',
    mask_trans haccess' haccess⟩

theorem number_meets (h : a = anyNumber ∨ n = anyNumber ∨ a = n) (h' : b = anyNumber ∨ b = n) :
    a = anyNumber ∨ b = anyNumber ∨ a = b := by
  obtain hany | rfl := h'
  · exact .inr (.inl hany)
  · exact h

theorem overlaps_of_contains (h : e.overlaps type major minor access = true)
    (hc : c.contains type major minor access = true) :
    e.overlaps c.type c.major c.minor c.access = true := by
  rw [overlaps_iff] at h ⊢
  rw [contains_iff] at hc
  obtain ⟨htype, hmajor, hminor, haccess⟩ := h
  obtain ⟨htype', hmajor', hminor', haccess'⟩ := hc
  exact ⟨htype'.symm.trans htype, number_meets hmajor hmajor', number_meets hminor hminor',
    overlap_mono haccess' haccess⟩

theorem Covers.contains (h : Covers walk ex) :
    walk.contains ex.type ex.major ex.minor ex.access = true :=
  contains_iff.mpr ⟨h.type.symm, Or.inr h.major, Or.inr h.minor, h.access⟩

theorem Covers.overlaps (h : Covers walk ex) (ho : ex.overlaps type major minor access = true) :
    walk.overlaps type major minor access = true := by
  rw [overlaps_iff] at ho ⊢
  rw [h.type, h.major, h.minor]
  rw [BitVec.and_comm] at ho ⊢
  exact ⟨ho.1, ho.2.1, ho.2.2.1, overlap_mono h.access ho.2.2.2⟩

end Items

theorem merged_mem (hwalk : walk ∈ l) (hsame : walk.sameDevices ex = true) :
    { walk with access := walk.access ||| ex.access } ∈ devExceptionAdd l ex := by
  rw [devExceptionAdd, if_pos (any_eq_true.mpr ⟨walk, hwalk, hsame⟩)]
  exact mem_map.mpr ⟨walk, hwalk, if_pos hsame⟩

theorem exists_covers_add (hwalk : walk ∈ l) (ex : ExceptionItem) :
    ∃ walk' ∈ devExceptionAdd l ex, Covers walk' walk := by
  by_cases hsame : walk.sameDevices ex = true
  · exact ⟨_, merged_mem hwalk hsame, rfl, rfl, rfl, mask_or_left (mask_refl _) _⟩
  refine ⟨walk, ?_, .refl walk⟩
  unfold devExceptionAdd
  split_ifs
  · exact mem_map.mpr ⟨walk, hwalk, if_neg hsame⟩
  · exact mem_append_left _ hwalk

theorem exists_covers_added (l : List ExceptionItem) (ex : ExceptionItem) :
    ∃ walk' ∈ devExceptionAdd l ex, Covers walk' ex := by
  by_cases hany : l.any (·.sameDevices ex) = true
  · obtain ⟨walk, hwalk, hsame⟩ := any_eq_true.mp hany
    obtain ⟨htype, hmajor, hminor⟩ := sameDevices_iff.mp hsame
    exact ⟨_, merged_mem hwalk hsame, htype, hmajor, hminor, mask_or_right _ _⟩
  · rw [devExceptionAdd, if_neg hany]
    exact ⟨ex, mem_append_right _ mem_cons_self, .refl ex⟩

theorem mem_devExceptionAdd (h : walk ∈ devExceptionAdd l ex) :
    walk ∈ l ∨ walk = ex ∨
      ∃ old ∈ l, old.sameDevices ex = true ∧
        walk = { old with access := old.access ||| ex.access } := by
  unfold devExceptionAdd at h
  split_ifs at h with hany
  · obtain ⟨old, hold, heq⟩ := mem_map.mp h
    split_ifs at heq with hsame
    · exact .inr (.inr ⟨old, hold, hsame, heq.symm⟩)
    · exact .inl (heq ▸ hold)
  · obtain h | h := mem_append.mp h
    · exact .inl h
    · exact .inr (.inl (mem_singleton.mp h))

theorem mem_devExceptionRm :
    walk ∈ devExceptionRm l ex ↔ ∃ old ∈ l, removeAccess ex old = some walk := by
  unfold devExceptionRm
  rw [mem_filterMap]

theorem covers_of_removeAccess (h : removeAccess ex old = some walk) : Covers old walk := by
  unfold removeAccess at h
  split_ifs at h
  · cases h
    exact ⟨rfl, rfl, rfl, and_not_mask (mask_refl _) _⟩
  · obtain rfl := Option.some.inj h
    exact .refl old

theorem exists_covers_rm (hwalk : walk ∈ l) (hcovers : Covers walk e) (he : e.access ≠ 0)
    (hdisjoint : walk.sameDevices ex = true → ex.access &&& e.access = 0) :
    ∃ walk' ∈ devExceptionRm l ex, Covers walk' e := by
  by_cases hsame : walk.sameDevices ex = true
  · have hkeep : e.access &&& ~~~(walk.access &&& ~~~ex.access) = 0 :=
      mask_and_not hcovers.access (hdisjoint hsame)
    refine ⟨{ walk with access := walk.access &&& ~~~ex.access },
      mem_devExceptionRm.mpr ⟨walk, hwalk, ?_⟩, hcovers.type, hcovers.major, hcovers.minor, hkeep⟩
    exact (if_pos hsame).trans (if_neg (ne_zero_of_mask hkeep he))
  · exact ⟨walk, mem_devExceptionRm.mpr ⟨walk, hwalk, if_neg hsame⟩, hcovers⟩

section Restricts

variable {p p' c c' : DevCgroup}

theorem matchException_eq_true :
    matchException l type major minor access = true ↔
      ∃ ex ∈ l, ex.contains type major minor access = true :=
  any_eq_true

theorem matchExceptionPartial_eq_false :
    (!matchExceptionPartial l type major minor access) = true ↔
      ∀ ex ∈ l, ¬ ex.overlaps type major minor access = true := by
  unfold matchExceptionPartial
  rw [Bool.not_eq_true', any_eq_false]

theorem verifyNewEx_deny :
    verifyNewEx p ex .deny = true ↔
      if p.behavior = .allow then
        ∀ e ∈ p.exceptions, ¬ e.overlaps ex.type ex.major ex.minor ex.access = true
      else ∃ e ∈ p.exceptions, e.contains ex.type ex.major ex.minor ex.access = true := by
  unfold verifyNewEx
  simp only [reduceCtorEq, if_false]
  split_ifs
  · exact matchExceptionPartial_eq_false
  · exact matchException_eq_true

theorem verifyNewEx_of_covers (h : verifyNewEx p ex .deny = true) (hcovers : Covers ex walk) :
    verifyNewEx p walk .deny = true := by
  rw [verifyNewEx_deny] at h ⊢
  split_ifs at h ⊢ with hp
  · exact fun e he ho => h e he (overlaps_of_contains ho hcovers.contains)
  · obtain ⟨e, he, hc⟩ := h
    exact ⟨e, he, contains_trans hc hcovers.contains⟩

theorem behavior_ne_deny (h : c.behavior = .allow) : c.behavior ≠ .deny := by
  rw [h]
  decide

theorem Behavior.allow_or_deny {b : Behavior} (h : b ≠ .none) : b = .allow ∨ b = .deny := by
  cases b <;> simp_all

/-- The relation between a parent and a cgroup. -/
structure Restricts (p c : DevCgroup) : Prop where
  deny : p.behavior ≠ .allow → c.behavior = .deny
  valid : c.behavior = .deny → ∀ ex ∈ c.exceptions, verifyNewEx p ex .deny = true
  covers : c.behavior = .allow → ∀ ex ∈ p.exceptions, ex.access ≠ 0 →
    ∃ walk ∈ c.exceptions, Covers walk ex

theorem Restricts.checkPermission (h : Restricts p c) (hc : c.behavior ≠ .none)
    (hgrant : checkPermission c type major minor access = true) :
    Devcg.checkPermission p type major minor access = true := by
  unfold Devcg.checkPermission at hgrant ⊢
  by_cases hallow : c.behavior = .allow
  · have hp : p.behavior = .allow := by
      by_contra hp
      exact behavior_ne_deny hallow (h.deny hp)
    rw [if_pos hallow, matchExceptionPartial_eq_false] at hgrant
    rw [if_pos hp, matchExceptionPartial_eq_false]
    intro ex hex ho
    have haccess : ex.access ≠ 0 := fun hzero => (overlaps_iff.mp ho).2.2.2 (by simp [hzero])
    obtain ⟨walk, hwalk, hcovers⟩ := h.covers hallow ex hex haccess
    exact hgrant walk hwalk (hcovers.overlaps ho)
  have hdeny := (Behavior.allow_or_deny hc).resolve_left hallow
  rw [if_neg hallow, matchException_eq_true] at hgrant
  obtain ⟨walk, hwalk, hcontains⟩ := hgrant
  have hvalid := h.valid hdeny walk hwalk
  rw [verifyNewEx_deny] at hvalid
  split_ifs at hvalid ⊢ with hp
  · exact matchExceptionPartial_eq_false.mpr fun ex hex ho =>
      hvalid ex hex (overlaps_of_contains ho hcontains)
  · obtain ⟨ex, hex, hc⟩ := hvalid
    exact matchException_eq_true.mpr ⟨ex, hex, contains_trans hc hcontains⟩

theorem Restricts.refl (hp : p.behavior ≠ .none) : Restricts p p := by
  refine ⟨(Behavior.allow_or_deny hp).resolve_left, fun hdeny ex hex => ?_,
    fun _ ex hex _ => ⟨ex, hex, .refl ex⟩⟩
  rw [verifyNewEx_deny, if_neg (by rw [hdeny]; decide)]
  exact ⟨ex, hex, (Covers.refl ex).contains⟩

end Restricts

section Changes

variable {p c : DevCgroup}

def DevCgroup.withExceptions (devcg : DevCgroup) (l : List ExceptionItem) : DevCgroup :=
  { devcg with exceptions := l }

variable (h : Restricts p c)

include h

theorem Restricts.parent_rm (hp : p.behavior = .allow) (ex : ExceptionItem) :
    Restricts (p.withExceptions (devExceptionRm p.exceptions ex)) c := by
  refine ⟨h.deny, fun hdeny walk hwalk => ?_, fun hallow e he hne => ?_⟩
  · have hvalid := h.valid hdeny walk hwalk
    rw [verifyNewEx_deny, if_pos hp] at hvalid
    refine verifyNewEx_deny.mpr ((if_pos hp).mpr fun e he ho => ?_)
    obtain ⟨old, hold, hrm⟩ := mem_devExceptionRm.mp he
    exact hvalid old hold ((covers_of_removeAccess hrm).overlaps ho)
  · obtain ⟨old, hold, hrm⟩ := mem_devExceptionRm.mp he
    have hcovers := covers_of_removeAccess hrm
    obtain ⟨walk, hwalk, hwalkOld⟩ := h.covers hallow old hold (ne_zero_of_mask hcovers.access hne)
    exact ⟨walk, hwalk, hwalkOld.trans hcovers⟩

theorem Restricts.parent_add (hp : p.behavior ≠ .allow) (ex : ExceptionItem) :
    Restricts (p.withExceptions (devExceptionAdd p.exceptions ex)) c := by
  refine ⟨h.deny, fun hdeny walk hwalk => ?_, fun hallow => ?_⟩
  · have hvalid := h.valid hdeny walk hwalk
    rw [verifyNewEx_deny, if_neg hp] at hvalid
    obtain ⟨e, he, hcontains⟩ := hvalid
    obtain ⟨e', he', hcovers⟩ := exists_covers_add he ex
    refine verifyNewEx_deny.mpr ((if_neg hp).mpr ⟨e', he', ?_⟩)
    exact contains_trans hcovers.contains hcontains
  · exact absurd (h.deny hp) (behavior_ne_deny hallow)

theorem Restricts.child_add (hc : c.behavior = .allow) (ex : ExceptionItem) :
    Restricts p (c.withExceptions (devExceptionAdd c.exceptions ex)) := by
  refine ⟨h.deny, fun hdeny => ?_, fun _ e he hne => ?_⟩
  · exact absurd hdeny (behavior_ne_deny hc)
  · obtain ⟨walk, hwalk, hcovers⟩ := h.covers hc e he hne
    obtain ⟨walk', hwalk', hcovers'⟩ := exists_covers_add hwalk ex
    exact ⟨walk', hwalk', hcovers'.trans hcovers⟩

theorem Restricts.child_rm (hc : c.behavior = .deny) (ex : ExceptionItem) :
    Restricts p (c.withExceptions (devExceptionRm c.exceptions ex)) := by
  refine ⟨h.deny, fun _ walk hwalk => ?_, fun hallow => ?_⟩
  · obtain ⟨old, hold, hrm⟩ := mem_devExceptionRm.mp hwalk
    exact verifyNewEx_of_covers (h.valid hc old hold) (covers_of_removeAccess hrm)
  · exact absurd hc (behavior_ne_deny hallow)

/-- A cgroup that allows by default loses an exception the parent has nothing of. -/
theorem Restricts.child_allow (hc : c.behavior = .allow)
    (hremoval : parentAllowsRemoval (some p) c ex = true) :
    Restricts p (c.withExceptions (devExceptionRm c.exceptions ex)) := by
  have hnone : ∀ e ∈ p.exceptions, ¬ e.overlaps ex.type ex.major ex.minor ex.access = true := by
    unfold parentAllowsRemoval at hremoval
    simp only [hc] at hremoval
    exact matchExceptionPartial_eq_false.mp hremoval
  refine ⟨h.deny, fun hdeny => ?_, fun _ e he hne => ?_⟩
  · exact absurd hdeny (behavior_ne_deny hc)
  · obtain ⟨walk, hwalk, hcovers⟩ := h.covers hc e he hne
    refine exists_covers_rm hwalk hcovers hne fun hsame => ?_
    obtain ⟨htype, hmajor, hminor⟩ := sameDevices_iff.mp (hcovers.sameDevices_iff.mp hsame)
    refine Classical.byContradiction fun hover => hnone e he (overlaps_iff.mpr ?_)
    exact ⟨htype.symm, Or.inr (.inr hmajor), Or.inr (.inr hminor), hover⟩

/-- The parent accepts the items merged with an exception, with both accesses. -/
def MergeOk (p c : DevCgroup) (ex : ExceptionItem) : Prop :=
  ∀ walk ∈ c.exceptions, walk.sameDevices ex = true →
    verifyNewEx p { walk with access := walk.access ||| ex.access } .deny = true

/-- A cgroup that denies by default gets an exception the parent accepts. -/
theorem Restricts.child_deny (hc : c.behavior = .deny) (hperm : verifyNewEx p ex .deny = true)
    (hmerge : MergeOk p c ex) :
    Restricts p (c.withExceptions (devExceptionAdd c.exceptions ex)) := by
  refine ⟨h.deny, fun _ walk hwalk => ?_, fun hallow => ?_⟩
  · obtain hwalk | rfl | ⟨old, hold, hsame, rfl⟩ := mem_devExceptionAdd hwalk
    · exact h.valid hc walk hwalk
    · exact hperm
    · exact hmerge old hold hsame
  · exact absurd hc (behavior_ne_deny hallow)

end Changes

variable {p c : DevCgroup}

/-- The loop of the revalidation: what is left was accepted, or is still to come. -/
theorem valid_foldl {perm : ExceptionItem → Bool}
    (hcur : ∀ walk ∈ cur, ∃ old, Covers old walk ∧ (perm old = true ∨ old ∈ todo)) :
    ∀ walk ∈ todo.foldl (fun l ex => if perm ex then l else devExceptionRm l ex) cur,
      ∃ old, Covers old walk ∧ perm old = true := by
  induction todo generalizing cur with
  | nil => simpa using hcur
  | cons ex todo ih =>
    simp only [mem_cons] at hcur
    refine ih fun walk hwalk => ?_
    dsimp only at hwalk
    split_ifs at hwalk with hperm
    · obtain ⟨old, hcovers, hold | rfl | hmem⟩ := hcur walk hwalk
      · exact ⟨old, hcovers, .inl hold⟩
      · exact ⟨old, hcovers, .inl hperm⟩
      · exact ⟨old, hcovers, .inr hmem⟩
    obtain ⟨between, hbetween, hrm⟩ := mem_devExceptionRm.mp hwalk
    have hbelow := covers_of_removeAccess hrm
    obtain ⟨old, hcovers, hold | rfl | hmem⟩ := hcur between hbetween
    · exact ⟨old, hcovers.trans hbelow, .inl hold⟩
    · -- Nothing would be left of an item that comes from the removed one.
      have hsame := sameDevices_iff.mpr
        ⟨hcovers.type.symm, hcovers.major.symm, hcovers.minor.symm⟩
      rw [removeAccess, if_pos hsame, if_pos hcovers.access] at hrm
      cases hrm
    · exact ⟨old, hcovers.trans hbelow, .inr hmem⟩

theorem valid_revalidate (hc : c.behavior = .deny) :
    ∀ walk ∈ (revalidateActiveExceptions (some p) c).exceptions,
      verifyNewEx p walk .deny = true := by
  intro walk hwalk
  have hperm : parentHasPerm (some p) c = fun ex => verifyNewEx p ex .deny := by
    funext ex
    exact congrArg (verifyNewEx p ex) hc
  unfold revalidateActiveExceptions at hwalk
  rw [hperm] at hwalk
  obtain ⟨old, hcovers, hok⟩ :=
    valid_foldl (fun walk hmem => ⟨walk, .refl walk, .inr hmem⟩) walk hwalk
  exact verifyNewEx_of_covers hok hcovers

theorem revalidate_allow (hp : p.behavior = .allow) (hc : c.behavior = .allow) :
    revalidateActiveExceptions (some p) c = c := by
  have hperm : ∀ ex, parentHasPerm (some p) c ex = true := by
    intro ex
    unfold parentHasPerm verifyNewEx
    simp only [hp, hc, if_true]
  unfold revalidateActiveExceptions
  rw [foldl_fixed' fun ex => if_pos (hperm ex)]

theorem Restricts.both_add (h : Restricts p c) (hc : c.behavior = .allow) (ex : ExceptionItem) :
    Restricts (p.withExceptions (devExceptionAdd p.exceptions ex))
      (c.withExceptions (devExceptionAdd c.exceptions ex)) := by
  refine ⟨h.deny, fun hdeny => ?_, fun _ e he hne => ?_⟩
  · exact absurd hdeny (behavior_ne_deny hc)
  obtain hold | rfl | ⟨old, hold, hsame, rfl⟩ := mem_devExceptionAdd he
  · exact (h.child_add hc ex).covers hc e hold hne
  · exact exists_covers_added c.exceptions e
  by_cases hzero : old.access = 0
  · obtain ⟨walk, hwalk, hcovers⟩ := exists_covers_added c.exceptions ex
    obtain ⟨htype, hmajor, hminor⟩ := sameDevices_iff.mp hsame
    refine ⟨walk, hwalk, hcovers.type.trans htype.symm, hcovers.major.trans hmajor.symm,
      hcovers.minor.trans hminor.symm, ?_⟩
    simpa [hzero] using hcovers.access
  obtain ⟨walk, hwalk, hcovers⟩ := h.covers hc old hold hzero
  exact ⟨_, merged_mem hwalk (hcovers.sameDevices_iff.mpr hsame), hcovers.type, hcovers.major,
    hcovers.minor, or_mask_or hcovers.access _⟩

end LinuxKernel.Devcg
