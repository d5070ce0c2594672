import LinuxKernel.Mm.BuddyInv

/-!
# Isolated pageblocks

`__free_one_page()` does not merge an isolated block beyond its pageblock.  It does not look at the
type of a buddy, so a block of another type is merged with a free buddy in an isolated
pageblock.  The number of free pages is right all the same, since it goes by the pages that are
freed.
-/

namespace LinuxKernel.Mm

open Lib List Function

/-- `pageblock_order` and the migrate types of the pageblocks. -/
structure Pageblocks where
  order : Nat
  migratetype : Nat → Migratetype

variable {blocks : Pageblocks} {p o left m q : Nat}

namespace Pageblocks

/-- The page is in a pageblock of `MIGRATE_ISOLATE`. -/
def Isolated (blocks : Pageblocks) (q : Nat) : Prop :=
  blocks.migratetype (q / 2 ^ blocks.order) = .isolate

/-- A block that does not mix isolated pageblocks with others. -/
def Uniform (blocks : Pageblocks) (p o : Nat) : Prop :=
  ∀ q, InBlock p o q → (blocks.Isolated q ↔ blocks.Isolated p)

theorem uniform_of_le (h : 2 ^ o ∣ p) (ho : o ≤ blocks.order) : blocks.Uniform p o := by
  rintro q ⟨hlo, hhi⟩
  obtain ⟨k, rfl⟩ := h
  obtain ⟨d, hd⟩ := Nat.exists_eq_add_of_le ho
  have hq : q / 2 ^ o = k := by
    rw [mul_comm] at hlo hhi
    exact Nat.div_eq_of_lt_le hlo (by rwa [Nat.succ_mul])
  unfold Isolated
  rw [hd, Nat.pow_add, ← Nat.div_div_eq_div_mul, ← Nat.div_div_eq_div_mul, hq,
    Nat.mul_div_cancel_left _ (Nat.two_pow_pos o)]

/-- A block mixes no types if its halves do not, and are of one kind unless in one pageblock. -/
theorem uniform_parent (h : 2 ^ o ∣ p) (hb : blocks.Uniform (buddyOf p o) o) :
    blocks.Uniform (p &&& buddyOf p o) (o + 1) ↔
      blocks.Uniform p o ∧
        (blocks.order ≤ o → (blocks.Isolated (buddyOf p o) ↔ blocks.Isolated p)) := by
  have hsplit := inBlock_parent h
  constructor
  · intro hu
    have hself := hu p ((hsplit p).mpr (.inl (inBlock_self p o)))
    refine ⟨fun q hq => (hu q ((hsplit q).mpr (.inl hq))).trans hself.symm, fun _ => ?_⟩
    exact (hu _ ((hsplit _).mpr (.inr (inBlock_self _ o)))).trans hself.symm
  rintro ⟨hp, hsame⟩
  by_cases ho : blocks.order ≤ o
  · have hall : ∀ q, InBlock (p &&& buddyOf p o) (o + 1) q →
        (blocks.Isolated q ↔ blocks.Isolated p) := by
      intro q hq
      rcases (hsplit q).mp hq with hq | hq
      · exact hp q hq
      · exact (hb q hq).trans (hsame ho)
    exact fun q hq => (hall q hq).trans (hall _ (inBlock_self _ _)).symm
  · exact uniform_of_le (parent_dvd h) (Nat.lt_of_not_le ho)

end Pageblocks

variable {zone : Zone} {busy : Nat → Prop}

/-- No free block above `pageblock_order` mixes isolated pageblocks with others. -/
def Zone.Unmixed (zone : Zone) (blocks : Pageblocks) : Prop :=
  ∀ p o, zone.free p = some o → blocks.order < o → blocks.Uniform p o

theorem Zone.Unmixed.uniform (h : zone.Unmixed blocks) (hapart : zone.Apart busy)
    (hp : zone.free p = some o) : blocks.Uniform p o := by
  by_cases ho : blocks.order < o
  · exact h p o hp ho
  · exact Pageblocks.uniform_of_le (hapart.aligned hp) (Nat.le_of_not_lt ho)

/-- The free buddies that a block is merged with, in so many passes. -/
def mergedWith (free : Nat → Option Nat) : Nat → Nat → Nat → List (Nat × Nat)
  | 0, _, _ => []
  | left + 1, p, o =>
    if free (buddyOf p o) = some o then
      (buddyOf p o, o) ::
        mergedWith (update free (buddyOf p o) none) left (p &&& buddyOf p o) (o + 1)
    else []

theorem mem_mergedWith {free : Nat → Option Nat} {b : Nat × Nat}
    (h : b ∈ mergedWith free left p o) : o ≤ b.2 ∧ b.2 < o + left := by
  induction left generalizing free p o with
  | zero => cases h
  | succ left ih =>
    rw [mergedWith] at h
    split at h
    · rcases mem_cons.mp h with rfl | h
      · exact ⟨le_refl _, by omega⟩
      · have := ih h
        omega
    · cases h

/-- What the merge loop has made of the block `f`. -/
structure Freeing.Merged (blocks : Pageblocks) (f g : Freeing) (m : Nat) (busy : Nat → Prop)
    (buddies : List (Nat × Nat)) : Prop where
  apart : g.Apart m busy
  free : ∀ {p o}, g.zone.free p = some o → f.zone.free p = some o
  uniform : blocks.Uniform g.page g.order ↔ blocks.Uniform f.page f.order ∧
    ∀ b ∈ buddies, blocks.order ≤ b.2 → (blocks.Isolated b.1 ↔ blocks.Isolated f.page)
  hasPage : g.zone.HasPage = f.zone.HasPage
  nrFreePages : g.zone.nrFreePages = f.zone.nrFreePages

theorem Freeing.Apart.mergeLoop {f : Freeing} (h : f.Apart m busy)
    (hfree : ∀ {p o}, f.zone.free p = some o → blocks.Uniform p o)
    (hleft : left ≠ 0 → f.order + left < m) :
    Merged blocks f (f.mergeLoop left) m busy (mergedWith f.zone.free left f.page f.order) := by
  induction left generalizing f with
  | zero => exact ⟨h, id, (and_iff_left (forall_mem_nil _)).symm, rfl, rfl⟩
  | succ left ih =>
    have hlt : f.order + (left + 1) < m := hleft (Nat.succ_ne_zero left)
    have hbuddy := h.pageIsBuddy_iff (by omega)
    rw [Freeing.mergeLoop, mergedWith]
    by_cases hb : f.zone.free (buddyOf f.page f.order) = some f.order
    · rw [if_pos (hbuddy.mpr hb), if_pos hb]
      obtain ⟨hzone, hpage, -⟩ := h.merge_eq (by omega)
      have hdel : f.merge.zone.free = update f.zone.free (buddyOf f.page f.order) none := by
        rw [hzone, Zone.free_delFree]
      have hsub : ∀ {p o}, f.merge.zone.free p = some o → f.zone.free p = some o := by
        intro p o hp
        rw [hdel] at hp
        exact (eq_some_of_remove hp).2
      have horder : f.merge.order = f.order + 1 := rfl
      have hrest := ih (h.merge (by omega) hb) (fun hp => hfree (hsub hp)) (by omega)
      rw [hdel, hpage, horder] at hrest
      refine ⟨hrest.apart, fun hp => hsub (hrest.free hp), hrest.uniform.trans ?_, hrest.hasPage,
        hrest.nrFreePages⟩
      have hparent := Pageblocks.uniform_parent h.aligned (hfree hb)
      rw [hpage, horder, hparent, forall_mem_cons, and_assoc]
      -- the kind of the larger block is that of the block itself
      refine and_congr_right fun hf => and_congr_right fun hkind => ?_
      have hsame := (hparent.mpr ⟨hf, hkind⟩) f.page
        ((inBlock_parent h.aligned _).mpr (.inl (inBlock_self _ _)))
      simp only [hsame]
    · rw [if_neg (mt hbuddy.mp hb), if_neg hb]
      exact ⟨{ h with }, id, (and_iff_left (forall_mem_nil _)).symm, rfl, rfl⟩

section Free

variable {pfn order : Nat} {mt : Migratetype} (h : zone.Apart busy) (hun : zone.Unmixed blocks)
  (stale : Nat) (halign : 2 ^ order ∣ pfn) (hbusy : ∀ q, InBlock pfn order q → busy q)

include h hun halign hbusy

theorem freeOnePage_merged (mt : Migratetype) :
    ∃ f g : Freeing, Freeing.Merged blocks f g (mergeLimit blocks.order mt)
        (fun q => busy q ∧ ¬ InBlock pfn order q)
        (mergedWith zone.free (mergeLimit blocks.order mt - 1 - order) pfn order) ∧
      f.page = pfn ∧ f.order = order ∧ f.zone.free = zone.free ∧ f.zone.HasPage = zone.HasPage ∧
      f.zone.nrFreePages = zone.nrFreePages + (if mt = .isolate then 0 else 2 ^ order) ∧
      zone.freeOnePage blocks.order stale pfn order mt = g.finish mt := by
  have hzone : ∃ zone' : Zone, zone' = (if mt = .isolate then zone
        else zone.modFreepageState (2 ^ order) mt) ∧
      zone'.free = zone.free ∧ zone'.HasPage = zone.HasPage ∧
      zone'.nrFreePages = zone.nrFreePages + (if mt = .isolate then 0 else 2 ^ order) := by
    refine ⟨_, rfl, ?_⟩
    split
    · exact ⟨rfl, rfl, (Int.add_zero _).symm⟩
    · exact ⟨rfl, rfl, rfl⟩
  obtain ⟨zone', hzone', hfree, hpages, hnr⟩ := hzone
  have hstart : Freeing.Apart
      ⟨zone', pfn, pfn &&& (2 ^ mergeLimit blocks.order mt - 1), stale, order⟩
      (mergeLimit blocks.order mt) (fun q => busy q ∧ ¬ InBlock pfn order q) := by
    refine ⟨?_, fun q hq => hq.2, halign, Nat.and_two_pow_sub_one_eq_mod pfn _⟩
    rw [busy_split hbusy] at h
    exact ⟨hfree ▸ h.aligned, hfree ▸ h.disjoint, hfree ▸ hpages ▸ h.all, hfree ▸ h.exclusive⟩
  have huniform : ∀ {p o}, zone'.free p = some o → blocks.Uniform p o :=
    fun hp => hun.uniform h (hfree ▸ hp)
  have hleft : mergeLimit blocks.order mt - 1 - order ≠ 0 →
      order + (mergeLimit blocks.order mt - 1 - order) < mergeLimit blocks.order mt := by omega
  have hmerged := hstart.mergeLoop huniform hleft
  rw [hfree] at hmerged
  refine ⟨_, _, hmerged, rfl, rfl, hfree, hpages, hnr, ?_⟩
  rw [hzone']
  rfl

end Free

/-- The pages of a block that is freed are free, and a free block mixes isolated pageblocks with
others only if a block not isolated was merged with an isolated buddy at least as large as a
pageblock.  The count of the free pages not isolated stays right. -/
theorem freeOnePage_unmixed (h : zone.Apart busy) (hun : zone.Unmixed blocks) (stale : Nat)
    {pfn order : Nat} {mt : Migratetype} (halign : 2 ^ order ∣ pfn)
    (hbusy : ∀ q, InBlock pfn order q → busy q)
    (hkind : ∀ q, InBlock pfn order q → (blocks.Isolated q ↔ mt = .isolate)) :
    (zone.freeOnePage blocks.order stale pfn order mt).Apart
        (fun q => busy q ∧ ¬ InBlock pfn order q) ∧
      ((zone.freeOnePage blocks.order stale pfn order mt).Unmixed blocks ↔
        mt = .isolate ∨ ∀ b ∈ mergedWith zone.free (maxOrder - 1 - order) pfn order,
          blocks.order ≤ b.2 → ¬ blocks.Isolated b.1) ∧
      ∀ pages : List Nat, pages.Nodup →
        (∀ q, q ∈ pages ↔ InBlocks zone.free q ∧ ¬ blocks.Isolated q) →
        zone.nrFreePages = pages.length →
        ∃ pages' : List Nat, pages'.Nodup ∧
          (∀ q, q ∈ pages' ↔
            InBlocks (zone.freeOnePage blocks.order stale pfn order mt).free q ∧
              ¬ blocks.Isolated q) ∧
          (zone.freeOnePage blocks.order stale pfn order mt).nrFreePages = pages'.length := by
  obtain ⟨f, g, hg, rfl, rfl, hfree, hpages, hnr, heq⟩ :=
    freeOnePage_merged h hun stale halign hbusy mt
  have hadd := g.finish_added hg.apart.hasPage mt
  have hapart := hg.apart.zone.added hadd hg.apart.disjoint hg.apart.aligned
  have hself := hkind f.page (inBlock_self _ _)
  have hfinish : (g.finish mt).nrFreePages = g.zone.nrFreePages := by
    unfold Freeing.finish
    dsimp only
    split <;> rfl
  rw [heq]
  refine ⟨hapart, ?_, fun pages hnodup hmem hcount => ?_⟩
  · have hlast : (g.finish mt).Unmixed blocks ↔ blocks.Uniform g.page g.order := by
      constructor
      · intro hu
        exact hu.uniform hapart (by rw [hadd.free, update_self])
      · intro hu p o hp _
        rw [hadd.free] at hp
        rcases eq_some_of_insert hp with ⟨rfl, rfl⟩ | ⟨-, hp⟩
        · exact hu
        · exact hun.uniform h (hfree ▸ hg.free hp)
    have hblock : blocks.Uniform f.page f.order := fun q hq => (hkind q hq).trans hself.symm
    rw [hlast, hg.uniform, and_iff_right hblock]
    by_cases hmt : mt = .isolate
    · -- the merge loop stays inside of the pageblock
      refine iff_of_true (fun b hb ho => ?_) (.inl hmt)
      have hlt := mem_mergedWith hb
      rw [mergeLimit, if_pos hmt] at hlt
      omega
    · simp only [mergeLimit, hself, hmt, if_false, iff_false, false_or]
  have hmem' : ∀ q, InBlocks (g.finish mt).free q ↔
      InBlocks zone.free q ∨ InBlock f.page f.order q := by
    intro q
    rw [hapart.inBlocks_iff, h.inBlocks_iff, hadd.hasPage, hg.hasPage, hpages]
    by_cases hq : InBlock f.page f.order q
    · simp [hq, h.hasPage (hbusy q hq)]
    · simp [hq]
  by_cases hmt : mt = .isolate
  · refine ⟨pages, hnodup, fun q => ?_, ?_⟩
    · rw [hmem, hmem', or_and_right, or_iff_left]
      exact fun hq => hq.2 ((hkind q hq.1).mpr hmt)
    · rw [hfinish, hg.nrFreePages, hnr, if_pos hmt, hcount, Int.add_zero]
  have hin : ∀ q, q ∈ List.range' f.page (2 ^ f.order) ↔ InBlock f.page f.order q := fun q =>
    mem_range'_1
  refine ⟨List.range' f.page (2 ^ f.order) ++ pages, ?_, fun q => ?_, ?_⟩
  · refine nodup_append.mpr ⟨nodup_range', hnodup, ?_⟩
    rintro q hq _ hq' rfl
    exact h.exclusive q (hbusy q ((hin q).mp hq)) ((hmem q).mp hq').1
  · rw [mem_append, hin, hmem, hmem', or_and_right, or_comm]
    refine or_congr_right (and_iff_left_of_imp fun hq hiso => ?_).symm
    exact hmt ((hkind q hq).mp hiso)
  · rw [hfinish, hg.nrFreePages, hnr, if_neg hmt, hcount, length_append, length_range']
    push_cast
    exact Int.add_comm _ _

/-- Pages 0 to 1023; the second pageblock is free and isolated, the first in use. -/
def halfFree : Zone where
  id := 0
  freeArea order :=
    if order = 9 then ⟨fun mt => if mt = .isolate then [512] else [], 1⟩ else ⟨fun _ => [], 0⟩
  nrFreePages := 0
  nrFreeCmaPages := 0
  pageBuddy page := page = 512
  pagePrivate _ := 9
  pageZoneId page := page / 1024

theorem halfFree_free : halfFree.free p = some o ↔ p = 512 ∧ o = 9 := by
  rw [Zone.free_eq_some]
  simp only [Zone.HasPage, halfFree, decide_eq_true_iff]
  omega

theorem halfFree_apart : halfFree.Apart (· < 512) := by
  have hin : ∀ q, InBlocks halfFree.free q ↔ 512 ≤ q ∧ q < 1024 := by
    intro q
    simp [InBlocks, InBlock, halfFree_free]
  constructor
  · intro p o hp
    obtain ⟨rfl, rfl⟩ := halfFree_free.mp hp
    exact dvd_refl _
  · intro p o p' o' q hp hp' _ _
    rw [(halfFree_free.mp hp).1, (halfFree_free.mp hp').1]
  · intro q
    rw [hin, Zone.HasPage]
    simp only [halfFree]
    omega
  · intro q hq
    rw [hin]
    omega

/-- The second pageblock is isolated. -/
def secondIsolated : Pageblocks :=
  ⟨9, fun k => if k = 1 then .isolate else .movable⟩

theorem lt_of_inBlock (h : InBlock 0 o q) : q < 2 ^ o := by
  simpa using h.2

theorem not_isolated_of_lt (h : q < 2 ^ 9) : ¬ secondIsolated.Isolated q := by
  unfold Pageblocks.Isolated secondIsolated
  rw [Nat.div_eq_of_lt h]
  decide

theorem halfFree_unmixed (h : blocks.order = 9) : halfFree.Unmixed blocks := by
  intro p o hp ho
  have := (halfFree_free.mp hp).2
  omega

/-- Freeing the first pageblock merges it with the isolated one. -/
theorem freeOnePage_mixes :
    ∃ (zone : Zone) (busy : Nat → Prop) (blocks : Pageblocks), zone.Apart busy ∧
      zone.Unmixed blocks ∧ (∀ q, InBlock 0 9 q → busy q ∧ ¬ blocks.Isolated q) ∧
      ¬ (zone.freeOnePage blocks.order 0 0 9 .movable).Unmixed blocks := by
  refine ⟨halfFree, (· < 512), secondIsolated, halfFree_apart, halfFree_unmixed rfl,
    fun q hq => ⟨lt_of_inBlock hq, not_isolated_of_lt (lt_of_inBlock hq)⟩, fun hun => ?_⟩
  · have hfree : (halfFree.freeOnePage 9 0 0 9 .movable).free 0 = some 10 := by decide +kernel
    have hmixed := (hun 0 10 hfree (by decide)) 512 ⟨by decide, by decide⟩
    revert hmixed
    unfold Pageblocks.Isolated
    decide

/-- The first half of the first pageblock is freed beside the isolated one. -/
theorem freeOnePage_unmixed_half :
    (halfFree.freeOnePage 9 0 0 8 .movable).Unmixed secondIsolated := by
  have hlt : ∀ q, InBlock 0 8 q → q < 2 ^ 9 := fun q hq => (lt_of_inBlock hq).trans (by decide)
  refine (freeOnePage_unmixed halfFree_apart (halfFree_unmixed rfl) 0 (Nat.dvd_zero _) hlt
    fun q hq => ?_).2.1.mpr (.inr fun b hb => ?_)
  · exact iff_of_false (not_isolated_of_lt (hlt q hq)) nofun
  · have hnone : mergedWith halfFree.free (maxOrder - 1 - 8) 0 8 = [] := if_neg (by decide +kernel)
    rw [hnone] at hb
    cases hb

end LinuxKernel.Mm
