import LinuxKernel.Mm.Buddy
import Mathlib.Data.List.Sort

/-!
# The invariant of the buddy allocator

What holds of the free lists and the page marks of a zone while some of its pages
are in use: the steps that take a block from the lists and put one back, the loops
that split and merge blocks, and all runs of the allocator.
-/

namespace LinuxKernel.Mm

open Lib Zone Function List

section Lists

variable {α κ : Type} [DecidableEq κ]

theorem flatMap_update_perm {keys : List κ} (hnodup : keys.Nodup) {k : κ} (hk : k ∈ keys)
    (f : κ → List α) {l : List α} {a : α} (hl : l.Perm (a :: f k)) :
    (keys.flatMap (update f k l)).Perm (a :: keys.flatMap f) := by
  have hsame : ∀ ks : List κ, k ∉ ks → ks.flatMap (update f k l) = ks.flatMap f := by
    intro ks hks
    refine flatMap_congr (fun k' hk' => ?_)
    have hne : k' ≠ k := fun h => hks (h ▸ hk')
    exact update_of_ne hne _ _
  induction keys with
  | nil => cases hk
  | cons k' rest ih =>
    obtain ⟨hnot, hrest⟩ := List.nodup_cons.mp hnodup
    rw [flatMap_cons, flatMap_cons]
    by_cases hkk : k' = k
    · subst hkk
      rw [update_self, hsame rest hnot]
      exact hl.append_right _
    · rw [update_of_ne hkk]
      have hmem : k ∈ rest := (List.mem_cons.mp hk).resolve_left (Ne.symm hkk)
      exact ((ih hrest hmem).append_left _).trans perm_middle

end Lists

namespace Zone

/-- The blocks of an order in the free lists. -/
def pages (zone : Zone) (order : Nat) : List Nat :=
  Migratetype.all.flatMap (zone.freeArea order).freeList

def HasPage (zone : Zone) (page : Nat) : Prop :=
  zone.pageZoneId page = zone.id

/-- The order of a page marked as the first of a free block. -/
def free (zone : Zone) (page : Nat) : Option Nat :=
  if zone.pageZoneId page = zone.id ∧ zone.pageBuddy page = true then
    some (zone.pagePrivate page)
  else
    none

/-- The invariant, while the pages `busy` are not free. -/
structure Ok (zone : Zone) (busy : Nat → Prop) : Prop where
  blocks : BlocksOk maxOrder zone.free
  nodup : ∀ order, (zone.pages order).Nodup
  listed : ∀ page order, page ∈ zone.pages order ↔ zone.free page = some order
  nrFree : ∀ order, (zone.freeArea order).nrFree = (zone.pages order).length
  all : ∀ q, zone.HasPage q ↔ busy q ∨ InBlocks zone.free q
  exclusive : ∀ q, busy q → ¬ InBlocks zone.free q

/-- The blocks that are free, whether or not they could be merged, while the pages `busy` of the
zone are not. -/
structure Apart (zone : Zone) (busy : Nat → Prop) : Prop where
  aligned : ∀ {p o}, zone.free p = some o → 2 ^ o ∣ p
  disjoint : ∀ {p o p' o' q}, zone.free p = some o → zone.free p' = some o' →
    InBlock p o q → InBlock p' o' q → p = p'
  all : ∀ q, zone.HasPage q ↔ busy q ∨ InBlocks zone.free q
  exclusive : ∀ q, busy q → ¬ InBlocks zone.free q

theorem free_eq_some {zone : Zone} {page order : Nat} :
    zone.free page = some order ↔
      zone.HasPage page ∧ zone.pageBuddy page = true ∧ zone.pagePrivate page = order := by
  unfold free HasPage
  split
  · next h => simp [h]
  · next h =>
      constructor
      · nofun
      · rintro ⟨hin, hbuddy, -⟩
        exact absurd ⟨hin, hbuddy⟩ h

section Fields

variable (zone : Zone) (page order : Nat) (mt : Migratetype)

theorem pages_setFreeList {l : List Nat} (hl : l.Perm (page :: (zone.freeArea order).freeList mt))
    (o : Nat) :
    ((zone.setFreeList order mt l).pages o).Perm
      (if o = order then page :: zone.pages o else zone.pages o) := by
  unfold pages setFreeList
  by_cases ho : o = order
  · subst ho
    simp only [update_self, if_true]
    refine flatMap_update_perm (by decide) ?_ _ hl
    cases mt <;> decide
  · simp only [update_of_ne ho, if_neg ho]
    exact .refl _

theorem nrFree_addNrFree (d : Int) (o : Nat) :
    ((zone.addNrFree order d).freeArea o).nrFree =
      (zone.freeArea o).nrFree + if o = order then d else 0 := by
  by_cases ho : o = order <;> simp [addNrFree, ho]

theorem pages_addNrFree (d : Int) (o : Nat) : (zone.addNrFree order d).pages o = zone.pages o := by
  by_cases ho : o = order <;> simp [pages, addNrFree, ho]

end Fields

variable {zone : Zone} {busy : Nat → Prop} {page order currentOrder left : Nat}

section Steps

variable {q : Nat}

theorem Ok.apart (h : zone.Ok busy) : zone.Apart busy :=
  ⟨h.blocks.aligned, h.blocks.disjoint, h.all, h.exclusive⟩

theorem Apart.hasPage (h : zone.Apart busy) (hq : busy q) : zone.HasPage q :=
  (h.all q).mpr (.inl hq)

theorem Apart.inBlocks_iff (h : zone.Apart busy) (q : Nat) :
    InBlocks zone.free q ↔ zone.HasPage q ∧ ¬ busy q := by
  rw [h.all]
  have hexcl := h.exclusive q
  tauto

theorem Apart.free_none (h : zone.Apart busy) (hq : busy q) : zone.free q = none := by
  cases hfree : zone.free q with
  | none => rfl
  | some o => exact absurd (.self hfree) (h.exclusive q hq)

theorem pages_delFree (o : Nat) :
    (zone.delFree page order).pages o = (zone.pages o).filter (· ≠ page) := by
  refine (pages_addNrFree (zone.listDel page) order (-1) o).trans ?_
  unfold pages listDel
  rw [filter_flatMap]

theorem free_delFree : (zone.delFree page order).free = update zone.free page none := by
  funext p
  by_cases hp : p = page <;> simp [free, delFree, listDel, addNrFree, rmvPageOrder, hp]

theorem Apart.delFree (h : zone.Apart busy) (hpage : zone.free page = some order) :
    (zone.delFree page order).Apart (fun q => busy q ∨ InBlock page order q) := by
  constructor <;> rw [free_delFree]
  · exact fun hp => h.aligned (eq_some_of_remove hp).2
  · exact fun hp hp' => h.disjoint (eq_some_of_remove hp).2 (eq_some_of_remove hp').2
  · intro q
    rw [or_right_comm, or_assoc, ← inBlocks_remove hpage]
    exact h.all q
  · rintro q hb ⟨p, o, hp, hin⟩
    obtain ⟨hne, hp⟩ := eq_some_of_remove hp
    rcases hb with hb | hblock
    · exact h.exclusive q hb ⟨p, o, hp, hin⟩
    · exact hne (h.disjoint hp hpage hin hblock)

theorem Ok.delFree (h : zone.Ok busy) (hpage : zone.free page = some order) :
    (zone.delFree page order).Ok (fun q => busy q ∨ InBlock page order q) := by
  have hapart := h.apart.delFree hpage
  refine ⟨?_, ?_, ?_, ?_, hapart.all, hapart.exclusive⟩
  · rw [free_delFree]
    exact h.blocks.remove page
  · intro o
    rw [pages_delFree]
    exact (h.nodup o).filter _
  · intro p o
    rw [pages_delFree, free_delFree, mem_filter, h.listed]
    by_cases hp : p = page <;> simp [hp]
  intro o
  have hnr : ((zone.delFree page order).freeArea o).nrFree =
      (zone.freeArea o).nrFree + if o = order then -1 else 0 :=
    nrFree_addNrFree (zone.listDel page) order (-1) o
  rw [hnr, h.nrFree, pages_delFree]
  by_cases ho : o = order
  · subst ho
    have hmem := (h.listed page o).mpr hpage
    have herase : (zone.pages o).filter (· ≠ page) = (zone.pages o).erase page := by
      rw [(h.nodup o).erase_eq_filter]
      exact filter_congr (fun p _ => by grind)
    have hpos := length_pos_of_mem hmem
    rw [if_pos rfl, herase, length_erase_of_mem hmem]
    omega
  have hnot : page ∉ zone.pages o := by
    intro hmem
    exact ho (Option.some.inj (((h.listed page o).mp hmem).symm.trans hpage))
  rw [if_neg ho, List.filter_eq_self.mpr]
  · exact add_zero _
  · intro p hp
    exact decide_eq_true (fun hpp => hnot (hpp ▸ hp))

/-- The lists after a block was added to the list of one type. -/
structure Added (zone zone' : Zone) (page order : Nat) : Prop where
  free : zone'.free = update zone.free page (some order)
  hasPage : ∀ q, zone'.HasPage q ↔ zone.HasPage q
  pages : ∀ o, (zone'.pages o).Perm (if o = order then page :: zone.pages o else zone.pages o)
  nrFree : ∀ o, (zone'.freeArea o).nrFree = (zone.freeArea o).nrFree + if o = order then 1 else 0

variable {zone' : Zone} (hadd : Added zone zone' page order)
  (hdisj : ∀ q, busy q → ¬ InBlock page order q) (halign : 2 ^ order ∣ page)

include hadd hdisj halign

theorem Apart.added (h : zone.Apart fun q => busy q ∨ InBlock page order q) : zone'.Apart busy := by
  have hcovered := fun q => inBlocks_insert (o := order) (h.free_none (.inr (inBlock_self _ _))) q
  constructor <;> rw [hadd.free]
  · intro p o hp
    rcases eq_some_of_insert hp with ⟨rfl, rfl⟩ | ⟨-, hp⟩
    · exact halign
    · exact h.aligned hp
  · intro p o p' o' q hp hp' hq hq'
    rcases eq_some_of_insert hp with ⟨rfl, rfl⟩ | ⟨-, hold⟩ <;>
      rcases eq_some_of_insert hp' with ⟨rfl, rfl⟩ | ⟨-, hold'⟩
    · rfl
    · exact absurd ⟨p', o', hold', hq'⟩ (h.exclusive q (.inr hq))
    · exact absurd ⟨p, o, hold, hq⟩ (h.exclusive q (.inr hq'))
    · exact h.disjoint hold hold' hq hq'
  · intro q
    rw [hadd.hasPage, h.all, hcovered, or_assoc, or_comm (a := InBlock _ _ _)]
  · intro q hb
    rw [hcovered]
    rintro (hin | hblock)
    · exact h.exclusive q (.inl hb) hin
    · exact hdisj q hb hblock

theorem Ok.added (h : zone.Ok fun q => busy q ∨ InBlock page order q) (horder : order < maxOrder)
    (hbuddy : order + 1 < maxOrder → zone.free (buddyOf page order) ≠ some order) :
    zone'.Ok busy := by
  have hnone : zone.free page = none := h.apart.free_none (.inr (inBlock_self _ _))
  have hapart := h.apart.added hadd hdisj halign
  have hnot : ∀ o, page ∉ zone.pages o := by
    intro o
    rw [h.listed, hnone]
    nofun
  refine ⟨?_, ?_, ?_, ?_, hapart.all, hapart.exclusive⟩
  · rw [hadd.free]
    refine h.blocks.insert horder halign (fun q hq => ?_) hbuddy
    exact h.exclusive q (.inr hq)
  · intro o
    rw [(hadd.pages o).nodup_iff]
    split
    · exact List.nodup_cons.mpr ⟨hnot o, h.nodup o⟩
    · exact h.nodup o
  · intro p o
    rw [(hadd.pages o).mem_iff, hadd.free]
    by_cases hp : p = page
    · subst hp
      rw [update_self]
      split
      · next ho => simp [ho]
      · next ho => simp [hnot o, Ne.symm ho]
    · rw [update_of_ne hp, ← h.listed]
      split
      · simp [hp]
      · rfl
  · intro o
    rw [hadd.nrFree, h.nrFree, (hadd.pages o).length_eq]
    split <;> simp

end Steps

section Split

variable {low high : Nat}

theorem added_of_perm (mt : Migratetype) (hpage : zone.HasPage page) {l : List Nat}
    (hl : l.Perm (page :: (zone.freeArea order).freeList mt)) :
    Added zone (((zone.setFreeList order mt l).addNrFree order 1).setPageOrder page order)
      page order where
  free := by
    funext p
    unfold HasPage at hpage
    by_cases hp : p = page <;> simp [free, setPageOrder, addNrFree, setFreeList, hp, hpage]
  hasPage _ := Iff.rfl
  pages o := by
    have hperm := pages_setFreeList zone page order mt hl o
    rw [← pages_addNrFree _ order 1] at hperm
    exact hperm
  nrFree o := by
    refine (nrFree_addNrFree (zone.setFreeList order mt l) order 1 o).trans ?_
    by_cases ho : o = order <;> simp [setFreeList, ho]

theorem Ok.expand (mt : Migratetype) (h : zone.Ok (fun q => busy q ∨ InBlock page high q))
    (hdisj : ∀ q, busy q → ¬ InBlock page high q) (halign : 2 ^ high ∣ page) (hlow : low ≤ high)
    (hhigh : high < maxOrder) :
    (zone.expand page low mt high).Ok (fun q => busy q ∨ InBlock page low q) := by
  induction high generalizing zone with
  | zero =>
    cases Nat.le_zero.mp hlow
    exact h
  | succ high ih =>
    rw [expand]
    split_ifs with hlt
    · have halign' : 2 ^ high ∣ page := (pow_dvd_pow 2 (Nat.le_succ high)).trans halign
      -- The upper half is the buddy of the lower one.
      obtain ⟨hbuddy, hparent⟩ : buddyOf page high = page + 2 ^ high ∧
          page &&& buddyOf page high = page := by
        rcases buddyOf_cases halign' with ⟨-, hb, hp⟩ | ⟨hle, hd, -, -⟩
        · exact ⟨hb, hp⟩
        · have hself := (Nat.dvd_sub_iff_right hle halign).mp hd
          exact absurd ((Nat.pow_dvd_pow_iff_le_right Nat.one_lt_two).mp hself) (by omega)
      have hsplit := inBlock_parent halign'
      rw [hparent, hbuddy] at hsplit
      have hbusy : (fun q => busy q ∨ InBlock page (high + 1) q) =
          fun q => (busy q ∨ InBlock page high q) ∨ InBlock (page + 2 ^ high) high q := by
        funext q
        rw [hsplit, or_assoc]
      rw [hbusy] at h
      refine ih (h.added (added_of_perm mt ?_ (.refl _)) ?_ ?_ ?_ ?_) ?_ halign' ?_ ?_
      · exact h.apart.hasPage (.inr (inBlock_self _ _))
      · rintro q (hq | hq) hup
        · exact hdisj q hq ((hsplit q).mpr (.inr hup))
        · exact not_inBlock_buddy halign' hq (hbuddy ▸ hup)
      · exact hbuddy ▸ buddyOf_dvd halign'
      · omega
      · intro _ hfree
        rw [← hbuddy, buddyOf_buddyOf] at hfree
        refine h.exclusive page (.inl (.inr (inBlock_self _ _))) ?_
        exact .self hfree
      · intro q hq hlo
        exact hdisj q hq ((hsplit q).mpr (.inl hlo))
      · omega
      · omega
    · cases le_antisymm hlow (Nat.le_of_not_lt hlt)
      exact h

theorem Ok.take (mt : Migratetype) (h : zone.Ok busy) (hpage : zone.free page = some high)
    (hlow : low ≤ high) :
    ((zone.delFree page high).expand page low mt high).Ok
      (fun q => busy q ∨ InBlock page low q) := by
  refine (h.delFree hpage).expand mt ?_ (h.blocks.aligned hpage) hlow (h.blocks.lt hpage)
  intro q hq hin
  exact h.exclusive q hq ⟨page, high, hpage, hin⟩

end Split

section Allocate

variable {mt : Migratetype}

/-- The pages in use after a request for a block. -/
def grant (busy : Nat → Prop) (order : Nat) : Option Nat → Nat → Prop
  | none => busy
  | some page => fun q => busy q ∨ InBlock page order q

theorem Ok.free_head (h : zone.Ok busy) {rest : List Nat}
    (hlist : (zone.freeArea order).freeList mt = page :: rest) : zone.free page = some order := by
  refine (h.listed page order).mp (List.mem_flatMap.mpr ⟨mt, ?_, ?_⟩)
  · cases mt <;> decide
  · rw [hlist]
    exact mem_cons_self

theorem Ok.smallestLoop (h : zone.Ok busy) (hle : order ≤ currentOrder) :
    (zone.smallestLoop order mt currentOrder left).2.Ok
      (grant busy order (zone.smallestLoop order mt currentOrder left).1) := by
  induction left generalizing currentOrder with
  | zero => exact h
  | succ left ih =>
    rw [Zone.smallestLoop]
    split
    · exact ih (Nat.le_succ_of_le hle)
    · next page rest hlist =>
        exact h.take mt (h.free_head hlist) hle

theorem Ok.rmqueueSmallest (h : zone.Ok busy) : (zone.rmqueueSmallest order mt).2.Ok
      (grant busy order (zone.rmqueueSmallest order mt).1) :=
  h.smallestLoop (le_refl order)

theorem Ok.fallbackLoop (h : zone.Ok busy) (n : Nat) : (zone.fallbackLoop order mt n).2.Ok
      (grant busy order (zone.fallbackLoop order mt n).1) := by
  induction n with
  | zero => exact h
  | succ currentOrder ih =>
    rw [Zone.fallbackLoop]
    split
    · next hle =>
        split
        · exact ih
        · split
          · exact h
          · next page rest hlist =>
              exact h.take mt (h.free_head hlist) hle
    · exact h

theorem smallestLoop_ne_none : (zone.smallestLoop order mt currentOrder left).1 ≠ none ↔
    ∃ o, currentOrder ≤ o ∧ o < currentOrder + left ∧ (zone.freeArea o).freeList mt ≠ [] := by
  induction left generalizing currentOrder with
  | zero =>
    simp only [smallestLoop, ne_eq, not_true_eq_false, false_iff]
    rintro ⟨o, hle, hlt, -⟩
    omega
  | succ left ih =>
    rw [smallestLoop]
    split
    · next hnil =>
      rw [ih]
      constructor
      · rintro ⟨o, hle, hlt, hne⟩
        exact ⟨o, by omega, by omega, hne⟩
      · rintro ⟨o, hle, hlt, hne⟩
        rcases Nat.eq_or_lt_of_le hle with rfl | hlt'
        · exact absurd hnil hne
        · exact ⟨o, hlt', by omega, hne⟩
    · next page rest hcons =>
      refine iff_of_true (Option.some_ne_none _) ⟨currentOrder, le_refl _, by omega, ?_⟩
      rw [hcons]
      exact cons_ne_nil page rest

end Allocate

end Zone

section Merge

variable {busy : Nat → Prop} {mt : Migratetype}

/-- The block being freed, while its pages are neither free nor in use; `page_idx` is its place in
a block of order `m`. -/
structure Freeing.Apart (f : Freeing) (m : Nat) (busy : Nat → Prop) : Prop where
  zone : f.zone.Apart (fun q => busy q ∨ InBlock f.page f.order q)
  disjoint : ∀ q, busy q → ¬ InBlock f.page f.order q
  aligned : 2 ^ f.order ∣ f.page
  idx : f.pageIdx = f.page % 2 ^ m

/-- The same with the whole invariant of the zone. -/
structure Freeing.Ok (f : Freeing) (busy : Nat → Prop) : Prop where
  zone : f.zone.Ok (fun q => busy q ∨ InBlock f.page f.order q)
  disjoint : ∀ q, busy q → ¬ InBlock f.page f.order q
  aligned : 2 ^ f.order ∣ f.page
  lt : f.order < maxOrder
  idx : f.pageIdx = f.page % 2 ^ maxOrder

variable {f : Freeing} {m : Nat}

theorem Freeing.Ok.apart (h : f.Ok busy) : f.Apart maxOrder busy :=
  ⟨h.zone.apart, h.disjoint, h.aligned, h.idx⟩

section Pass

variable (h : f.Apart m busy)

include h

theorem Freeing.Apart.hasPage : f.zone.HasPage f.page :=
  h.zone.hasPage (.inr (inBlock_self _ _))

variable (hlt : f.order < m)

include hlt

theorem Freeing.Apart.buddy_eq : f.buddy = buddyOf f.page f.order := by
  unfold Freeing.buddy
  rw [h.idx]
  exact (buddyOf_mod f.page hlt).1

theorem Freeing.Apart.pageIsBuddy_iff :
    f.zone.pageIsBuddy f.page f.buddy f.order = true ↔
      f.zone.free (buddyOf f.page f.order) = some f.order := by
  have hin : f.zone.pageZoneId f.page = f.zone.id := h.hasPage
  rw [h.buddy_eq hlt, free_eq_some, pageIsBuddy, hin]
  simp only [Zone.HasPage, Bool.and_eq_true, beq_iff_eq]
  constructor
  · rintro ⟨⟨hbuddy, hpriv⟩, hzone⟩
    exact ⟨hzone.symm, hbuddy, hpriv⟩
  · rintro ⟨hzone, hbuddy, hpriv⟩
    exact ⟨⟨hbuddy, hpriv⟩, hzone.symm⟩

theorem Freeing.Apart.merge_eq :
    f.merge.zone = f.zone.delFree (buddyOf f.page f.order) f.order ∧
      f.merge.page = f.page &&& buddyOf f.page f.order ∧
      (fun q => (busy q ∨ InBlock f.page f.order q) ∨ InBlock (buddyOf f.page f.order) f.order q) =
        fun q => busy q ∨ InBlock f.merge.page f.merge.order q := by
  have hpage : f.merge.page = f.page &&& buddyOf f.page f.order := by
    rw [← (buddyOf_mod f.page hlt).2.1, ← h.idx]
    rfl
  refine ⟨congrArg (f.zone.delFree · f.order) (h.buddy_eq hlt), hpage, ?_⟩
  funext q
  rw [or_assoc, ← inBlock_parent h.aligned, hpage]
  rfl

theorem Freeing.Apart.merge (hbuddy : f.zone.free (buddyOf f.page f.order) = some f.order) :
    f.merge.Apart m busy := by
  obtain ⟨hzone, hpage, hbusy⟩ := h.merge_eq hlt
  constructor
  · rw [hzone, ← hbusy]
    exact h.zone.delFree hbuddy
  · intro q hq hin
    rw [hpage] at hin
    rcases (inBlock_parent h.aligned q).mp hin with hin | hin
    · exact h.disjoint q hq hin
    · exact h.zone.exclusive q (.inl hq) ⟨_, _, hbuddy, hin⟩
  · rw [hpage]
    exact parent_dvd h.aligned
  · rw [hpage, ← (buddyOf_mod f.page hlt).2.2, ← h.idx]
    rfl

end Pass

theorem Freeing.Ok.merge (h : f.Ok busy) (hlt : f.order + 1 < maxOrder)
    (hbuddy : f.zone.free (buddyOf f.page f.order) = some f.order) : f.merge.Ok busy := by
  have hmerge := h.apart.merge h.lt hbuddy
  obtain ⟨hzone, -, hbusy⟩ := h.apart.merge_eq h.lt
  refine ⟨?_, hmerge.disjoint, hmerge.aligned, hlt, hmerge.idx⟩
  rw [hzone, ← hbusy]
  exact h.zone.delFree hbuddy

theorem Freeing.Ok.mergeLoop (h : f.Ok busy) {left : Nat} (hleft : f.order + left + 1 = maxOrder) :
    (f.mergeLoop left).Ok busy ∧
      ((f.mergeLoop left).order + 1 < maxOrder → (f.mergeLoop left).zone.free
            (buddyOf (f.mergeLoop left).page (f.mergeLoop left).order) ≠
          some (f.mergeLoop left).order) := by
  induction left generalizing f with
  | zero =>
    refine ⟨h, fun hlt => ?_⟩
    simp only [Freeing.mergeLoop] at hlt
    omega
  | succ left ih =>
    rw [Freeing.mergeLoop]
    split_ifs with hbuddy
    · refine ih (h.merge ?_ ((h.apart.pageIsBuddy_iff h.lt).mp hbuddy)) ?_
      · omega
      · show f.order + 1 + left + 1 = maxOrder
        omega
    · refine ⟨{ h with }, fun _ hfree => ?_⟩
      exact hbuddy ((h.apart.pageIsBuddy_iff h.lt).mpr hfree)

theorem Freeing.finish_added (hin : f.zone.HasPage f.page) (mt : Migratetype) :
    Zone.Added f.zone (f.finish mt) f.page f.order := by
  dsimp only [Freeing.finish]
  split
  · exact added_of_perm mt hin (perm_append_singleton _ _)
  · exact added_of_perm mt hin (.refl _)

theorem Freeing.Ok.finish (h : f.Ok busy)
    (hbuddy : f.order + 1 < maxOrder → f.zone.free (buddyOf f.page f.order) ≠ some f.order)
    (mt : Migratetype) : (f.finish mt).Ok busy :=
  h.zone.added (f.finish_added h.apart.hasPage mt) h.disjoint h.aligned h.lt hbuddy

variable {zone : Zone}

theorem Zone.Ok.modFreepageState (h : zone.Ok busy) (nrPages : Int) :
    (zone.modFreepageState nrPages mt).Ok busy :=
  { h with }

theorem busy_split {pfn order : Nat} (hbusy : ∀ q, InBlock pfn order q → busy q) :
    busy = fun q => (busy q ∧ ¬ InBlock pfn order q) ∨ InBlock pfn order q := by
  funext q
  by_cases hq : InBlock pfn order q
  · simp [hq, hbusy q hq]
  · simp [hq]

theorem Zone.Ok.freeOnePage (h : zone.Ok busy) (pageblockOrder stale : Nat) {pfn order : Nat}
    (hmt : mt ≠ .isolate) (horder : order < maxOrder) (halign : 2 ^ order ∣ pfn)
    (hbusy : ∀ q, InBlock pfn order q → busy q) :
    (zone.freeOnePage pageblockOrder stale pfn order mt).Ok
      (fun q => busy q ∧ ¬ InBlock pfn order q) := by
  unfold Zone.freeOnePage mergeLimit
  simp only [if_neg hmt]
  rw [busy_split hbusy] at h
  have hstart : Freeing.Ok
      ⟨zone.modFreepageState (2 ^ order) mt, pfn, pfn &&& (2 ^ maxOrder - 1), stale,
        order⟩ (fun q => busy q ∧ ¬ InBlock pfn order q) :=
    { zone := h.modFreepageState _
      disjoint := fun q hq => hq.2
      aligned := halign
      lt := horder
      idx := Nat.and_two_pow_sub_one_eq_mod pfn maxOrder }
  have hleft : order + (maxOrder - 1 - order) + 1 = maxOrder := by
    omega
  obtain ⟨hend, hbuddy⟩ := hstart.mergeLoop hleft
  exact hend.finish hbuddy mt

end Merge

/-- A zone and its pages that are in use. -/
structure BuddyState where
  zone : Zone
  alloc : Nat → Prop

namespace BuddyState

/-- Before the first page is handed to the allocator. -/
structure Init (st : BuddyState) : Prop where
  empty : ∀ order mt, (st.zone.freeArea order).freeList mt = []
  nrFree : ∀ order, (st.zone.freeArea order).nrFree = 0
  unmarked : ∀ page, st.zone.HasPage page → st.zone.pageBuddy page = false
  alloc : ∀ page, st.alloc page ↔ st.zone.HasPage page

/-- One call of the allocator: a request, or the release of an aligned block of pages in use. -/
inductive Step : BuddyState → BuddyState → Prop where
  | smallest (st : BuddyState) (order : Nat) (mt : Migratetype) : Step st
        ⟨(st.zone.rmqueueSmallest order mt).2,
          Zone.grant st.alloc order (st.zone.rmqueueSmallest order mt).1⟩
  | fallback (st : BuddyState) (order : Nat) (mt : Migratetype) : Step st
        ⟨(st.zone.rmqueueFallback order mt).2,
          Zone.grant st.alloc order (st.zone.rmqueueFallback order mt).1⟩
  | free (st : BuddyState) (pageblockOrder stale pfn order : Nat) (mt : Migratetype)
      (hmt : mt ≠ .isolate)
      (horder : order < maxOrder)
      (halign : 2 ^ order ∣ pfn)
      (halloc : ∀ q, InBlock pfn order q → st.alloc q) :
      Step st
        ⟨st.zone.freeOnePage pageblockOrder stale pfn order mt,
          fun q => st.alloc q ∧ ¬ InBlock pfn order q⟩

/-- The states after any sequence of calls. -/
inductive Reachable : BuddyState → Prop where
  | init {st : BuddyState} (h : st.Init) : Reachable st
  | step {st st' : BuddyState} (h : Reachable st) (hstep : Step st st') : Reachable st'

variable {st st' : BuddyState}

theorem Init.ok (h : st.Init) : st.zone.Ok st.alloc := by
  have hfree : ∀ p, st.zone.free p = none := by
    intro p
    cases hp : st.zone.free p with
    | none => rfl
    | some o =>
      obtain ⟨hin, hbuddy, -⟩ := free_eq_some.mp hp
      rw [h.unmarked p hin] at hbuddy
      cases hbuddy
  have hpages : ∀ o, st.zone.pages o = [] := fun o =>
    List.flatMap_eq_nil_iff.mpr fun mt _ => h.empty o mt
  have hnone : ∀ {p o}, st.zone.free p ≠ some o := by
    intro p o hp
    cases (hfree p).symm.trans hp
  constructor
  · constructor <;> exact fun hp => absurd hp hnone
  · intro o
    rw [hpages]
    exact nodup_nil
  · intro p o
    rw [hpages, hfree]
    constructor <;> nofun
  · intro o
    rw [h.nrFree, hpages]
    rfl
  · intro q
    rw [← h.alloc]
    constructor
    · exact .inl
    · rintro (hq | ⟨p, o, hp, -⟩)
      · exact hq
      · exact absurd hp hnone
  · rintro q - ⟨p, o, hp, -⟩
    exact hnone hp

theorem Step.ok (hstep : Step st st') (h : st.zone.Ok st.alloc) : st'.zone.Ok st'.alloc := by
  cases hstep with
  | smallest order mt => exact h.rmqueueSmallest
  | fallback order mt => exact h.fallbackLoop maxOrder
  | free pageblockOrder stale pfn order mt hmt horder halign halloc =>
    exact h.freeOnePage pageblockOrder stale hmt horder halign halloc

theorem Reachable.ok (h : st.Reachable) : st.zone.Ok st.alloc := by
  induction h with
  | init h => exact h.ok
  | step _ hstep ih => exact hstep.ok ih

/-- The page lies in a block of the free lists. -/
def Listed (zone : Zone) (q : Nat) : Prop :=
  ∃ page order, page ∈ zone.pages order ∧ InBlock page order q

theorem listed_iff {zone : Zone} {busy : Nat → Prop} (h : zone.Ok busy) (q : Nat) :
    Listed zone q ↔ InBlocks zone.free q := by
  unfold Listed InBlocks
  simp only [h.listed]

end BuddyState

/-- The free lists of a zone, over any requests and releases. -/
theorem buddy_reachable {st : BuddyState} (h : st.Reachable) :
    (∀ page order, page ∈ st.zone.pages order → 2 ^ order ∣ page) ∧
      (∀ page order page' order' q,
        page ∈ st.zone.pages order → page' ∈ st.zone.pages order' →
          InBlock page order q → InBlock page' order' q → page = page' ∧ order = order') ∧
      (∀ order, (st.zone.pages order).Nodup) ∧
      (∀ q, st.zone.HasPage q ↔ st.alloc q ∨ BuddyState.Listed st.zone q) ∧
      (∀ q, st.alloc q → ¬ BuddyState.Listed st.zone q) ∧
      (∀ order, (st.zone.freeArea order).nrFree = (st.zone.pages order).length) ∧
      (∀ page order,
        page ∈ st.zone.pages order ↔
          st.zone.HasPage page ∧ st.zone.pageBuddy page = true ∧ st.zone.pagePrivate page = order) ∧
      (∀ page order, order < maxOrder - 1 →
        page ∈ st.zone.pages order → buddyOf page order ∉ st.zone.pages order) := by
  have hok := h.ok
  have hfree : ∀ {page order}, page ∈ st.zone.pages order →
      st.zone.free page = some order := fun hp => (hok.listed _ _).mp hp
  refine ⟨?_, ?_, hok.nodup, ?_, ?_, hok.nrFree, ?_, ?_⟩
  · intro page order hp
    exact hok.blocks.aligned (hfree hp)
  · intro page order page' order' q hp hp' hq hq'
    have heq := hok.blocks.disjoint (hfree hp) (hfree hp') hq hq'
    subst heq
    exact ⟨rfl, Option.some.inj ((hfree hp).symm.trans (hfree hp'))⟩
  · intro q
    rw [BuddyState.listed_iff hok]
    exact hok.all q
  · intro q hq
    rw [BuddyState.listed_iff hok]
    exact hok.exclusive q hq
  · intro page order
    rw [hok.listed, free_eq_some]
  · intro page order horder hp hb
    exact hok.blocks.noBuddy (hfree hp) (by omega) (hfree hb)

/-- A zone of the pages 0 to 3, none of them free. -/
def fourPages : BuddyState where
  zone :=
    { id := 0
      freeArea := fun _ => ⟨fun _ => [], 0⟩
      nrFreePages := 0
      nrFreeCmaPages := 0
      pageBuddy := fun _ => false
      pagePrivate := fun _ => 0
      pageZoneId := fun page => page / 4 }
  alloc := fun page => page / 4 = 0

theorem fourPages_init : fourPages.Init where
  empty _ _ := rfl
  nrFree _ := rfl
  unmarked _ _ := rfl
  alloc _ := Iff.rfl

/-- The pages are freed as one block and one is taken again. -/
theorem buddy_reachable_split :
    ∃ st : BuddyState, st.Reachable ∧ st.zone.pages 0 = [1] ∧
      st.zone.pages 1 = [2] ∧ (st.zone.pages 0).Nodup := by
  have hfree : ∀ q, InBlock 0 2 q → fourPages.alloc q := by
    rintro q ⟨-, hq⟩
    exact Nat.div_eq_of_lt hq
  have hreach := BuddyState.Reachable.step
    (.step (.init fourPages_init)
      (.free fourPages 9 0 0 2 .movable nofun (by decide) (by decide) hfree))
    (.smallest _ 0 .movable)
  exact ⟨_, hreach, by decide, by decide, (buddy_reachable hreach).2.2.1 0⟩

/-- A request can be met for some type exactly when an aligned block of free pages is large
enough: no free memory is lost between blocks that could be merged. -/
theorem buddy_request_iff {st : BuddyState} {order : Nat} (h : st.Reachable)
    (horder : order < maxOrder) :
    (∃ mt, (st.zone.rmqueueSmallest order mt).1 ≠ none) ↔
      ∃ p, 2 ^ order ∣ p ∧ ∀ q, InBlock p order q → st.zone.HasPage q ∧ ¬ st.alloc q := by
  have hok := h.ok
  simp only [← hok.apart.inBlocks_iff]
  constructor
  · rintro ⟨mt, hmt⟩
    obtain ⟨o, hle, -, hne⟩ := smallestLoop_ne_none.mp hmt
    obtain ⟨page, rest, hlist⟩ := exists_cons_of_ne_nil hne
    have hpage := hok.free_head hlist
    refine ⟨page, (pow_dvd_pow 2 hle).trans (hok.blocks.aligned hpage), fun q hq => ?_⟩
    have hpow : 2 ^ order ≤ 2 ^ o := Nat.pow_le_pow_right (by decide) hle
    exact ⟨page, o, hpage, hq.1, by unfold InBlock at hq; omega⟩
  · rintro ⟨p, hp, hin⟩
    obtain ⟨page, o, hpage, hle, -⟩ := hok.blocks.covers horder hp hin
    obtain ⟨mt, -, hmem⟩ := mem_flatMap.mp ((hok.listed page o).mpr hpage)
    have hlt := hok.blocks.lt hpage
    exact ⟨mt, smallestLoop_ne_none.mpr ⟨o, hle, by omega, ne_nil_of_mem hmem⟩⟩

theorem buddy_request_iff_fourPages : ∃ st : BuddyState, st.Reachable ∧
    ∃ p, 2 ^ 2 ∣ p ∧ ∀ q, InBlock p 2 q → st.zone.HasPage q ∧ ¬ st.alloc q := by
  have hreach := BuddyState.Reachable.step (.init fourPages_init)
    (.free fourPages 9 0 0 2 .movable nofun (by decide) (by decide)
      fun q hq => Nat.div_eq_of_lt hq.2)
  exact ⟨_, hreach, (buddy_request_iff hreach (by decide)).mp ⟨.movable, by decide⟩⟩

end LinuxKernel.Mm
