import Mathlib.Algebra.Order.BigOperators.Group.List
import Mathlib.Algebra.Order.Group.Nat
import LinuxKernel.Mm.PageCounter

/-!
# Counts and limits of page counters

The count of a counter is what is outstanding below it and what the calls in progress have added
and not yet taken back.  The charges that have passed the check of a counter fit in its
limit.  Every access keeps this, with one exception: a call that raises a limit may restore the old
one under a charge that has passed the check of the new one.
-/

namespace LinuxKernel.PageCounter

open List Function Thread PageCounter.Tree BitVec

variable {Node : Type} (tree : Tree Node) (c : Node)

theorem Tree.path_eq : tree.path c = c :: tree.pathOf (tree.parent c) := by
  unfold path pathOf
  cases hp : tree.parent c with
  | none =>
    cases tree.depth c with
    | zero => rfl
    | succ n => rw [pathFrom, hp]; rfl
  | some p =>
    rw [tree.depth_parent c p hp, pathFrom, hp]
    rfl

@[simp] theorem Tree.pathOf_none : tree.pathOf none = [] :=
  rfl

@[simp] theorem Tree.pathOf_some : tree.pathOf (some c) = tree.path c :=
  rfl

theorem Tree.mem_path_self : c ∈ tree.path c := by
  rw [tree.path_eq]
  exact mem_cons_self

variable {tree} {c} {x fail d : Node}

theorem Tree.depth_lt (h : x ∈ tree.pathOf (tree.parent c)) : tree.depth x < tree.depth c := by
  induction hn : tree.depth c using Nat.strongRecOn generalizing c with
  | ind n ih =>
    cases hp : tree.parent c with
    | none =>
      rw [hp] at h
      cases h
    | some p =>
      rw [hp, pathOf_some, tree.path_eq] at h
      have hdepth := tree.depth_parent c p hp
      obtain rfl | h := mem_cons.mp h
      · omega
      · have hlt := ih _ (by omega) h rfl
        omega

theorem Tree.depth_le (h : x ∈ tree.path c) : tree.depth x ≤ tree.depth c := by
  rw [tree.path_eq] at h
  obtain rfl | h := mem_cons.mp h
  · exact le_refl _
  · exact (depth_lt h).le

theorem Tree.notMem_above (tree : Tree Node) (c : Node) : c ∉ tree.pathOf (tree.parent c) :=
  fun h => lt_irrefl _ (depth_lt h)

theorem Tree.mem_path_of_ne (hne : x ≠ c) : x ∈ tree.path c ↔ x ∈ tree.pathOf (tree.parent c) := by
  rw [tree.path_eq, mem_cons, or_iff_right hne]

section Pages

variable [DecidableEq Node] {v n v' : Nat} {below above : List Node}

/-- Pages in the counts of the counters on a path up to another path. -/
def part (n : Nat) (x : Node) (below above : List Node) : Nat :=
  if x ∈ below ∧ x ∉ above then n else 0

theorem part_le : part n x below above ≤ n := by
  unfold part
  split_ifs <;> omega

theorem part_of_mem (h : x ∈ below) (h' : x ∉ above) : part n x below above = n :=
  if_pos ⟨h, h'⟩

theorem part_of_notMem (h : x ∉ below) : part n x below above = 0 :=
  if_neg fun hmem => h hmem.1

theorem part_path_self : part n c below (tree.path c) = 0 :=
  if_neg fun hmem => hmem.2 (tree.mem_path_self c)

theorem part_of_subset (h : tree.path c ⊆ below) :
    part n c below (tree.pathOf (tree.parent c)) = n :=
  part_of_mem (h (tree.mem_path_self c)) (tree.notMem_above c)

theorem part_self : part n x below below = 0 :=
  if_neg fun hmem => hmem.2 hmem.1

theorem part_above_of_ne (hne : x ≠ c) :
    part n x below (tree.path c) = part n x below (tree.pathOf (tree.parent c)) := by
  unfold part
  simp only [mem_path_of_ne hne]

theorem part_below_of_ne (hne : x ≠ c) :
    part n x (tree.path c) above = part n x (tree.pathOf (tree.parent c)) above := by
  unfold part
  simp only [mem_path_of_ne hne]

theorem part_below_le :
    part n x (tree.pathOf (tree.parent c)) above ≤ part n x (tree.pathOf (some c)) above := by
  by_cases hx : x = c
  · rw [hx, part_of_notMem (tree.notMem_above c)]
    exact Nat.zero_le _
  · exact le_of_eq (part_below_of_ne hx).symm

/-- What a call in progress has in the count of a counter. -/
def Thread.pages (tree : Tree Node) (x : Node) : Thread Node → Nat
  | .adding counter nrPages c => part nrPages.toNat x (tree.path counter) (tree.pathOf c)
  | .checking counter nrPages c _ =>
    part nrPages.toNat x (tree.path counter) (tree.pathOf (tree.parent c))
  | .undoing counter nrPages c =>
    part nrPages.toNat x (tree.path counter) (tree.pathOf (tree.parent c))
  | .canceling nrPages fail c => part nrPages.toNat x (tree.pathOf c) (tree.path fail)
  | .uncharging nrPages c => part nrPages.toNat x (tree.pathOf c) []
  | _ => 0

/-- The part of it that has passed the check, or is checked with up to `v`. -/
def Thread.level (tree : Tree Node) (x : Node) (v : Nat) : Thread Node → Nat
  | .checking counter nrPages c new =>
    part nrPages.toNat x (tree.path counter) (tree.path c) +
      if x = c ∧ new.toNat ≤ v then nrPages.toNat else 0
  | .undoing counter nrPages c => part nrPages.toNat x (tree.path counter) (tree.path c)
  | t => t.pages tree x

def Thread.size : Thread Node → Nat
  | .adding _ nrPages _ | .checking _ nrPages _ _ | .undoing _ nrPages _
  | .canceling nrPages _ _ | .uncharging nrPages _ => nrPages.toNat
  | _ => 0

/-- What the outstanding charges have in a count. -/
def heldAt (tree : Tree Node) (held : List (Node × BitVec 64)) (x : Node) : Nat :=
  (held.map fun charge => part charge.2.toNat x (tree.path charge.1) []).sum

/-- The pointers of a call are on the path of its counter. -/
def Thread.Ok (tree : Tree Node) : Thread Node → Prop
  | .adding counter _ c => tree.pathOf c ⊆ tree.path counter
  | .checking counter _ c _ => tree.path c ⊆ tree.path counter
  | .undoing counter _ c => tree.path c ⊆ tree.path counter
  | .canceling _ fail c => tree.path fail ⊆ tree.pathOf c
  | _ => True

theorem Thread.level_le_pages {t : Thread Node} (hok : t.Ok tree) :
    t.level tree x v ≤ t.pages tree x := by
  cases t with
  | checking counter nrPages c new =>
    simp only [level, pages]
    obtain rfl | hx := eq_or_ne x c
    · rw [part_path_self, part_of_subset hok, zero_add]
      split_ifs <;> omega
    · rw [part_above_of_ne hx, if_neg fun h => hx h.1, add_zero]
  | undoing counter nrPages c =>
    simp only [level, pages]
    obtain rfl | hx := eq_or_ne x c
    · rw [part_path_self]
      exact Nat.zero_le _
    · exact le_of_eq (part_above_of_ne hx)
  | _ => exact le_refl _

theorem Thread.level_mono (t : Thread Node) (h : v ≤ v') :
    t.level tree x v ≤ t.level tree x v' := by
  cases t with
  | checking counter nrPages c new =>
    simp only [level]
    refine Nat.add_le_add_left ?_ _
    split_ifs with hv hv'
    · exact le_refl _
    · exact absurd ⟨hv.1, hv.2.trans h⟩ hv'
    all_goals exact Nat.zero_le _
  | _ => exact le_refl _

theorem Thread.pages_le_size (t : Thread Node) : t.pages tree x ≤ t.size := by
  cases t <;> first | exact part_le | exact le_refl _

end Pages

variable {eff eff' : Node → Nat} {m m' : Counters Node} {threads rest : List (Thread Node)}
  {held : List (Node × BitVec 64)} {t t' u : Thread Node}

/-- The counter and the limit of a call that sets a limit. -/
def Thread.target : Thread Node → Option (Node × BitVec 64)
  | .reading counter limit | .swapping counter limit _ | .rereading counter limit _ _
  | .restoring counter limit _ => some (counter, limit)
  | _ => none

/-- The counter whose old limit a call keeps for a trial of the new one. -/
def Thread.keeps : Thread Node → Option Node
  | .rereading counter _ _ _ | .restoring counter _ _ => some counter
  | _ => none

/-- The call charges a counter or may still do so. -/
def Thread.Charges (tree : Tree Node) (c : Node) : Thread Node → Prop
  | .adding counter _ _ | .checking counter _ _ _ => c ∈ tree.path counter
  | _ => False

/-- What a call that sets a limit has read. -/
def Thread.Saved (eff : Node → Nat) (m : Counters Node) : Thread Node → Prop
  | .swapping _ limit count => count ≤ limit ∧ count.toNat < 2 ^ 63
  | .rereading counter limit count old =>
    count ≤ limit ∧ count.toNat < 2 ^ 63 ∧ eff counter = old.toNat ∧ m.limit counter = limit
  | .restoring counter limit old => eff counter = old.toNat ∧ m.limit counter = limit
  | _ => True

theorem Thread.Saved.congr (h : t.Saved eff m) (hlimit : ∀ c ∈ t.sets, m'.limit c = m.limit c)
    (heff : ∀ c ∈ t.sets, eff' c = eff c) : t.Saved eff' m' := by
  cases t with
  | rereading counter limit count old =>
    exact ⟨h.1, h.2.1, (heff _ rfl).trans h.2.2.1, (hlimit _ rfl).trans h.2.2.2⟩
  | restoring counter limit old => exact ⟨(heff _ rfl).trans h.1, (hlimit _ rfl).trans h.2⟩
  | swapping counter limit count => exact h
  | _ => trivial

theorem Thread.sets_of_keeps (h : t.keeps = some c) : t.sets = some c := by
  cases t <;> first | exact h | cases h

theorem Thread.sets_of_target {limit : BitVec 64} (h : t.target = some (c, limit)) :
    t.sets = some c := by
  cases t <;> first | cases h; rfl | cases h

theorem Thread.not_charges_of_sets (h : t.sets = some c) : ¬ t.Charges tree d := by
  cases t <;> first | exact id | cases h

variable [DecidableEq Node]

/-- The invariant.  The limit in effect is the old one while a call has the new one in place for a
trial. -/
structure Inv (tree : Tree Node) (eff : Node → Nat) (m : Counters Node)
    (threads : List (Thread Node)) (held : List (Node × BitVec 64)) : Prop where
  ok : ∀ t ∈ threads, t.Ok tree
  count : ∀ x, (m.count x).toNat = heldAt tree held x + (threads.map (Thread.pages tree x)).sum
  small : (held.map fun charge => charge.2.toNat).sum + (threads.map Thread.size).sum < 2 ^ 63
  level : ∀ x v, heldAt tree held x + (threads.map (Thread.level tree x v)).sum ≤ max (eff x) v
  saved : ∀ t ∈ threads, t.Saved eff m
  effective : ∀ x, (∀ t ∈ threads, t.keeps ≠ some x) → eff x = (m.limit x).toNat
  serial : (threads.filterMap Thread.sets).Nodup
  raise : ∀ t ∈ threads, ∀ c limit, t.target = some (c, limit) →
    ∀ u ∈ threads, u.Charges tree c → limit.toNat ≤ eff c

variable {threads' : List (Thread Node)} {held' : List (Node × BitVec 64)} {counter : Node}
  {nrPages limit new count old : BitVec 64}

section

variable (h : Inv tree eff m threads held)

include h

theorem Inv.perm (hp : threads.Perm threads') (hq : held.Perm held') :
    Inv tree eff m threads' held' := by
  have hmem : ∀ t, t ∈ threads' ↔ t ∈ threads := fun t => hp.mem_iff.symm
  have hheld : ∀ x, heldAt tree held' x = heldAt tree held x := fun x =>
    ((hq.map _).sum_eq).symm
  constructor
  case serial => exact (hp.filterMap _).nodup_iff.mp h.serial
  all_goals simp only [hmem, hheld, ← (hp.map _).sum_eq, ← (hq.map _).sum_eq]
  exacts [h.ok, h.count, h.small, h.level, h.saved, h.effective, h.raise]

theorem Inv.count_le (x : Node) :
    (m.count x).toNat ≤ (held.map fun charge => charge.2.toNat).sum + (threads.map size).sum := by
  rw [h.count x]
  exact add_le_add (sum_le_sum fun _ _ => part_le) (sum_le_sum fun t _ => t.pages_le_size)

theorem Inv.level_le_count (x : Node) (v : Nat) :
    heldAt tree held x + (threads.map (Thread.level tree x v)).sum ≤ (m.count x).toNat := by
  rw [h.count x]
  exact Nat.add_le_add_left (sum_le_sum fun t ht => Thread.level_le_pages (h.ok t ht)) _

theorem Inv.limit_le (ht : t ∈ threads) (hcharges : t.Charges tree c) :
    (m.limit c).toNat ≤ eff c := by
  by_cases hkeeps : ∃ u ∈ threads, u.keeps = some c
  · obtain ⟨u, hu, hc⟩ := hkeeps
    have hsaved := h.saved u hu
    cases u with
    | rereading counter limit count old =>
      cases hc
      rw [hsaved.2.2.2]
      exact h.raise _ hu _ _ rfl t ht hcharges
    | restoring counter limit old =>
      cases hc
      rw [hsaved.2]
      exact h.raise _ hu _ _ rfl t ht hcharges
    | _ => cases hc
  · exact le_of_eq (h.effective c fun u hu hc => hkeeps ⟨u, hu, hc⟩).symm

end

theorem Inv.cons (h : Inv tree eff m threads held) (hok : t.Ok tree) (hsaved : t.Saved eff m)
    (hcount : ∀ x, heldAt tree held' x + t.pages tree x = heldAt tree held x)
    (hlevel : ∀ x v, t.level tree x v = t.pages tree x)
    (hsmall : (held'.map fun charge => charge.2.toNat).sum +
      (t.size + (threads.map size).sum) < 2 ^ 63)
    (hserial : ∀ u ∈ threads, ∀ c, t.sets = some c → u.sets ≠ some c)
    (htarget : ∀ c limit, t.target = some (c, limit) →
      ∀ u ∈ threads, u.Charges tree c → limit.toNat ≤ eff c)
    (hcharges : ∀ c, t.Charges tree c →
      ∀ u ∈ threads, ∀ limit, u.target = some (c, limit) → limit.toNat ≤ eff c) :
    Inv tree eff m (t :: threads) held' := by
  refine ⟨forall_mem_cons.mpr ⟨hok, h.ok⟩, fun x => ?_, hsmall, fun x v => ?_,
    forall_mem_cons.mpr ⟨hsaved, h.saved⟩,
    fun x hx => h.effective x (forall_mem_cons.mp hx).2, ?_, fun u hu c limit hc u' hch hc' => ?_⟩
  · rw [map_cons, sum_cons, ← add_assoc, hcount]
    exact h.count x
  · rw [map_cons, sum_cons, ← add_assoc, hlevel, hcount]
    exact h.level x v
  · cases hsets : t.sets with
    | none => exact (filterMap_cons_none hsets).symm ▸ h.serial
    | some c =>
      rw [filterMap_cons_some hsets, nodup_cons]
      refine ⟨fun hmem => ?_, h.serial⟩
      obtain ⟨u, hu, huc⟩ := mem_filterMap.mp hmem
      exact hserial u hu c hsets huc
  obtain rfl | hu := mem_cons.mp hu
  · obtain rfl | hu' := mem_cons.mp hch
    · exact absurd hc' (not_charges_of_sets (sets_of_target hc))
    · exact htarget c limit hc u' hu' hc'
  · obtain heq | hu' := mem_cons.mp hch
    · exact hcharges c (heq ▸ hc') u hu limit hc
    · exact h.raise u hu c limit hc u' hu' hc'

variable (h : Inv tree eff m (t :: rest) held)

include h

theorem Inv.sets_ne (hsets : t.sets = some c) (hu : u ∈ rest) : u.sets ≠ some c := by
  have hserial := h.serial
  rw [filterMap_cons_some hsets, nodup_cons] at hserial
  exact fun huc => hserial.1 (mem_filterMap.mpr ⟨u, hu, huc⟩)

theorem Inv.tail {eff' : Node → Nat}
    (heff : ∀ x, t.keeps ≠ some x → eff' x = eff x)
    (hkept : ∀ x, t.keeps = some x → eff' x = (m.limit x).toNat)
    (hcount : ∀ x, heldAt tree held' x = heldAt tree held x + t.pages tree x)
    (hsmall : (held'.map fun charge => charge.2.toNat).sum ≤
      (held.map fun charge => charge.2.toNat).sum + t.size)
    (hlevel : ∀ x v, heldAt tree held' x + (rest.map (Thread.level tree x v)).sum ≤
      max (eff' x) v) : Inv tree eff' m rest held' := by
  have hsame : ∀ u ∈ rest, ∀ d ∈ u.sets, eff' d = eff d := fun u hu d hd =>
    heff d fun hc => h.sets_ne (Thread.sets_of_keeps hc) hu hd
  refine ⟨(forall_mem_cons.mp h.ok).2, fun x => ?_, ?_, hlevel, fun u hu => ?_, fun x hx => ?_,
    h.serial.sublist ((sublist_cons_self t rest).filterMap _), fun u hu c limit hc u' hu' => ?_⟩
  · rw [hcount, add_assoc]
    exact h.count x
  · have hold := h.small
    rw [map_cons, sum_cons] at hold
    omega
  · exact (h.saved u (mem_cons_of_mem _ hu)).congr (fun _ _ => rfl) (hsame u hu)
  · by_cases hx' : t.keeps = some x
    · exact hkept x hx'
    · rw [heff x hx']
      exact h.effective x (forall_mem_cons.mpr ⟨hx', hx⟩)
  · rw [hsame u hu c (Thread.sets_of_target hc)]
    exact h.raise u (mem_cons_of_mem _ hu) c limit hc u' (mem_cons_of_mem _ hu')

theorem Inv.drop (hkeeps : t.keeps = none) (hpages : ∀ x, t.pages tree x = 0) :
    Inv tree eff m rest held := by
  refine h.tail (fun _ _ => rfl) (fun x hx => ?_) (fun x => ?_) (Nat.le_add_right _ _) fun x v => ?_
  · rw [hkeeps] at hx
    cases hx
  · rw [hpages]
    rfl
  · have hold := h.level x v
    rw [map_cons, sum_cons] at hold
    omega

theorem Inv.exchange (hsets : t'.sets = t.sets) (htarget : t'.target = t.target)
    (hsize : t'.size = t.size)
    (hcharges : ∀ c, t'.Charges tree c → t.Charges tree c) (hok : t'.Ok tree)
    (hsaved : t'.Saved eff m')
    (hcount : ∀ x, (m'.count x).toNat + t.pages tree x = (m.count x).toNat + t'.pages tree x)
    (hlevel : ∀ x v, heldAt tree held x +
      (t'.level tree x v + (rest.map (Thread.level tree x v)).sum) ≤ max (eff x) v)
    (hlimit : ∀ x, some x ≠ t.sets → m'.limit x = m.limit x)
    (heff : ∀ x, t.sets = some x → t'.keeps ≠ some x → eff x = (m'.limit x).toNat) :
    Inv tree eff m' (t' :: rest) held := by
  refine ⟨forall_mem_cons.mpr ⟨hok, (forall_mem_cons.mp h.ok).2⟩, fun x => ?_, ?_, hlevel,
    forall_mem_cons.mpr ⟨hsaved, fun u hu => ?_⟩, fun x hx => ?_, ?_,
    fun u hu c limit hc u' hu' hc' => ?_⟩
  · have hold := h.count x
    have hnew := hcount x
    rw [map_cons, sum_cons] at hold ⊢
    omega
  · have hold := h.small
    rw [map_cons, sum_cons] at hold ⊢
    rw [hsize]
    exact hold
  · refine (h.saved u (mem_cons_of_mem _ hu)).congr (fun d hd => hlimit d ?_) fun _ _ => rfl
    exact fun hd' => h.sets_ne hd'.symm hu hd
  · obtain ⟨hx, hrest⟩ := forall_mem_cons.mp hx
    by_cases hxs : t.sets = some x
    · exact heff x hxs hx
    · rw [hlimit x (Ne.symm hxs)]
      exact h.effective x (forall_mem_cons.mpr ⟨fun hk => hxs (sets_of_keeps hk), hrest⟩)
  · have hold := h.serial
    rw [filterMap_cons] at hold ⊢
    rw [hsets]
    exact hold
  obtain ⟨old, hold, hcharge⟩ : ∃ old ∈ t :: rest, old.Charges tree c := by
    obtain rfl | hu' := mem_cons.mp hu'
    · exact ⟨t, mem_cons_self, hcharges c hc'⟩
    · exact ⟨u', mem_cons_of_mem _ hu', hc'⟩
  obtain rfl | hu := mem_cons.mp hu
  · exact h.raise t mem_cons_self c limit (htarget ▸ hc) old hold hcharge
  · exact h.raise u (mem_cons_of_mem _ hu) c limit hc old hold hcharge

theorem Inv.level_replace (hle : ∀ x v, t'.level tree x v ≤ t.level tree x v) (x : Node) (v : Nat) :
    heldAt tree held x + (t'.level tree x v + (rest.map (Thread.level tree x v)).sum) ≤
      max (eff x) v := by
  have hold := h.level x v
  rw [map_cons, sum_cons] at hold
  have hnew := hle x v
  omega

theorem Inv.count_sub
    (hpages : t.pages tree c = nrPages.toNat) (hpages' : t'.pages tree c = 0)
    (hother : ∀ x, x ≠ c → t'.pages tree x = t.pages tree x) (x : Node) :
    ((m.setCount c (m.count c - nrPages)).count x).toNat + t.pages tree x =
      (m.count x).toNat + t'.pages tree x := by
  have hcount := h.count c
  rw [map_cons, sum_cons, hpages] at hcount
  have hle : nrPages ≤ m.count c := by
    rw [le_def]
    omega
  simp only [Counters.setCount, update_apply]
  split_ifs with hx
  · rw [hx, toNat_sub_of_le hle, hpages, hpages']
    omega
  · rw [hother x hx]

theorem Inv.eff_of_sets (hsets : t.sets = some c) (hkeeps : t.keeps = none) :
    eff c = (m.limit c).toNat := by
  refine h.effective c fun u hu hc => ?_
  obtain rfl | hu := mem_cons.mp hu
  · rw [hkeeps] at hc
    cases hc
  · exact h.sets_ne hsets hu (sets_of_keeps hc)

omit h

theorem Inv.charged
    (h : Inv tree eff m (.adding counter nrPages none :: rest) held) :
    Inv tree eff m rest ((counter, nrPages) :: held) := by
  refine h.tail (fun _ _ => rfl) nofun (fun x => add_comm _ _)
    (le_of_eq (add_comm _ _)) fun x v => ?_
  have hold := h.level x v
  simp only [map_cons, sum_cons, Thread.level, Thread.pages, pathOf_none, heldAt] at hold ⊢
  omega

theorem Inv.add
    (h : Inv tree eff m (.adding counter nrPages (some c) :: rest) held) :
    Inv tree eff (m.setCount c (m.count c + nrPages))
      (.checking counter nrPages c (m.count c + nrPages) :: rest) held := by
  have hok : tree.path c ⊆ tree.path counter := h.ok _ mem_cons_self
  have hbound := h.count_le c
  have hsmall := h.small
  have hcount := h.count c
  simp only [map_cons, sum_cons, Thread.size, Thread.pages, pathOf_some] at *
  rw [part_path_self, zero_add] at hcount
  have hadd : (m.count c + nrPages).toNat = (m.count c).toNat + nrPages.toNat := by
    rw [toNat_add, Nat.mod_eq_of_lt]
    omega
  refine h.exchange rfl rfl rfl (fun _ hc => hc) hok trivial (fun x => ?_) (fun x v => ?_)
    (fun _ _ => rfl) nofun
  · simp only [Thread.pages, pathOf_some, Counters.setCount, update_apply]
    split_ifs with hx
    · subst hx
      rw [hadd, part_path_self, part_of_subset hok]
      omega
    · rw [part_above_of_ne hx]
  have hold := h.level x v
  have hlevel := h.level_le_count x v
  simp only [map_cons, sum_cons, Thread.level, Thread.pages, pathOf_some] at *
  by_cases hx : x = c ∧ (m.count c + nrPages).toNat ≤ v
  · obtain ⟨rfl, hv⟩ := hx
    rw [part_path_self] at hlevel ⊢
    rw [if_pos ⟨rfl, hv⟩]
    omega
  · rw [if_neg hx]
    omega

theorem Inv.check (h : Inv tree eff m (.checking counter nrPages c new :: rest) held) :
    Inv tree eff m ((if m.limit c < new then .undoing counter nrPages c
      else .adding counter nrPages (tree.parent c)) :: rest) held := by
  have hok : tree.path c ⊆ tree.path counter := h.ok _ mem_cons_self
  by_cases hlimit : m.limit c < new
  · rw [if_pos hlimit]
    refine h.exchange rfl rfl rfl (fun _ => False.elim) hok trivial (fun _ => rfl)
      (h.level_replace fun x v => ?_) (fun _ _ => rfl) nofun
    simp only [Thread.level]
    omega
  rw [if_neg hlimit]
  have habove : tree.pathOf (tree.parent c) ⊆ tree.path counter := by
    rw [tree.path_eq] at hok
    exact (cons_subset.mp hok).2
  refine h.exchange rfl rfl rfl (fun _ hc => hc) habove trivial (fun _ => rfl) (fun x v => ?_)
    (fun _ _ => rfl) nofun
  have hold := h.level x v
  simp only [map_cons, sum_cons, Thread.level, Thread.pages] at hold ⊢
  by_cases hx : x = c
  · subst hx
    rw [part_path_self, zero_add] at hold
    rw [part_of_subset hok]
    by_cases hv : new.toNat ≤ v
    · rw [if_pos ⟨rfl, hv⟩] at hold
      exact hold
    -- The value that the call has seen fits in the limit, and so does all below it.
    have hnew := h.level x new.toNat
    simp only [map_cons, sum_cons, Thread.level] at hnew
    rw [part_path_self, zero_add, if_pos ⟨trivial, le_refl _⟩] at hnew
    have hmono : (rest.map (Thread.level tree x v)).sum ≤
        (rest.map (Thread.level tree x new.toNat)).sum :=
      sum_le_sum fun u _ => u.level_mono (Nat.le_of_not_le hv)
    have hle := h.limit_le mem_cons_self (hok (tree.mem_path_self x))
    rw [lt_def] at hlimit
    omega
  · rw [part_above_of_ne hx, if_neg fun hxc => hx hxc.1] at hold
    exact hold

theorem Inv.undo
    (h : Inv tree eff m (.undoing counter nrPages c :: rest) held) :
    Inv tree eff (m.setCount c (m.count c - nrPages))
      (.canceling nrPages c (some counter) :: rest) held := by
  have hok : tree.path c ⊆ tree.path counter := h.ok _ mem_cons_self
  refine h.exchange rfl rfl rfl (fun _ => .elim) hok trivial (h.count_sub ?_ ?_ fun x hx => ?_)
    (h.level_replace fun x v => le_refl _) (fun _ _ => rfl) nofun
  · exact part_of_subset hok
  · exact part_path_self
  · exact part_above_of_ne hx

theorem Inv.cancel (h : Inv tree eff m (.canceling nrPages fail (some c) :: rest) held)
    (hne : c ≠ fail) :
    Inv tree eff (m.setCount c (m.count c - nrPages))
      (.canceling nrPages fail (tree.parent c) :: rest) held := by
  have hok : tree.path fail ⊆ tree.path c := h.ok _ mem_cons_self
  have hnot : c ∉ tree.path fail := by
    intro hmem
    rw [mem_path_of_ne hne] at hmem
    have hlt := depth_lt hmem
    have hle := depth_le (hok (tree.mem_path_self fail))
    omega
  have hok' : tree.path fail ⊆ tree.pathOf (tree.parent c) := by
    intro x hx
    have hxc : x ≠ c := fun heq => hnot (heq ▸ hx)
    exact (mem_path_of_ne hxc).mp (hok hx)
  refine h.exchange rfl rfl rfl (fun _ => .elim) hok' trivial (h.count_sub ?_ ?_ fun x hx => ?_)
    (h.level_replace fun x v => part_below_le) (fun _ _ => rfl) nofun
  · exact part_of_mem (tree.mem_path_self c) hnot
  · exact part_of_notMem (tree.notMem_above c)
  · exact (part_below_of_ne hx).symm

theorem Inv.uncharge
    (h : Inv tree eff m (.uncharging nrPages (some c) :: rest) held) :
    Inv tree eff (m.setCount c (m.count c - nrPages))
      (.uncharging nrPages (tree.parent c) :: rest) held := by
  refine h.exchange rfl rfl rfl (fun _ => .elim) trivial trivial
    (h.count_sub ?_ ?_ fun x hx => ?_) (h.level_replace fun x v => part_below_le)
    (fun _ _ => rfl) nofun
  · exact part_of_mem (tree.mem_path_self c) not_mem_nil
  · exact part_of_notMem (tree.notMem_above c)
  · exact (part_below_of_ne hx).symm

theorem Inv.read (h : Inv tree eff m (.reading c limit :: rest) held)
    (hle : ¬ limit < m.count c) : Inv tree eff m (.swapping c limit (m.count c) :: rest) held := by
  have hbound := h.count_le c
  have hsmall := h.small
  refine h.exchange rfl rfl rfl (fun _ => .elim) trivial ⟨?_, by omega⟩ (fun _ => rfl) h.level
    (fun _ _ => rfl) fun x hx _ => ?_
  · rw [le_def]
    rw [lt_def] at hle
    omega
  · exact h.eff_of_sets hx rfl

theorem Inv.swap (h : Inv tree eff m (.swapping c limit count :: rest) held) :
    Inv tree eff (m.setLimit c limit) (.rereading c limit count (m.limit c) :: rest) held := by
  have hsaved : count ≤ limit ∧ count.toNat < 2 ^ 63 := h.saved _ mem_cons_self
  exact h.exchange rfl rfl rfl (fun _ => .elim) trivial
    ⟨hsaved.1, hsaved.2, h.eff_of_sets rfl rfl, update_self _ _ _⟩ (fun _ => rfl) h.level
    (fun x hx => update_of_ne (fun heq => hx (congrArg some heq)) _ _) fun _ hx hk => absurd hx hk

theorem Inv.retry (h : Inv tree eff m (.rereading c limit count old :: rest) held) :
    Inv tree eff m (.restoring c limit old :: rest) held := by
  obtain ⟨-, -, heff, hlimit⟩ := h.saved _ mem_cons_self
  exact h.exchange rfl rfl rfl (fun _ => .elim) trivial ⟨heff, hlimit⟩ (fun _ => rfl) h.level
    (fun _ _ => rfl) fun _ hx hk => absurd hx hk

theorem Inv.restore (h : Inv tree eff m (.restoring c limit old :: rest) held) :
    Inv tree eff (m.setLimit c old) (.reading c limit :: rest) held := by
  obtain ⟨heff, -⟩ := h.saved _ mem_cons_self
  refine h.exchange rfl rfl rfl (fun _ => .elim) trivial trivial (fun _ => rfl) h.level
    (fun x hx => update_of_ne (fun heq => hx (congrArg some heq)) _ _) ?_
  rintro x ⟨⟩ -
  simp only [Counters.setLimit, update_self, heff]

theorem Inv.limited (h : Inv tree eff m (.rereading c limit count old :: rest) held)
    (hle : (m.count c).sle count = true) : Inv tree (update eff c limit.toNat) m rest held := by
  obtain ⟨hcount, hbound, -, hlimit⟩ := h.saved _ mem_cons_self
  have hcountc : (m.count c).toNat ≤ limit.toNat := by
    have hsmall := h.small
    have hbound' := h.count_le c
    rw [sle_eq_decide, decide_eq_true_iff, toInt_eq_toNat_of_lt (by omega),
      toInt_eq_toNat_of_lt (by omega)] at hle
    rw [le_def] at hcount
    omega
  refine h.tail (fun x hx => update_of_ne (fun heq => hx (congrArg some heq.symm)) _ _) ?_
    (fun _ => rfl) (Nat.le_add_right _ _) fun x v => ?_
  · rintro x ⟨⟩
    rw [update_self, hlimit]
  have hold := h.level x v
  have hall := h.level_le_count x v
  rw [map_cons, sum_cons] at hold hall
  rw [update_apply]
  split_ifs with hx
  · subst hx
    omega
  · omega

variable {w w' : World Node}

def World.Ok (tree : Tree Node) (w : World Node) : Prop :=
  ∃ eff, Inv tree eff w.counters w.threads w.held

/-- What an access leaves. -/
def Outcome.Ok (tree : Tree Node) (m : Counters Node) (rest : List (Thread Node))
    (held : List (Node × BitVec 64)) : Outcome Node → Prop
  | .continues thread => ∃ eff, Inv tree eff m (thread :: rest) held
  | .charged counter nrPages => ∃ eff, Inv tree eff m rest ((counter, nrPages) :: held)
  | .returned => ∃ eff, Inv tree eff m rest held
  | .fault => False

/-- Every access of a call keeps the invariant, and none follows a null pointer. -/
theorem Inv.access (h : Inv tree eff m (t :: rest) held) :
    (t.access tree m).2.Ok tree (t.access tree m).1 rest held := by
  cases t with
  | adding counter nrPages c =>
    cases c with
    | none => exact ⟨eff, h.charged⟩
    | some c => exact ⟨eff, h.add⟩
  | checking counter nrPages c new => exact ⟨eff, h.check⟩
  | undoing counter nrPages c => exact ⟨eff, h.undo⟩
  | canceling nrPages fail c =>
    have hok : tree.path fail ⊆ tree.pathOf c := h.ok _ mem_cons_self
    cases c with
    | none => exact absurd (hok (tree.mem_path_self fail)) not_mem_nil
    | some c =>
      simp only [access]
      split_ifs with hc
      · refine ⟨eff, h.drop rfl fun x => ?_⟩
        rw [hc]
        exact part_self
      · exact ⟨eff, h.cancel hc⟩
  | uncharging nrPages c =>
    cases c with
    | none => exact ⟨eff, h.drop rfl fun x => part_of_notMem not_mem_nil⟩
    | some c => exact ⟨eff, h.uncharge⟩
  | reading counter limit =>
    simp only [access]
    split_ifs with hlt
    · exact ⟨eff, h.drop rfl fun _ => rfl⟩
    · exact ⟨eff, h.read hlt⟩
  | swapping counter limit count => exact ⟨eff, h.swap⟩
  | rereading counter limit count old =>
    simp only [access]
    split_ifs with hle
    · exact ⟨_, h.limited hle⟩
    · exact ⟨eff, h.retry⟩
  | restoring counter limit old => exact ⟨eff, h.restore⟩

theorem exists_split_of_getElem? {α : Type} {l : List α} {i : Nat} {x : α} (h : l[i]? = some x) :
    ∃ a b, l = a ++ x :: b ∧ (∀ y, l.set i y = a ++ y :: b) ∧ l.eraseIdx i = a ++ b := by
  obtain ⟨hi, rfl⟩ := List.getElem?_eq_some_iff.mp h
  refine ⟨l.take i, l.drop (i + 1), ?_, fun y => ?_, eraseIdx_eq_take_drop_succ l i⟩
  · rw [← drop_eq_getElem_cons hi, take_append_drop]
  · rw [set_eq_take_append_cons_drop, if_pos hi]

theorem World.Ok.access (h : w.Ok tree) {i : Nat} (hstep : w.step tree (.access i) = some w') :
    w'.Ok tree := by
  obtain ⟨eff, h⟩ := h
  obtain ⟨t, ht, hafter⟩ := Option.bind_eq_some_iff.mp hstep
  obtain ⟨a, b, hsplit, hset, herase⟩ := exists_split_of_getElem? ht
  have hcons : Inv tree eff w.counters (t :: (a ++ b)) w.held :=
    (hsplit ▸ h).perm perm_middle (.refl _)
  have hok := hcons.access
  generalize t.access tree w.counters = r at hafter hok
  obtain ⟨m, outcome⟩ := r
  cases outcome with
  | continues thread =>
    obtain ⟨eff', h'⟩ := hok
    cases hafter
    refine ⟨eff', ?_⟩
    show Inv tree eff' _ (w.threads.set i thread) _
    rw [hset]
    exact h'.perm perm_middle.symm (.refl _)
  | charged _ _ | returned =>
    obtain ⟨eff', h'⟩ := hok
    cases hafter
    refine ⟨eff', ?_⟩
    show Inv tree eff' _ (w.threads.eraseIdx i) _
    rw [herase]
    exact h'
  | fault => exact hok.elim

/-- A call in progress raises the limit of a counter. -/
def Thread.Raises (m : Counters Node) (c : Node) : Thread Node → Prop
  | .reading counter limit | .swapping counter limit _ => counter = c ∧ m.limit c < limit
  | .rereading counter limit _ old | .restoring counter limit old => counter = c ∧ old < limit
  | _ => False

/-- The pages charged or being charged or uncharged. -/
def World.pages (w : World Node) : Nat :=
  (w.held.map fun charge => charge.2.toNat).sum + (w.threads.map Thread.size).sum

/-- No call that raises a limit overlaps a charge of the counter, and all pages are less than `2 ^
63`. -/
def Op.Apart (tree : Tree Node) (w : World Node) : Op Node → Prop
  | .tryCharge counter nrPages =>
    w.pages + nrPages.toNat < 2 ^ 63 ∧
      ∀ c ∈ tree.path counter, ∀ t ∈ w.threads, ¬ t.Raises w.counters c
  | .limit counter nrPages =>
    w.counters.limit counter < nrPages → ∀ t ∈ w.threads, ¬ t.Charges tree counter
  | _ => True

theorem Inv.target_le (h : Inv tree eff m threads held) (ht : t ∈ threads)
    (htarget : t.target = some (c, limit)) (hraises : ¬ t.Raises m c) : limit.toNat ≤ eff c := by
  obtain ⟨a, b, rfl⟩ := append_of_mem ht
  have hcons := h.perm perm_middle (List.Perm.refl _)
  have hsets := sets_of_target htarget
  have hsaved := hcons.saved t mem_cons_self
  refine Nat.le_of_not_lt fun hlt => hraises ?_
  cases t with
  | reading _ _ | swapping _ _ _ =>
    cases htarget
    rw [hcons.eff_of_sets hsets rfl] at hlt
    exact ⟨rfl, lt_def.mpr hlt⟩
  | rereading counter l count old =>
    cases htarget
    rw [hsaved.2.2.1] at hlt
    exact ⟨rfl, lt_def.mpr hlt⟩
  | restoring counter l old =>
    cases htarget
    rw [hsaved.1] at hlt
    exact ⟨rfl, lt_def.mpr hlt⟩
  | _ => cases htarget

theorem World.Ok.tryCharge (h : w.Ok tree)
    (hcond : (Op.tryCharge counter nrPages).Apart tree w) :
    World.Ok tree { w with threads := .adding counter nrPages (some counter) :: w.threads } := by
  obtain ⟨eff, h⟩ := h
  obtain ⟨hsmall, hraises⟩ := hcond
  refine ⟨eff, h.cons (.refl _) trivial (fun x => ?_) (fun _ _ => rfl) ?_ nofun nofun
    fun c hc u hu limit htarget => h.target_le hu htarget (hraises c hc u hu)⟩
  · simp only [Thread.pages, pathOf_some]
    rw [part_self, add_zero]
  · unfold World.pages at hsmall
    simp only [Thread.size]
    omega

theorem World.Ok.limiting (h : w.Ok tree)
    (hserial : ¬ ∃ t ∈ w.threads, t.sets = some counter)
    (hcond : (Op.limit counter limit).Apart tree w) :
    World.Ok tree { w with threads := .reading counter limit :: w.threads } := by
  obtain ⟨eff, h⟩ := h
  have heff := h.effective counter fun u hu hkeeps => hserial ⟨u, hu, sets_of_keeps hkeeps⟩
  refine ⟨eff, h.cons trivial trivial (fun _ => rfl) (fun _ _ => rfl) ?_ ?_ ?_ nofun⟩
  · have hold := h.small
    simp only [size]
    omega
  · rintro u hu c ⟨⟩ huc
    exact hserial ⟨u, hu, huc⟩
  · rintro c limit' ⟨⟩ u hu hc
    rw [heff]
    exact Nat.le_of_not_lt fun hlt => hcond (lt_def.mpr hlt) u hu hc

theorem World.Ok.step (h : w.Ok tree) {op : Op Node} (hcond : op.Apart tree w)
    (hstep : w.step tree op = some w') : w'.Ok tree := by
  cases op with
  | tryCharge counter nrPages =>
    cases hstep
    exact h.tryCharge hcond
  | uncharge i =>
    obtain ⟨charge, hcharge, rfl⟩ := Option.map_eq_some_iff.mp hstep
    obtain ⟨a, b, hsplit, -, herase⟩ := exists_split_of_getElem? hcharge
    obtain ⟨eff, h⟩ := h
    refine ⟨eff, ?_⟩
    show Inv tree eff _ _ (w.held.eraseIdx i)
    rw [herase]
    rw [hsplit] at h
    replace h := h.perm (.refl _) perm_middle
    refine h.cons trivial trivial (fun x => add_comm _ _) (fun _ _ => rfl) ?_ nofun nofun nofun
    have hold := h.small
    simp only [map_cons, sum_cons, Thread.size] at hold ⊢
    omega
  | limit counter limit =>
    simp only [World.step] at hstep
    split_ifs at hstep with hserial
    cases hstep
    exact h.limiting hserial hcond
  | access i => exact h.access hstep

theorem Reach.ok (h : Reach tree (Op.Apart tree) w) : w.Ok tree := by
  induction h with
  | start =>
    refine ⟨fun _ => pageCounterMax.toNat, nofun, fun x => rfl, Nat.two_pow_pos 63,
      fun x v => Nat.zero_le _, nofun, fun x _ => rfl, nodup_nil, nofun⟩
  | step _ hcond hstep ih => exact ih.step hcond hstep

/-- If no call that raises a limit overlaps a charge of the counter, each counter has what is
outstanding in its subtree, and at most its limit, whenever no call is in progress. -/
theorem page_counter_exact (h : Reach tree (Op.Apart tree) w) (hquiet : w.threads = []) (c : Node) :
    (w.counters.count c).toNat =
        (w.held.map fun charge => if c ∈ tree.path charge.1 then charge.2.toNat else 0).sum ∧
      w.counters.count c ≤ w.counters.limit c := by
  obtain ⟨eff, hinv⟩ := h.ok
  rw [hquiet] at hinv
  have hcount := hinv.count c
  have hlevel := hinv.level c 0
  have heff := hinv.effective c nofun
  simp only [map_nil, sum_nil, add_zero] at hcount hlevel
  refine ⟨?_, ?_⟩
  · rw [hcount]
    unfold heldAt part
    simp only [not_mem_nil, not_false_eq_true, and_true]
  · rw [le_def]
    omega

def World.runs (tree : Tree Node) (w : World Node) : List (Op Node) → Option (World Node)
  | [] => some w
  | op :: ops => (w.step tree op).bind fun w' => w'.runs tree ops

theorem Reach.runs {cond : World Node → Op Node → Prop} {ops : List (Op Node)}
    (h : Reach tree cond w) (hcond : ∀ op ∈ ops, ∀ w, cond w op)
    (hruns : w.runs tree ops = some w') : Reach tree cond w' := by
  induction ops generalizing w with
  | nil =>
    cases hruns
    exact h
  | cons op ops ih =>
    obtain ⟨w₁, hstep, hrest⟩ := Option.bind_eq_some_iff.mp hruns
    refine ih (h.step (hcond op mem_cons_self w) hstep) (fun o ho => ?_) hrest
    exact hcond o (mem_cons_of_mem op ho)

def single : Tree Unit where
  parent _ := none
  depth _ := 0
  depth_parent := nofun

/-- A counter and its parent, `false`. -/
def pair : Tree Bool where
  parent c := if c then some false else none
  depth := Bool.toNat
  depth_parent := by decide

/-- Two calls that charge the counter take turns. -/
theorem page_counter_exact_pair :
    ∃ w : World Bool, w.threads = [] ∧ w.held = [(true, 3), (true, 2)] ∧
      (w.counters.count false).toNat = 5 := by
  have h₁ : Reach pair (Op.Apart pair) ⟨pageCounterInit, [.adding true 3 (some true)], []⟩ :=
    @Reach.step _ _ _ _ _ _ (.tryCharge true 3) .start ⟨by decide, nofun⟩ rfl
  have h₂ : Reach pair (Op.Apart pair)
      ⟨pageCounterInit, [.adding true 2 (some true), .adding true 3 (some true)], []⟩ := by
    refine @Reach.step _ _ _ _ _ _ (.tryCharge true 2) h₁ ⟨by decide, fun c _ t ht => ?_⟩ rfl
    rw [mem_singleton.mp ht]
    exact nofun
  have hruns : (World.runs pair
      ⟨pageCounterInit, [.adding true 2 (some true), .adding true 3 (some true)], []⟩
      ([0, 1, 0, 1, 0, 1, 0, 1, 0, 0].map .access)).map (fun w => (w.threads.length, w.held)) =
        some (0, [(true, 3), (true, 2)]) := by decide +kernel
  obtain ⟨w, hw, hresult⟩ := Option.map_eq_some_iff.mp hruns
  simp only [Prod.mk.injEq, length_eq_zero_iff] at hresult
  have hreach : Reach pair (Op.Apart pair) w := by
    refine h₂.runs (fun op hop w => ?_) hw
    obtain ⟨i, -, rfl⟩ := mem_map.mp hop
    trivial
  refine ⟨w, hresult.1, hresult.2, (page_counter_exact hreach hresult.1 false).1.trans ?_⟩
  rw [hresult.2]
  decide

/-- The limit is lowered to 5 and 3 pages are charged.  A call raises the limit to 10 while 5 more
pages are charged, and puts back 5 since the count has grown.  It then sees a count of 13 while
another 5 pages are tried, and gives up. -/
def raisingRun : List (Op Unit) :=
  [.limit () 5, .access 0, .access 0, .access 0,
    .tryCharge () 3, .access 0, .access 0, .access 0,
    .limit () 10, .access 0, .access 0,
    .tryCharge () 5, .access 0, .access 0, .access 0,
    .access 0, .access 0,
    .tryCharge () 5, .access 0, .access 1, .access 0, .access 0, .access 0]

/-- No call is in progress, with 8 pages and a limit of 5. -/
theorem page_counter_over_limit :
    ∃ w, Reach single (fun _ _ => True) w ∧ w.threads = [] ∧ w.held = [((), 5), ((), 3)] ∧
      w.counters.count () = 8 ∧ w.counters.limit () = 5 := by
  have hruns : (World.runs single ⟨pageCounterInit, [], []⟩ raisingRun).map
      (fun w => (w.threads.length, w.held, w.counters.count (), w.counters.limit ())) =
        some (0, [((), 5), ((), 3)], 8, 5) := by decide
  obtain ⟨w, hw, hresult⟩ := Option.map_eq_some_iff.mp hruns
  simp only [Prod.mk.injEq, length_eq_zero_iff] at hresult
  exact ⟨w, Reach.start.runs (fun _ _ _ => trivial) hw, hresult⟩

end LinuxKernel.PageCounter
