import LinuxKernel.Lists.Family

/-!
# What the list operations do to a family

Each function of `list.h` as an operation on the sequences of a family, and the refinement: on a
memory that holds a family, a function leaves a memory that holds the family after the operation.
-/

namespace LinuxKernel.Lists

open Lib List ListMem

section Sequences

/-- `ls` is put after the node `p`. -/
inductive SplicedAfter (ls : List Nat) (p : Nat) : List Nat → List Nat → Prop
  | intro (a b : List Nat) : SplicedAfter ls p (a ++ p :: b) (a ++ p :: (ls ++ b))

/-- `ls` is put before `p`, which is at the end if `p` is the head. -/
inductive SplicedBefore (ls : List Nat) (p : Nat) : List Nat → List Nat → Prop
  | head (es : List Nat) : SplicedBefore ls p (p :: es) (p :: (es ++ ls))
  | entry (h : Nat) (a b : List Nat) :
      SplicedBefore ls p (h :: (a ++ p :: b)) (h :: (a ++ (ls ++ p :: b)))

/-- The entry `e` is taken out. -/
inductive Removed (e : Nat) : List Nat → List Nat → Prop
  | intro (h : Nat) (a b : List Nat) : Removed e (h :: (a ++ e :: b)) (h :: (a ++ b))

/-- The node `new` stands at the place of `old`. -/
inductive Replaced (old new : Nat) : List Nat → List Nat → Prop
  | intro (a b : List Nat) : Replaced old new (a ++ old :: b) (a ++ new :: b)

/-- The first entry becomes the last one. -/
inductive RotatedLeft (head : Nat) : List Nat → List Nat → Prop
  | empty : RotatedLeft head [head] [head]
  | first (e : Nat) (es : List Nat) : RotatedLeft head (head :: e :: es) (head :: (es ++ [e]))

/-- The entries up to `entry` are cut off the list of `head`, which has entries. -/
inductive Cut (head entry : Nat) : List Nat → List Nat → List Nat → Prop
  | none (es : List Nat) : entry = head → es ≠ [] → Cut head entry (head :: es) [] (head :: es)
  | upTo (pre post : List Nat) :
      Cut head entry (head :: (pre ++ entry :: post)) (pre ++ [entry]) (head :: post)

variable {ls s s' : List Nat} {p e old new head : Nat}

theorem SplicedAfter.rotated (h : SplicedAfter ls p s s') :
    ∃ t, s ~r t ∧ (ls ++ t) ~r s' ∧ t.getLast? = some p := by
  obtain ⟨a, b⟩ := h
  refine ⟨b ++ (a ++ [p]), ?_, ?_, by simp⟩
  · have hrot := @isRotated_append _ (a ++ [p]) b
    rwa [append_assoc, singleton_append] at hrot
  · have hrot := @isRotated_append _ (ls ++ b) (a ++ [p])
    rwa [append_assoc, append_assoc, singleton_append] at hrot

theorem SplicedBefore.rotated (h : SplicedBefore ls p s s') :
    ∃ t, s ~r t ∧ (ls ++ t) ~r s' ∧ t.head? = some p := by
  cases h with
  | head es => exact ⟨p :: es, .refl _, isRotated_append, rfl⟩
  | entry h a b =>
    refine ⟨p :: b ++ h :: a, ?_, ?_, rfl⟩
    · exact @isRotated_append _ (h :: a) (p :: b)
    · have hrot := @isRotated_append _ (ls ++ p :: b) (h :: a)
      rwa [append_assoc] at hrot

theorem Removed.rotated (h : Removed e s s') : ∃ t, s ~r (e :: t) ∧ t ~r s' ∧ t ≠ [] := by
  obtain ⟨h, a, b⟩ := h
  refine ⟨b ++ h :: a, ?_, ?_, by simp⟩
  · exact @isRotated_append _ (h :: a) (e :: b)
  · exact isRotated_append

theorem Replaced.rotated (h : Replaced old new s s') : ∃ t, s ~r (old :: t) ∧ (new :: t) ~r s' := by
  obtain ⟨a, b⟩ := h
  exact ⟨b ++ a, @isRotated_append _ a (old :: b), @isRotated_append _ (new :: b) a⟩

end Sequences

/-- One list of the family is changed. -/
inductive Updated (R : List Nat → List Nat → Prop) (fam fam' : Family) : Prop
  | intro (s s' : List Nat) (rest : Family) :
      fam.Perm (s :: rest) → fam'.Perm (s' :: rest) → R s s' → Updated R fam fam'

/-- The node is in no list, or a list by itself that is given up. -/
inductive Fresh (new : Nat) (fam : Family) : Family → Prop
  | outside : new ∉ fam.flatten → Fresh new fam fam
  | single (rest : Family) : fam.Perm ([new] :: rest) → Fresh new fam rest

/-- The node is taken out of its list, or was one by itself. -/
inductive Detached (e : Nat) (fam fam' : Family) : Prop
  | entry : Updated (Removed e) fam fam' → Detached e fam fam'
  | single : fam.Perm ([e] :: fam') → Detached e fam fam'

/-- The entries of `list` go into another list.  If there are any, `list` is no longer a head. -/
inductive Joined (R : List Nat → List Nat → List Nat → Prop) (list : Nat) (fam fam' : Family) : Prop
  | empty : [list] ∈ fam → fam'.Perm fam → Joined R list fam fam'
  | entries (ls s s' : List Nat) (rest : Family) :
      ls ≠ [] → fam.Perm ((list :: ls) :: s :: rest) → fam'.Perm (s' :: rest) → R ls s s' →
      Joined R list fam fam'

/-- As `Joined`, with `list` left as an empty list. -/
inductive JoinedInit (R : List Nat → List Nat → List Nat → Prop) (list : Nat)
    (fam fam' : Family) : Prop
  | empty : [list] ∈ fam → fam'.Perm fam → JoinedInit R list fam fam'
  | entries (ls s s' : List Nat) (rest : Family) :
      ls ≠ [] → fam.Perm ((list :: ls) :: s :: rest) → fam'.Perm ([list] :: s' :: rest) →
      R ls s s' → JoinedInit R list fam fam'

/-- A part of one list becomes that of `list`; its old entries are given up.  Nothing is cut off an
empty list for an empty one. -/
inductive CutOff (list head entry : Nat) (fam fam' : Family) : Prop
  | empty : [list] ∈ fam → [head] ∈ fam → fam'.Perm fam → CutOff list head entry fam fam'
  | intro (ls s u s' : List Nat) (rest : Family) :
      fam.Perm ((list :: ls) :: s :: rest) → fam'.Perm ((list :: u) :: s' :: rest) →
      Cut head entry s u s' → CutOff list head entry fam fam'

/-- The operation is called as its comment asks, and what it is for. -/
def ListOp.Spec (fam fam' : Family) : ListOp → Prop
  | add new head =>
    ∃ fam₀, Fresh new fam fam₀ ∧ Updated (SplicedAfter [new] head) fam₀ fam'
  | addTail new head =>
    ∃ fam₀, Fresh new fam fam₀ ∧ Updated (SplicedBefore [new] head) fam₀ fam'
  | del entry => Updated (Removed entry) fam fam'
  | delInit entry => ∃ fam₀, Detached entry fam fam₀ ∧ fam'.Perm ([entry] :: fam₀)
  | replace old new =>
    ∃ fam₀, Fresh new fam fam₀ ∧ Updated (Replaced old new) fam₀ fam'
  | replaceInit old new =>
    ∃ fam₀ fam₁, Fresh new fam fam₀ ∧ Updated (Replaced old new) fam₀ fam₁ ∧
      fam'.Perm ([old] :: fam₁)
  | move list head =>
    ∃ fam₀, Detached list fam fam₀ ∧ Updated (SplicedAfter [list] head) fam₀ fam'
  | moveTail list head =>
    ∃ fam₀, Detached list fam fam₀ ∧ Updated (SplicedBefore [list] head) fam₀ fam'
  | rotateLeft head => Updated (RotatedLeft head) fam fam'
  | cutPosition list head entry => CutOff list head entry fam fam'
  | splice list head => Joined (SplicedAfter · head) list fam fam'
  | spliceTail list head => Joined (SplicedBefore · head) list fam fam'
  | spliceInit list head => JoinedInit (SplicedAfter · head) list fam fam'
  | spliceTailInit list head => JoinedInit (SplicedBefore · head) list fam fam'

variable {mem : ListMem} {fam fam' rest : Family} {s s' t u ls pre post : List Nat}
  {new old head entry list x f z : Nat}

theorem WellFormed.head_nodup (h : WellFormed mem (s :: rest)) :
    s.Nodup ∧ mem.IsRing s ∧ s ≠ [] := by
  obtain ⟨hne, hring⟩ := h.ring s mem_cons_self
  exact ⟨(nodup_append.mp h.nodup).1, hring, hne⟩

theorem flatten_perm_rotated (hperm : fam.Perm (s :: rest)) (hrot : s ~r t) :
    fam.flatten.Perm (t :: rest).flatten :=
  hperm.flatten.trans (hrot.perm.append_right rest.flatten)

/-- The place between `z` and `f`, seen as the two ends of a ring. -/
def Placed (z f : Nat) (ls s s' : List Nat) : Prop :=
  ∃ t, s ~r t ∧ (ls ++ t) ~r s' ∧ t.head? = some f ∧ t.getLast? = some z

theorem SplicedAfter.placed (hspl : SplicedAfter ls head s s') (h : mem.IsRing s) :
    Placed head (mem.next head) ls s s' := by
  obtain ⟨t, hst, hts, hz⟩ := hspl.rotated
  obtain ⟨f, -, hf, -⟩ := exists_ends (ne_nil_of_mem (mem_of_getLast? hz))
  have hnext : mem.next head = f := ((h.of_isRotated hst).ends hf hz).1
  exact ⟨t, hst, hts, hnext ▸ hf, hz⟩

theorem SplicedBefore.placed (hspl : SplicedBefore ls head s s') (h : mem.IsRing s) :
    Placed (mem.prev head) head ls s s' := by
  obtain ⟨t, hst, hts, hf⟩ := hspl.rotated
  obtain ⟨-, z, -, hz, -⟩ := exists_ends (ne_nil_of_mem (mem_of_head? hf))
  have hprev : mem.prev head = z := ((h.of_isRotated hst).ends hf hz).2
  exact ⟨t, hst, hts, hf, hprev ▸ hz⟩

theorem WellFormed.addBetween (h : WellFormed mem (t :: rest)) (hnew : new ∉ (t :: rest).flatten)
    (hf : t.head? = some f) (hz : t.getLast? = some z) :
    WellFormed (mem.listAddBetween new z f) ((new :: t) :: rest) := by
  obtain ⟨-, hring, -⟩ := h.head_nodup
  refine h.tail.rewire [new :: t] (rewired_addBetween hf hz)
    (nodup_cons.mpr ⟨hnew, h.nodup⟩) (.refl _) fun hnodup => forall_mem_singleton.mpr ?_
  exact ⟨cons_ne_nil _ _, hring.addBetween hf hz hnodup⟩

theorem WellFormed.spliceBetween (h : WellFormed mem ((list :: u) :: t :: rest)) (hu : u ≠ [])
    (hf : t.head? = some f) (hz : t.getLast? = some z) :
    WellFormed (mem.listSpliceBetween list z f) ((u ++ t) :: rest) ∧
      list ∉ ((u ++ t) :: rest).flatten := by
  obtain ⟨-, hlist, -⟩ := h.head_nodup
  obtain ⟨-, ht, -⟩ := h.tail.head_nodup
  obtain ⟨hout, hnodup⟩ := nodup_cons.mp h.nodup
  have hflat : ((u ++ t) :: rest).flatten = u ++ (t :: rest).flatten := append_assoc _ _ _
  refine ⟨h.tail.tail.rewire [u ++ t] (hlist.rewired_spliceBetween hu hf hz) hnodup ?_
    fun hut => forall_mem_singleton.mpr ⟨append_ne_nil_of_left_ne_nil hu t,
      hlist.spliceBetween hu hf hz ht hut⟩, hflat ▸ hout⟩
  simp

theorem WellFormed.cutAt (h : WellFormed mem ((list :: ls) :: (u ++ t) :: rest))
    (hentry : u.getLast? = some entry) (hhead : t.getLast? = some head) :
    WellFormed (mem.listCutAt list head entry) ((list :: u) :: t :: rest) := by
  obtain ⟨-, hring, -⟩ := h.tail.head_nodup
  have hnodup := h.nodup.sublist ((sublist_append_right ls _).cons_cons list)
  rw [flatten_cons, append_assoc] at hnodup
  refine h.tail.tail.rewire [list :: u, t] (hring.rewired_cutAt hentry hhead) hnodup
    (.refl _) fun hut => ?_
  obtain ⟨hu, ht⟩ := hring.cutAt hentry hhead hut
  have hne : t ≠ [] := ne_nil_of_mem (mem_of_getLast? hhead)
  exact forall_mem_cons.mpr ⟨⟨cons_ne_nil _ _, hu⟩, forall_mem_singleton.mpr ⟨hne, ht⟩⟩

theorem IsRing.singular (h : mem.IsRing (head :: ls)) (hnodup : (head :: ls).Nodup)
    (hmem : entry ∈ ls) (hsing : mem.next head = mem.prev head) : entry = mem.next head := by
  obtain ⟨f, z, hf, hz, -⟩ := exists_ends (ne_nil_of_mem hmem)
  obtain ⟨-, ⟨hnext, -⟩, ⟨-, hprev⟩⟩ := (ring_cons hf hz).mp h
  obtain ⟨-, hls⟩ := nodup_cons.mp hnodup
  have hfz : f = z := by rw [← hnext, ← hprev, hsing]
  rw [hnext]
  by_contra hne
  obtain ⟨i, rfl⟩ := getLast?_eq_some_iff.mp hz
  cases i with
  | nil =>
    cases hf
    exact hne (mem_singleton.mp hmem)
  | cons a i =>
    cases hf
    exact (nodup_cons.mp hls).1 (hfz ▸ mem_append_right i mem_cons_self)

variable (h : WellFormed mem fam)

include h

theorem WellFormed.fresh (hnew : Fresh new fam fam') :
    WellFormed mem fam' ∧ new ∉ fam'.flatten := by
  cases hnew with
  | outside hnew => exact ⟨h, hnew⟩
  | single _ hperm =>
    have h' := h.of_perm hperm
    exact ⟨h'.tail, (nodup_cons.mp h'.nodup).1⟩

theorem WellFormed.init (hx : x ∉ fam.flatten) : WellFormed (mem.initListHead x) ([x] :: fam) :=
  h.rewire [[x]] (mem.rewired_write x x x) (nodup_cons.mpr ⟨hx, h.nodup⟩) (.refl _)
    fun _ => forall_mem_singleton.mpr ⟨cons_ne_nil _ _, mem.isRing_init x⟩

theorem WellFormed.add {R : List Nat → List Nat → Prop} (hnew : new ∉ fam.flatten)
    (hup : Updated R fam fam') (hplace : ∀ s s', R s s' → mem.IsRing s → Placed z f [new] s s') :
    WellFormed (mem.listAddBetween new z f) fam' := by
  obtain ⟨s, s', rest, hold, hres, hR⟩ := hup
  have hs := h.of_perm hold
  obtain ⟨t, hst, hts, hf, hz⟩ := hplace s s' hR hs.head_nodup.2.1
  have hfresh : new ∉ (t :: rest).flatten :=
    fun hx => hnew ((flatten_perm_rotated hold hst).mem_iff.mpr hx)
  exact (((hs.of_isRotated hst).addBetween hfresh hf hz).of_isRotated hts).of_perm hres.symm

theorem WellFormed.delEntry (hdet : Detached x fam fam') :
    WellFormed (mem.listDelEntry x) fam' ∧ x ∉ fam'.flatten := by
  cases hdet with
  | entry hup =>
    obtain ⟨s, s', rest, hold, hres, hrem⟩ := hup
    obtain ⟨t, hst, hts, hne⟩ := hrem.rotated
    have ht := (h.of_perm hold).of_isRotated hst
    obtain ⟨-, hring, -⟩ := ht.head_nodup
    have hdel : WellFormed (mem.listDelEntry x) (t :: rest) :=
      ht.tail.rewire [t] hring.rewired_delEntry ht.nodup (sublist_cons_self x _) fun hnodup =>
        forall_mem_singleton.mpr ⟨hne, hring.delEntry hnodup hne⟩
    have hx : x ∉ (t :: rest).flatten := (nodup_cons.mp ht.nodup).1
    have hfam := flatten_perm_rotated hres hts.symm
    exact ⟨(hdel.of_isRotated hts).of_perm hres.symm, fun hx' => hx (hfam.mem_iff.mp hx')⟩
  | single hperm =>
    have h' := h.of_perm hperm
    refine ⟨?_, (nodup_cons.mp h'.nodup).1⟩
    exact h'.tail.rewire [] h'.head_nodup.2.1.rewired_delEntry h'.nodup
      (nil_sublist _) fun _ => forall_mem_nil _

theorem WellFormed.del (hup : Updated (Removed x) fam fam') : WellFormed (mem.listDel x) fam' := by
  obtain ⟨hdel, hx⟩ := h.delEntry (.entry hup)
  exact hdel.rewire [] (rewired_write _ x _ _) (nodup_cons.mpr ⟨hx, hdel.nodup⟩)
    (nil_sublist _) fun _ => forall_mem_nil _

theorem WellFormed.replace (hnew : new ∉ fam.flatten)
    (hup : Updated (Replaced old new) fam fam') :
    WellFormed (mem.listReplace old new) fam' ∧ old ∉ fam'.flatten := by
  obtain ⟨s, s', rest, hold, hres, hrep⟩ := hup
  obtain ⟨t, hst, hts⟩ := hrep.rotated
  have ht := (h.of_perm hold).of_isRotated hst
  obtain ⟨-, hring, -⟩ := ht.head_nodup
  have hfresh : new ∉ old :: (t ++ rest.flatten) :=
    fun hx => hnew ((flatten_perm_rotated hold hst).mem_iff.mpr hx)
  have hrep : WellFormed (mem.listReplace old new) ((new :: t) :: rest) :=
    ht.tail.rewire [new :: t] hring.rewired_replace (nodup_cons.mpr ⟨hfresh, ht.nodup⟩)
      ((sublist_cons_self old _).cons_cons new) fun hnodup =>
        forall_mem_singleton.mpr ⟨cons_ne_nil _ _, hring.replace hnodup⟩
  have hx : old ∉ new :: (t ++ rest.flatten) := by
    rw [mem_cons, not_or]
    exact ⟨fun heq => hfresh (heq ▸ mem_cons_self), (nodup_cons.mp ht.nodup).1⟩
  have hfam := flatten_perm_rotated hres hts.symm
  exact ⟨(hrep.of_isRotated hts).of_perm hres.symm, fun hx' => hx (hfam.mem_iff.mp hx')⟩

theorem WellFormed.listEmpty_eq (hmem : head :: ls ∈ fam) : mem.listEmpty head = ls.isEmpty := by
  obtain ⟨-, hring⟩ := h.ring _ hmem
  exact ListMem.IsRing.listEmpty_eq hring ((nodup_flatten.mp h.nodup).1 _ hmem)

section Splice

variable {R : List Nat → List Nat → List Nat → Prop}
  (hplace : ∀ ls s s', R ls s s' → mem.IsRing s → Placed z f ls s s')

include hplace

theorem WellFormed.splice (hls : ls ≠ []) (hold : fam.Perm ((list :: ls) :: s :: rest))
    (hR : R ls s s') :
    mem.listEmpty list = false ∧ WellFormed (mem.listSpliceBetween list z f) (s' :: rest) ∧
      list ∉ (s' :: rest).flatten := by
  have hperm := h.of_perm hold
  obtain ⟨t, hst, hts, hf, hz⟩ := hplace ls s s' hR hperm.tail.head_nodup.2.1
  have hswap := (hperm.of_perm (.swap s _ rest)).of_isRotated hst
  obtain ⟨hspl, hout⟩ :=
    (hswap.of_perm (.swap (list :: ls) t rest)).spliceBetween hls hf hz
  have hfam := flatten_perm_rotated (.refl (s' :: rest)) hts.symm
  refine ⟨?_, hspl.of_isRotated hts, fun hx => hout (hfam.mem_iff.mp hx)⟩
  rw [hperm.listEmpty_eq mem_cons_self, isEmpty_eq_false_iff]
  exact hls

theorem WellFormed.joined (hjoin : Joined R list fam fam') :
    WellFormed (if !mem.listEmpty list then mem.listSpliceBetween list z f else mem) fam' := by
  cases hjoin with
  | empty hmem hres =>
    rw [h.listEmpty_eq hmem]
    exact h.of_perm hres.symm
  | entries ls s s' rest hls hold hres hR =>
    obtain ⟨hempty, hspl, -⟩ := h.splice hplace hls hold hR
    rw [hempty]
    exact hspl.of_perm hres.symm

theorem WellFormed.joinedInit (hjoin : JoinedInit R list fam fam') :
    WellFormed (if !mem.listEmpty list then
      (mem.listSpliceBetween list z f).initListHead list else mem) fam' := by
  cases hjoin with
  | empty hmem hres =>
    rw [h.listEmpty_eq hmem]
    exact h.of_perm hres.symm
  | entries ls s s' rest hls hold hres hR =>
    obtain ⟨hempty, hspl, hout⟩ := h.splice hplace hls hold hR
    rw [hempty]
    exact (hspl.init hout).of_perm hres.symm

end Splice

theorem WellFormed.rotateLeft (hup : Updated (RotatedLeft head) fam fam') :
    WellFormed (mem.listRotateLeft head) fam' := by
  obtain ⟨s, s', rest, hold, hres, hrot⟩ := hup
  have hperm := h.of_perm hold
  cases hrot with
  | empty =>
    rw [listRotateLeft, hperm.listEmpty_eq mem_cons_self]
    exact hperm.of_perm hres.symm
  | first e es =>
    obtain ⟨-, hring, -⟩ := hperm.head_nodup
    obtain ⟨hlink, -⟩ := isChain_cons_cons.mp hring.chain
    have hdet : Detached e fam ((head :: es) :: rest) :=
      .entry ⟨_, _, rest, hold, .refl _, .intro head [] es⟩
    obtain ⟨hdel, hout⟩ := h.delEntry hdet
    rw [listRotateLeft, hperm.listEmpty_eq mem_cons_self, hlink.1]
    exact hdel.add hout ⟨_, _, rest, List.Perm.refl _, hres, .head es⟩
      fun _ _ hspl => SplicedBefore.placed hspl

omit h in
theorem WellFormed.cut_upTo
    (h : WellFormed mem ((list :: ls) :: (head :: (pre ++ entry :: post)) :: rest)) :
    WellFormed (mem.listCutPosition list head entry)
      ((list :: (pre ++ [entry])) :: (head :: post) :: rest) := by
  obtain ⟨hnodup, hring, -⟩ := h.tail.head_nodup
  have hmem : entry ∈ pre ++ entry :: post := mem_append_right pre mem_cons_self
  have hne : entry ≠ head := fun heq => (nodup_cons.mp hnodup).1 (heq ▸ hmem)
  have hempty : mem.listEmpty head = false := by
    rw [h.listEmpty_eq (mem_cons_of_mem _ mem_cons_self), isEmpty_eq_false_iff]
    exact ne_nil_of_mem hmem
  have hsing : ¬ (mem.listIsSingular head ∧ mem.next head ≠ entry ∧ head ≠ entry) := by
    rintro ⟨hsing, hnext, -⟩
    rw [listIsSingular, Bool.and_eq_true, beq_iff_eq] at hsing
    exact hnext (IsRing.singular hring hnodup hmem hsing.2).symm
  rw [listCutPosition, hempty, if_neg Bool.false_ne_true, if_neg hsing, if_neg hne]
  have hold : (head :: (pre ++ entry :: post)) ~r ((pre ++ [entry]) ++ (post ++ [head])) := by
    have hrot := @isRotated_append _ [head] (pre ++ entry :: post)
    simpa using hrot
  have hswap := (h.of_perm (.swap _ _ rest)).of_isRotated hold
  have hcut : WellFormed (mem.listCutAt list head entry) _ :=
    (hswap.of_perm (.swap _ _ rest)).cutAt (by simp) (by simp)
  have hback := (hcut.of_perm (.swap _ _ rest)).of_isRotated (@isRotated_append _ post [head])
  exact hback.of_perm (.swap _ _ rest)

theorem WellFormed.cutPosition (hcut : CutOff list head entry fam fam') :
    WellFormed (mem.listCutPosition list head entry) fam' := by
  cases hcut with
  | empty _ hhead hres =>
    rw [listCutPosition, h.listEmpty_eq hhead]
    exact h.of_perm hres.symm
  | intro ls s u s' rest hold hres hcut =>
    have hperm := h.of_perm hold
    cases hcut with
    | upTo pre post => exact hperm.cut_upTo.of_perm hres.symm
    | none es heq hne =>
      have hhead := hperm.listEmpty_eq (mem_cons_of_mem _ mem_cons_self)
      rw [isEmpty_eq_false_iff.mpr hne] at hhead
      have hsing : ¬ (mem.listIsSingular head ∧ mem.next head ≠ entry ∧ head ≠ entry) :=
        fun hs => hs.2.2 heq.symm
      have hout : list ∉ ((head :: es) :: rest).flatten := fun hx =>
        (nodup_cons.mp hperm.nodup).1 (mem_append_right ls hx)
      rw [listCutPosition, hhead, if_neg Bool.false_ne_true, if_neg hsing, if_pos heq]
      exact (hperm.tail.init hout).of_perm hres.symm

omit h

/-- Each operation leaves the family that it is for. -/
theorem WellFormed.run {op : ListOp} (h : WellFormed mem fam) (hspec : op.Spec fam fam') :
    WellFormed (op.run mem) fam' := by
  cases op with
  | add new head | addTail new head =>
    obtain ⟨fam₀, hfresh, hup⟩ := hspec
    obtain ⟨h0, hnew⟩ := h.fresh hfresh
    exact h0.add hnew hup fun _ _ hspl => hspl.placed
  | del entry => exact h.del hspec
  | delInit entry =>
    obtain ⟨fam₀, hdet, hres⟩ := hspec
    obtain ⟨h0, hout⟩ := h.delEntry hdet
    exact (h0.init hout).of_perm hres.symm
  | replace old new =>
    obtain ⟨fam₀, hfresh, hup⟩ := hspec
    obtain ⟨h0, hnew⟩ := h.fresh hfresh
    exact (h0.replace hnew hup).1
  | replaceInit old new =>
    obtain ⟨fam₀, fam₁, hfresh, hup, hres⟩ := hspec
    obtain ⟨h0, hnew⟩ := h.fresh hfresh
    obtain ⟨h1, hout⟩ := h0.replace hnew hup
    exact (h1.init hout).of_perm hres.symm
  | move list head | moveTail list head =>
    obtain ⟨fam₀, hdet, hup⟩ := hspec
    obtain ⟨h0, hout⟩ := h.delEntry hdet
    exact h0.add hout hup fun _ _ hspl => hspl.placed
  | rotateLeft head => exact h.rotateLeft hspec
  | cutPosition list head entry => exact h.cutPosition hspec
  | splice list head | spliceTail list head =>
    exact h.joined (fun _ _ _ hspl => hspl.placed) hspec
  | spliceInit list head | spliceTailInit list head =>
    exact h.joinedInit (fun _ _ _ hspl => hspl.placed) hspec

/-- An operation called as its comment asks does on the sequences what it is for. -/
theorem listOp_refines (mem : ListMem) (op : ListOp) (fam fam' : Family)
    (h : Represents mem fam) (hspec : op.Spec fam fam') : Represents (op.run mem) fam' :=
  (h.wellFormed.run hspec).represents

/-- A list with one entry and an empty list. -/
def entryAndEmpty : ListMem where
  next x := if x = 1 then 2 else if x = 2 then 1 else x
  prev x := if x = 1 then 2 else if x = 2 then 1 else x

theorem wellFormed_entryAndEmpty : WellFormed entryAndEmpty [[1, 2], [3]] := by
  refine ⟨?_, by decide⟩
  intro s hs
  simp only [mem_cons, not_mem_nil, or_false] at hs
  obtain rfl | rfl := hs
  · refine ⟨by simp, ring_iff_chained.mpr ?_⟩
    simp [Linked, entryAndEmpty]
  · refine ⟨by simp, ring_singleton.mpr ?_⟩
    simp [entryAndEmpty]

theorem spec_move : (ListOp.move 2 3).Spec [[1, 2], [3]] [[3, 2], [1]] := by
  refine ⟨[[1], [3]], .entry ⟨[1, 2], [1], [[3]], .refl _, .refl _, .intro 1 [] []⟩, ?_⟩
  exact ⟨[3], [3, 2], [[1]], .swap _ _ _, .refl _, .intro [] []⟩

/-- The entry is moved to the other list and cut off again. -/
theorem listOp_refines_move :
    Represents ((ListOp.cutPosition 1 3 2).run ((ListOp.move 2 3).run entryAndEmpty))
      [[1, 2], [3]] := by
  have hmoved := listOp_refines _ _ _ _ wellFormed_entryAndEmpty.represents spec_move
  exact listOp_refines _ (.cutPosition 1 3 2) _ _ hmoved
    (.intro [] [3, 2] [2] [3] [] (.swap _ _ _) (.refl _) (.upTo [] []))

/-- Operations one after the other, each called as its comment asks. -/
inductive Runs (mem : ListMem) (fam : Family) : ListMem → Family → Prop
  | refl : Runs mem fam mem fam
  | step {mem' : ListMem} {fam' fam'' : Family} {op : ListOp} (h : Runs mem fam mem' fam')
      (hspec : op.Spec fam' fam'') : Runs mem fam (op.run mem') fam''

/-- The memory follows the sequences through every run. -/
theorem Runs.represents {mem mem' : ListMem} {fam fam' : Family} (h : Runs mem fam mem' fam')
    (hrep : Represents mem fam) : Represents mem' fam' := by
  induction h with
  | refl => exact hrep
  | step _ hspec ih => exact (ih.wellFormed.run hspec).represents

/-- A lookup after any run finds the first entry with the address among those the run left in the
list. -/
theorem arp_lookup_after_runs {mem mem' : ListMem} {fam fam' : Family} {arpTable : Nat}
    {es : List Nat} (ip : Nat → UInt32) (hwAddr : Nat → Nat) (dip : UInt32)
    (hrep : Represents mem fam) (h : Runs mem fam mem' fam') (hmem : arpTable :: es ∈ fam') :
    Returns (mem'.htGetDstMacaddr ip hwAddr arpTable dip)
      ((es.find? fun e => dip = ip e).map hwAddr) :=
  (h.represents hrep).htGetDstMacaddr hmem

/-- The entry is moved and then found in the other list. -/
theorem arp_lookup_after_move :
    Returns (((ListOp.move 2 3).run entryAndEmpty).htGetDstMacaddr (fun _ => 7) (· + 4) 3 7)
      (some 6) :=
  arp_lookup_after_runs (fun _ => 7) (· + 4) 7 wellFormed_entryAndEmpty.represents
    (.step .refl spec_move) mem_cons_self

end LinuxKernel.Lists
