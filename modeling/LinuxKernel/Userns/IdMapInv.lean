import LinuxKernel.Lib.RangeMap
import LinuxKernel.Userns.IdMap
import Mathlib.Algebra.Ring.Nat

/-!
# Installed id maps are injective

The extents of an installed map move ranges of ids to ranges of kernel ids, none of which meet or
wrap.  The lookups are those of the library on these ranges, and a map is the composition of what
was written with the map of the parent.
-/

namespace LinuxKernel.Userns

open Lib Function UidGidExtent
open List hiding range

section Extents

def UidGidExtent.range (e : UidGidExtent) : MovedRange :=
  ⟨e.first.toNat, e.lowerFirst.toNat, e.count.toNat⟩

/-- The extent read from the other side. -/
def UidGidExtent.flip (e : UidGidExtent) : UidGidExtent :=
  ⟨e.lowerFirst, e.first, e.count⟩

/-- An extent, not empty, with the last id on neither side. -/
structure UidGidExtent.Valid (e : UidGidExtent) : Prop where
  pos : 0 < e.count.toNat
  upper : e.first.toNat + e.count.toNat < 2 ^ 32
  lower : e.lowerFirst.toNat + e.count.toNat < 2 ^ 32

variable {e p : UidGidExtent} {map parentMap : UidGidMap} {a n id id' u k : UInt32}

theorem UidGidExtent.Valid.flip (h : e.Valid) : e.flip.Valid :=
  ⟨h.pos, h.lower, h.upper⟩

theorem toNat_last (hn : 0 < n.toNat) (hsum : a.toNat + n.toNat < 2 ^ 32) :
    (a + n - 1).toNat = a.toNat + n.toNat - 1 := by
  have hadd : (a + n).toNat = a.toNat + n.toNat := by
    rw [UInt32.toNat_add, Nat.mod_eq_of_lt hsum]
  rw [UInt32.toNat_sub_of_le, hadd]
  · rfl
  · rw [UInt32.le_iff_toNat_le, hadd]
    show 1 ≤ _
    omega

theorem UidGidExtent.Valid.has_iff (h : e.Valid) (id : UInt32) :
    (id ≥ e.first ∧ id ≤ e.first + e.count - 1) ↔ e.range.Has id.toNat := by
  have hpos := h.pos
  rw [ge_iff_le, UInt32.le_iff_toNat_le, UInt32.le_iff_toNat_le, toNat_last hpos h.upper]
  simp only [MovedRange.Has, range]
  omega

theorem UidGidExtent.Valid.move_lt (h : e.Valid) {n : Nat} (hn : e.range.Has n) :
    e.range.move n < 2 ^ 32 - 1 := by
  have hlower := h.lower
  simp only [MovedRange.Has, MovedRange.move, range] at hn ⊢
  omega

theorem UidGidExtent.Valid.move_eq (h : e.Valid) (hid : e.range.Has id.toNat) :
    ((id - e.first) + e.lowerFirst).toNat = e.range.move id.toNat := by
  have hlt := h.move_lt hid
  simp only [MovedRange.Has, MovedRange.move, range] at hid hlt ⊢
  rw [UInt32.toNat_add, UInt32.toNat_sub_of_le _ _ (UInt32.le_iff_toNat_le.mpr hid.1)]
  omega

/-- The number of an id that is not the last one. -/
def idNumber (id : UInt32) : Option Nat :=
  if id = noId then none else some id.toNat

theorem idNumber_of_ne (h : id ≠ noId) : idNumber id = some id.toNat :=
  if_neg h

theorem idNumber_inj (h : idNumber id = idNumber id') : id = id' := by
  unfold idNumber at h
  split at h <;> split at h
  · next h1 h2 => rw [h1, h2]
  · cases h
  · cases h
  · exact UInt32.toNat_inj.mp (Option.some.inj h)

theorem mapIdDown_eq (h : ∀ e ∈ map, e.Valid) (id : UInt32) :
    idNumber (mapIdDown map id) = moveBy (map.map range) id.toNat := by
  induction map with
  | nil => rfl
  | cons e map ih =>
    have he := h e mem_cons_self
    have hiff := he.has_iff id
    rw [map_cons, moveBy]
    by_cases hhas : e.range.Has id.toNat
    · have hfind : mapIdDown (e :: map) id = (id - e.first) + e.lowerFirst := by
        rw [mapIdDown, find?_cons_of_pos (by simpa using hiff.mpr hhas)]
      have hlt := he.move_lt hhas
      rw [← he.move_eq hhas, ← hfind] at hlt
      rw [if_pos hhas, ← he.move_eq hhas, ← hfind]
      refine idNumber_of_ne (fun hno => ?_)
      rw [hno] at hlt
      exact absurd hlt (by decide)
    · have hfind : mapIdDown (e :: map) id = mapIdDown map id := by
        have htest : ¬ (id ≥ e.first ∧ id ≤ e.first + e.count - 1) := mt hiff.mp hhas
        rw [mapIdDown, find?_cons_of_neg (by simpa using htest), mapIdDown]
      rw [if_neg hhas, hfind]
      exact ih (fun e' he' => h e' (mem_cons_of_mem _ he'))

theorem mapIdDown_noId (h : ∀ e ∈ map, e.Valid) : mapIdDown map noId = noId := by
  by_contra hne
  have hsome := mapIdDown_eq h noId
  rw [idNumber_of_ne hne] at hsome
  obtain ⟨s, hs, hhas, -⟩ := exists_of_moveBy hsome.symm
  obtain ⟨e, he, rfl⟩ := mem_map.mp hs
  have hupper := (h e he).upper
  simp only [MovedRange.Has, range, noId] at hhas
  have hlast : (0xFFFFFFFF : UInt32).toNat = 4294967295 := rfl
  omega

theorem mapIdUp_eq_flip : mapIdUp map id = mapIdDown (map.map flip) id := by
  have hfind : (map.map flip).find?
      (fun e => id ≥ e.first && id ≤ e.first + e.count - 1) =
        (map.find? (fun e => id ≥ e.lowerFirst && id ≤ e.lowerFirst + e.count - 1)).map
          flip := find?_map
  rw [mapIdUp, mapIdDown, hfind]
  cases map.find? (fun e => id ≥ e.lowerFirst && id ≤ e.lowerFirst + e.count - 1) <;> rfl

theorem range_flip : (map.map flip).map range = (map.map range).map MovedRange.flip := by
  rw [map_map, map_map]
  rfl

/-- A map whose extents are valid and do not meet. -/
structure UidGidMap.Ok (map : UidGidMap) : Prop where
  valid : ∀ e ∈ map, e.Valid
  apart : (map.map range).Pairwise MovedRange.Apart

theorem UidGidMap.Ok.flip (h : map.Ok) : UidGidMap.Ok (map.map flip) := by
  constructor
  · intro e he
    obtain ⟨e', he', rfl⟩ := mem_map.mp he
    exact (h.valid e' he').flip
  · rw [range_flip]
    exact pairwise_flip h.apart

theorem UidGidMap.Ok.up_down (h : map.Ok) (hu : mapIdDown map u ≠ noId) :
    mapIdUp map (mapIdDown map u) = u := by
  have hmove := mapIdDown_eq h.valid u
  rw [idNumber_of_ne hu] at hmove
  have hback := moveBy_flip h.apart hmove.symm
  rw [← range_flip, ← mapIdDown_eq h.flip.valid, ← mapIdUp_eq_flip] at hback
  have hne : u ≠ noId := by
    rintro rfl
    exact hu (mapIdDown_noId h.valid)
  exact idNumber_inj (hback.trans (idNumber_of_ne hne).symm)

theorem UidGidMap.Ok.down_up (h : map.Ok) (hk : mapIdUp map k ≠ noId) :
    mapIdDown map (mapIdUp map k) = k := by
  have hflip := h.flip.up_down (u := k)
  rw [mapIdUp_eq_flip, map_map] at hflip
  have hid : UidGidExtent.flip ∘ UidGidExtent.flip = id := rfl
  rw [hid, map_id, ← mapIdUp_eq_flip] at hflip
  exact hflip hk

end Extents

section Parse

variable {e prev : UidGidExtent} {newMap map : UidGidMap}

theorem lt_of_add_gt {a n : UInt32} (h : ¬ a + n ≤ a) :
    0 < n.toNat ∧ a.toNat + n.toNat < 2 ^ 32 := by
  rw [UInt32.le_iff_toNat_le, UInt32.toNat_add] at h
  have ha := a.toNat_lt
  have hn := n.toNat_lt
  omega

theorem apart_of_not_overlap (hprev : prev.Valid) (he : e.Valid)
    (hupper : ¬ (prev.first ≤ e.first + e.count - 1 ∧ prev.first + prev.count - 1 ≥ e.first))
    (hlower : ¬ (prev.lowerFirst ≤ e.lowerFirst + e.count - 1 ∧
      prev.lowerFirst + prev.count - 1 ≥ e.lowerFirst)) : prev.range.Apart e.range := by
  obtain ⟨hpos, hup, hlow⟩ := hprev
  obtain ⟨hpos', hup', hlow'⟩ := he
  rw [ge_iff_le, UInt32.le_iff_toNat_le, UInt32.le_iff_toNat_le, toNat_last hpos hup,
    toNat_last hpos' hup'] at hupper
  rw [ge_iff_le, UInt32.le_iff_toNat_le, UInt32.le_iff_toNat_le, toNat_last hpos hlow,
    toNat_last hpos' hlow'] at hlower
  constructor
  all_goals
    simp only [range]
    omega

theorem UidGidMap.Ok.append (h : newMap.Ok) (he : extentValid newMap e = true) :
    UidGidMap.Ok (newMap ++ [e]) := by
  simp only [extentValid, Bool.and_eq_true, Bool.not_eq_true', decide_eq_false_iff_not] at he
  obtain ⟨⟨⟨-, hupper⟩, hlower⟩, hoverlap⟩ := he
  have hvalid : e.Valid :=
    ⟨(lt_of_add_gt hupper).1, (lt_of_add_gt hupper).2, (lt_of_add_gt hlower).2⟩
  constructor
  · exact forall_mem_append.mpr ⟨h.valid, forall_mem_singleton.mpr hvalid⟩
  rw [map_append, pairwise_append]
  refine ⟨h.apart, pairwise_singleton _ _, ?_⟩
  intro s hs s' hs'
  obtain ⟨prev, hprev, rfl⟩ := mem_map.mp hs
  rw [mem_singleton.mp hs']
  rw [mappingsOverlap, any_eq_false] at hoverlap
  have hno := hoverlap prev hprev
  simp only [Bool.or_eq_true, Bool.and_eq_true, decide_eq_true_eq, not_or] at hno
  exact apart_of_not_overlap (h.valid prev hprev) hvalid hno.1 hno.2

theorem parseLines_ok {rest : List Str.CStr} (h : newMap.Ok)
    (hlen : newMap.length < uidGidMapMaxExtents ∨ newMap.length = uidGidMapMaxExtents ∧ rest = [])
    (hparse : parseLines newMap rest = some map) : map.Ok ∧ map.length ≤ uidGidMapMaxExtents := by
  induction rest generalizing newMap with
  | nil =>
    cases hparse
    exact ⟨h, hlen.elim Nat.le_of_lt (fun heq => Nat.le_of_eq heq.1)⟩
  | cons line rest ih =>
    simp only [parseLines, Option.bind_eq_bind, Option.bind_eq_some_iff,
      Option.guard_eq_some'] at hparse
    obtain ⟨extent, -, -, hvalid, -, hmax, hrest⟩ := hparse
    refine ih (h.append hvalid) ?_ hrest
    rw [length_append, length_singleton] at hmax ⊢
    rcases hlen with hlen | ⟨-, hnil⟩
    · by_cases hfull : newMap.length + 1 = uidGidMapMaxExtents
      · exact .inr ⟨hfull, not_not.mp (fun hne => hmax ⟨hfull, hne⟩)⟩
      · exact .inl (by omega)
    · exact absurd hnil (cons_ne_nil _ _)

theorem parseMap_ok {kbuf : Str.CStr} (h : parseMap kbuf = some map) :
    map.Ok ∧ map.length ≤ uidGidMapMaxExtents := by
  simp only [parseMap, Option.bind_eq_bind, Option.bind_eq_some_iff,
    Option.guard_eq_some', Option.pure_def, Option.some.injEq] at h
  obtain ⟨newMap, hlines, -, -, rfl⟩ := h
  have hstart : UidGidMap.Ok [] := ⟨nofun, .nil⟩
  exact parseLines_ok hstart (.inl (by decide)) hlines

variable {parentMap map' : UidGidMap}

theorem mapIdRangeDown_covers (hparent : ∀ p ∈ parentMap, p.Valid) (he : e.Valid)
    (hlower : mapIdRangeDown parentMap e.lowerFirst e.count ≠ noId) :
    ∃ p ∈ parentMap, p.range.Covers e.range ∧
      (mapIdRangeDown parentMap e.lowerFirst e.count).toNat = p.range.move e.lowerFirst.toNat := by
  rw [mapIdRangeDown] at hlower ⊢
  cases hfind : parentMap.find? (fun p => p.hasRange e.lowerFirst (e.lowerFirst + e.count - 1)) with
  | none =>
    simp only [hfind] at hlower
    exact absurd rfl hlower
  | some p =>
    have hmem := mem_of_find?_eq_some hfind
    have htest := find?_some hfind
    simp only [UidGidExtent.hasRange, Bool.and_eq_true, decide_eq_true_eq] at htest
    obtain ⟨hfirst, hlast⟩ := htest
    have hp := hparent p hmem
    have hpos := he.pos
    have hhas := (hp.has_iff _).mp hfirst
    have hhas' := (hp.has_iff _).mp hlast
    rw [toNat_last he.pos he.lower] at hhas'
    refine ⟨p, hmem, ?_, hp.move_eq hhas⟩
    simp only [MovedRange.Covers, MovedRange.Has, range] at hhas hhas' ⊢
    omega

theorem mapLower_through (hparent : ∀ p ∈ parentMap, p.Valid) (hvalid : ∀ e ∈ map, e.Valid)
    (h : mapLower parentMap map = some map') :
    List.Forall₂ (MovedThrough (parentMap.map range)) (map.map range) (map'.map range) ∧
      ∀ e ∈ map', e.Valid := by
  induction map generalizing map' with
  | nil =>
    cases h
    exact ⟨.nil, nofun⟩
  | cons e map ih =>
    simp only [mapLower, Option.bind_eq_bind, Option.bind_eq_some_iff,
      Option.guard_eq_some', Option.pure_def, Option.some.injEq] at h
    obtain ⟨-, hlower, rest, hrest, rfl⟩ := h
    obtain ⟨hthrough, hok⟩ := ih (fun e' he' => hvalid e' (mem_cons_of_mem _ he')) hrest
    have he := hvalid e mem_cons_self
    obtain ⟨p, hp, hcov, hmove⟩ := mapIdRangeDown_covers hparent he hlower
    refine ⟨.cons ⟨p.range, mem_map_of_mem hp, hcov, ?_⟩ hthrough, ?_⟩
    · simp only [range, MovedRange.through, MovedRange.mk.injEq, true_and, and_true]
      exact hmove
    intro e' he'
    rcases mem_cons.mp he' with rfl | he'
    · refine ⟨he.pos, he.upper, ?_⟩
      have hp' := (hparent p hp).lower
      simp only [MovedRange.Covers, range] at hcov
      simp only [hmove, MovedRange.move, range]
      omega
    · exact hok e' he'

/-- A map is what was written, followed by the map of the parent. -/
structure Composed (written map parentMap : UidGidMap) : Prop where
  ok : written.Ok
  through : List.Forall₂ (MovedThrough (parentMap.map range)) (written.map range) (map.map range)

theorem Composed.empty (parentMap : UidGidMap) : Composed [] [] parentMap :=
  ⟨⟨nofun, .nil⟩, .nil⟩

variable {written : UidGidMap}

theorem Composed.eq_nil (h : Composed written map []) : written = [] ∧ map = [] := by
  cases written with
  | nil => exact ⟨rfl, map_eq_nil_iff.mp (forall₂_nil_left_iff.mp h.through)⟩
  | cons e written =>
    obtain ⟨-, -, ⟨p, hp, -⟩, -⟩ := forall₂_cons_left_iff.mp h.through
    cases hp

theorem Composed.down (h : Composed written map parentMap) (hmap : ∀ e ∈ map, e.Valid)
    (hparent : parentMap.Ok) (u : UInt32) :
    mapIdDown map u = mapIdDown parentMap (mapIdDown written u) := by
  refine idNumber_inj ?_
  rw [mapIdDown_eq hmap, moveBy_through hparent.apart h.through, ← mapIdDown_eq h.ok.valid]
  by_cases hw : mapIdDown written u = noId
  · rw [hw, mapIdDown_noId hparent.valid]
    rfl
  · rw [idNumber_of_ne hw, Option.bind_some, mapIdDown_eq hparent.valid]

theorem Composed.up (h : Composed written map parentMap) (hmap : map.Ok)
    (hparent : parentMap.Ok) {k : UInt32} (hk : mapIdUp map k ≠ noId) :
    mapIdUp parentMap k ≠ noId := by
  have hk0 : k ≠ noId := by
    rintro rfl
    rw [mapIdUp_eq_flip, mapIdDown_noId hmap.flip.valid] at hk
    exact hk rfl
  have hdown := h.down hmap.valid hparent (mapIdUp map k)
  rw [hmap.down_up hk] at hdown
  have hne : mapIdDown parentMap (mapIdDown written (mapIdUp map k)) ≠ noId := hdown ▸ hk0
  rw [hdown, hparent.up_down hne]
  intro hno
  rw [hno, mapIdDown_noId hparent.valid] at hne
  exact hne rfl

theorem mapWrite_composed {req : MapRequest} {kind : IdKind} {ns parent : UserNamespace}
    (hparent : (parent.maps kind).Ok) (h : mapWrite req kind ns parent = .ok map) :
    ns.maps kind = [] ∧ map.Ok ∧ map.length ≤ uidGidMapMaxExtents ∧
      Composed ((parseMap req.kbuf).getD []) map (parent.maps kind) := by
  rw [mapWrite] at h
  split at h
  · cases h
  next hempty =>
  iterate 4 split at h; cases h
  split at h
  · cases h
  next newMap hparse =>
  split at h
  · cases h
  split at h
  · cases h
  next newMap' hlower =>
  cases h
  obtain ⟨hok, hlen⟩ := parseMap_ok hparse
  obtain ⟨hthrough, hvalid⟩ := mapLower_through hparent.valid hok.valid hlower
  have hlength : map.length = newMap.length := by
    have heq := hthrough.length_eq
    rw [length_map, length_map] at heq
    exact heq.symm
  rw [hparse, hlength]
  exact ⟨length_eq_zero_iff.mp (not_not.mp hempty),
    ⟨hvalid, pairwise_through hparent.apart hthrough hok.apart⟩, hlen, hok, hthrough⟩

end Parse

namespace UsernsState

def Init (st : UsernsState) : Prop :=
  st.spaces = [initUserNs] ∧ st.written = fun _ _ => []

inductive Step : UsernsState → UsernsState → Prop where
  | create {st : UsernsState} {parent ns : UserNamespace} {i : Nat} {chrooted alloc : Bool}
      {owner group : UInt32}
      (hi : st.spaces[i]? = some parent)
      (h : createUserNs parent i chrooted alloc owner group = .ok ns) :
      Step st { st with spaces := st.spaces ++ [ns] }
  | setgroups {st : UsernsState} {ns ns' : UserNamespace} {i ppos count : Nat}
      {data : Option (List UInt8)}
      (hi : st.spaces[i]? = some ns)
      (h : procSetgroupsWrite ns ppos count data = .ok ns') :
      Step st { st with spaces := st.spaces.set i ns' }
  | write {st st' : UsernsState} {ns : UserNamespace} {i : Nat} {req : MapRequest} {kind : IdKind}
      (hi : st.spaces[i]? = some ns)
      (h : procMapWrite st req kind i ns = .ok st') :
      Step st st'

inductive Reachable : UsernsState → Prop where
  | init {st : UsernsState} (h : st.Init) : Reachable st
  | step {st st' : UsernsState} (h : Reachable st) (hstep : Step st st') : Reachable st'

/-- The maps of a namespace are injective and composed with the parent's. -/
structure NsOk (st : UsernsState) (i : Nat) (ns : UserNamespace) (k : IdKind) : Prop where
  ok : (ns.maps k).Ok
  length : (ns.maps k).length ≤ uidGidMapMaxExtents
  parent : ∀ p, ns.parent = some p → p < i ∧ ∃ pns, st.spaces[p]? = some pns ∧
    Composed (st.written i k) (ns.maps k) (pns.maps k)

structure Inv (st : UsernsState) : Prop where
  ns : ∀ i ns, st.spaces[i]? = some ns → ∀ k, st.NsOk i ns k
  fresh : ∀ i, st.spaces.length ≤ i → ∀ k, st.written i k = []

variable {st st' : UsernsState}

variable {ns ns' : UserNamespace} {i ppos count : Nat}

theorem NsOk.of_same {k : IdKind} (h : st.NsOk i ns k) (hmaps : ns'.maps k = ns.maps k)
    (hparent : ns'.parent = ns.parent) (hwritten : st'.written i k = st.written i k)
    (hkeep : ∀ p pns, ns.parent = some p → p < i → st.spaces[p]? = some pns →
      ∃ pns', st'.spaces[p]? = some pns' ∧ pns'.maps k = pns.maps k) : st'.NsOk i ns' k := by
  refine ⟨hmaps ▸ h.ok, hmaps ▸ h.length, fun p hp => ?_⟩
  rw [hparent] at hp
  obtain ⟨hlt, pns, hpns, hcomp⟩ := h.parent p hp
  obtain ⟨pns', hpns', hm⟩ := hkeep p pns hp hlt hpns
  exact ⟨hlt, pns', hpns', by rwa [hwritten, hmaps, hm]⟩

theorem Inv.replace (h : st.Inv) (hi : st.spaces[i]? = some ns) (hmaps : ns'.maps = ns.maps)
    (hparent : ns'.parent = ns.parent) : Inv { st with spaces := st.spaces.set i ns' } := by
  have hset : ∀ j, (st.spaces.set i ns')[j]? = if i = j then some ns' else st.spaces[j]? := by
    intro j
    rw [getElem?_set, if_pos (List.getElem?_eq_some_iff.mp hi).1]
  refine ⟨fun j nsj hj k => ?_, fun j hj => h.fresh j (by rwa [length_set] at hj)⟩
  have hkeep (p : Nat) (old : UserNamespace) (hp : st.spaces[p]? = some old) :
      ∃ nsp, (st.spaces.set i ns')[p]? = some nsp ∧ nsp.maps k = old.maps k := by
    rw [hset]
    split
    · next heq =>
        cases (heq ▸ hi).symm.trans hp
        exact ⟨ns', rfl, congrFun hmaps k⟩
    · exact ⟨old, hp, rfl⟩
  rw [hset] at hj
  split at hj
  · next heq =>
      cases hj
      refine (h.ns j ns (heq ▸ hi) k).of_same (congrFun hmaps k) hparent rfl ?_
      exact fun p pns _ _ => hkeep p pns
  · exact (h.ns j nsj hj k).of_same rfl rfl rfl fun p pns _ _ => hkeep p pns

theorem Inv.create (h : st.Inv) {parent : UserNamespace} (hi : st.spaces[i]? = some parent)
    (hmaps : ns.maps = fun _ => []) (hparent : ns.parent = some i) :
    Inv { st with spaces := st.spaces ++ [ns] } := by
  have hlt := (List.getElem?_eq_some_iff.mp hi).1
  constructor
  · intro j nsj hj k
    have hkeep : ∀ {p : Nat} {pns : UserNamespace}, st.spaces[p]? = some pns →
        (st.spaces ++ [ns])[p]? = some pns :=
      fun hp => (getElem?_append_left (List.getElem?_eq_some_iff.mp hp).1).trans hp
    rcases Nat.lt_or_ge j st.spaces.length with hjlt | hjge
    · exact (h.ns j nsj ((getElem?_append_left hjlt).symm.trans hj) k).of_same rfl rfl rfl
        fun p pns _ _ hpns => ⟨pns, hkeep hpns, rfl⟩
    have hlen := (List.getElem?_eq_some_iff.mp hj).1
    rw [length_append, length_singleton] at hlen
    have heq : j = st.spaces.length := by omega
    rw [heq, getElem?_concat_length] at hj
    cases hj
    refine ⟨hmaps ▸ ⟨nofun, .nil⟩, hmaps ▸ Nat.zero_le _, fun p hp => ?_⟩
    cases hparent.symm.trans hp
    refine ⟨by omega, parent, hkeep hi, ?_⟩
    have hwritten : st.written j k = [] := h.fresh j hjge k
    show Composed (st.written j k) _ _
    rw [hwritten, hmaps]
    exact .empty _
  · intro j hj k
    rw [length_append] at hj
    exact h.fresh j (by omega) k

theorem Inv.write (h : st.Inv) {req : MapRequest} {kind : IdKind} (hi : st.spaces[i]? = some ns)
    (hw : procMapWrite st req kind i ns = .ok st') : st'.Inv := by
  have hilt := (List.getElem?_eq_some_iff.mp hi).1
  rw [procMapWrite] at hw
  split at hw
  · cases hw
  next p hp =>
  split at hw
  · cases hw
  split at hw
  · cases hw
  next parent hpar =>
  split at hw
  · cases hw
  next newMap hmap =>
  cases hw
  obtain ⟨hplt, -⟩ := (h.ns i ns hi kind).parent p hp
  obtain ⟨hempty, hok, hlen, hcomp⟩ := mapWrite_composed (h.ns p parent hpar kind).ok hmap
  set ns' : UserNamespace := { ns with maps := update ns.maps kind newMap }
  have hself : (st.spaces.set i ns')[i]? = some ns' := getElem?_set_self hilt
  have hother : ∀ j, j ≠ i → (st.spaces.set i ns')[j]? = st.spaces[j]? :=
    fun j hj => getElem?_set_ne (Ne.symm hj)
  constructor
  · intro j nsj hj k
    by_cases hji : j = i
    · subst hji
      cases hself.symm.trans hj
      by_cases hk : k = kind
      · subst hk
        have hm : ns'.maps k = newMap := update_self _ _ _
        refine ⟨hm ▸ hok, hm ▸ hlen, fun q hq => ?_⟩
        cases hp.symm.trans hq
        refine ⟨hplt, parent, (hother p (by omega)).trans hpar, ?_⟩
        simp only [update_self, hm]
        exact hcomp
      refine (h.ns j ns hi k).of_same (update_of_ne hk _ _) rfl ?_ fun q qns _ hlt hqns => ?_
      · simp only [update_self, update_of_ne hk]
      · exact ⟨qns, (hother q (by omega)).trans hqns, rfl⟩
    have hold := h.ns j nsj ((hother j hji).symm.trans hj) k
    by_cases hbelow : k = kind ∧ nsj.parent = some i
    · -- The map of the parent was empty, so the map below it is.
      obtain ⟨rfl, hji'⟩ := hbelow
      refine ⟨hold.ok, hold.length, fun q hq => ?_⟩
      cases hji'.symm.trans hq
      obtain ⟨hlt, pns, hpns, hcomp'⟩ := hold.parent i hq
      cases hi.symm.trans hpns
      rw [hempty] at hcomp'
      obtain ⟨hwr, hm⟩ := hcomp'.eq_nil
      refine ⟨hlt, ns', hself, ?_⟩
      simp only [update_of_ne hji]
      rw [hwr, hm]
      exact .empty _
    refine hold.of_same rfl rfl (by simp only [update_of_ne hji]) fun q qns hq _ hqns => ?_
    by_cases hqi : q = i
    · subst hqi
      cases hi.symm.trans hqns
      exact ⟨ns', hself, update_of_ne (fun hk => hbelow ⟨hk, hq⟩) _ _⟩
    · exact ⟨qns, (hother q hqi).trans hqns, rfl⟩
  · intro j hj k
    rw [length_set] at hj
    have hji : j ≠ i := by omega
    simp only [update_of_ne hji]
    exact h.fresh j hj k

theorem Inv.step (h : st.Inv) (hstep : Step st st') : st'.Inv := by
  cases hstep with
  | create hi hc =>
    rw [createUserNs] at hc
    iterate 4 split at hc; cases hc
    cases hc
    exact h.create hi rfl rfl
  | setgroups hi hc =>
    unfold procSetgroupsWrite at hc
    repeat' split at hc
    all_goals cases hc
    all_goals exact h.replace hi rfl rfl
  | write hi hw => exact h.write hi hw

theorem Reachable.inv (h : st.Reachable) : st.Inv := by
  induction h with
  | init h =>
    obtain ⟨hspaces, hwritten⟩ := h
    constructor
    · intro i ns hi k
      rw [hspaces] at hi
      cases i with
      | zero =>
        cases hi
        refine ⟨⟨?_, pairwise_singleton _ _⟩, (by decide : 1 ≤ 5), nofun⟩
        intro e he
        rw [mem_singleton.mp he]
        exact ⟨by decide, by decide, by decide⟩
      | succ i => cases hi
    · intro i _ k
      rw [hwritten]
  | step _ hstep ih => exact ih.step hstep

end UsernsState

/-- In every run each map is injective, its extents do not wrap or reach the last id, and it is
what was written followed by the parent's map. -/
theorem idMap_reachable {st : UsernsState} (h : st.Reachable) {i : Nat} {ns : UserNamespace}
    (hi : st.spaces[i]? = some ns) (k : IdKind) :
    (∀ u, mapIdDown (ns.maps k) u ≠ noId →
        mapIdUp (ns.maps k) (mapIdDown (ns.maps k) u) = u) ∧
      (∀ kid, mapIdUp (ns.maps k) kid ≠ noId →
        mapIdDown (ns.maps k) (mapIdUp (ns.maps k) kid) = kid) ∧
      (∀ e ∈ ns.maps k, 0 < e.count.toNat ∧
        e.first.toNat + e.count.toNat ≤ 2 ^ 32 - 1 ∧
        e.lowerFirst.toNat + e.count.toNat ≤ 2 ^ 32 - 1) ∧
      ∀ p, ns.parent = some p → ∃ pns, st.spaces[p]? = some pns ∧
        (∀ kid, mapIdUp (ns.maps k) kid ≠ noId → mapIdUp (pns.maps k) kid ≠ noId) ∧
        ∀ u, mapIdDown (ns.maps k) u = mapIdDown (pns.maps k) (mapIdDown (st.written i k) u) := by
  have hinv := h.inv
  obtain ⟨hok, -, hparent⟩ := hinv.ns i ns hi k
  refine ⟨fun u => hok.up_down, fun kid => hok.down_up, fun e he => ?_, fun p hp => ?_⟩
  · obtain ⟨hpos, hupper, hlower⟩ := hok.valid e he
    exact ⟨hpos, by omega, by omega⟩
  · obtain ⟨-, pns, hpns, hcomp⟩ := hparent p hp
    have hpok := (hinv.ns p pns hpns k).ok
    exact ⟨pns, hpns, fun kid => hcomp.up hok hpok, hcomp.down hok.valid hpok⟩

/-- A namespace with ten ids from 1000 on, and one below with three of them. -/
theorem idMap_reachable_nested :
    ∃ st ns, UsernsState.Reachable st ∧ st.spaces[2]? = some ns ∧
      mapIdDown (ns.maps .uid) 6 = 1003 ∧ mapIdUp (ns.maps .uid) 1003 = 6 := by
  have h₀ : UsernsState.Reachable ⟨[initUserNs], fun _ _ => []⟩ := .init ⟨rfl, rfl⟩
  have h₁ := h₀.step (@UsernsState.Step.create _ _ _ 0 false true 0 0 rfl rfl)
  have h₂ := h₁.step (@UsernsState.Step.write _ _ _ 1
    ⟨0, true, true, 0, 9, some [48, 32, 49, 48, 48, 48, 32, 49, 48], 0, 0, true⟩ .uid rfl rfl)
  have h₃ := h₂.step (@UsernsState.Step.write _ _ _ 1
    ⟨0, true, true, 0, 5, some [48, 32, 48, 32, 49], 0, 0, true⟩ .gid rfl rfl)
  have h₄ := h₃.step (@UsernsState.Step.create _ _ _ 1 false true 1000 0 rfl rfl)
  have h₅ := h₄.step (@UsernsState.Step.write _ _ _ 2
    ⟨1, true, true, 0, 5, some [53, 32, 50, 32, 51], 0, 0, true⟩ .uid rfl rfl)
  refine ⟨_, _, h₅, rfl, rfl, ?_⟩
  exact (idMap_reachable (i := 2) h₅ rfl .uid).1 6 (by decide)

end LinuxKernel.Userns
