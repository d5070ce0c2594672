import LinuxKernel.Net.IpFragment
import Mathlib.Data.List.Sort
import Mathlib.Data.List.TakeDrop
import Mathlib.Data.List.TakeWhile

/-!
# The chain of fragments is kept in order

The chain stays sorted without overlap, the counters fit it, and each byte in it came in a
fragment at its place.  When `meat` reaches `len` there is no room for a gap, so the
datagram that is put together is complete.
-/

namespace LinuxKernel.Net

open Lib List Frag

variable {received : List Packet} {q q' : Ipq} {l : List Frag}

section Chain

variable {len len' : Int} {before next : List Frag}

/-- A buffer as a piece of the datagram. -/
def Frag.piece (f : Frag) : Int × List UInt8 :=
  (f.offset, f.data)

/-- The fragment brought the byte `b` for the place `x`. -/
def Packet.Brings (p : Packet) (x : Int) (b : UInt8) : Prop :=
  ∃ k : Nat, x = p.offset + k ∧ p.payload[k]? = some b

/-- A chain: sorted without overlap, no buffer empty, all below `len`, with received bytes. -/
structure Chain (received : List Packet) (len : Int) (l : List Frag) : Prop where
  order : InOrder (l.map Frag.piece)
  nonempty : ∀ f ∈ l, 0 < f.len
  start : ∀ f ∈ l, 0 ≤ f.offset
  stop : ∀ f ∈ l, f.offset + f.len ≤ len
  bytes : ∀ f ∈ l, ∀ (k : Nat) (b : UInt8), f.data[k]? = some b →
    ∃ p ∈ received, p.Brings (f.offset + k) b

/-- A queue in use. -/
structure Inv (received : List Packet) (q : Ipq) : Prop where
  chain : Chain received q.len q.fragments
  meat : q.meat = pieceTotal (q.fragments.map Frag.piece)
  tail : q.fragmentsTail = q.fragments.getLast?.map Frag.skb
  distinct : (q.fragments.map Frag.skb).Nodup

theorem Chain.nil : Chain received len [] :=
  ⟨.nil, nofun, nofun, nofun, nofun⟩

theorem Inv.of_nil (hfragments : q.fragments = []) (htail : q.fragmentsTail = none)
    (hmeat : q.meat = 0) : Inv received q := by
  refine ⟨hfragments ▸ .nil, ?_, ?_, ?_⟩ <;> simp [*]

variable {received' : List Packet}

theorem Chain.mono (h : Chain received len l) (hsub : ∀ p ∈ received, p ∈ received')
    (hlen : len ≤ len') : Chain received' len' l := by
  refine ⟨h.order, h.nonempty, h.start, fun f hf => (h.stop f hf).trans hlen, ?_⟩
  intro f hf k b hb
  obtain ⟨p, hp, hbrings⟩ := h.bytes f hf k b hb
  exact ⟨p, hsub p hp, hbrings⟩

theorem Inv.mono (h : Inv received q) (hsub : ∀ p ∈ received, p ∈ received') : Inv received' q :=
  ⟨h.chain.mono hsub le_rfl, h.meat, h.tail, h.distinct⟩

theorem chain_append :
    Chain received len (before ++ next) ↔ Chain received len before ∧ Chain received len next ∧
      ∀ f ∈ before, ∀ g ∈ next, f.offset + f.len ≤ g.offset := by
  have horder : InOrder ((before ++ next).map piece) ↔
      InOrder (before.map piece) ∧ InOrder (next.map piece) ∧
        ∀ f ∈ before, ∀ g ∈ next, f.offset + f.len ≤ g.offset := by
    unfold InOrder
    rw [map_append, pairwise_append]
    simp only [forall_mem_map]
    rfl
  constructor
  · rintro ⟨ho, hnonempty, hstart, hstop, hbytes⟩
    rw [forall_mem_append] at hnonempty hstart hstop hbytes
    obtain ⟨hbefore, hnext, hacross⟩ := horder.mp ho
    exact ⟨⟨hbefore, hnonempty.1, hstart.1, hstop.1, hbytes.1⟩,
      ⟨hnext, hnonempty.2, hstart.2, hstop.2, hbytes.2⟩, hacross⟩
  · rintro ⟨hbefore, hnext, hacross⟩
    exact ⟨horder.mpr ⟨hbefore.order, hnext.order, hacross⟩,
      forall_mem_append.mpr ⟨hbefore.nonempty, hnext.nonempty⟩,
      forall_mem_append.mpr ⟨hbefore.start, hnext.start⟩, forall_mem_append.mpr ⟨hbefore.stop,
      hnext.stop⟩, forall_mem_append.mpr ⟨hbefore.bytes, hnext.bytes⟩⟩

theorem Chain.single {f : Frag} (hnonempty : 0 < f.len) (hstart : 0 ≤ f.offset)
    (hstop : f.offset + f.len ≤ len)
    (hbytes : ∀ (k : Nat) (b : UInt8), f.data[k]? = some b →
      ∃ p ∈ received, p.Brings (f.offset + k) b) : Chain received len [f] := by
  refine ⟨pairwise_singleton _ _, ?_, ?_, ?_, ?_⟩
  all_goals
    intro g hg
    rw [mem_singleton.mp hg]
    assumption

end Chain

variable {p : Packet}

section Steps

theorem Packet.offset_mod : p.offset % 8 = 0 := by
  unfold Packet.offset
  omega

/-- The end of an accepted fragment: below the new length, and inside the data. -/
theorem setEnd_spec {stop : Int} (hinv : Inv received q) (h : setEnd q p = some (q', stop)) :
    Inv received q' ∧ q'.fragments = q.fragments ∧ stop ≤ q'.len ∧ stop ≤ p.stop ∧
      (p.offset ≤ p.stop → p.offset ≤ stop) := by
  have hoffset := p.offset_mod
  -- Only the length and a flag change, and the length only grows.
  have hgrow : ∀ len, q.len ≤ len → Chain received len q.fragments :=
    fun len hlen => hinv.chain.mono (fun _ hp => hp) hlen
  unfold setEnd at h
  simp only at h
  split_ifs at h with hmore hlong hlast hcorrupt
  · cases h
    refine ⟨⟨hgrow _ ?_, hinv.meat, hinv.tail, hinv.distinct⟩, rfl, le_rfl, by omega, by omega⟩
    simp only
    omega
  · cases h
    exact ⟨hinv, rfl, by omega, by omega, by omega⟩
  · cases h
    refine ⟨⟨hgrow _ ?_, hinv.meat, hinv.tail, hinv.distinct⟩, rfl, le_rfl, le_rfl, id⟩
    simp only
    omega

variable {data' data : List UInt8} {offset' stop : Int} {before rest : List Frag} {last f g : Frag}

theorem find_last (hdistinct : ((l ++ [last]).map skb).Nodup) :
    (l ++ [last]).find? (fun f => f.skb = last.skb) = some last ∧
      (l ++ [last]).takeWhile (fun f => f.skb ≠ last.skb) = l := by
  have hother : ∀ f ∈ l, f.skb ≠ last.skb := by
    rw [map_append, nodup_append] at hdistinct
    exact fun f hf => hdistinct.2.2 _ (mem_map_of_mem hf) _ mem_cons_self
  constructor
  · rw [find?_append, find?_eq_none.mpr fun f hf => by simpa using hother f hf]
    simp
  · rw [takeWhile_append_of_pos fun f hf => by simpa using hother f hf]
    simp

theorem place_spec (hinv : Inv received q) (offset : Int) :
    ∃ before next, place q offset = some (before, next) ∧ q.fragments = before ++ next := by
  have htail := hinv.tail
  have hdistinct := hinv.distinct
  unfold place
  obtain hnil | ⟨l, last, hl⟩ := q.fragments.eq_nil_or_concat'
  · rw [hnil] at htail
    rw [htail, hnil]
    exact ⟨[], [], rfl, rfl⟩
  rw [hl] at htail hdistinct
  rw [getLast?_concat] at htail
  obtain ⟨hfind, htake⟩ := find_last hdistinct
  rw [htail, hl]
  simp only [Option.map_some]
  rw [hfind]
  simp only
  split_ifs with hbehind
  · exact ⟨l ++ [last], [], by rw [htake], by rw [append_nil]⟩
  · rw [span_eq_takeWhile_dropWhile]
    exact ⟨_, _, rfl, takeWhile_append_dropWhile.symm⟩

theorem trimFront_spec {len offset stop : Int} (hchain : Chain received len before)
    (hlt : offset < stop) (hdata : (data.length : Int) = stop - offset)
    (h : trimFront before offset stop data = some (offset', data')) :
    offset ≤ offset' ∧ offset' < stop ∧ (∀ f ∈ before, f.offset + f.len ≤ offset') ∧
      data' = data.drop (offset' - offset).toNat := by
  unfold trimFront at h
  obtain rfl | ⟨l, prev, rfl⟩ := before.eq_nil_or_concat'
  · cases h
    exact ⟨le_rfl, hlt, nofun, by simp⟩
  -- The buffers in front of the last one end before it starts.
  have hends : ∀ f ∈ l ++ [prev], f.offset + f.len ≤ prev.offset + prev.len := by
    refine forall_mem_append.mpr ⟨fun f hf => ?_, forall_mem_singleton.mpr le_rfl⟩
    have hle := (chain_append.mp hchain).2.2 f hf prev mem_cons_self
    have hpos := hchain.nonempty prev (mem_append_right _ mem_cons_self)
    omega
  rw [getLast?_concat] at h
  simp only at h
  split_ifs at h with hover hcovered
  · cases h
    refine ⟨by omega, by omega, fun f hf => (hends f hf).trans (by omega), ?_⟩
    congr 1
    omega
  · cases h
    exact ⟨le_rfl, hlt, fun f hf => (hends f hf).trans (by omega), by simp⟩

/-- A buffer that lost some bytes at its front, but not all. -/
structure Trimmed (f g : Frag) : Prop where
  skb : g.skb = f.skb
  front : ∃ i : Nat, i < f.data.length ∧ g.offset = f.offset + i ∧ g.data = f.data.drop i

/-- What the loop leaves: some buffers are dropped, the next may be trimmed, and what was lost is
taken from `meat`. -/
theorem eatNext_spec {len stop : Int} {next : List Frag} (hchain : Chain received len next)
    (meat : Int) :
    (eatNext stop next meat).2 = meat - pieceTotal (next.map Frag.piece) +
        pieceTotal ((eatNext stop next meat).1.map Frag.piece) ∧
      ((eatNext stop next meat).1 = [] ∨
        ∃ dropped f g rest, next = dropped ++ f :: rest ∧
          (eatNext stop next meat).1 = g :: rest ∧ Trimmed f g ∧ stop ≤ g.offset) := by
  induction next generalizing meat with
  | nil =>
    refine ⟨?_, Or.inl rfl⟩
    simp [eatNext]
  | cons next rest ih =>
    have hrest : Chain received len rest := ((@chain_append _ _ [next] rest).mp hchain).2.1
    have hpos := hchain.nonempty next mem_cons_self
    rw [eatNext]
    simp only
    split_ifs with hover hpart
    · refine ⟨?_, Or.inr ⟨[], next, _, rest, rfl, rfl, ⟨rfl, (stop - next.offset).toNat, ?_, ?_,
        rfl⟩, ?_⟩⟩
      · simp only [map_cons, pieceTotal_cons, Frag.piece, length_drop]
        unfold Frag.len at hpart
        omega
      · unfold Frag.len at hpart
        omega
      · simp only
        omega
      · simp only
        omega
    · obtain ⟨hmeat, hshape⟩ := ih hrest (meat - next.len)
      refine ⟨?_, ?_⟩
      · rw [hmeat, map_cons, pieceTotal_cons]
        simp only [Frag.piece, Frag.len]
        omega
      · obtain hnil | ⟨dropped, f, g, tail, heq, hresult, htrim, hstop⟩ := hshape
        · exact .inl hnil
        · exact .inr ⟨next :: dropped, f, g, tail, by rw [heq]; rfl, hresult, htrim, hstop⟩
    · refine ⟨by simp only; omega, Or.inr ⟨[], next, next, rest, rfl, rfl, ⟨rfl, 0, ?_⟩, by omega⟩⟩
      unfold Frag.len at hpos
      exact ⟨by omega, by omega, rfl⟩

theorem Chain.trimmed {len : Int} (h : Chain received len (f :: rest)) (htrim : Trimmed f g) :
    Chain received len (g :: rest) := by
  obtain ⟨hf, hrest, hacross⟩ := (@chain_append _ _ [f] rest).mp h
  obtain ⟨i, hi, hoffset, hdata⟩ := htrim.front
  have hlen : g.len = f.len - i := by
    unfold Frag.len
    rw [hdata, length_drop]
    omega
  have hfi : (i : Int) < f.len := by
    unfold Frag.len
    omega
  have hstart := hf.start f mem_cons_self
  have hstop := hf.stop f mem_cons_self
  have hg : Chain received len [g] := by
    refine Chain.single (by omega) (by omega) (by omega) fun k b hb => ?_
    rw [hdata, getElem?_drop] at hb
    obtain ⟨p, hp, hbrings⟩ := hf.bytes f mem_cons_self (i + k) b hb
    refine ⟨p, hp, ?_⟩
    rw [hoffset, Int.add_assoc, ← Int.natCast_add]
    exact hbrings
  refine chain_append.mpr ⟨hg, hrest, forall_mem_singleton.mpr fun g' hg' => ?_⟩
  have := hacross f mem_cons_self g' hg'
  omega

/-- The following buffers left are a chain behind `stop`, with their addresses and last buffer. -/
theorem eatNext_chain {len stop : Int} {next : List Frag} (hchain : Chain received len next)
    (meat : Int) :
    Chain received len (eatNext stop next meat).1 ∧
      (∀ g ∈ (eatNext stop next meat).1, stop ≤ g.offset) ∧
      ((eatNext stop next meat).1.map skb).Sublist (next.map skb) ∧
      ((eatNext stop next meat).1 ≠ [] →
        (eatNext stop next meat).1.getLast?.map skb = next.getLast?.map skb) := by
  obtain ⟨-, hshape⟩ := @eatNext_spec received len stop next hchain meat
  obtain hnil | ⟨dropped, f, g, rest, heq, hresult, htrim, hstop⟩ := hshape
  · rw [hnil]
    exact ⟨.nil, nofun, nil_sublist _, fun h => absurd rfl h⟩
  rw [hresult]
  rw [heq] at hchain
  have hleft := (chain_append.mp hchain).2.1.trimmed htrim
  refine ⟨hleft, forall_mem_cons.mpr ⟨hstop, fun g' hg' => ?_⟩, ?_, fun _ => ?_⟩
  · have hle := (@chain_append _ _ [g] rest).mp hleft |>.2.2 g mem_cons_self g' hg'
    have hpos := hleft.nonempty g mem_cons_self
    omega
  · rw [heq, map_append, map_cons, map_cons, htrim.skb]
    exact sublist_append_right _ _
  · rw [heq, getLast?_append_of_ne_nil _ (cons_ne_nil f rest)]
    cases rest with
    | nil => simp [htrim.skb]
    | cons h t => simp [getLast?_cons_cons]

theorem link_inv {next : List Frag} (hinv : Inv received q) (hp : p ∈ received)
    (hfresh : ∀ f ∈ q.fragments, f.skb ≠ p.skb) (hsplit : q.fragments = before ++ next)
    (hstop : stop ≤ q.len) (hle : p.offset ≤ offset') (hlt : offset' < stop)
    (hbefore : ∀ f ∈ before, f.offset + f.len ≤ offset')
    (hlen : (data'.length : Int) = stop - offset')
    (hbytes : ∀ (k : Nat) (b : UInt8), data'[k]? = some b → p.Brings (offset' + k) b) :
    Inv received (link q p before (eatNext stop next q.meat).1 (eatNext stop next q.meat).2
      offset' data') := by
  have hchain := hinv.chain
  have hmeat := hinv.meat
  have htail := hinv.tail
  have hdistinct := hinv.distinct
  rw [hsplit] at hchain hmeat htail hdistinct hfresh
  obtain ⟨hfront, hback, -⟩ := chain_append.mp hchain
  obtain ⟨heaten, -⟩ := @eatNext_spec received q.len stop next hback q.meat
  obtain ⟨hafter, hbehind, hsub, hlast⟩ := @eatNext_chain received q.len stop next hback q.meat
  have hoffset : 0 ≤ p.offset := Int.natCast_nonneg _
  -- The new buffer as a chain of its own.
  have hnew : Chain received q.len [⟨p.skb, offset', data', p.ihl⟩] := by
    refine .single ?_ ?_ ?_ fun k b hb => ⟨p, hp, hbytes k b hb⟩
    · simp only [len]
      omega
    · simp only
      omega
    · simp only [len]
      omega
  have hjoined : Chain received q.len
      (⟨p.skb, offset', data', p.ihl⟩ :: (eatNext stop next q.meat).1) := by
    refine chain_append.mpr ⟨hnew, hafter, forall_mem_singleton.mpr fun g hg => ?_⟩
    have := hbehind g hg
    simp only [len]
    omega
  refine ⟨?_, ?_, ?_, ?_⟩
  · refine chain_append.mpr ⟨hfront, hjoined, fun f hf => ?_⟩
    have hf' := hbefore f hf
    refine forall_mem_cons.mpr ⟨hf', fun g hg => ?_⟩
    have := hbehind g hg
    omega
  · simp only [link, map_append, map_cons, pieceTotal_append, pieceTotal_cons]
    rw [heaten, hmeat, map_append, pieceTotal_append]
    simp only [Frag.piece]
    omega
  · simp only [link]
    rw [getLast?_append_of_ne_nil _ (cons_ne_nil _ _)]
    cases hcase : (eatNext stop next q.meat).1 with
    | nil => rfl
    | cons g rest =>
      rw [hcase] at hlast
      have hsame := hlast (cons_ne_nil g rest)
      have hnext : next ≠ [] := by
        rintro rfl
        cases hcase
      rw [getLast?_append_of_ne_nil _ hnext] at htail
      rw [getLast?_cons_cons, hsame, ← htail]
      rfl
  simp only [link]
  rw [map_append] at hdistinct
  rw [map_append, map_cons, nodup_append, nodup_cons]
  obtain ⟨hnodup, hnodup', hdisjoint⟩ := nodup_append.mp hdistinct
  have hskb : ∀ a ∈ (before ++ next).map skb, a ≠ p.skb := forall_mem_map.mpr hfresh
  rw [map_append, forall_mem_append] at hskb
  refine ⟨hnodup, ⟨fun hmem => ?_, hnodup'.sublist hsub⟩, fun a ha => ?_⟩
  · exact hskb.2 _ (hsub.subset hmem) rfl
  · exact forall_mem_cons.mpr ⟨hskb.1 a ha, fun b hb => hdisjoint a ha b (hsub.subset hb)⟩

end Steps

def Ipq.contents (q : Ipq) : List UInt8 :=
  q.fragments.flatMap Frag.data

/-- The chain covers the datagram from `0` to `len` without a gap, with received bytes at their
places, and these are handed on. -/
structure Covers (received : List Packet) (q : Ipq) (result : Except Int Datagram) : Prop where
  inv : Inv received q
  tiles : Tiles 0 (q.fragments.map Frag.piece)
  length : (q.contents.length : Int) = q.len
  bytes : ∀ (k : Nat) (b : UInt8), q.contents[k]? = some b → ∃ p ∈ received, p.Brings k b
  payload : ∀ d, result = .ok d → d.payload = q.contents

/-- A call keeps the invariant of a queue in use, and a datagram is put together only when covered.
-/
def Outcome.Good (received : List Packet) : Outcome → Prop
  | .fault => False
  | .error _ q => q.complete = false → Inv received q
  | .inProgress q => Inv received q
  | .reasm q result q' => Covers received q result ∧ q'.complete = true

theorem contents_eq : q.contents = (q.fragments.map Frag.piece).flatMap Prod.snd := by
  unfold Ipq.contents
  rw [flatMap_map]
  rfl

theorem length_flatMap_snd (pieces : List (Int × List UInt8)) :
    ((pieces.flatMap Prod.snd).length : Int) = pieceTotal pieces := by
  induction pieces with
  | nil => rfl
  | cons piece pieces ih =>
    rw [flatMap_cons, length_append, pieceTotal_cons, ← ih]
    exact Int.natCast_add _ _

theorem Inv.covers (hinv : Inv received q) (hmeat : q.meat = q.len) {result : Except Int Datagram}
    (hresult : ∀ d, result = .ok d → d.payload = q.contents) : Covers received q result := by
  have htotal : pieceTotal (q.fragments.map piece) = q.len := by
    rw [← hinv.meat, hmeat]
  have htiles : Tiles 0 (q.fragments.map piece) := by
    refine tiles_of_pieceTotal hinv.chain.order (forall_mem_map.mpr hinv.chain.start)
      (forall_mem_map.mpr hinv.chain.stop) ?_
    rw [htotal, Int.sub_zero]
  refine ⟨hinv, htiles, ?_, fun k b hb => ?_, hresult⟩
  · rw [contents_eq, length_flatMap_snd, htotal]
  rw [contents_eq] at hb
  obtain ⟨piece, hpiece, j, hplace, hj⟩ := htiles.getElem?_flatMap hb
  obtain ⟨f, hf, rfl⟩ := mem_map.mp hpiece
  obtain ⟨p, hp, hbrings⟩ := hinv.chain.bytes f hf j b hj
  refine ⟨p, hp, ?_⟩
  rw [Int.zero_add] at hplace
  rw [hplace]
  exact hbrings

theorem finish_good (hinv : Inv received q) (hne : q.fragments ≠ []) :
    (finish q).Good received := by
  unfold finish
  split_ifs with hcomplete
  · split
    · rename_i hnil
      exact absurd hnil hne
    · dsimp only [ipFragReasm]
      split_ifs
      all_goals
        refine ⟨hinv.covers hcomplete.2.2.2 ?_, rfl⟩
        rintro d ⟨⟩
      rfl
  · exact hinv

theorem insertFrag_good {stop : Int} (hinv : Inv received q) (hp : p ∈ received)
    (hfresh : ∀ f ∈ q.fragments, f.skb ≠ p.skb) (hlen : stop ≤ q.len) (hstop : stop ≤ p.stop)
    (hoffset : p.offset ≤ p.stop → p.offset ≤ stop) : (insertFrag q p stop).Good received := by
  unfold insertFrag
  split_ifs with hempty hheader
  · exact fun _ => hinv
  · exact fun _ => hinv
  have hpayload : (p.payload.length : Int) = p.stop - p.offset := by
    unfold Packet.payload Packet.stop
    rw [length_drop]
    omega
  have hle : p.offset ≤ stop := hoffset (by omega)
  have hdata : ((p.payload.take (stop - p.offset).toNat).length : Int) = stop - p.offset := by
    rw [length_take]
    omega
  obtain ⟨before, next, hplace, hsplit⟩ := place_spec hinv p.offset
  simp only
  rw [hplace]
  simp only
  have hfront : Chain received q.len before := by
    have hchain := hinv.chain
    rw [hsplit] at hchain
    exact (chain_append.mp hchain).1
  split
  · exact fun _ => hinv
  rename_i offset' data' htrim
  obtain ⟨hle', hlt, hbefore, rfl⟩ := trimFront_spec hfront (by omega) hdata htrim
  refine finish_good (link_inv hinv hp hfresh hsplit hlen hle' hlt hbefore ?_ ?_) ?_
  · rw [length_drop]
    omega
  · -- the rest of the payload from some place on is what the fragment brought there
    intro k b hb
    rw [getElem?_drop, getElem?_take] at hb
    split_ifs at hb
    exact ⟨(offset' - p.offset).toNat + k, by omega, hb⟩
  · simp [link]

theorem takeFrag_good (hinv : Inv received q) (hp : p ∈ received)
    (hfresh : ∀ f ∈ q.fragments, f.skb ≠ p.skb) : (takeFrag q p).Good received := by
  unfold takeFrag
  split
  · exact fun _ => hinv
  · rename_i q' stop hset
    obtain ⟨hinv', hsame, hlen, hstop, hoffset⟩ := setEnd_spec hinv hset
    exact insertFrag_good hinv' hp (hsame ▸ hfresh) hlen hstop hoffset

/-- The fragments of the datagram after a call: a queue that restarts has only the new one. -/
def arrived (c : Circumstances) (q : Ipq) (p : Packet) (received : List Packet) : List Packet :=
  if !q.complete && tooOld c q p then [p] else p :: received

theorem mem_arrived {c : Circumstances} {p' : Packet} : p' ∈ arrived c q p received ↔
    p' = p ∨ p' ∈ received ∧ (q.complete = false → tooOld c q p = false) := by
  unfold arrived
  split_ifs with hold <;> simp_all

/-- A call keeps the queue in order, with the bytes of its datagram. -/
theorem ipFragQueue_good (c : Circumstances) (h : q.complete = false → Inv received q)
    (hfresh : ∀ f ∈ q.fragments, f.skb ≠ p.skb) :
    (ipFragQueue c q p).Good (arrived c q p received) := by
  have hinv := fun hlive => (h hlive).mono fun _ => mem_cons_of_mem p
  unfold ipFragQueue arrived
  cases hcomplete : q.complete with
  | true => exact nofun ∘ hcomplete.symm.trans
  | false =>
    cases tooOld c q p with
    | false => exact takeFrag_good (hinv hcomplete) mem_cons_self hfresh
    | true =>
      rw [if_neg Bool.false_ne_true, if_pos rfl, if_pos (by rfl)]
      split_ifs
      · exact takeFrag_good (.of_nil rfl rfl rfl) mem_cons_self nofun
      · nofun

def Outcome.queue : Outcome → Option Ipq
  | .fault => none
  | .error _ q => some q
  | .inProgress q => some q
  | .reasm _ _ q' => some q'

/-- The queues reached from a new one, with the fragments of its datagram, whose buffers are new to
the queue. -/
inductive Reach : List Packet → Ipq → Prop
  | start (tos : UInt8) : Reach [] (Ipq.init tos)
  | next {received : List Packet} {q q' : Ipq} {p : Packet} (hreach : Reach received q)
      (c : Circumstances)
      (hfresh : ∀ f ∈ q.fragments, f.skb ≠ p.skb)
      (hqueue : (ipFragQueue c q p).queue = some q') :
      Reach (arrived c q p received) q'

theorem Reach.inv (h : Reach received q) : q.complete = false → Inv received q := by
  induction h with
  | start => exact fun _ => .of_nil rfl rfl rfl
  | @next received q q' p _ c hfresh hqueue ih =>
    have hgood := ipFragQueue_good c ih hfresh
    intro hlive
    generalize ipFragQueue c q p = out at hqueue hgood
    cases out with
    | fault => cases hqueue
    | error e q'' =>
      cases hqueue
      exact hgood hlive
    | inProgress q'' =>
      cases hqueue
      exact hgood
    | reasm q₁ result q'' =>
      cases hqueue
      cases hlive.symm.trans hgood.2

/-- A queue in use is in order whatever it was given, no call meets a wrong pointer, and only a
covered datagram is put together. -/
theorem ip_frag_reachable (h : Reach received q) :
    (q.complete = false → Inv received q) ∧
      ∀ (c : Circumstances) (p : Packet), (∀ f ∈ q.fragments, f.skb ≠ p.skb) →
        ipFragQueue c q p ≠ .fault ∧
          ∀ q₁ result q', ipFragQueue c q p = .reasm q₁ result q' →
            Covers (arrived c q p received) q₁ result := by
  refine ⟨h.inv, fun c p hfresh => ?_⟩
  have hgood := ipFragQueue_good c h.inv hfresh
  refine ⟨fun hfault => ?_, fun q₁ result q' hreasm => ?_⟩
  · rw [hfault] at hgood
    exact hgood
  · rw [hreasm] at hgood
    exact hgood.1

/-- The two fragments of a datagram of ten bytes. -/
def eightBytes : Packet :=
  ⟨1, 0x2000, 0, 20, 0, List.replicate 28 0, false⟩

def lastBytes : Packet :=
  ⟨2, 0x0001, 0, 20, 0, List.replicate 22 0, false⟩

/-- The queue between the two fragments. -/
def eightOfTen : Ipq :=
  ⟨[⟨1, 0, List.replicate 8 0, 20⟩], some 1, 8, 8, true, false, false, 1, 28, 0⟩

theorem ip_frag_reachable_ten :
    ∃ q₁ result q', ipFragQueue ⟨false, true⟩ eightOfTen lastBytes = .reasm q₁ result q' ∧
      Covers [lastBytes, eightBytes] q₁ result := by
  have hreach : Reach (arrived ⟨false, true⟩ (.init 0) eightBytes []) eightOfTen :=
    (Reach.start 0).next ⟨false, true⟩ nofun (by decide)
  have hcall := (ip_frag_reachable hreach).2 ⟨false, true⟩ lastBytes (by decide)
  exact ⟨_, _, _, rfl, hcall.2 _ _ _ rfl⟩

section Faithful

variable {body : List UInt8}

/-- The fragment is a part of the payload `body`. -/
structure Packet.PartOf (p : Packet) (body : List UInt8) : Prop where
  bytes : ∀ (k : Nat) (b : UInt8), p.Brings k b → body[k]? = some b
  last : p.moreFragments = false → p.stop = body.length

/-- The length of a queue in use with the last fragment is that of the payload. -/
def Ipq.Ends (body : List UInt8) (q : Ipq) : Prop :=
  q.complete = false → q.lastIn = true → q.len = body.length

def Outcome.Ends (body : List UInt8) : Outcome → Prop
  | .fault => True
  | .error _ q => q.Ends body
  | .inProgress q => q.Ends body
  | .reasm q _ q' => q.len = body.length ∧ q'.Ends body

theorem setEnd_ends {stop : Int} (hp : p.PartOf body) (h : q.Ends body)
    (hset : setEnd q p = some (q', stop)) : q'.Ends body := by
  unfold setEnd at hset
  dsimp only at hset
  split_ifs at hset with hmore hlen hlast
  · cases hset
    exact fun _ hin => absurd hin hlast
  · cases hset
    exact h
  · cases hset
    exact fun _ _ => hp.last (eq_false_of_ne_true hmore)

theorem finish_ends (h : q.Ends body) : (finish q).Ends body := by
  unfold finish
  split_ifs with hdone
  · split
    · trivial
    · refine ⟨h hdone.2.2.1 hdone.2.1, ?_⟩
      unfold ipFragReasm
      dsimp only
      split_ifs <;> nofun
  · exact h

theorem takeFrag_ends (hp : p.PartOf body) (h : q.Ends body) : (takeFrag q p).Ends body := by
  unfold takeFrag
  split
  · exact h
  · rename_i q' stop hset
    have hq' := setEnd_ends hp h hset
    unfold insertFrag
    split_ifs
    · exact hq'
    · exact hq'
    dsimp only
    split
    · trivial
    · split
      · exact hq'
      · exact finish_ends hq'

theorem ipFragQueue_ends (c : Circumstances)
    (hparts : ∀ p' ∈ arrived c q p received, p'.PartOf body)
    (h : (∀ p' ∈ received, p'.PartOf body) → q.Ends body) : (ipFragQueue c q p).Ends body := by
  have hp := hparts p (mem_arrived.mpr (.inl rfl))
  unfold ipFragQueue
  split_ifs with hcomplete hold
  · exact fun hlive => absurd hcomplete (ne_true_of_eq_false hlive)
  · exact takeFrag_ends hp nofun
  · nofun
  · refine takeFrag_ends hp (h fun p' hp' => hparts p' (mem_arrived.mpr (.inr ⟨hp', fun _ => ?_⟩)))
    exact eq_false_of_ne_true hold

theorem Reach.ends (h : Reach received q) (hparts : ∀ p ∈ received, p.PartOf body) :
    q.Ends body := by
  induction h with
  | start => nofun
  | @next received q q' p _ c _ hqueue ih =>
    have hout := ipFragQueue_ends c hparts ih
    generalize ipFragQueue c q p = out at hqueue hout
    cases out <;> cases hqueue
    · exact hout
    · exact hout
    · exact hout.2

/-- What is put together from parts of one payload, in any order and with any overlaps, is the
payload. -/
theorem ip_frag_faithful (h : Reach received q) (c : Circumstances)
    (hparts : ∀ p' ∈ arrived c q p received, p'.PartOf body)
    (hfresh : ∀ f ∈ q.fragments, f.skb ≠ p.skb)
    {q₁ : Ipq} {d : Datagram} (hreasm : ipFragQueue c q p = .reasm q₁ (.ok d) q') :
    d.payload = body := by
  have hgood := ipFragQueue_good c h.inv hfresh
  have hends := ipFragQueue_ends c hparts h.ends
  rw [hreasm] at hgood hends
  obtain ⟨hcovers, -⟩ := hgood
  have hlength : q₁.contents.length = body.length := by
    exact_mod_cast hcovers.length.trans hends.1
  rw [hcovers.payload d rfl]
  refine ext_getElem? fun k => ?_
  by_cases hk : k < q₁.contents.length
  · obtain ⟨p', hp', hbrings⟩ := hcovers.bytes k _ (getElem?_eq_getElem hk)
    rw [getElem?_eq_getElem hk, (hparts p' hp').bytes k _ hbrings]
  · rw [getElem?_eq_none (by omega), getElem?_eq_none (by omega)]

theorem Packet.PartOf.of_drop {o : Nat} (hoffset : p.offset = o)
    (hbytes : p.payload <+: body.drop o)
    (hlast : p.moreFragments = false → p.stop = body.length) : p.PartOf body := by
  refine ⟨?_, hlast⟩
  rintro k b ⟨j, hk, hb⟩
  obtain ⟨rest, hrest⟩ := hbytes
  obtain rfl : k = o + j := by omega
  have hlt := (List.getElem?_eq_some_iff.mp hb).1
  rw [← getElem?_drop, ← hrest, getElem?_append_left hlt, hb]

/-- The queue with the last bytes only. -/
def twoOfTen : Ipq :=
  ⟨[⟨2, 8, [0, 0], 20⟩], some 2, 10, 2, false, true, false, 1, 22, 0⟩

/-- The last fragment comes first. -/
theorem ip_frag_faithful_ten :
    ∃ q₁ d q', ipFragQueue ⟨false, true⟩ twoOfTen eightBytes = .reasm q₁ (.ok d) q' ∧
      d.payload = replicate 10 0 := by
  have hreach : Reach (arrived ⟨false, true⟩ (.init 0) lastBytes []) twoOfTen :=
    (Reach.start 0).next ⟨false, true⟩ nofun (by decide)
  refine ⟨_, _, _, rfl, ip_frag_faithful (p := eightBytes) hreach ⟨false, true⟩ ?_ (by decide) rfl⟩
  refine forall_mem_cons.mpr ⟨?_, forall_mem_singleton.mpr ?_⟩
  · exact .of_drop (o := 0) rfl (by decide) nofun
  · exact .of_drop (o := 8) rfl (by decide) fun _ => rfl

end Faithful

end LinuxKernel.Net
