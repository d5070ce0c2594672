import LinuxKernel.Lib.CyclicReading
import LinuxKernel.Net.IpVsWrr
import Mathlib.Algebra.BigOperators.Ring.List
import Mathlib.Algebra.Order.Ring.Int
import Mathlib.Data.List.Count

/-!
# Fairness of weighted round-robin

The calls of `ip_vs_wrr_schedule` read one list again and again: the destinations of weight at
least `mw`, then those of weight at least `mw - di`, and so on down to weight 1.  The mark says
where in it the next call goes on.  A destination of weight `w` is `w / di` times in the list.
-/

namespace LinuxKernel.Wrr

open Lib List Mark

variable {dests dests' : List Dest} {dest : Dest} {g : Nat}

/-- The greatest common divisor of the weights. -/
def weightGcd (dests : List Dest) : Nat :=
  (dests.map Dest.weight).foldr Nat.gcd 0

theorem gcdStep_eq (g weight : Nat) : gcdStep g weight = Nat.gcd g weight := by
  unfold gcdStep
  rw [Nat.gcd_comm g weight]
  split_ifs with hweight hg
  · rfl
  · rw [Nat.eq_zero_of_not_pos hg, Nat.gcd_zero_right]
  · rw [Nat.eq_zero_of_not_pos hweight, Nat.gcd_zero_left]

theorem foldl_gcdStep :
    dests.foldl (fun g dest => gcdStep g dest.weight) g = Nat.gcd g (weightGcd dests) := by
  induction dests generalizing g with
  | nil => exact (Nat.gcd_zero_right g).symm
  | cons dest dests ih =>
    rw [foldl_cons, ih, gcdStep_eq, Nat.gcd_assoc]
    rfl

theorem weightGcd_dvd (h : dest ∈ dests) : weightGcd dests ∣ dest.weight := by
  induction dests with
  | nil => cases h
  | cons d dests ih =>
    obtain rfl | h := mem_cons.mp h
    · exact Nat.gcd_dvd_left _ _
    · exact (Nat.gcd_dvd_right _ _).trans (ih h)

theorem weightGcd_pos (h : dest ∈ dests) (hweight : 0 < dest.weight) : 0 < weightGcd dests :=
  Nat.pos_of_dvd_of_pos (weightGcd_dvd h) hweight

theorem gcdWeight_eq (h : 0 < weightGcd dests) : gcdWeight dests = weightGcd dests := by
  unfold gcdWeight
  rw [foldl_gcdStep, Nat.gcd_zero_left, if_pos (ne_of_gt h)]

theorem gcdWeight_pos (dests : List Dest) : 0 < gcdWeight dests := by
  unfold gcdWeight
  dsimp only
  split_ifs with h
  · exact Nat.pos_of_ne_zero h
  · exact Nat.one_pos

theorem foldl_max (dests : List Dest) (weight : Nat) :
    let m := dests.foldl (fun weight dest => if dest.weight > weight then dest.weight else weight)
      weight
    weight ≤ m ∧ (∀ dest ∈ dests, dest.weight ≤ m) ∧
      (m = weight ∨ ∃ dest ∈ dests, dest.weight = m) := by
  induction dests generalizing weight with
  | nil => simp
  | cons d dests ih =>
    have hrest := ih (if d.weight > weight then d.weight else weight)
    grind

theorem le_maxWeight (h : dest ∈ dests) : dest.weight ≤ maxWeight dests :=
  (foldl_max dests 0).2.1 dest h

theorem exists_maxWeight (h : 0 < maxWeight dests) :
    ∃ dest ∈ dests, dest.weight = maxWeight dests :=
  (foldl_max dests 0).2.2.resolve_left h.ne'

/-- The number of passes, less one, when there is a weight. -/
theorem maxWeight_eq (h : 0 < maxWeight dests) :
    ∃ k, maxWeight dests = (k + 1) * gcdWeight dests := by
  obtain ⟨dest, hdest, heq⟩ := exists_maxWeight h
  rw [gcdWeight_eq (weightGcd_pos hdest (heq ▸ h))]
  obtain ⟨k, hk⟩ := weightGcd_dvd hdest
  rw [heq] at hk
  cases k with
  | zero => omega
  | succ k => exact ⟨k, by rw [hk, mul_comm]⟩

variable {mark mark' : Mark}

/-- A weight that a pass may require. -/
def Mark.Level (mark : Mark) (cw : Nat) : Prop :=
  ∃ q, cw = q * mark.di + 1 ∧ cw ≤ mark.mw

/-- The marks of a service with the given destinations. -/
structure MarkOk (dests : List Dest) (mark : Mark) : Prop where
  di : mark.di = gcdWeight dests
  mw : mark.mw = maxWeight dests - (gcdWeight dests - 1)
  cw : mark.mw = 0 ∧ mark.cw = 0 ∨ mark.Level mark.cw

theorem MarkOk.di_pos (h : MarkOk dests mark) : 0 < mark.di :=
  h.di ▸ gcdWeight_pos dests

theorem level_max (hdi : mark.di = gcdWeight dests)
    (hmw : mark.mw = maxWeight dests - (gcdWeight dests - 1)) (hpos : 0 < maxWeight dests) :
    mark.Level mark.mw := by
  obtain ⟨k, hk⟩ := maxWeight_eq hpos
  have hdi' := gcdWeight_pos dests
  refine ⟨k, ?_, le_refl _⟩
  rw [hmw, hk, hdi, Nat.succ_mul]
  omega

theorem MarkOk.of_max (hdi : mark.di = gcdWeight dests)
    (hmw : mark.mw = maxWeight dests - (gcdWeight dests - 1)) (hcw : mark.cw = mark.mw) :
    MarkOk dests mark := by
  refine ⟨hdi, hmw, ?_⟩
  rw [hcw]
  by_cases hpos : 0 < maxWeight dests
  · exact .inr (level_max hdi hmw hpos)
  · exact .inl ⟨by omega, by omega⟩

theorem markOk_destChanged (dests : List Dest) (mark : Mark) :
    MarkOk dests (destChanged dests mark) := by
  by_cases hfirst : mark.cw > (destChanged dests mark).mw ∨ mark.cw = 0
  · exact .of_max rfl rfl (if_pos hfirst)
  have hmw : (destChanged dests mark).mw = maxWeight dests - (gcdWeight dests - 1) := rfl
  obtain ⟨k, hk, -⟩ := @level_max dests (destChanged dests mark) rfl rfl (by omega)
  refine ⟨rfl, rfl, .inr ?_⟩
  by_cases hdi : gcdWeight dests > 1
  · have hcw : (destChanged dests mark).cw = mark.cw / gcdWeight dests * gcdWeight dests + 1 :=
      (if_neg hfirst).trans (if_pos hdi)
    refine ⟨mark.cw / gcdWeight dests, hcw, ?_⟩
    have hdiv : mark.cw / gcdWeight dests ≤ k := by
      rw [← Nat.lt_succ_iff, Nat.div_lt_iff_lt_mul (gcdWeight_pos dests), Nat.succ_mul]
      change _ = k * gcdWeight dests + 1 at hk
      omega
    rw [hcw, hk]
    exact Nat.succ_le_succ (Nat.mul_le_mul_right _ hdiv)
  have hcw : (destChanged dests mark).cw = mark.cw := (if_neg hfirst).trans (if_neg hdi)
  have hone : (destChanged dests mark).di = 1 :=
    le_antisymm (not_lt.mp hdi) (gcdWeight_pos dests)
  refine ⟨mark.cw - 1, ?_, by omega⟩
  rw [hcw, hone]
  omega

theorem Mark.Level.next {cw : Nat} (h : mark.Level cw) (hdi : 0 < mark.di)
    (hlt : ¬ cw - mark.di ≤ 0) : mark.Level (cw - mark.di) := by
  obtain ⟨q, hq, hle⟩ := h
  cases q with
  | zero => omega
  | succ q =>
    refine ⟨q, ?_, by omega⟩
    rw [hq, Nat.succ_mul]
    omega

theorem level_of_loop {fuel : Nat} {v : Locals} {r : Option Nat × Mark} (hdi : 0 < mark.di)
    (hmax : mark.Level mark.mw) (hv : mark.Level v.cw) (h : loop dests mark fuel v = some r) :
    ∃ cl cw, r.2 = { mark with cl := cl, cw := cw } ∧ mark.Level cw := by
  induction fuel generalizing v with
  | zero => cases h
  | succ fuel ih =>
    rw [loop] at h
    split at h
    · cases h
      exact ⟨_, _, rfl, hv⟩
    · cases h
      exact ⟨_, _, rfl, hv⟩
    · split_ifs at h with hzero hend
      · cases h
        exact ⟨_, _, rfl, hmax⟩
      · exact ih hmax h
      · exact ih (hv.next hdi hzero) h

theorem MarkOk.schedule {dest : Option Nat} (h : MarkOk dests mark)
    (hcall : Returns (Wrr.schedule dests' mark) (dest, mark')) : MarkOk dests mark' := by
  obtain ⟨fuel, hfuel⟩ := hcall
  have hcall := hfuel fuel (le_refl fuel)
  unfold Wrr.schedule at hcall
  split_ifs at hcall with hmw
  · cases hcall
    exact h
  · have hpos : 0 < maxWeight dests := Nat.pos_of_ne_zero fun hzero => hmw (by rw [h.mw]; omega)
    have hcw := h.cw.resolve_left fun hcw => hmw hcw.1
    obtain ⟨cl, cw, rfl, hlevel⟩ := level_of_loop h.di_pos (level_max h.di h.mw hpos) hcw hcall
    exact ⟨h.di, h.mw, Or.inr hlevel⟩

theorem Reach.markOk (h : Reach dests mark) : MarkOk dests mark := by
  induction h with
  | init dests => exact .of_max rfl rfl rfl
  | changed _ dests' => exact markOk_destChanged dests' _
  | schedule _ _ hcall ih => exact ih.schedule hcall

variable {di : Nat}

section Reading

variable {ds : List Dest} {cw i j q k : Nat} {l : List Nat} {stop : Option Nat}

/-- The places, from `i` on, with enough weight. -/
def selectFrom (cw : Nat) : Nat → List Dest → List Nat
  | _, [] => []
  | i, dest :: ds =>
    if dest.weight ≥ cw then i :: selectFrom cw (i + 1) ds else selectFrom cw (i + 1) ds

/-- The choices of the last `q` passes. -/
def passes (dests : List Dest) (di : Nat) : Nat → List Nat
  | 0 => []
  | q + 1 => selectFrom (q * di + 1) 0 dests ++ passes dests di q

/-- The choices from place `i` on in the pass before the last `q` ones. -/
def restFrom (dests : List Dest) (di i q : Nat) : List Nat :=
  selectFrom (q * di + 1) i (dests.drop i) ++ passes dests di q

/-- What is left to choose in this round. -/
def Mark.rest (dests : List Dest) (mark : Mark) : List Nat :=
  restFrom dests mark.di mark.next ((mark.cw - 1) / mark.di)

/-- The choices of a round. -/
def round (dests : List Dest) : List Nat :=
  passes dests (gcdWeight dests) (maxWeight dests / gcdWeight dests)

theorem selectFrom_eq (cw i : Nat) (ds : List Dest) :
    selectFrom cw i ds = ds.findIdxs (cw ≤ ·.weight) i := by
  induction ds generalizing i with
  | nil => rfl
  | cons d ds ih => simp only [selectFrom, findIdxs_cons, ih, decide_eq_true_eq, ge_iff_le]

theorem mem_selectFrom :
    j ∈ selectFrom cw i ds ↔ i ≤ j ∧ ∃ dest, ds[j - i]? = some dest ∧ cw ≤ dest.weight := by
  rw [selectFrom_eq, mem_findIdxs_iff_getElem_sub_pos]
  simp [getElem?_eq_some_iff]

theorem selectFrom_ne_nil (h : dest ∈ dests) (hcw : cw ≤ dest.weight) :
    selectFrom cw 0 dests ≠ [] := by
  obtain ⟨j, hj⟩ := mem_iff_getElem?.mp h
  exact ne_nil_of_mem (mem_selectFrom.mpr ⟨Nat.zero_le j, dest, hj, hcw⟩)

theorem nodup_selectFrom : (selectFrom cw i ds).Nodup :=
  selectFrom_eq cw i ds ▸ nodup_findIdxs

theorem selectFrom_cons (h : selectFrom cw i (dests.drop i) = j :: l) :
    l = selectFrom cw (j + 1) (dests.drop (j + 1)) := by
  induction hds : dests.drop i generalizing i with
  | nil =>
    rw [hds] at h
    cases h
  | cons d ds ih =>
    have htail : dests.drop (i + 1) = ds := by rw [← tail_drop, hds, tail_cons]
    rw [hds, selectFrom] at h
    split_ifs at h with hcw
    · obtain ⟨rfl, rfl⟩ := List.cons.inj h
      rw [htail]
    · exact ih (htail ▸ h) htail

theorem selectFrom_suffix (cw i : Nat) (dests : List Dest) :
    selectFrom cw i (dests.drop i) <:+ selectFrom cw 0 dests := by
  induction i with
  | zero => exact suffix_refl _
  | succ i ih =>
    refine .trans ?_ ih
    cases hds : dests.drop i with
    | nil =>
      rw [← tail_drop, hds]
      exact nil_suffix
    | cons d ds =>
      rw [← tail_drop, hds, tail_cons, selectFrom]
      split_ifs
      · exact suffix_cons i _
      · exact suffix_refl _

theorem pass_found (hfree : ∀ dest ∈ ds, dest.overload = false) (h : selectFrom cw i ds = j :: l)
    (hstop : ∀ s, stop = some s → j ≤ s) : pass cw stop i ds = .found j := by
  induction ds generalizing i with
  | nil => cases h
  | cons d ds ih =>
    obtain ⟨hd, hds⟩ := forall_mem_cons.mp hfree
    rw [selectFrom] at h
    rw [pass]
    split_ifs at h with hcw
    · rw [if_pos ⟨by rw [hd]; exact Bool.false_ne_true, hcw⟩, (List.cons.inj h).1]
    · have hmem : j ∈ selectFrom cw (i + 1) ds := h ▸ mem_cons_self
      have hne : stop ≠ some i := fun heq =>
        Nat.not_succ_le_self i (le_trans (mem_selectFrom.mp hmem).1 (hstop i heq))
      rw [if_neg fun hfound => hcw hfound.2, if_neg hne]
      exact ih hds h

theorem pass_done (hstop : stop = none) (h : selectFrom cw i ds = []) :
    pass cw stop i ds = .done := by
  subst hstop
  induction ds generalizing i with
  | nil => rfl
  | cons d ds ih =>
    rw [selectFrom] at h
    split_ifs at h with hcw
    rw [pass, if_neg fun hfound => hcw hfound.2, if_neg nofun]
    exact ih h

theorem rest_mk (hdi : 0 < mark.di) (hcw : cw = q * mark.di + 1) :
    rest dests { mark with cl := some j, cw := cw } = restFrom dests mark.di (j + 1) q := by
  unfold rest
  dsimp only
  rw [hcw, Nat.add_sub_cancel, Nat.mul_div_cancel q hdi]
  rfl

variable (hfree : ∀ dest ∈ dests, dest.overload = false) {v : Locals}

include hfree

theorem loop_hit (hsel : selectFrom v.cw v.start (dests.drop v.start) = j :: l)
    (hstop : ∀ s, v.stop = some s → j ≤ s) :
    Returns (fun fuel => loop dests mark fuel v)
      (some j, { mark with cl := some j, cw := v.cw }) := by
  refine .of_end fun fuel => ?_
  have hfree' : ∀ dest ∈ dests.drop v.start, dest.overload = false := fun dest hdest =>
    hfree dest (mem_of_mem_drop hdest)
  rw [loop, pass_found hfree' hsel hstop]

theorem loop_first (hcw : v.cw = q * mark.di + 1) (hstop : v.stop = none)
    (hsel : selectFrom v.cw v.start (dests.drop v.start) ≠ [])
    (h : restFrom dests mark.di v.start q = j :: l) :
    Returns (fun fuel => loop dests mark fuel v)
        (some j, { mark with cl := some j, cw := q * mark.di + 1 }) ∧
      l = restFrom dests mark.di (j + 1) q := by
  obtain ⟨j', l', hsel⟩ := exists_cons_of_ne_nil hsel
  rw [restFrom, ← hcw, hsel, cons_append] at h
  obtain ⟨rfl, rfl⟩ := List.cons.inj h
  constructor
  · rw [← hcw]
    refine loop_hit hfree hsel ?_
    rw [hstop]
    exact nofun
  · rw [restFrom, ← hcw, selectFrom_cons hsel]

theorem loop_found {v : Locals} (hcw : v.cw = q * mark.di + 1) (hstop : v.stop = none)
    (hrestarted : v.restarted = false) (h : restFrom dests mark.di v.start q = j :: l) :
    ∃ q', Returns (fun fuel => loop dests mark fuel v)
        (some j, { mark with cl := some j, cw := q' * mark.di + 1 }) ∧
      l = restFrom dests mark.di (j + 1) q' := by
  induction q generalizing v with
  | zero =>
    refine ⟨0, loop_first hfree hcw hstop (fun hsel => ?_) h⟩
    rw [restFrom, ← hcw, hsel] at h
    cases h
  | succ q ih =>
    by_cases hsel : selectFrom v.cw v.start (dests.drop v.start) = []
    · have hnext : v.cw - mark.di = q * mark.di + 1 := by
        rw [hcw, Nat.succ_mul]
        omega
      rw [restFrom, ← hcw, hsel, nil_append] at h
      have hstop' : (nextPass mark.cl mark.di (v.cw - mark.di) v.restarted v.stop).stop = none := by
        simp [nextPass, hrestarted, hstop]
      obtain ⟨q', hloop, hl⟩ := ih hnext hstop' hrestarted h
      refine ⟨q', hloop.of_pass fun fuel => ?_, hl⟩
      rw [loop, pass_done hstop hsel]
      exact if_neg (by omega)
    · exact ⟨q + 1, loop_first hfree hcw hstop hsel h⟩

omit hfree in
theorem passes_suffix (h : q ≤ k) : passes dests di q <:+ passes dests di k := by
  induction k, h using Nat.le_induction with
  | base => exact suffix_refl _
  | succ k _ ih => exact ih.trans (suffix_append _ _)

omit hfree in
theorem passes_ne_nil (h : dest ∈ dests) (hweight : 0 < dest.weight) (hq : 0 < q) :
    passes dests di q ≠ [] := by
  induction q with
  | zero => exact absurd hq (lt_irrefl 0)
  | succ q ih =>
    rw [passes]
    cases q with
    | zero =>
      have hsel : selectFrom 1 0 dests ≠ [] := selectFrom_ne_nil h hweight
      simp [passes, hsel]
    | succ q => simp [ih (Nat.succ_pos q)]

theorem loop_restarts (hok : MarkOk dests mark) (hpos : 0 < maxWeight dests) {v : Locals}
    (hcl : mark.cl = some i) (hcw : v.cw = 1) (hstart : v.start = i + 1) (hstop : v.stop = none)
    (hlast : v.lastPass = false) (hsel : selectFrom v.cw v.start (dests.drop v.start) = []) :
    ∃ j l, selectFrom mark.mw 0 dests = j :: l ∧ Returns (fun fuel => loop dests mark fuel v)
        (some j, { mark with cl := some j, cw := mark.mw }) := by
  have hdi := hok.di_pos
  obtain ⟨dest, hdest, hmax⟩ := exists_maxWeight hpos
  have hne : selectFrom mark.mw 0 dests ≠ [] := by
    refine selectFrom_ne_nil hdest ?_
    rw [hmax, hok.mw]
    exact Nat.sub_le _ _
  obtain ⟨j, l, hfirst⟩ := exists_cons_of_ne_nil hne
  refine ⟨j, l, hfirst, .of_pass (loop_hit (j := j) (l := l) hfree
    (v := nextPass mark.cl mark.di mark.mw true v.stop) hfirst ?_) fun fuel => ?_⟩
  · -- A pass that has to stop at the last choice is for weight 1, and so was the one before it.
    intro s hs
    simp only [nextPass, hcl, hstop] at hs
    split_ifs at hs with hle
    cases hs
    by_contra hlt
    obtain ⟨k, hk, -⟩ := level_max hok.di hok.mw hpos
    have hone : mark.mw = 1 := by
      cases k with
      | zero => omega
      | succ k =>
        rw [Nat.succ_mul] at hk
        omega
    have hj : j ∈ selectFrom mark.mw 0 dests := hfirst ▸ mem_cons_self
    obtain ⟨-, hj⟩ := mem_selectFrom.mp hj
    have hmem : j ∈ selectFrom v.cw v.start (dests.drop v.start) := by
      rw [hcw, hstart, mem_selectFrom, getElem?_drop, Nat.add_sub_cancel' (by omega), ← hone]
      exact ⟨by omega, hj⟩
    rw [hsel] at hmem
    cases hmem
  · rw [loop, pass_done hstop hsel]
    dsimp only
    rw [if_pos (by omega), if_neg (by simp [hlast, hcl])]

omit hfree in
theorem MarkOk.round_eq (h : MarkOk dests mark) (hpos : 0 < maxWeight dests) :
    ∃ k, mark.mw = k * mark.di + 1 ∧ round dests = restFrom dests mark.di 0 k := by
  obtain ⟨k, hk⟩ := maxWeight_eq hpos
  have hdi := gcdWeight_pos dests
  refine ⟨k, ?_, ?_⟩
  · rw [h.mw, h.di, hk, Nat.succ_mul]
    omega
  · rw [round, hk, Nat.mul_div_cancel _ hdi, h.di]
    rfl

omit hfree in
theorem schedule_eq (h : mark.mw ≠ 0) : schedule dests mark = fun fuel =>
      loop dests mark fuel ⟨mark.next, mark.cw, false, false, none⟩ := by
  funext fuel
  exact if_neg h

omit hfree in
/-- Nothing is left of a round only in a pass for weight 1 behind some destination. -/
theorem restFrom_eq_nil (hdest : dest ∈ dests) (hweight : 0 < dest.weight)
    (h : restFrom dests di mark.next q = []) :
    q = 0 ∧ selectFrom 1 mark.next (dests.drop mark.next) = [] ∧ ∃ i, mark.cl = some i := by
  obtain ⟨hsel, hpasses⟩ := append_eq_nil_iff.mp h
  obtain rfl : q = 0 := by
    by_contra hq
    exact passes_ne_nil hdest hweight (Nat.pos_of_ne_zero hq) hpasses
  rw [zero_mul, zero_add] at hsel
  refine ⟨rfl, hsel, Option.ne_none_iff_exists'.mp fun hcl => ?_⟩
  rw [Mark.next, hcl] at hsel
  exact selectFrom_ne_nil hdest hweight hsel

/-- A call takes the next choice of the round, or the first of the next round. -/
theorem schedule_takes (hpos : 0 < maxWeight dests) :
    Reader (fun mark j mark' => Returns (schedule dests mark) (some j, mark')) (rest dests)
      (round dests) (MarkOk dests) := by
  intro mark hok
  have hdi := hok.di_pos
  obtain ⟨k, hk, hround⟩ := hok.round_eq hpos
  have hmw : mark.mw ≠ 0 := by omega
  obtain ⟨q, hq, -⟩ := hok.cw.resolve_left fun hzero => hmw hzero.1
  have hrest : rest dests mark = restFrom dests mark.di mark.next q := by
    rw [rest, hq, Nat.add_sub_cancel, Nat.mul_div_cancel q hdi]
  cases hl : restFrom dests mark.di mark.next q with
  | cons j l =>
    obtain ⟨q', hcall, hl'⟩ := @loop_found _ _ _ _ _ hfree
      ⟨mark.next, mark.cw, false, false, none⟩ hq rfl rfl hl
    rw [← schedule_eq hmw] at hcall
    refine ⟨j, _, hcall, hok.schedule hcall, Or.inl ?_⟩
    rw [hrest, hl, rest_mk hdi rfl, hl']
  | nil =>
    obtain ⟨dest, hdest, hmax⟩ := exists_maxWeight hpos
    obtain ⟨rfl, hsel, i, hcl⟩ := restFrom_eq_nil hdest (hmax ▸ hpos) hl
    rw [zero_mul, zero_add] at hq
    have hstart : mark.next = i + 1 := by rw [Mark.next, hcl]
    obtain ⟨j, l, hfirst, hcall⟩ := @loop_restarts _ _ _ hfree hok hpos
      ⟨mark.next, mark.cw, false, false, none⟩ hcl hq hstart rfl rfl (hq ▸ hsel)
    rw [← schedule_eq hmw] at hcall
    refine ⟨j, _, hcall, hok.schedule hcall, Or.inr ⟨hrest.trans hl, ?_⟩⟩
    have hl' := @selectFrom_cons dests mark.mw 0 j l hfirst
    rw [rest_mk hdi hk, hround, restFrom, restFrom, ← hk, drop_zero, hfirst, hl']
    rfl

end Reading

variable {j : Nat}

theorem level_le_iff (hdi : 0 < di) (hdvd : di ∣ dest.weight) (q : Nat) :
    q * di + 1 ≤ dest.weight ↔ q < dest.weight / di := by
  obtain ⟨c, hc⟩ := hdvd
  rw [hc, Nat.mul_div_cancel_left c hdi, mul_comm di c]
  exact Nat.mul_lt_mul_right hdi

theorem count_passes (hdi : 0 < di) (hj : dests[j]? = some dest) (hdvd : di ∣ dest.weight)
    (q : Nat) : (passes dests di q).count j = min q (dest.weight / di) := by
  induction q with
  | zero => simp [passes]
  | succ q ih =>
    have hmem : j ∈ selectFrom (q * di + 1) 0 dests ↔ q < dest.weight / di := by
      rw [mem_selectFrom, ← level_le_iff hdi hdvd, Nat.sub_zero, hj]
      simp
    rw [passes, count_append, ih, List.Nodup.count nodup_selectFrom]
    simp only [hmem]
    split_ifs <;> omega

theorem length_selectFrom (cw i : Nat) (ds : List Dest) :
    (selectFrom cw i ds).length = (ds.map fun dest => if cw ≤ dest.weight then 1 else 0).sum := by
  induction ds generalizing i with
  | nil => rfl
  | cons d ds ih =>
    rw [selectFrom, map_cons, sum_cons, ← ih (i + 1)]
    split_ifs
    · rw [length_cons, add_comm]
    · rw [zero_add]

theorem length_passes (hdi : 0 < di) (hdvd : ∀ dest ∈ dests, di ∣ dest.weight) (q : Nat) :
    (passes dests di q).length = (dests.map fun dest => min q (dest.weight / di)).sum := by
  induction q with
  | zero => simp [passes]
  | succ q ih =>
    rw [passes, length_append, ih, length_selectFrom, ← sum_map_add]
    refine congrArg List.sum (map_congr_left fun dest hdest => ?_)
    simp only [level_le_iff hdi (hdvd dest hdest)]
    split_ifs <;> omega

theorem sum_weights (hdi : 0 < di) (hdvd : ∀ dest ∈ dests, di ∣ dest.weight) :
    (dests.map Dest.weight).sum / di = (dests.map fun dest => dest.weight / di).sum := by
  have hsum : (dests.map Dest.weight).sum = di * (dests.map fun dest => dest.weight / di).sum := by
    rw [← sum_map_mul_left dests (fun dest => dest.weight / di) di]
    refine congrArg List.sum (map_congr_left fun dest hdest => ?_)
    exact (Nat.mul_div_cancel' (hdvd dest hdest)).symm
  rw [hsum, Nat.mul_div_cancel_left _ hdi]

theorem div_le_passes (hdest : dest ∈ dests) :
    min (maxWeight dests / di) (dest.weight / di) = dest.weight / di :=
  min_eq_right (Nat.div_le_div_right (le_maxWeight hdest))

theorem scheduleTimes_of_steps {xs : List Nat}
    (h : Steps (fun mark j mark' => Returns (schedule dests mark) (some j, mark')) mark xs mark') :
    Returns (scheduleTimes dests xs.length mark) (xs.map some, mark') := by
  induction h with
  | nil mark => exact .of_some _
  | @cons mark mark₁ mark₂ x xs hcall _ ih =>
    have hrest := @Returns.bind _ _ _ (fun rs _ => some (some x :: rs.1, rs.2)) _ _ ih (.of_some _)
    exact @Returns.bind _ _ _ (fun r fuel => (scheduleTimes dests xs.length r.2 fuel).bind fun rs =>
      some (r.1 :: rs.1, rs.2)) _ _ hcall hrest

theorem MarkOk.rest_suffix (h : MarkOk dests mark) (hpos : 0 < maxWeight dests) :
    rest dests mark <:+ round dests := by
  obtain ⟨k, hk, hround⟩ := h.round_eq hpos
  obtain ⟨q, hq, hle⟩ := h.cw.resolve_left fun hzero => by omega
  have hdi := h.di_pos
  rw [hround, rest, hq, Nat.add_sub_cancel, Nat.mul_div_cancel q hdi]
  have hqk : q ≤ k := by
    rw [hq, hk] at hle
    exact Nat.le_of_mul_le_mul_right (Nat.le_of_succ_le_succ hle) hdi
  have hpass : restFrom dests mark.di mark.next q <:+ passes dests mark.di (q + 1) := by
    obtain ⟨before, hbefore⟩ := selectFrom_suffix (q * mark.di + 1) mark.next dests
    exact ⟨before, by rw [restFrom, passes, ← hbefore, append_assoc]⟩
  exact hpass.trans (passes_suffix (Nat.succ_le_succ hqk))

/-- As many calls as the sum of the weights over their greatest common divisor choose each
destination as its weight says. -/
theorem schedule_fair (h : Reach dests mark) (hfree : ∀ dest ∈ dests, dest.overload = false)
    (hweight : ∃ dest ∈ dests, 0 < dest.weight) :
    ∃ rs mark', Returns (scheduleTimes dests ((dests.map Dest.weight).sum / weightGcd dests) mark)
        (rs, mark') ∧
      ∀ j dest, dests[j]? = some dest → rs.count (some j) = dest.weight / weightGcd dests := by
  obtain ⟨dest, hdest, hpos⟩ := hweight
  have hmax := lt_of_lt_of_le hpos (le_maxWeight hdest)
  have hgcd := weightGcd_pos hdest hpos
  have hdvd : ∀ dest ∈ dests, weightGcd dests ∣ dest.weight := fun _ hd => weightGcd_dvd hd
  obtain ⟨done, hdone⟩ := h.markOk.rest_suffix hmax
  obtain ⟨xs, mark', hsteps, -, hperm⟩ := (schedule_takes hfree hmax).round h.markOk hdone.symm
  rw [round, gcdWeight_eq hgcd] at hperm
  have hlength : (dests.map Dest.weight).sum / weightGcd dests = xs.length := by
    rw [hperm.length_eq, length_passes hgcd hdvd, sum_weights hgcd hdvd]
    exact congrArg List.sum (map_congr_left fun d hd => (div_le_passes hd).symm)
  refine ⟨xs.map some, mark', ?_, fun j d hj => ?_⟩
  · rw [hlength]
    exact scheduleTimes_of_steps hsteps
  · have hd : d ∈ dests := mem_of_getElem? hj
    rw [count_map_of_injective _ _ (Option.some_injective _), hperm.count_eq,
      count_passes hgcd hj (hdvd d hd), div_le_passes hd]

/-- Two destinations, of weights 1 and 2, three calls. -/
theorem schedule_fair_two :
    ∃ rs mark', Returns (scheduleTimes [⟨1, false⟩, ⟨2, false⟩] 3
        (initSvc [⟨1, false⟩, ⟨2, false⟩])) (rs, mark') ∧
      ∀ j dest, [(⟨1, false⟩ : Dest), ⟨2, false⟩][j]? = some dest →
        rs.count (some j) = dest.weight / 1 :=
  schedule_fair (.init _) (by decide) ⟨⟨1, false⟩, by decide, by decide⟩

end LinuxKernel.Wrr
