import LinuxKernel.Net.IpVsWrrFair

/-!
# Progress of weighted round-robin

A call of `ip_vs_wrr_schedule` may start in any pass, behind any destination.  The passes go down
to weight 1.  A call that starts there starts again from the top, and its last pass ends at the
destination behind which it started.
-/

namespace LinuxKernel.Wrr

open Lib List

variable {dests : List Dest} {mark : Mark} {q i cw n : Nat} {v : Locals}

/-- The destination here is not overloaded and has enough weight. -/
def Free (dests : List Dest) (cw n : Nat) : Prop :=
  ∃ dest, dests[n]? = some dest ∧ dest.overload = false ∧ cw ≤ dest.weight

theorem free_drop : Free (dests.drop i) cw n ↔ Free dests cw (i + n) := by
  rw [Free, getElem?_drop, Free]

/-- A destination that can be used, or `none` if there is none. -/
def Serves (dests : List Dest) : Option Nat → Prop
  | some n => Free dests 1 n
  | none => ∀ n, ¬ Free dests 1 n

/-- What a pass has seen of its destinations, the first at `i`. -/
def Pass.Sees (ds : List Dest) (cw : Nat) (stop : Option Nat) (i : Nat) : Pass → Prop
  | .found j => ∃ n, j = i + n ∧ Free ds cw n
  | .stopped j => stop = some j ∧ ∀ n, i + n ≤ j → ¬ Free ds cw n
  | .done => ∀ n, ¬ Free ds cw n

theorem pass_sees (cw : Nat) (stop : Option Nat) (i : Nat) (ds : List Dest) :
    (pass cw stop i ds).Sees ds cw stop i := by
  induction ds generalizing i with
  | nil => rintro n ⟨dest, ⟨⟩, -⟩
  | cons dest ds ih =>
    rw [pass]
    split_ifs with hfound hstop
    · exact ⟨0, rfl, dest, rfl, by simpa using hfound.1, hfound.2⟩
    all_goals
      have hnot : ¬ Free (dest :: ds) cw 0 := by
        rintro ⟨_, ⟨⟩, hroom, hweight⟩
        exact hfound ⟨by simp [hroom], hweight⟩
    · refine ⟨hstop, fun n hn => ?_⟩
      obtain rfl : n = 0 := by omega
      exact hnot
    have hrest := ih (i + 1)
    generalize pass cw stop (i + 1) ds = p at hrest
    cases p with
    | found j =>
      obtain ⟨n, rfl, hn⟩ := hrest
      exact ⟨n + 1, Nat.add_right_comm i 1 n, hn⟩
    | stopped j =>
      refine ⟨hrest.1, fun n hn => ?_⟩
      cases n with
      | zero => exact hnot
      | succ n => exact hrest.2 n (by omega)
    | done =>
      intro n
      cases n with
      | zero => exact hnot
      | succ n => exact hrest n

/-- The loop returns, with a destination if there is one. -/
def LoopServes (dests : List Dest) (mark : Mark) (v : Locals) : Prop :=
  ∃ r, Returns (fun fuel => loop dests mark fuel v) r ∧ Serves dests r.1

/-- A pass ends the loop, or has seen no free destination. -/
theorem loop_or_done (hcw : 1 ≤ v.cw) (hstop : ∀ s, v.stop = some s →
      v.start = 0 ∧ v.cw = 1 ∧ ∀ n, ¬ Free (dests.drop (s + 1)) 1 n) :
    LoopServes dests mark v ∨ pass v.cw v.stop v.start (dests.drop v.start) = .done ∧
      ∀ n, ¬ Free (dests.drop v.start) v.cw n := by
  have hsees := pass_sees v.cw v.stop v.start (dests.drop v.start)
  cases hpass : pass v.cw v.stop v.start (dests.drop v.start) with
  | found j =>
    rw [hpass] at hsees
    obtain ⟨n, rfl, hn⟩ := hsees
    obtain ⟨dest, hdest, hroom, hweight⟩ := free_drop.mp hn
    refine .inl ⟨(some _, _), .of_end fun fuel => by rw [loop, hpass], ?_⟩
    exact ⟨dest, hdest, hroom, le_trans hcw hweight⟩
  | stopped j =>
    rw [hpass] at hsees
    obtain ⟨hj, hbefore⟩ := hsees
    obtain ⟨hstart, hone, hbehind⟩ := hstop j hj
    rw [hstart, hone] at hbefore
    refine .inl ⟨(none, _), .of_end fun fuel => by rw [loop, hpass], fun n hfree => ?_⟩
    by_cases hn : n ≤ j
    · exact hbefore n (by omega) hfree
    · obtain ⟨m, rfl⟩ := Nat.exists_eq_add_of_lt (not_le.mp hn)
      exact hbehind m (free_drop.mpr (Nat.add_right_comm j m 1 ▸ hfree))
  | done =>
    rw [hpass] at hsees
    exact .inr ⟨rfl, hsees⟩

theorem loop_descends (hcw : v.cw = (q + 1) * mark.di + 1) (hstop : v.stop = none)
    (hrest : LoopServes dests mark (nextPass mark.cl mark.di (q * mark.di + 1) v.restarted none)) :
    LoopServes dests mark v := by
  rcases @loop_or_done dests mark v (by omega) (by simp [hstop]) with hserves | ⟨hdone, -⟩
  · exact hserves
  obtain ⟨r, hreturns, hserves⟩ := hrest
  have hnext : v.cw - mark.di = q * mark.di + 1 := by
    rw [hcw, Nat.succ_mul]
    omega
  rw [← hnext, ← hstop] at hreturns
  refine ⟨r, hreturns.of_pass fun fuel => ?_, hserves⟩
  rw [loop, hdone]
  exact if_neg (by omega)

theorem loop_last (hdi : 0 < mark.di) (hcw : v.cw = 1) (hstart : v.start = 0)
    (hlast : v.lastPass = true ∨ mark.cl = none)
    (hstop : ∀ s, v.stop = some s → ∀ n, ¬ Free (dests.drop (s + 1)) 1 n) :
    LoopServes dests mark v := by
  rcases @loop_or_done dests mark v hcw.ge fun s hs => ⟨hstart, hcw, hstop s hs⟩
    with hserves | ⟨hdone, hnot⟩
  · exact hserves
  rw [hcw, hstart] at hnot
  refine ⟨(none, { mark with cl := none, cw := mark.mw }), .of_end fun fuel => ?_, hnot⟩
  rw [loop, hdone]
  exact (if_pos (by omega)).trans (if_pos hlast)

theorem loop_nextPass (hdi : 0 < mark.di) {restarted : Bool}
    (hrestarted : restarted = true →
      ∀ i, mark.cl = some i → ∀ n, ¬ Free (dests.drop (i + 1)) 1 n) (q : Nat) :
    LoopServes dests mark (nextPass mark.cl mark.di (q * mark.di + 1) restarted none) := by
  induction q with
  | zero =>
    rw [Nat.zero_mul]
    refine loop_last hdi rfl rfl (.inl (decide_eq_true hdi)) fun s hs => ?_
    simp only [nextPass] at hs
    split_ifs at hs with hlast
    exact hrestarted hlast.2.1 s hs
  | succ q ih =>
    refine loop_descends rfl (if_neg fun h => ?_) ih
    have hle := h.1
    rw [Nat.succ_mul] at hle
    omega

/-- Each call returns, with a destination of weight more than 0 that is not overloaded whenever
there is one, and the weight of the pass stays between 1 and `mw`.  The flags may have changed
since the last call. -/
theorem schedule_serves {dests' : List Dest} (h : Reach dests mark)
    (hweights : dests'.map Dest.weight = dests.map Dest.weight) :
    ∃ r mark', Returns (schedule dests' mark) (r, mark') ∧ Serves dests' r ∧
      (0 < mark'.mw → 1 ≤ mark'.cw ∧ mark'.cw ≤ mark'.mw) := by
  have hok := h.markOk
  have hdi := hok.di_pos
  suffices hcall : ∃ r, Returns (schedule dests' mark) r ∧ Serves dests' r.1 by
    obtain ⟨⟨r, mark'⟩, hreturns, hserves⟩ := hcall
    refine ⟨r, mark', hreturns, hserves, fun hpos => ?_⟩
    obtain ⟨q, hq, hle⟩ := (hok.schedule hreturns).cw.resolve_left fun hzero => by omega
    exact ⟨by omega, hle⟩
  by_cases hmax : 0 < maxWeight dests
  · obtain ⟨k, hk, -⟩ := level_max hok.di hok.mw hmax
    obtain ⟨q, hq, -⟩ := hok.cw.resolve_left fun hzero => by omega
    rw [schedule_eq (by omega)]
    cases q with
    | succ q => exact loop_descends hq rfl (loop_nextPass hdi (by rintro ⟨⟩) q)
    | zero =>
      rw [Nat.zero_mul] at hq
      cases hcl : mark.cl with
      | none => exact loop_last hdi hq (by simp [Mark.next, hcl]) (.inr hcl) (by rintro _ ⟨⟩)
      | some i =>
        rcases @loop_or_done dests' mark ⟨mark.next, mark.cw, false, false, none⟩ hq.ge
          (by rintro _ ⟨⟩)
          with hserves | ⟨hdone, hnot⟩
        · exact hserves
        simp only [hq, Mark.next, hcl] at hnot
        obtain ⟨r, hreturns, hserves⟩ := @loop_nextPass dests' mark hdi true
          (fun _ s hs => by cases hcl.symm.trans hs; exact hnot) k
        rw [← hk] at hreturns
        refine ⟨r, hreturns.of_pass fun fuel => ?_, hserves⟩
        rw [loop, hdone]
        exact (if_pos (by simp only; omega)).trans (if_neg (by simp [hcl]))
  · have hnone : ∀ n, ¬ Free dests' 1 n := by
      rintro n ⟨dest, hdest, -, hweight⟩
      have hmem : dest.weight ∈ dests.map Dest.weight :=
        hweights ▸ mem_map_of_mem (mem_of_getElem? hdest)
      obtain ⟨d, hd, heq⟩ := mem_map.mp hmem
      have := le_maxWeight hd
      omega
    exact ⟨(none, mark), ⟨0, fun fuel _ => if_pos (by have := hok.mw; omega)⟩, hnone⟩

/-- The heavier of two destinations gets overloaded. -/
theorem schedule_serves_overloaded :
    ∃ r mark', Returns (schedule [⟨1, false⟩, ⟨2, true⟩] (initSvc [⟨1, false⟩, ⟨2, false⟩]))
      (r, mark') ∧ Serves [⟨1, false⟩, ⟨2, true⟩] r ∧
      (0 < mark'.mw → 1 ≤ mark'.cw ∧ mark'.cw ≤ mark'.mw) :=
  schedule_serves (.init [⟨1, false⟩, ⟨2, false⟩]) rfl

end LinuxKernel.Wrr
