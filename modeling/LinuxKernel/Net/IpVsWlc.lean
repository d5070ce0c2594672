import Mathlib.Algebra.Order.Field.Rat
import Mathlib.Algebra.Order.Ring.Int
import Mathlib.Data.List.MinMax
import Mathlib.Data.List.TakeWhile

/-!
# Weighted least-connection scheduling of virtual servers

`ip_vs_wlc_schedule()` compares the loads of two destinations by cross-multiplication.  The
overheads and the weights are of type `int`, so the products fit in an `__s64`; the overhead
itself is computed modulo `2 ^ 32`.  When it is negative, a destination without a weight may win,
and the order of the others may differ from that of their loads.
-/

namespace LinuxKernel.Wlc

open List

structure Dest where
  weight : Nat
  overload : Bool
  activeconns : BitVec 32
  inactconns : BitVec 32
deriving DecidableEq

/-- `ip_vs_dest_conn_overhead()`. -/
def Dest.connOverhead (dest : Dest) : Int :=
  ((dest.activeconns <<< 8) + dest.inactconns).toInt

/-- The loop behind the label `nextstage`. -/
def nextstage (least dest : Dest) : Dest :=
  if dest.overload then least
  else if least.connOverhead * dest.weight > dest.connOverhead * least.weight then dest
  else least

def Dest.Available (dest : Dest) : Prop :=
  dest.overload = false ∧ 0 < dest.weight
deriving Decidable

def schedule : List Dest → Option Dest
  | [] => none
  | dest :: dests => if dest.Available then some (dests.foldl nextstage dest) else schedule dests

def Dest.conns (dest : Dest) : Nat :=
  256 * dest.activeconns.toNat + dest.inactconns.toNat

/-- The exact load. -/
def Dest.load (dest : Dest) : ℚ :=
  dest.conns / dest.weight

structure LeastLoaded (dests : List Dest) (least : Dest) : Prop where
  mem : least ∈ dests
  available : least.Available
  le : ∀ dest ∈ dests, dest.Available → least.load ≤ dest.load

/-- The load as it follows from the overhead that is computed. -/
def Dest.computed (dest : Dest) : ℚ :=
  dest.connOverhead / dest.weight

/-- A destination that wins over all others though it has no weight. -/
def Dest.Bogus (dest : Dest) : Prop :=
  dest.overload = false ∧ dest.weight = 0 ∧ dest.connOverhead < 0

def available (dests : List Dest) : List Dest :=
  dests.filter fun dest => dest.Available

/-- The destinations from the first available one on. -/
def scanned (dests : List Dest) : List Dest :=
  dests.dropWhile fun dest => !decide dest.Available

/-- No destination is bogus, and the first available one with the least computed load has the least
load. -/
structure Ordered (dests : List Dest) : Prop where
  quiesced : ∀ dest ∈ scanned dests, ¬ dest.Bogus
  le : ∀ least ∈ (available dests).argmin Dest.computed, ∀ dest ∈ dests, dest.Available →
    least.load ≤ dest.load

/-- The overhead of a destination that is not overloaded is an `int`. -/
def Dest.Fits (dest : Dest) : Prop :=
  dest.overload = false → dest.conns < 2 ^ 31
deriving Decidable

variable {dest least : Dest} {dests : List Dest}

theorem Dest.Fits.connOverhead_eq (h : dest.Fits) (hover : dest.overload = false) :
    dest.connOverhead = dest.conns := by
  have hlt := h hover
  unfold conns at *
  have hsum : ((dest.activeconns <<< 8) + dest.inactconns).toNat =
      256 * dest.activeconns.toNat + dest.inactconns.toNat := by
    rw [BitVec.toNat_add, BitVec.toNat_shiftLeft, Nat.shiftLeft_eq]
    omega
  rw [connOverhead, BitVec.toInt_eq_toNat_of_lt (by omega), hsum]

theorem mem_available : dest ∈ available dests ↔ dest ∈ dests ∧ dest.Available := by
  simp [available]

theorem available_cons_of_pos (h : dest.Available) :
    available (dest :: dests) = dest :: available dests :=
  filter_cons_of_pos (by simpa using h)

theorem available_cons_of_neg (h : ¬ dest.Available) :
    available (dest :: dests) = available dests :=
  filter_cons_of_neg (by simpa using h)

/-- Cross-multiplication compares the computed loads. -/
theorem nextstage_of_available (hleast : 0 < least.weight) (h : dest.Available) :
    nextstage least dest = if dest.computed < least.computed then dest else least := by
  have hl : (0 : ℚ) < least.weight := Nat.cast_pos.mpr hleast
  have hd : (0 : ℚ) < dest.weight := Nat.cast_pos.mpr h.2
  have hiff : dest.computed < least.computed ↔
      least.connOverhead * dest.weight > dest.connOverhead * least.weight := by
    rw [Dest.computed, Dest.computed, div_lt_div_iff₀ hd hl]
    norm_cast
  simp only [nextstage, h.1, hiff, Bool.false_eq_true, if_false]

/-- What is not available wins only if it is bogus. -/
theorem nextstage_of_not_available (h : ¬ dest.Available) (hbogus : ¬ dest.Bogus) :
    nextstage least dest = least := by
  unfold nextstage
  split
  · rfl
  next hover =>
  have hover : dest.overload = false := Bool.eq_false_of_not_eq_true hover
  have hweight : dest.weight = 0 := Nat.eq_zero_of_not_pos fun hpos => h ⟨hover, hpos⟩
  have hnonneg : 0 ≤ dest.connOverhead := Int.not_lt.mp fun hneg => hbogus ⟨hover, hweight, hneg⟩
  refine if_neg (Int.not_lt.mpr ?_)
  rw [hweight, Int.natCast_zero, mul_zero]
  exact mul_nonneg hnonneg (Int.natCast_nonneg _)

theorem nextstage_of_bogus (hleast : 0 < least.weight) (h : dest.Bogus) :
    nextstage least dest = dest := by
  have hneg := mul_neg_of_neg_of_pos h.2.2 (Int.natCast_pos.mpr hleast)
  simp [nextstage, h.1, h.2.1, hneg]

theorem Dest.Bogus.nextstage_eq (h : least.Bogus) (dest : Dest) : nextstage least dest = least := by
  have hle := mul_nonpos_of_nonpos_of_nonneg h.2.2.le (Int.natCast_nonneg dest.weight)
  simp [nextstage, h.2.1, hle]

theorem foldl_nextstage_of_bogus (h : least.Bogus) : dests.foldl nextstage least = least := by
  induction dests with
  | nil => rfl
  | cons dest dests ih => rw [foldl_cons, h.nextstage_eq, ih]

/-- Without bogus destinations the loop finds the first available one with the least computed
load. -/
theorem foldl_nextstage_eq (hleast : 0 < least.weight) (h : ∀ dest ∈ dests, ¬ dest.Bogus) :
    (available dests).foldl (argAux fun b c => b.computed < c.computed) (some least) =
      some (dests.foldl nextstage least) := by
  induction dests generalizing least with
  | nil => rfl
  | cons dest dests ih =>
    obtain ⟨hdest, hrest⟩ := forall_mem_cons.mp h
    rw [foldl_cons]
    by_cases hav : dest.Available
    · rw [available_cons_of_pos hav, foldl_cons, nextstage_of_available hleast hav]
      split
      · next hlt =>
        rw [← ih hav.2 hrest]
        exact congrArg (foldl _ · _) (if_pos hlt)
      · next hlt =>
        rw [← ih hleast hrest]
        exact congrArg (foldl _ · _) (if_neg hlt)
    · rw [available_cons_of_neg hav, nextstage_of_not_available hav hdest]
      exact ih hleast hrest

theorem foldl_nextstage_bogus (hleast : 0 < least.weight) (h : ∃ dest ∈ dests, dest.Bogus) :
    (dests.foldl nextstage least).Bogus := by
  induction dests generalizing least with
  | nil => exact (nofun : ¬ ∃ dest ∈ [], Dest.Bogus dest) h |>.elim
  | cons dest dests ih =>
    rw [foldl_cons]
    by_cases hdest : dest.Bogus
    · rwa [nextstage_of_bogus hleast hdest, foldl_nextstage_of_bogus hdest]
    have hrest : ∃ dest ∈ dests, dest.Bogus := by simpa [hdest] using h
    by_cases hav : dest.Available
    · rw [nextstage_of_available hleast hav]
      split
      · exact ih hav.2 hrest
      · exact ih hleast hrest
    · rw [nextstage_of_not_available hav hdest]
      exact ih hleast hrest

theorem schedule_eq_none_iff : schedule dests = none ↔ ∀ dest ∈ dests, ¬ dest.Available := by
  induction dests with
  | nil => simp [schedule]
  | cons dest dests ih =>
    rw [schedule, forall_mem_cons]
    split
    · next hav => simp [hav]
    · next hav => simp [hav, ih]

/-- The call starts with the first available destination. -/
theorem scanned_of_schedule (h : schedule dests = some least) : ∃ first rest,
    scanned dests = first :: rest ∧ first.Available ∧ rest.foldl nextstage first = least ∧
      available dests = first :: available rest := by
  induction dests with
  | nil => cases h
  | cons dest dests ih =>
    rw [schedule] at h
    split at h
    · next hav =>
      exact ⟨dest, dests, dropWhile_cons_of_neg (by simp [hav]), hav, Option.some.inj h,
        available_cons_of_pos hav⟩
    · next hav =>
      obtain ⟨first, rest, hscan, hrest⟩ := ih h
      refine ⟨first, rest, (dropWhile_cons_of_pos (by simp [hav])).trans hscan, ?_⟩
      rwa [available_cons_of_neg hav]

theorem schedule_eq_argmin (h : schedule dests = some least)
    (hbogus : ∀ dest ∈ scanned dests, ¬ dest.Bogus) :
    (available dests).argmin Dest.computed = some least := by
  obtain ⟨first, rest, hscan, hav, hfold, hfilter⟩ := scanned_of_schedule h
  rw [hscan, forall_mem_cons] at hbogus
  rw [hfilter, ← hfold, ← foldl_nextstage_eq hav.2 hbogus.2]
  rfl

theorem mem_scanned (hmem : dest ∈ dests) (h : dest.Available) : dest ∈ scanned dests := by
  have hsplit := @takeWhile_append_dropWhile _ (fun dest : Dest => !decide dest.Available) dests
  rw [← hsplit, mem_append] at hmem
  refine hmem.resolve_left fun hfront => ?_
  have hnot := mem_takeWhile_imp hfront
  simp [h] at hnot

theorem Dest.Fits.computed_eq (h : dest.Fits) (hav : dest.Available) :
    dest.computed = dest.load := by
  rw [computed, load, h.connOverhead_eq hav.1, Int.cast_natCast]

theorem Ordered.of_fits (h : ∀ dest ∈ scanned dests, dest.Fits) : Ordered dests := by
  refine ⟨fun dest hmem hbogus => ?_, fun least hleast dest hmem hav => ?_⟩
  · have hneg := hbogus.2.2
    rw [(h dest hmem).connOverhead_eq hbogus.1] at hneg
    omega
  · obtain ⟨hin, hav'⟩ := mem_available.mp (argmin_mem hleast)
    have hle := le_of_mem_argmin (mem_available.mpr ⟨hmem, hav⟩) hleast
    rwa [(h dest (mem_scanned hmem hav)).computed_eq hav,
      (h least (mem_scanned hin hav')).computed_eq hav'] at hle

/-- The scheduler finds no destination exactly if none is available, and one of least load exactly
if the destinations are in order.  This is so while the overheads from the first available one on
are `int`s. -/
theorem wlc_schedule_iff (dests : List Dest) :
    (schedule dests = none ↔ ∀ dest ∈ dests, ¬ dest.Available) ∧
      ((∀ least, schedule dests = some least → LeastLoaded dests least) ↔ Ordered dests) ∧
      ((∀ dest ∈ scanned dests, dest.Fits) → Ordered dests) := by
  refine ⟨schedule_eq_none_iff, ⟨fun hright => ?_, fun hord least hs => ?_⟩, .of_fits⟩
  · cases hs : schedule dests with
    | none =>
      have hnone := schedule_eq_none_iff.mp hs
      have hempty : scanned dests = [] := dropWhile_eq_nil_iff.mpr (by simpa using hnone)
      exact ⟨hempty ▸ nofun, fun _ _ dest hmem hav => absurd hav (hnone dest hmem)⟩
    | some least =>
      obtain ⟨hmem, hav, hle⟩ := hright least hs
      obtain ⟨first, rest, hscan, hfirst, hfold, -⟩ := scanned_of_schedule hs
      have hquiesced : ∀ dest ∈ scanned dests, ¬ dest.Bogus := by
        rw [hscan, forall_mem_cons]
        refine ⟨fun hbogus => hfirst.2.ne' hbogus.2.1, fun dest hdest hbogus => ?_⟩
        have hwins := foldl_nextstage_bogus hfirst.2 ⟨dest, hdest, hbogus⟩
        rw [hfold] at hwins
        exact hav.2.ne' hwins.2.1
      refine ⟨hquiesced, fun least' hleast => ?_⟩
      rw [schedule_eq_argmin hs hquiesced] at hleast
      cases hleast
      exact hle
  · have hleast := schedule_eq_argmin hs hord.quiesced
    obtain ⟨hmem, hav⟩ := mem_available.mp (argmin_mem hleast)
    exact ⟨hmem, hav, hord.le least hleast⟩

/-- A destination without a weight in front, of negative overhead, is not looked at. -/
theorem wlc_schedule_iff_quiescedFirst :
    LeastLoaded [⟨0, false, 0x800000, 0⟩, ⟨1, false, 1, 0⟩, ⟨2, false, 1, 9⟩] ⟨2, false, 1, 9⟩ :=
  have h := wlc_schedule_iff [⟨0, false, 0x800000, 0⟩, ⟨1, false, 1, 0⟩, ⟨2, false, 1, 9⟩]
  h.2.1.mpr (h.2.2 (by decide)) _ (by decide)

/-- With `2 ^ 23` active connections an overhead is negative, even without a weight. -/
theorem schedule_quiesced :
    schedule [⟨1, false, 0, 0⟩, ⟨0, false, 0x800000, 0⟩] = some ⟨0, false, 0x800000, 0⟩ := by
  decide

end LinuxKernel.Wlc
