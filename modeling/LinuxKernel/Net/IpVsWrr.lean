import LinuxKernel.Lib.Returns

/-!
# Weighted round-robin scheduling of virtual servers

The scheduler of `net/netfilter/ipvs/ip_vs_wrr.c`: its mark and the calls that set it up,
adapt it to changed destinations, and choose the next destination.
-/

namespace LinuxKernel.Wrr

open Lib

/-- A destination, with its weight and `IP_VS_DEST_F_OVERLOAD`.  `ip_vs_add_dest` and
`ip_vs_edit_dest` refuse negative weights. -/
structure Dest where
  weight : Nat
  overload : Bool
deriving DecidableEq

/-- `struct ip_vs_wrr_mark`.  `cl` is the place of the current destination in the list; `none` is
the head. -/
structure Mark where
  cl : Option Nat
  cw : Nat
  mw : Nat
  di : Nat
deriving DecidableEq

/-- The body of the loop of `ip_vs_wrr_gcd_weight`. -/
def gcdStep (g weight : Nat) : Nat :=
  if weight > 0 then
    if g > 0 then Nat.gcd weight g else weight
  else
    g

variable (dests : List Dest)

def gcdWeight : Nat :=
  let g := dests.foldl (fun g dest => gcdStep g dest.weight) 0
  if g ≠ 0 then g else 1

def maxWeight : Nat :=
  dests.foldl (fun weight dest => if dest.weight > weight then dest.weight else weight) 0

def initSvc : Mark :=
  let di := gcdWeight dests
  let mw := maxWeight dests - (di - 1)
  { cl := none, cw := mw, mw, di }

def destChanged (mark : Mark) : Mark :=
  let di := gcdWeight dests
  let mw := maxWeight dests - (di - 1)
  { cl := none
    cw :=
      if mark.cw > mw ∨ mark.cw = 0 then mw
      else if di > 1 then mark.cw / di * di + 1
      else mark.cw
    mw, di }

/-- How a pass over the destinations ends. -/
inductive Pass
  | found (i : Nat)
  | stopped (i : Nat)
  | done

/-- `list_for_each_entry_continue_rcu` over destinations from `i` on. -/
def pass (cw : Nat) (stop : Option Nat) : Nat → List Dest → Pass
  | _, [] => .done
  | i, dest :: dests =>
    if ¬ dest.overload ∧ dest.weight ≥ cw then .found i
    else if stop = some i then .stopped i
    else pass cw stop (i + 1) dests

/-- The variables of `while (1)`: where the next pass starts, and the locals. -/
structure Locals where
  start : Nat
  cw : Nat
  lastPass : Bool
  restarted : Bool
  stop : Option Nat

/-- The locals for the next pass, from the head of the list. -/
def nextPass (last : Option Nat) (di cw : Nat) (restarted : Bool) (stop : Option Nat) : Locals where
  start := 0
  cw := cw
  lastPass := cw ≤ di
  restarted := restarted
  stop := if cw ≤ di ∧ restarted ∧ last ≠ none then last else stop

/-- `while (1)` of `ip_vs_wrr_schedule`, with the destination chosen. -/
def loop (dests : List Dest) (mark : Mark) : Nat → Locals → Option (Option Nat × Mark)
  | 0, _ => none
  | fuel + 1, v =>
    match pass v.cw v.stop v.start (dests.drop v.start) with
    | .found i => some (some i, { mark with cl := some i, cw := v.cw })
    | .stopped i => some (none, { mark with cl := some i, cw := v.cw })
    | .done =>
      if v.cw - mark.di ≤ 0 then
        if v.lastPass ∨ mark.cl = none then
          some (none, { mark with cl := none, cw := mark.mw })
        else
          loop dests mark fuel (nextPass mark.cl mark.di mark.mw true v.stop)
      else
        loop dests mark fuel (nextPass mark.cl mark.di (v.cw - mark.di) v.restarted v.stop)

/-- The place behind the current destination. -/
def Mark.next (mark : Mark) : Nat :=
  match mark.cl with
  | none => 0
  | some i => i + 1

/-- `ip_vs_wrr_schedule`: the destination, if any, and the new mark. -/
def schedule (mark : Mark) (fuel : Nat) : Option (Option Nat × Mark) :=
  if mark.mw = 0 then
    some (none, mark)
  else
    loop dests mark fuel
      { start := mark.next, cw := mark.cw, lastPass := false, restarted := false, stop := none }

/-- Several calls of `ip_vs_wrr_schedule`, and what they choose. -/
def scheduleTimes (dests : List Dest) : Nat → Mark → Nat → Option (List (Option Nat) × Mark)
  | 0, mark, _ => some ([], mark)
  | n + 1, mark, fuel =>
    (schedule dests mark fuel).bind fun r =>
      (scheduleTimes dests n r.2 fuel).bind fun rs => some (r.1 :: rs.1, rs.2)

/-- The marks of a service with the given destinations.  Weights and overload flags may differ from
those of the last change in calls of `ip_vs_wrr_schedule`. -/
inductive Reach : List Dest → Mark → Prop
  | init (dests : List Dest) : Reach dests (initSvc dests)
  | changed {dests : List Dest} {mark : Mark} (h : Reach dests mark) (dests' : List Dest) :
      Reach dests' (destChanged dests' mark)
  | schedule {dests dests' : List Dest} {mark mark' : Mark} {dest : Option Nat}
      (h : Reach dests mark) (hlength : dests'.length = dests.length)
      (hcall : Returns (schedule dests' mark) (dest, mark')) : Reach dests mark'

end LinuxKernel.Wrr
