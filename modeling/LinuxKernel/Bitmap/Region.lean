import LinuxKernel.Lib.Returns
import LinuxKernel.Lib.WordBits

/-!
# Regions of bitmaps

The region allocator of `lib/bitmap.c`.  A long has `2 ^ k` bits.  A bitmap is the memory
from its first long on; how many bits it has is known to the callers.
-/

namespace LinuxKernel.Bitmap

open Lib

variable {k : Nat}

/-- The longs from the start of a bitmap on. -/
abbrev Longs (k : Nat) :=
  Nat → BitVec (2 ^ k)

def bitsPerLong (k : Nat) : Nat :=
  2 ^ k

def bitsToLongs (k nr : Nat) : Nat :=
  (nr + bitsPerLong k - 1) / bitsPerLong k

def enomem : Int := 12

def ebusy : Int := 16

/-- `REG_OP_ISFREE`, `REG_OP_ALLOC` and `REG_OP_RELEASE`. -/
inductive RegOp where
  | isfree
  | alloc
  | release
deriving DecidableEq

variable (bitmap : Longs k)

/-- `__reg_op()` of a region of fewer than `2 ^ 31` bits, whose number is an `int` there. -/
def regOp (pos order : Nat) (op : RegOp) : Int × Longs k :=
  let nbitsReg := 2 ^ order
  let index := pos / bitsPerLong k
  let offset := pos - index * bitsPerLong k
  let nlongsReg := bitsToLongs k nbitsReg
  let nbitsinlong := min nbitsReg (bitsPerLong k)
  let mask := onesMask (2 ^ k) nbitsinlong offset
  match op with
  | .isfree => (if noneMasked mask bitmap index nlongsReg then 1 else 0, bitmap)
  | .alloc => (0, mapWords (· ||| mask) index nlongsReg bitmap)
  | .release => (0, mapWords (· &&& ~~~mask) index nlongsReg bitmap)

/-- An `unsigned int` that is returned as an `int`. -/
def asInt (n : Nat) : Int :=
  if n < 2 ^ 31 then n else n - 2 ^ 32

/-- The loop of `bitmap_find_free_region()` on `unsigned int`s. -/
def findLoop (bitmap : Longs k) (bits order : Nat) : Nat → Nat → Option (Int × Longs k)
  | 0, _ => none
  | fuel + 1, pos =>
    let stop := (pos + 2 ^ order) % 2 ^ 32
    if stop ≤ bits then
      if (regOp bitmap pos order .isfree).1 = 0 then
        findLoop bitmap bits order fuel stop
      else
        some (asInt pos, (regOp bitmap pos order .alloc).2)
    else
      some (-enomem, bitmap)

def bitmapFindFreeRegion (bits order fuel : Nat) : Option (Int × Longs k) :=
  findLoop bitmap bits order fuel 0

def bitmapReleaseRegion (pos order : Nat) : Longs k :=
  (regOp bitmap pos order .release).2

def bitmapAllocateRegion (pos order : Nat) : Int × Longs k :=
  if (regOp bitmap pos order .isfree).1 = 0 then
    (-ebusy, bitmap)
  else
    regOp bitmap pos order .alloc

/-- A region: its first bit and the logarithm of its size. -/
structure Region where
  pos : Nat
  order : Nat
deriving DecidableEq

namespace Region

def Has (r : Region) (b : Nat) : Prop :=
  r.pos ≤ b ∧ b < r.pos + 2 ^ r.order

/-- The region is aligned to its size and lies in the bitmap. -/
structure Within (r : Region) (bits : Nat) : Prop where
  aligned : 2 ^ r.order ∣ r.pos
  below : r.pos + 2 ^ r.order ≤ bits

def Free (r : Region) (bitmap : Longs k) : Prop :=
  ∀ b, r.Has b → bitAt bitmap b = false

end Region

/-- The states reached from zeros: the bitmap and the regions that were returned to the callers. -/
inductive RegionReach (bits : Nat) : Longs k → List Region → Prop
  | zeroed (bitmap : Longs k) :
      (∀ b, b < bits → bitAt bitmap b = false) → RegionReach bits bitmap []
  | find {bitmap bitmap' : Longs k} {live : List Region} {ret : Int} (order : Nat) :
      RegionReach bits bitmap live → order < 32 →
      Returns (bitmapFindFreeRegion bitmap bits order) (ret, bitmap') →
      RegionReach bits bitmap' (if ret = -enomem then live else ⟨ret.toNat, order⟩ :: live)
  | allocate {bitmap bitmap' : Longs k} {live : List Region} {ret : Int} (r : Region) :
      RegionReach bits bitmap live → r.Within bits →
      bitmapAllocateRegion bitmap r.pos r.order = (ret, bitmap') →
      RegionReach bits bitmap' (if ret = 0 then r :: live else live)
  | release {bitmap : Longs k} {live : List Region} (r : Region) :
      RegionReach bits bitmap live → r ∈ live →
      RegionReach bits (bitmapReleaseRegion bitmap r.pos r.order) (live.erase r)

end LinuxKernel.Bitmap
