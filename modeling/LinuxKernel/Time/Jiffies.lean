import LinuxKernel.Arith.ReciprocalDiv
import Mathlib.Data.Nat.Prime.Basic

/-!
# Conversion between time and jiffies

`timespec64_to_jiffies()` and `jiffies_to_timespec64()` on machines of 64 bits, for any `HZ`.
The quotient by the length of a tick is found with two multipliers that are rounded up.
-/

namespace LinuxKernel.Time

variable (hz : Nat)

def nsecPerSec : Nat := 10 ^ 9

def tickNsec : Nat := (nsecPerSec + hz / 2) / hz

def shiftHz : Nat :=
  if hz < 24 then 4 else if hz < 48 then 5 else if hz < 96 then 6 else if hz < 192 then 7
  else if hz < 384 then 8 else if hz < 768 then 9 else if hz < 1536 then 10
  else if hz < 3072 then 11 else if hz < 6144 then 12 else 13

def secJiffieSc : Nat :=
  if ((nsecPerSec <<< 2) / tickNsec hz) <<< (31 - shiftHz hz - 2) &&& 0x80000000 = 0 then
    32 - shiftHz hz
  else 31 - shiftHz hz

def secConversion : Nat :=
  ((nsecPerSec <<< secJiffieSc hz) + tickNsec hz - 1) / tickNsec hz

def nsecConversion : Nat :=
  ((1 <<< (secJiffieSc hz + 29)) + tickNsec hz - 1) / tickNsec hz

def shDiv (nom den lsh : Nat) : Nat :=
  (nom / den) <<< lsh + ((nom % den) <<< lsh + den / 2) / den

def maxJiffyOffset : Nat := (2 ^ 63 - 1) / 2 - 1

def maxSecInJiffies : Nat :=
  shDiv ((maxJiffyOffset >>> secJiffieSc hz) * tickNsec hz) nsecPerSec 1 - 1

/-- `__timespec64_to_jiffies()`, in words of 64 bits. -/
def timespec64ToJiffies (sec nsec : Nat) : Nat :=
  let nsec := if maxSecInJiffies hz ≤ sec then 0 else nsec + tickNsec hz - 1
  let sec := if maxSecInJiffies hz ≤ sec then maxSecInJiffies hz else sec
  ((sec * secConversion hz % 2 ^ 64 + (nsec * nsecConversion hz % 2 ^ 64) >>> 29) % 2 ^ 64) >>>
    secJiffieSc hz

/-- `tv_sec` and `tv_nsec`. -/
def jiffiesToTimespec64 (jiffies : Nat) : Nat × Nat :=
  (jiffies * tickNsec hz % 2 ^ 64 / nsecPerSec, jiffies * tickNsec hz % 2 ^ 64 % nsecPerSec)

/-- What the scale gives: the multiplier of the seconds is exact, and the rounding of that of the
nanoseconds does not show up to a second and a tick. -/
def Scaled : Prop :=
  hz * tickNsec hz = nsecPerSec ∧ secConversion hz = hz * 2 ^ secJiffieSc hz ∧
    2 ^ (secJiffieSc hz + 29) ≤ tickNsec hz * nsecConversion hz ∧
    (nsecPerSec + tickNsec hz) *
      (tickNsec hz * nsecConversion hz - 2 ^ (secJiffieSc hz + 29)) < 2 ^ (secJiffieSc hz + 29) ∧
    (nsecPerSec + tickNsec hz) * nsecConversion hz < 2 ^ 64 ∧
    maxSecInJiffies hz * secConversion hz + 2 ^ 35 ≤ 2 ^ 64 ∧
    maxSecInJiffies hz * nsecPerSec ≤ 2 ^ 64
deriving Decidable

variable {hz} {sec nsec : Nat}

theorem scaled_of_dvd (hlow : 12 ≤ hz) (hhigh : hz < 12288) (hdvd : hz ∣ nsecPerSec) :
    Scaled hz := by
  have hall : ∀ a < 10, ∀ b < 10, 12 ≤ 2 ^ a * 5 ^ b → 2 ^ a * 5 ^ b < 12288 →
      Scaled (2 ^ a * 5 ^ b) := by
    decide +kernel
  obtain ⟨x, y, hx, hy, rfl⟩ := Nat.dvd_mul.mp (show hz ∣ 2 ^ 9 * 5 ^ 9 from hdvd)
  obtain ⟨a, ha, rfl⟩ := (Nat.dvd_prime_pow Nat.prime_two).mp hx
  obtain ⟨b, hb, rfl⟩ := (Nat.dvd_prime_pow Nat.prime_five).mp hy
  exact hall a (Nat.lt_succ_of_le ha) b (Nat.lt_succ_of_le hb) hlow hhigh

theorem Scaled.tick_pos (h : Scaled hz) : 0 < tickNsec hz := by
  refine Nat.pos_of_ne_zero fun hzero => ?_
  have htick := h.1
  rw [hzero] at htick
  cases htick

/-- The ticks, rounded up, with products and sums in 64 bits. -/
theorem Scaled.toJiffies (h : Scaled hz) (hsec : sec < maxSecInJiffies hz)
    (hnsec : nsec < nsecPerSec) :
    (nsec + tickNsec hz - 1) * nsecConversion hz < 2 ^ 64 ∧
      sec * secConversion hz + (nsec + tickNsec hz - 1) * nsecConversion hz / 2 ^ 29 < 2 ^ 64 ∧
      timespec64ToJiffies hz sec nsec =
        (sec * nsecPerSec + nsec + tickNsec hz - 1) / tickNsec hz := by
  have hpos := h.tick_pos
  obtain ⟨htick, hconv, hlow, herror, hsmall, hmax, -⟩ := h
  have hn : nsec + tickNsec hz - 1 ≤ nsecPerSec + tickNsec hz := by omega
  have hsum : sec * nsecPerSec + nsec + tickNsec hz - 1 =
      sec * hz * tickNsec hz + (nsec + tickNsec hz - 1) := by
    rw [Nat.mul_assoc, htick]
    omega
  have hfits : (nsec + tickNsec hz - 1) * nsecConversion hz < 2 ^ 64 :=
    (Nat.mul_le_mul_right _ hn).trans_lt hsmall
  have hsecs : sec * secConversion hz ≤ maxSecInJiffies hz * secConversion hz :=
    Nat.mul_le_mul_right _ hsec.le
  have hquot : (nsec + tickNsec hz - 1) * nsecConversion hz / 2 ^ (secJiffieSc hz + 29) =
      (nsec + tickNsec hz - 1) / tickNsec hz :=
    Arith.mul_div_of_error hpos hlow ((Nat.mul_le_mul_right _ hn).trans_lt herror)
  have htotal : sec * secConversion hz + (nsec + tickNsec hz - 1) * nsecConversion hz / 2 ^ 29 <
      2 ^ 64 := by
    omega
  refine ⟨hfits, htotal, ?_⟩
  simp only [timespec64ToJiffies, if_neg (Nat.not_le_of_lt hsec), Nat.shiftRight_eq_div_pow,
    Nat.mod_eq_of_lt hfits]
  rw [Nat.mod_eq_of_lt (a := sec * secConversion hz) (by omega), Nat.mod_eq_of_lt htotal, hsum,
    Nat.add_comm, Nat.add_comm (sec * hz * tickNsec hz), Nat.add_mul_div_right _ _ hpos, ← hquot,
    hconv, ← Nat.mul_assoc, Nat.add_mul_div_right _ _ (Nat.two_pow_pos _), Nat.div_div_eq_div_mul,
    ← Nat.pow_add, Nat.add_comm 29]

/-- On 64-bit machines a time is rounded up to ticks without overflow, and ticks converted to a
time and back stay the same. -/
theorem timespec_to_jiffies_exact (hz : Nat) (hlow : 12 ≤ hz) (hhigh : hz < 12288)
    (hdvd : hz ∣ nsecPerSec) :
    (∀ sec < maxSecInJiffies hz, ∀ nsec < nsecPerSec,
      (nsec + tickNsec hz - 1) * nsecConversion hz < 2 ^ 64 ∧
      sec * secConversion hz + (nsec + tickNsec hz - 1) * nsecConversion hz / 2 ^ 29 < 2 ^ 64 ∧
      timespec64ToJiffies hz sec nsec = (sec * nsecPerSec + nsec + tickNsec hz - 1) / tickNsec hz) ∧
    ∀ jiffies, jiffies * tickNsec hz < maxSecInJiffies hz * nsecPerSec →
      timespec64ToJiffies hz (jiffiesToTimespec64 hz jiffies).1
        (jiffiesToTimespec64 hz jiffies).2 = jiffies := by
  have h := scaled_of_dvd hlow hhigh hdvd
  refine ⟨fun sec hsec nsec hnsec => h.toJiffies hsec hnsec, fun jiffies hj => ?_⟩
  have hmax := h.2.2.2.2.2.2
  have hpos := h.tick_pos
  have hnsec : 0 < nsecPerSec := by decide
  rw [jiffiesToTimespec64, Nat.mod_eq_of_lt (hj.trans_le hmax),
    (h.toJiffies ((Nat.div_lt_iff_lt_mul hnsec).mpr hj) (Nat.mod_lt _ hnsec)).2.2,
    Nat.div_add_mod', Nat.add_sub_assoc hpos, Nat.add_comm, Nat.add_mul_div_right _ _ hpos,
    Nat.div_eq_of_lt (Nat.sub_one_lt hpos.ne'), Nat.zero_add]

theorem timespec_to_jiffies_exact_hundred :
    timespec64ToJiffies 100 3 1 = 301 ∧
      timespec64ToJiffies 100 (jiffiesToTimespec64 100 301).1 (jiffiesToTimespec64 100 301).2 =
        301 := by
  obtain ⟨hticks, hback⟩ := timespec_to_jiffies_exact 100 (by decide) (by decide) (by decide)
  exact ⟨(hticks 3 (by decide) 1 (by decide)).2.2, hback 301 (by decide)⟩

end LinuxKernel.Time
