import Mathlib.Algebra.Order.Ring.Int

/-!
# The device of the physical memory

`my_read()` and `my_llseek()` of `dram.c`.  A position is a `loff_t` and is compared with the size
as an `unsigned long`.  A read is cut at the end of the mapped page; the size of the device is not
a multiple of the size of a page.
-/

namespace LinuxKernel.Mm

def dramSize : Int := 0x25f5ffff8

def toUlong (x : Int) : Int := x % 2 ^ 64

def toLoff (x : Int) : Int := x.bmod (2 ^ 64)

def toCInt (x : Int) : Int := x.bmod (2 ^ 32)

/-- What a call returns, the position after it and the physical addresses of the bytes copied to
the user. -/
structure DramResult where
  ret : Int
  pos : Int
  copied : List Int

/-- The addresses of `n` bytes. -/
def addresses (first : Int) (n : Nat) : List Int :=
  (List.range n).map fun i : Nat => first + i

/-- `my_read()`.  `copy_to_user()` fails to copy `missing` bytes, at most all. -/
def myRead (count missing : Nat) (pos : Int) : DramResult :=
  if dramSize ≤ toUlong pos then ⟨0, pos, []⟩
  else
    let pageNumber := toCInt (toUlong pos / 4096)
    let pageIndent := toCInt (toUlong pos % 4096)
    let count := if 4096 < toUlong (pageIndent + count) then (4096 - pageIndent).toNat else count
    let more := min missing count
    let copied := addresses (pageNumber * 4096 + pageIndent) (count - more)
    if toCInt more ≠ 0 then ⟨-14, pos, copied⟩
    else ⟨count, toLoff (pos + count), copied⟩

/-- The new position of `my_llseek()`, before it is checked. -/
def seekTarget (offset whence pos : Int) : Int :=
  if whence = 0 then toLoff offset
  else if whence = 1 then toLoff (pos + offset)
  else if whence = 2 then toLoff (dramSize + offset)
  else -1

def myLlseek (offset whence pos : Int) : DramResult :=
  let newpos := seekTarget offset whence pos
  if newpos < 0 ∨ dramSize < toUlong newpos then ⟨-22, pos, []⟩ else ⟨newpos, newpos, []⟩

def DramResult.given (r : DramResult) : List Int :=
  if r.ret < 0 then [] else r.copied

/-- The bytes asked for, or up to the end of the page, are in the device. -/
def Inside (pos : Int) (count : Nat) : Prop :=
  (count : Int) + 4096 ≤ 2 ^ 64 ∧
    (dramSize ≤ pos ∨ pos + count ≤ dramSize ∨ pos / 4096 < dramSize / 4096)

/-- The states of an open file after reads inside the device and any seeks: the position, and the
bytes read in turn from `start` on. -/
inductive DramRun : Int → Int → List Int → Prop
  | opened : DramRun 0 0 []
  | mark {start pos : Int} {bytes : List Int} : DramRun start pos bytes → DramRun pos pos []
  | read {start pos : Int} {bytes : List Int} (count missing : Nat) :
      DramRun start pos bytes → Inside pos count →
      DramRun start (myRead count missing pos).pos (bytes ++ (myRead count missing pos).given)
  | llseek {start pos : Int} {bytes : List Int} (offset whence : Int) :
      DramRun start pos bytes →
      DramRun (myLlseek offset whence pos).pos (myLlseek offset whence pos).pos []

variable {pos start x first a : Int} {count missing n : Nat} {bytes : List Int}

theorem toUlong_of_lt (h₀ : 0 ≤ x) (h : x < 2 ^ 64) : toUlong x = x :=
  Int.emod_eq_of_lt h₀ h

theorem toLoff_of_lt (h₀ : 0 ≤ x) (h : x < 2 ^ 63) : toLoff x = x :=
  Int.bmod_eq_of_le (by omega) (by omega)

theorem toCInt_of_lt (h₀ : 0 ≤ x) (h : x < 2 ^ 31) : toCInt x = x :=
  Int.bmod_eq_of_le (by omega) (by omega)

theorem dramSize_eq : dramSize = 0x25f5ffff8 := rfl

theorem mem_addresses : a ∈ addresses first n ↔ first ≤ a ∧ a < first + n := by
  simp only [addresses, List.mem_map, List.mem_range]
  constructor
  · rintro ⟨i, hi, rfl⟩
    omega
  · exact fun h => ⟨(a - first).toNat, by omega, by omega⟩

theorem addresses_append (m n : Nat) :
    addresses first m ++ addresses (first + m) n = addresses first (m + n) := by
  simp [addresses, List.range_add, Int.add_assoc, Function.comp_def]

/-- A read before the end, without conversions: `n` bytes are asked for or left in the page. -/
theorem myRead_eq (hpos : 0 ≤ pos) (hlt : pos < dramSize) (hcount : (count : Int) + 4096 ≤ 2 ^ 64) :
    ∃ n : Nat, n = min count (4096 - pos % 4096).toNat ∧
      myRead count missing pos =
        if min missing n = 0 then ⟨n, pos + n, addresses pos n⟩
        else ⟨-14, pos, addresses pos (n - min missing n)⟩ := by
  have hsize := dramSize_eq
  have hplace : pos / 4096 * 4096 + pos % 4096 = pos := Int.ediv_mul_add_emod pos 4096
  have hsum : toUlong (pos % 4096 + (count : Int)) = pos % 4096 + count :=
    toUlong_of_lt (by omega) (by omega)
  have hclip : (if 4096 < pos % 4096 + (count : Int) then (4096 - pos % 4096).toNat else count) =
      min count (4096 - pos % 4096).toNat := by
    split <;> omega
  refine ⟨_, rfl, ?_⟩
  rw [myRead, toUlong_of_lt hpos (by omega), if_neg (by omega), toCInt_of_lt (by omega) (by omega),
    toCInt_of_lt (by omega) (by omega)]
  simp only [hsum, hclip, hplace]
  rw [toCInt_of_lt (by omega) (by omega), toLoff_of_lt (by omega) (by omega)]
  split_ifs with hmore hzero hzero
  · omega
  · rfl
  · rw [hzero, Nat.sub_zero]
  · omega

/-- A read inside the device gives the next `n` bytes and moves behind them.  It copies nothing
outside the device or the page, and returns 0 only at the end. -/
theorem myRead_inside (hpos : 0 ≤ pos) (hle : pos ≤ dramSize) (hin : Inside pos count) :
    ∃ n : Nat, (myRead count missing pos).pos = pos + n ∧ pos + n ≤ dramSize ∧
      (myRead count missing pos).given = addresses pos n ∧
      (∀ a ∈ (myRead count missing pos).copied, a < dramSize ∧ a / 4096 = pos / 4096) ∧
      (0 < count → (myRead count missing pos).ret = 0 → pos = dramSize) := by
  obtain ⟨hcount, hin⟩ := hin
  have hsize := dramSize_eq
  by_cases hend : dramSize ≤ pos
  · rw [myRead, toUlong_of_lt hpos (by omega), if_pos hend]
    exact ⟨0, by simp, by omega, rfl, List.forall_mem_nil _, fun _ _ => le_antisymm hle hend⟩
  obtain ⟨n, hn, heq⟩ := @myRead_eq pos count missing hpos (by omega) hcount
  rw [heq]
  split
  · refine ⟨n, rfl, by omega, if_neg (by dsimp only; omega), fun a ha => ?_, ?_⟩
    · rw [mem_addresses] at ha
      omega
    · dsimp only
      omega
  · refine ⟨0, by simp, by omega, rfl, fun a ha => ?_, fun _ h => by cases h⟩
    rw [mem_addresses] at ha
    omega

theorem seekTarget_lt (offset whence pos : Int) : seekTarget offset whence pos < 2 ^ 63 := by
  have hloff : ∀ x, toLoff x < 2 ^ 63 := fun x => Int.bmod_lt (by decide)
  unfold seekTarget
  split_ifs
  case neg => decide
  all_goals exact hloff _

theorem myLlseek_pos (offset whence : Int) (hpos : 0 ≤ pos) (hle : pos ≤ dramSize) :
    0 ≤ (myLlseek offset whence pos).pos ∧ (myLlseek offset whence pos).pos ≤ dramSize := by
  have hlt := seekTarget_lt offset whence pos
  rw [myLlseek]
  generalize seekTarget offset whence pos = newpos at *
  split
  · exact ⟨hpos, hle⟩
  · next hok =>
    obtain ⟨hnonneg, hsmall⟩ := not_or.mp hok
    rw [toUlong_of_lt (by omega) (by omega)] at hsmall
    exact ⟨Int.not_lt.mp hnonneg, Int.not_lt.mp hsmall⟩

theorem DramRun.inside (h : DramRun start pos bytes) :
    0 ≤ start ∧ pos ≤ dramSize ∧ ∃ n : Nat, pos = start + n ∧ bytes = addresses start n := by
  induction h with
  | opened => exact ⟨le_rfl, by decide, 0, rfl, rfl⟩
  | @mark start pos bytes _ ih =>
    obtain ⟨hstart, hle, n, hn, -⟩ := ih
    exact ⟨by omega, hle, 0, by simp, rfl⟩
  | @read start pos bytes count missing _ hin ih =>
    obtain ⟨hstart, hle, n, rfl, rfl⟩ := ih
    obtain ⟨m, hm, hend, hgiven, -⟩ := @myRead_inside _ count missing (by omega) hle hin
    rw [hm, hgiven, addresses_append]
    exact ⟨hstart, hend, n + m, by omega, rfl⟩
  | @llseek start pos bytes offset whence _ ih =>
    obtain ⟨hstart, hle, n, hn, -⟩ := ih
    obtain ⟨hnonneg, hend⟩ := myLlseek_pos offset whence (by omega) hle
    exact ⟨hnonneg, hend, 0, by simp, rfl⟩

/-- While the reads are inside the device, the position stays in it, nothing outside it or the page
is copied, and reads to the end give what was left. -/
theorem dram_in_bounds (h : DramRun start pos bytes) :
    (0 ≤ pos ∧ pos ≤ dramSize) ∧
    ∀ count missing, Inside pos count →
      (∀ a ∈ (myRead count missing pos).copied, a < dramSize ∧ a / 4096 = pos / 4096) ∧
      (0 < count → (myRead count missing pos).ret = 0 →
        bytes = addresses start (dramSize - start).toNat) := by
  obtain ⟨hstart, hle, n, rfl, rfl⟩ := h.inside
  refine ⟨⟨by omega, hle⟩, fun count missing hin => ?_⟩
  obtain ⟨-, -, -, -, hcopied, hzero⟩ := @myRead_inside _ count missing (by omega) hle hin
  refine ⟨hcopied, fun hcount hret => ?_⟩
  rw [← hzero hcount hret, add_sub_cancel_left, Int.toNat_natCast]

theorem dram_in_bounds_opened :
    (∀ a ∈ (myRead 100 0 0).copied, a < dramSize ∧ a / 4096 = 0) ∧ Inside 0 100 :=
  have hin : Inside 0 100 := ⟨by decide, by decide⟩
  ⟨((dram_in_bounds .opened).2 100 0 hin).1, hin⟩

/-- A read in the last page copies bytes behind the device. -/
theorem dram_reads_behind :
    (myLlseek 0x25f5ff000 0 0).pos = 0x25f5ff000 ∧
      dramSize < (myRead 4096 0 0x25f5ff000).pos ∧
      dramSize ∈ (myRead 4096 0 0x25f5ff000).copied := by
  have hsize := dramSize_eq
  obtain ⟨n, hn, heq⟩ := @myRead_eq 0x25f5ff000 4096 0 (by decide) (by decide) (by decide)
  rw [heq, Nat.zero_min, if_pos rfl]
  refine ⟨by decide, ?_, mem_addresses.mpr ⟨by decide, ?_⟩⟩
  · dsimp only
    omega
  · omega

end LinuxKernel.Mm
