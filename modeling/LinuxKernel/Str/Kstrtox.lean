import LinuxKernel.Lib.Checked
import LinuxKernel.Str.Strtox
import Mathlib.Data.List.Sort

/-!
# The numerals of `kstrtoull()` and `kstrtoll()`

The strings that are accepted are described without the parser.  A string has less than
2^31 bytes, so the count of digits does not reach the overflow bit; a number is stored only
where `Except.ok` is returned.
-/

namespace LinuxKernel.Str

open List

/-- The value of a digit, and 16 for all other characters. -/
def digit (c : UInt8) : Nat :=
  if 48 ≤ c ∧ c ≤ 57 then c.toNat - 48
  else if 65 ≤ c ∧ c ≤ 70 then c.toNat - 55
  else if 97 ≤ c ∧ c ≤ 102 then c.toNat - 87
  else 16

/-- The number that digits stand for, behind the number `v`. -/
def value (radix : Nat) : Nat → CStr → Nat :=
  foldl fun v c => v * radix + digit c

/-- The base of the digits and the string behind the prefix.  For the base 0, `0x` begins a
hexadecimal string, another `0` an octal one. -/
def docPrefix (base : Nat) (s : CStr) : Nat × CStr :=
  if (base = 0 ∨ base = 16) ∧ (s.take 2 = [48, 120] ∨ s.take 2 = [48, 88]) then (16, s.drop 2)
  else (if base ≠ 0 then base else if head s = 48 then 8 else 10, s)

/-- At least one digit and an optional newline; the digits stand for `n`. -/
def Digits (radix : Nat) (s : CStr) (n : Nat) : Prop :=
  ∃ ds tail, s = ds ++ tail ∧ ds ≠ [] ∧ (∀ c ∈ ds, digit c < radix) ∧ (tail = [] ∨ tail = [10]) ∧
    n = value radix 0 ds

/-- A string without a sign that stands for `n`. -/
def Numeral (base : Nat) (s : CStr) (n : Nat) : Prop :=
  Digits (docPrefix base s).1 (docPrefix base s).2 n

/-- A string with an optional sign that stands for `z`. -/
def Denotes (minus : Bool) (base : Nat) (s : CStr) (z : Int) : Prop :=
  ∃ body n, Numeral base body n ∧
    ((s = body ∨ s = 43 :: body) ∧ z = n ∨ minus = true ∧ s = 45 :: body ∧ z = -n)

theorem char_facts (c : UInt8) :
    (digitVal c).elim 16 UInt32.toNat = digit c ∧ (isxdigit c = true ↔ digit c < 16) ∧
      (tolower c = 120 ↔ c = 120 ∨ c = 88) := by
  obtain ⟨⟨c⟩⟩ := c
  revert c
  decide +kernel

/-- The accumulator and overflow bit of `_parse_integer()` after digits of value `v`. -/
def Acc (v : Nat) (res : UInt64) (overflow : Bool) : Prop :=
  if overflow then 2 ^ 64 ≤ v else res.toNat = v

variable {base val : UInt32} {res : UInt64} {overflow : Bool} {v n : Nat} {s : CStr}

theorem lt_of_and_eq_zero (h : res &&& 0xF000000000000000 = 0) : res.toNat < 2 ^ 60 := by
  have hand : (res.toNat &&& 0xF000000000000000) >>> 60 = 0 := by
    simpa using congrArg (·.toNat >>> 60) h
  rw [Nat.shiftRight_and_distrib, show 0xF000000000000000 >>> 60 = 2 ^ 4 - 1 from rfl,
    Nat.and_two_pow_sub_one_eq_mod, Nat.shiftRight_eq_div_pow] at hand
  have hlt := res.toNat_lt
  omega

theorem Acc.step (h : Acc v res overflow) (hpos : 0 < base.toNat) (hbase : base.toNat ≤ 16)
    (hval : val.toNat < base.toNat) :
    Acc (v * base.toNat + val.toNat) (res * base.toUInt64 + val.toUInt64)
      (if res &&& 0xF000000000000000 ≠ 0 ∧
          res > (0xFFFFFFFFFFFFFFFF - val.toUInt64) / base.toUInt64 then true else overflow) := by
  have hgt : res > (0xFFFFFFFFFFFFFFFF - val.toUInt64) / base.toUInt64 ↔
      2 ^ 64 ≤ res.toNat * base.toNat + val.toNat := by
    have hle : val.toUInt64 ≤ 0xFFFFFFFFFFFFFFFF := by
      rw [UInt64.le_iff_toNat_le, UInt32.toNat_toUInt64]
      exact (hval.le.trans hbase).trans (by decide)
    rw [gt_iff_lt, UInt64.lt_iff_toNat_lt, UInt64.toNat_div, UInt64.toNat_sub_of_le _ _ hle,
      UInt32.toNat_toUInt64, UInt32.toNat_toUInt64, Nat.div_lt_iff_lt_mul hpos]
    change 18446744073709551615 - val.toNat < _ ↔ _
    omega
  cases overflow with
  | true =>
    have hv : 2 ^ 64 ≤ v := h
    rw [ite_self]
    exact (hv.trans (Nat.le_mul_of_pos_right v hpos)).trans (Nat.le_add_right _ _)
  | false =>
    have hv : res.toNat = v := h
    rw [hv] at hgt
    split_ifs with hover
    · exact hgt.mp hover.2
    · have hlt : v * base.toNat + val.toNat < 2 ^ 64 := by
        by_contra hge
        have hsmall := lt_of_and_eq_zero (of_not_not fun hne => hover ⟨hne, hgt.mpr (by omega)⟩)
        have hmul := Nat.mul_le_mul (show v ≤ 2 ^ 60 - 1 by omega) hbase
        omega
      change (_ : UInt64).toNat = _
      rw [UInt64.toNat_add, UInt64.toNat_mul, UInt32.toNat_toUInt64, UInt32.toNat_toUInt64, hv,
        Nat.mod_add_mod, Nat.mod_eq_of_lt hlt]

theorem parseIntegerLoop_spec (hpos : 0 < base.toNat) (hbase : base.toNat ≤ 16) (rv : Nat)
    (h : Acc v res overflow) : ∃ res' overflow',
      Acc (value base.toNat v (s.takeWhile (digit · < base.toNat))) res' overflow' ∧
      parseIntegerLoop base s res rv overflow =
        (res', rv + (s.takeWhile (digit · < base.toNat)).length, overflow') := by
  fun_induction parseIntegerLoop base s res rv overflow generalizing v with
  | case1 => exact ⟨_, _, h, rfl⟩
  | case2 c s res rv overflow hnone =>
    have hc : 16 = digit c := by simpa [hnone] using (char_facts c).1
    rw [takeWhile_cons_of_neg (by simp; omega)]
    exact ⟨_, _, h, rfl⟩
  | case3 c s res rv overflow val hsome hge =>
    have hc : val.toNat = digit c := by simpa [hsome] using (char_facts c).1
    rw [ge_iff_le, UInt32.le_iff_toNat_le, hc] at hge
    rw [takeWhile_cons_of_neg (by simpa using hge)]
    exact ⟨_, _, h, rfl⟩
  | case4 c s res rv overflow val hsome hlt =>
    rename_i ih
    have hc : val.toNat = digit c := by simpa [hsome] using (char_facts c).1
    rw [ge_iff_le, UInt32.not_le, UInt32.lt_iff_toNat_lt] at hlt
    rw [takeWhile_cons_of_pos (by simpa [hc] using hlt), value, foldl_cons, ← hc, length_cons,
      ← Nat.add_assoc, Nat.add_right_comm]
    exact ih (h.step hpos hbase hlt)

theorem digits_iff {radix : Nat} (hradix : radix ≤ 16) :
    Digits radix s n ↔ s.takeWhile (digit · < radix) ≠ [] ∧
      (s.dropWhile (digit · < radix) = [] ∨ s.dropWhile (digit · < radix) = [10]) ∧
      n = value radix 0 (s.takeWhile (digit · < radix)) := by
  constructor
  · rintro ⟨ds, tail, rfl, hne, hds, htail, rfl⟩
    have hp : ∀ c ∈ ds, decide (digit c < radix) = true := fun c hc => decide_eq_true (hds c hc)
    have hten : ¬ digit 10 < radix := hradix.not_gt
    rw [takeWhile_append_of_pos hp, dropWhile_append_of_pos hp]
    obtain rfl | rfl := htail <;> simp [hne, hten]
  · rintro ⟨hne, htail, rfl⟩
    exact ⟨_, _, takeWhile_append_dropWhile.symm, hne,
      fun c hc => of_decide_eq_true (all_eq_true.mp all_takeWhile c hc), htail, rfl⟩

theorem Digits.head_lt {radix : Nat} (h : Digits radix s n) : digit (head s) < radix := by
  obtain ⟨_ | ⟨c, ds⟩, tail, rfl, hne, hds, -⟩ := h
  · contradiction
  · exact hds c mem_cons_self

theorem begins_iff : head s = 48 ∧ tolower (head (s.drop 1)) = 120 ↔
    s.take 2 = [48, 120] ∨ s.take 2 = [48, 88] := by
  rw [(char_facts _).2.2]
  rcases s with _ | ⟨c, _ | ⟨d, s⟩⟩
  · decide
  · simp [head]
  · simp [head, and_or_left]

/-- The third character does not matter: `0x` without a digit is no number. -/
theorem numeral_iff : Numeral base.toNat s n ↔
    Digits (parseIntegerFixupRadix s base).2.toNat (parseIntegerFixupRadix s base).1 n := by
  by_cases h : base = 0 ∧ (s.take 2 = [48, 120] ∨ s.take 2 = [48, 88]) ∧
      isxdigit (head (s.drop 2)) = false
  · obtain ⟨rfl, hx, hdigit⟩ := h
    have hfix : parseIntegerFixupRadix s 0 = (s, 8) := by
      simp [parseIntegerFixupRadix, begins_iff.mpr hx, hdigit]
    have hdoc : docPrefix 0 s = (16, s.drop 2) := if_pos ⟨.inl rfl, hx⟩
    refine iff_of_false (fun hn => ?_) fun hn => ?_
    · rw [Numeral, UInt32.toNat_zero, hdoc] at hn
      exact absurd ((char_facts _).2.1.mpr hn.head_lt) (by simp [hdigit])
    · rw [hfix] at hn
      have hruns := (digits_iff (show 8 ≤ 16 by decide)).mp hn
      rw [← s.take_append_drop 2] at hruns
      obtain hx | hx := hx <;> simp [hx, digit] at hruns
  · have hzero : base.toNat = 0 ↔ base = 0 := UInt32.toNat_inj (b := 0)
    have hsix : base.toNat = 16 ↔ base = 16 := UInt32.toNat_inj (b := 16)
    simp only [Numeral, docPrefix, parseIntegerFixupRadix, ← begins_iff, hzero, hsix, ne_eq] at h ⊢
    split_ifs <;> simp_all

theorem parseIntegerFixupRadix_bounds (hbase : base = 0 ∨ 2 ≤ base ∧ base ≤ 16) (hs : 0 ∉ s) :
    0 ∉ (parseIntegerFixupRadix s base).1 ∧ 0 < (parseIntegerFixupRadix s base).2.toNat ∧
      (parseIntegerFixupRadix s base).2.toNat ≤ 16 := by
  have hdrop : 0 ∉ s.drop 2 := fun h => hs (mem_of_mem_drop h)
  have hpos : base = 0 ∨ 0 < base.toNat ∧ base.toNat ≤ 16 :=
    hbase.imp_right fun h => ⟨Nat.lt_of_lt_of_le (by decide) h.1, h.2⟩
  simp only [parseIntegerFixupRadix]
  split_ifs <;> simp_all

theorem end_iff (h : 0 ∉ s) :
    head (if head s = 10 then s.drop 1 else s) = 0 ↔ s = [] ∨ s = [10] := by
  rcases s with _ | ⟨c, _ | ⟨d, s⟩⟩ <;> grind [head]

/-- A conversion gives the numbers of `P` that fit. -/
def Reads (r : Except Int UInt64) (P : Nat → Prop) : Prop :=
  (∀ n, P n → r = if n < 2 ^ 64 then .ok (.ofNat n) else .error (-ERANGE)) ∧
    ∀ v, r = .ok v → P v.toNat

theorem kstrtoullDigits_reads (hbase : base = 0 ∨ 2 ≤ base ∧ base ≤ 16) (hs : 0 ∉ s) :
    Reads (kstrtoullDigits s base) (Numeral base.toNat s) := by
  obtain ⟨ht, hpos, hle⟩ := parseIntegerFixupRadix_bounds hbase hs
  simp only [Reads, numeral_iff, kstrtoullDigits]
  generalize (parseIntegerFixupRadix s base).1 = t, (parseIntegerFixupRadix s base).2 = radix at *
  obtain ⟨res, overflow, hacc, hloop⟩ := @parseIntegerLoop_spec _ _ _ _ t hpos hle 0
    (show Acc 0 0 false from rfl)
  have hdrop : t.drop (t.takeWhile (digit · < radix.toNat)).length =
      t.dropWhile (digit · < radix.toNat) := by
    nth_rewrite 2 [← takeWhile_append_dropWhile (p := (digit · < radix.toNat)) (l := t)]
    exact drop_left
  have hend := @end_iff (t.dropWhile (digit · < radix.toNat))
    fun h => ht ((dropWhile_suffix _).subset h)
  simp only [digits_iff hle, parseInteger, hloop, Nat.zero_add,
    hdrop, ne_eq, hend, length_eq_zero_iff]
  cases overflow with
  | true =>
    have hge : 2 ^ 64 ≤ _ := hacc
    refine ⟨?_, fun v hv => by cases hv⟩
    rintro n ⟨-, -, rfl⟩
    exact (if_neg hge.not_gt).symm
  | false =>
    have hval : res.toNat = _ := hacc
    rw [← hval]
    refine ⟨?_, fun v hv => ?_⟩
    · rintro n ⟨hne, htail, rfl⟩
      rw [if_neg Bool.false_ne_true, if_neg hne, if_neg (not_not.mpr htail), if_pos res.toNat_lt,
        UInt64.ofNat_toNat]
    · grind

theorem Numeral.head_lt {base : Nat} (h : Numeral base s n) (hbase : base ≤ 16) :
    digit (head s) < 16 := by
  rw [Numeral, docPrefix] at h
  split at h
  · next hx => rw [(begins_iff.mpr hx.2).1]; decide
  · exact h.head_lt.trans_le (by split_ifs <;> omega)

theorem eq_cons_iff {c : UInt8} (hc : c ≠ 0) {t : CStr} :
    s = c :: t ↔ head s = c ∧ s.drop 1 = t := by
  cases s <;> simp [head, hc.symm]

theorem denotes_iff {minus : Bool} {base : Nat} (hbase : base ≤ 16) {z : Int} :
    Denotes minus base s z ↔
      if minus = true ∧ head s = 45 then ∃ n, Numeral base (s.drop 1) n ∧ z = -(n : Int)
      else ∃ n, Numeral base (if head s = 43 then s.drop 1 else s) n ∧ z = n := by
  have hhead : ∀ n, Numeral base s n → head s ≠ 43 ∧ head s ≠ 45 := fun n hn => by
    have hlt := hn.head_lt hbase
    constructor <;> rintro heq <;> rw [heq] at hlt <;> exact absurd hlt (by decide)
  simp only [Denotes, eq_cons_iff (show (43 : UInt8) ≠ 0 by decide),
    eq_cons_iff (show (45 : UInt8) ≠ 0 by decide)]
  grind

/-- The conversion to a signed number in `kstrtoll()`. -/
theorem Reads.signed {r : Except Int UInt64} {P : Nat → Prop} (h : Reads r P)
    {bad : UInt64 → Prop} [DecidablePred bad] {f : UInt64 → Int64} {g : Nat → Int}
    (hg : ∀ n, (g n).natAbs = n)
    (hbad : ∀ tmp, bad tmp ↔ g tmp.toNat < -2 ^ 63 ∨ 2 ^ 63 ≤ g tmp.toNat)
    (hf : ∀ tmp, ¬ bad tmp → (f tmp).toInt = g tmp.toNat) {out : Except Int Int64}
    (hout : out = do let tmp ← r; if bad tmp then .error (-ERANGE) else .ok (f tmp)) :
    (∀ v, out = .ok v ↔ ∃ n, P n ∧ v.toInt = g n) ∧
      ∀ z, (∃ n, P n ∧ z = g n) → z < -2 ^ 63 ∨ 2 ^ 63 ≤ z → out = .error (-ERANGE) := by
  subst hout
  refine ⟨fun v => ?_, ?_⟩
  · rw [Lib.bind_eq_ok]
    constructor
    · rintro ⟨tmp, htmp, hv⟩
      split_ifs at hv with hok
      cases hv
      exact ⟨_, h.2 tmp htmp, hf tmp hok⟩
    · rintro ⟨n, hn, heq⟩
      have hlow := v.le_toInt
      have hhigh := v.toInt_lt
      have habs := hg n
      have hnat : (UInt64.ofNat n).toNat = n := UInt64.toNat_ofNat_of_lt' (show n < 2 ^ 64 by omega)
      have hok : ¬ bad (.ofNat n) := by
        rw [hbad, hnat]
        omega
      refine ⟨.ofNat n, (h.1 n hn).trans (if_pos (by omega)), ?_⟩
      rw [if_neg hok, Int64.toInt_inj.mp (((hf _ hok).trans (by rw [hnat])).trans heq.symm)]
  · rintro z ⟨n, hn, rfl⟩ hrange
    rw [h.1 n hn]
    split_ifs with hlt
    · refine if_pos ((hbad _).mpr ?_)
      rwa [UInt64.toNat_ofNat_of_lt' hlt]
    · rfl

theorem toInt64_toInt (tmp : UInt64) : tmp.toInt64.toInt =
    if 2 * tmp.toNat < 2 ^ 64 then (tmp.toNat : Int) else (tmp.toNat : Int) - (2 ^ 64 : Nat) :=
  BitVec.toInt_eq_toNat_cond _

/-- `kstrtoull()` and `kstrtoll()` accept the numerals that fit. -/
theorem kstrtox_grammar (hbase : base = 0 ∨ 2 ≤ base ∧ base ≤ 16) (hs : 0 ∉ s) :
    (∀ v, kstrtoull s base = .ok v ↔ Denotes false base.toNat s v.toNat) ∧
    (∀ z, Denotes false base.toNat s z → 2 ^ 64 ≤ z → kstrtoull s base = .error (-ERANGE)) ∧
    (∀ v, kstrtoll s base = .ok v ↔ Denotes true base.toNat s v.toInt) ∧
    ∀ z, Denotes true base.toNat s z → z < -2 ^ 63 ∨ 2 ^ 63 ≤ z →
      kstrtoll s base = .error (-ERANGE) := by
  have hle : base.toNat ≤ 16 := by
    obtain rfl | h := hbase
    · decide
    · exact h.2
  have hdrop : 0 ∉ s.drop 1 := fun h => hs (mem_of_mem_drop h)
  have hreads : Reads (kstrtoull s base)
      (Numeral base.toNat (if head s = 43 then s.drop 1 else s)) :=
    kstrtoullDigits_reads hbase (by split; exacts [hdrop, hs])
  simp only [denotes_iff hle, Bool.false_eq_true, false_and, if_false, true_and]
  refine ⟨fun v => ⟨fun hv => ⟨_, hreads.2 v hv, rfl⟩, ?_⟩, ?_, ?_⟩
  · rintro ⟨n, hn, heq⟩
    obtain rfl := Int.ofNat_inj.mp heq
    exact (hreads.1 _ hn).trans (by simp [v.toNat_lt])
  · rintro z ⟨n, hn, rfl⟩ hge
    exact (hreads.1 n hn).trans (if_neg (by omega))
  · rw [kstrtoll]
    split
    · refine (kstrtoullDigits_reads hbase hdrop).signed (by simp) (fun tmp => ?_)
        (fun tmp hok => ?_) rfl
      all_goals
        have hlt := tmp.toNat_lt
        simp only [Int64.lt_iff_toInt_lt, toInt64_toInt, UInt64.toNat_neg, Int64.toInt_zero,
          UInt64.size] at *
        omega
    · refine hreads.signed (by simp) (fun tmp => ?_) (fun tmp hok => ?_) rfl
      all_goals
        have hlt := tmp.toNat_lt
        simp only [Int64.lt_iff_toInt_lt, toInt64_toInt, Int64.toInt_zero] at *
        omega

/-- A minus, `0x1F` and a newline. -/
theorem kstrtox_grammar_hex :
    kstrtoll [45, 48, 120, 49, 70, 10] 0 = .ok (-31) ∧
      Denotes true 0 [45, 48, 120, 49, 70, 10] (-31) :=
  ⟨rfl, ((kstrtox_grammar (.inl rfl) (by decide)).2.2.1 (-31)).mp rfl⟩

end LinuxKernel.Str
