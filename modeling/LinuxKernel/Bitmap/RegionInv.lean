import LinuxKernel.Bitmap.Region

/-!
# The region allocator of bitmaps

What `__reg_op()` does to the bits of a region, for regions within a long and for regions
of whole longs, and from that the allocator over any run: the bits that are set are
those of the regions that are held.
-/

namespace LinuxKernel.Bitmap

open Lib Region

variable {k : Nat}

section RegOp

variable {pos order b : Nat}

theorem has_iff : Has ⟨pos, order⟩ b ↔ pos ≤ b ∧ b < pos + 2 ^ order :=
  Iff.rfl

theorem offset_eq : pos - pos / bitsPerLong k * bitsPerLong k = pos % 2 ^ k := by
  have hdiv := Nat.div_add_mod pos (2 ^ k)
  rw [bitsPerLong, Nat.mul_comm]
  omega

variable (bitmap : Longs k) (hpos : 2 ^ order ∣ pos)

include hpos

theorem selects_within_long (hk : order ≤ k) :
    Selects (onesMask (2 ^ k) (2 ^ order) (pos % 2 ^ k)) (pos / 2 ^ k) 1 (Has ⟨pos, order⟩) := by
  have hW : 0 < 2 ^ k := Nat.two_pow_pos k
  have hn : 0 < 2 ^ order := Nat.two_pow_pos order
  have hdvd : 2 ^ order ∣ 2 ^ k := Nat.pow_dvd_pow 2 hk
  have hoff : pos % 2 ^ k < 2 ^ k := Nat.mod_lt pos hW
  -- The place in the long is a multiple of the size, so the region does not cross its end.
  have hfit : pos % 2 ^ k + 2 ^ order ≤ 2 ^ k := by
    obtain ⟨q, hq⟩ := (Nat.dvd_mod_iff hdvd).mpr hpos
    obtain ⟨m, hm⟩ := hdvd
    rw [hq, hm] at hoff ⊢
    have hlt : q < m := Nat.lt_of_mul_lt_mul_left hoff
    calc
      2 ^ order * q + 2 ^ order = 2 ^ order * (q + 1) := (Nat.mul_succ _ q).symm
      _ ≤ 2 ^ order * m := Nat.mul_le_mul_left _ hlt
  intro b
  have hb : b % 2 ^ k < 2 ^ k := Nat.mod_lt b hW
  have hpeq := Nat.div_add_mod pos (2 ^ k)
  have hbeq := Nat.div_add_mod b (2 ^ k)
  rw [getLsbD_onesMask hn hb, decide_eq_true_iff, has_iff]
  constructor
  · rintro ⟨hfirst, hlast, hlow, hhigh⟩
    have heq : b / 2 ^ k = pos / 2 ^ k := by omega
    rw [heq] at hbeq
    exact ⟨by omega, by omega⟩
  rintro ⟨hlow, hhigh⟩
  have heq : b / 2 ^ k = pos / 2 ^ k := by
    have hge := Nat.div_le_div_right (c := 2 ^ k) hlow
    have hlt : b / 2 ^ k < pos / 2 ^ k + 1 := by
      rw [Nat.div_lt_iff_lt_mul hW, Nat.add_mul, Nat.one_mul, Nat.mul_comm]
      omega
    omega
  rw [heq] at hbeq
  exact ⟨by omega, by omega, by omega, by omega⟩

theorem selects_longs (hk : k ≤ order) :
    Selects (onesMask (2 ^ k) (2 ^ k) 0) (pos / 2 ^ k) (2 ^ order / 2 ^ k) (Has ⟨pos, order⟩) := by
  have hW : 0 < 2 ^ k := Nat.two_pow_pos k
  obtain ⟨m, hm⟩ : 2 ^ k ∣ 2 ^ order := Nat.pow_dvd_pow 2 hk
  obtain ⟨p, rfl⟩ : 2 ^ k ∣ pos := Nat.dvd_trans (Nat.pow_dvd_pow 2 hk) hpos
  intro b
  have hb : b % 2 ^ k < 2 ^ k := Nat.mod_lt b hW
  rw [getLsbD_onesMask hW hb, decide_eq_true_iff, has_iff, hm,
    Nat.mul_div_cancel_left p hW, Nat.mul_div_cancel_left m hW, ← Nat.mul_add,
    Nat.le_div_iff_mul_le hW, Nat.div_lt_iff_lt_mul hW, Nat.mul_comm p, Nat.mul_comm (p + m)]
  constructor
  · exact fun h => ⟨h.1, h.2.1⟩
  · exact fun h => ⟨h.1, h.2, Nat.zero_le _, by omega⟩

/-- The mask and the longs of `__reg_op()` are those of the region. -/
theorem selects_region : Selects
      (onesMask (2 ^ k) (min (2 ^ order) (bitsPerLong k))
        (pos - pos / bitsPerLong k * bitsPerLong k))
      (pos / bitsPerLong k) (bitsToLongs k (2 ^ order)) (Has ⟨pos, order⟩) := by
  have hW : 0 < 2 ^ k := Nat.two_pow_pos k
  have hn : 0 < 2 ^ order := Nat.two_pow_pos order
  rw [offset_eq, bitsToLongs, bitsPerLong]
  by_cases hk : order ≤ k
  · have hle : 2 ^ order ≤ 2 ^ k := Nat.pow_le_pow_right (by decide) hk
    have hone : (2 ^ order + 2 ^ k - 1) / 2 ^ k = 1 := by
      rw [Nat.div_eq_iff hW]
      omega
    rw [min_eq_left hle, hone]
    exact selects_within_long hpos hk
  have hk' : k ≤ order := by omega
  have hle : 2 ^ k ≤ 2 ^ order := Nat.pow_le_pow_right (by decide) hk'
  obtain ⟨m, hm⟩ : 2 ^ k ∣ 2 ^ order := Nat.pow_dvd_pow 2 hk'
  have hlongs : (2 ^ order + 2 ^ k - 1) / 2 ^ k = 2 ^ order / 2 ^ k := by
    rw [hm, Nat.mul_div_cancel_left m hW, Nat.add_sub_assoc hW, Nat.mul_add_div hW,
      Nat.div_eq_of_lt (by omega), Nat.add_zero]
  have hoff : pos % 2 ^ k = 0 :=
    Nat.mod_eq_zero_of_dvd (Nat.dvd_trans (Nat.pow_dvd_pow 2 hk') hpos)
  rw [min_eq_right hle, hlongs, hoff]
  exact selects_longs hpos hk'

theorem regOp_isfree : (regOp bitmap pos order .isfree).1 = 0 ↔ ¬ Free ⟨pos, order⟩ bitmap := by
  have hfree := @Selects.noneMasked_iff _ _ bitmap _ _ _ (Nat.two_pow_pos k) (selects_region hpos)
  rw [Free, ← hfree, regOp]
  split
  · next h => simp [h]
  · next h => simp [h]

theorem bitAt_regOp_alloc (b : Nat) :
    bitAt (regOp bitmap pos order .alloc).2 b = true ↔ Has ⟨pos, order⟩ b ∨ bitAt bitmap b = true :=
  (selects_region hpos).bitAt_set

theorem bitAt_regOp_release (b : Nat) :
    bitAt (regOp bitmap pos order .release).2 b = true ↔
      ¬ Has ⟨pos, order⟩ b ∧ bitAt bitmap b = true :=
  (selects_region hpos).bitAt_clear (Nat.two_pow_pos k)

end RegOp

section Find

variable {bitmap : Longs k} {bits order pos : Nat}

/-- `bitmap_find_free_region()` returns the first free region, or nothing. -/
inductive FindOutcome (bitmap : Longs k) (bits order : Nat) : Int × Longs k → Prop
  | found (p : Nat) :
      Within ⟨p, order⟩ bits → Free ⟨p, order⟩ bitmap →
      FindOutcome bitmap bits order (p, (regOp bitmap p order .alloc).2)
  | none :
      (∀ p, Within ⟨p, order⟩ bits → ¬ Free ⟨p, order⟩ bitmap) →
      FindOutcome bitmap bits order (-enomem, bitmap)

theorem findLoop_pass (hpos : 2 ^ order ∣ pos) (hbusy : ¬ Free ⟨pos, order⟩ bitmap)
    (hend : (pos + 2 ^ order) % 2 ^ 32 ≤ bits) (fuel : Nat) :
    findLoop bitmap bits order (fuel + 1) pos =
      findLoop bitmap bits order fuel ((pos + 2 ^ order) % 2 ^ 32) := by
  rw [findLoop, if_pos hend, if_pos ((regOp_isfree bitmap hpos).mpr hbusy)]

theorem findLoop_found (hpos : 2 ^ order ∣ pos) (hfree : Free ⟨pos, order⟩ bitmap)
    (hend : (pos + 2 ^ order) % 2 ^ 32 ≤ bits) (fuel : Nat) :
    findLoop bitmap bits order (fuel + 1) pos =
      some (asInt pos, (regOp bitmap pos order .alloc).2) := by
  rw [findLoop, if_pos hend, if_neg fun hzero => (regOp_isfree bitmap hpos).mp hzero hfree]

theorem findLoop_outcome (hbits : bits < 2 ^ 31) (horder : order < 32) (hpos : 2 ^ order ∣ pos)
    (hle : pos ≤ bits) (hbefore : ∀ p, p < pos → 2 ^ order ∣ p → ¬ Free ⟨p, order⟩ bitmap) :
    ∃ r, Returns (fun fuel => findLoop bitmap bits order fuel pos) r ∧
      FindOutcome bitmap bits order r := by
  have hsize : 2 ^ order ≤ 2 ^ 31 := Nat.pow_le_pow_right (by decide) (by omega)
  have hn : 0 < 2 ^ order := Nat.two_pow_pos order
  have hstop : (pos + 2 ^ order) % 2 ^ 32 = pos + 2 ^ order := Nat.mod_eq_of_lt (by omega)
  -- The places that are left are bounded by the bits above.
  induction hleft : bits - pos using Nat.strongRecOn generalizing pos with
  | ind n ih =>
    by_cases hend : pos + 2 ^ order ≤ bits
    · by_cases hfree : Free ⟨pos, order⟩ bitmap
      · refine ⟨_, .of_end fun fuel => ?_, .found pos ⟨hpos, hend⟩ hfree⟩
        have hint : asInt pos = pos := if_pos (by omega)
        rw [findLoop_found hpos hfree (hstop.trans_le hend), hint]
      have hnext : ∀ p, p < pos + 2 ^ order → 2 ^ order ∣ p → ¬ Free ⟨p, order⟩ bitmap := by
        intro p hp hdvd
        by_cases hlt : p < pos
        · exact hbefore p hlt hdvd
        obtain rfl : p = pos := by
          obtain ⟨c, rfl⟩ := hpos
          obtain ⟨d, rfl⟩ := hdvd
          have hcd : ¬ d < c := fun hdc => hlt (Nat.mul_lt_mul_of_pos_left hdc hn)
          have hdc : d < c + 1 := by
            rw [← Nat.mul_succ] at hp
            exact Nat.lt_of_mul_lt_mul_left hp
          rw [show d = c by omega]
        exact hfree
      obtain ⟨r, hrun, hout⟩ := ih (bits - (pos + 2 ^ order)) (by omega)
        (Nat.dvd_add hpos (Nat.dvd_refl _)) hend hnext (Nat.mod_eq_of_lt (by omega)) rfl
      refine ⟨r, hrun.of_pass fun fuel => ?_, hout⟩
      rw [findLoop_pass hpos hfree (hstop.trans_le hend), hstop]
    · refine ⟨_, .of_end fun fuel => ?_, .none fun p hwithin => ?_⟩
      · rw [findLoop, hstop, if_neg hend]
      · refine hbefore p ?_ hwithin.aligned
        have hbelow : p + 2 ^ order ≤ bits := hwithin.below
        omega

theorem bitmapFindFreeRegion_outcome (bitmap : Longs k) (hbits : bits < 2 ^ 31)
    (horder : order < 32) :
    ∃ r, Returns (bitmapFindFreeRegion bitmap bits order) r ∧ FindOutcome bitmap bits order r := by
  refine findLoop_outcome hbits horder (Nat.dvd_zero _) (Nat.zero_le _) fun p hp => ?_
  exact absurd hp (Nat.not_lt_zero p)

end Find

/-- The set bits are those of the regions, which are aligned and disjoint. -/
structure RegionOk (bits : Nat) (bitmap : Longs k) (live : List Region) : Prop where
  set : ∀ b, b < bits → (bitAt bitmap b = true ↔ ∃ r ∈ live, r.Has b)
  within : ∀ r ∈ live, r.Within bits
  disjoint : live.Pairwise fun r s => ∀ b, r.Has b → ¬ s.Has b

variable {bits : Nat} {bitmap : Longs k} {live : List Region} {r : Region}

theorem RegionOk.alloc (h : RegionOk bits bitmap live) (hwithin : r.Within bits)
    (hfree : r.Free bitmap) : RegionOk bits (regOp bitmap r.pos r.order .alloc).2 (r :: live) := by
  refine ⟨fun b hb => ?_, List.forall_mem_cons.mpr ⟨hwithin, h.within⟩,
    List.pairwise_cons.mpr ⟨fun s hs b hrb hsb => ?_, h.disjoint⟩⟩
  · rw [bitAt_regOp_alloc bitmap hwithin.aligned, h.set b hb]
    simp
  have hlt : b < bits := by
    have hbelow := hwithin.below
    have hb := hrb.2
    omega
  have hset := (h.set b hlt).mpr ⟨s, hs, hsb⟩
  rw [hfree b hrb] at hset
  cases hset

theorem RegionOk.release (h : RegionOk bits bitmap live) (hr : r ∈ live) :
    RegionOk bits (bitmapReleaseRegion bitmap r.pos r.order) (live.erase r) := by
  have hperm := List.perm_cons_erase hr
  have hpair := h.disjoint.perm hperm fun hrs b hsb hrb => hrs b hrb hsb
  obtain ⟨hdisj, hrest⟩ := List.pairwise_cons.mp hpair
  refine ⟨fun b hb => ?_, fun s hs => h.within s (List.mem_of_mem_erase hs), hrest⟩
  rw [bitmapReleaseRegion, bitAt_regOp_release bitmap (h.within r hr).aligned, h.set b hb]
  constructor
  · rintro ⟨hnot, s, hs, hsb⟩
    have hne : s ≠ r := fun heq => hnot (heq ▸ hsb)
    exact ⟨s, (List.mem_erase_of_ne hne).mpr hs, hsb⟩
  · rintro ⟨s, hs, hsb⟩
    exact ⟨fun hrb => hdisj s hs b hrb hsb, s, List.mem_of_mem_erase hs, hsb⟩

theorem bitmapAllocateRegion_cases (hwithin : r.Within bits) :
    (r.Free bitmap ∧ bitmapAllocateRegion bitmap r.pos r.order =
        (0, (regOp bitmap r.pos r.order .alloc).2)) ∨
      (¬ r.Free bitmap ∧ bitmapAllocateRegion bitmap r.pos r.order = (-ebusy, bitmap)) := by
  have hiff := regOp_isfree bitmap hwithin.aligned
  by_cases hfree : r.Free bitmap
  · have hne : ¬ (regOp bitmap r.pos r.order .isfree).1 = 0 := fun hzero => hiff.mp hzero hfree
    exact .inl ⟨hfree, if_neg hne⟩
  · exact .inr ⟨hfree, if_pos (hiff.mpr hfree)⟩

theorem RegionReach.ok (hbits : bits < 2 ^ 31) (h : RegionReach bits bitmap live) :
    RegionOk bits bitmap live := by
  induction h with
  | zeroed bitmap hzero =>
    refine ⟨fun b hb => ?_, nofun, .nil⟩
    simp [hzero b hb]
  | @find bitmap bitmap' live ret order _ horder hrun ih =>
    obtain ⟨r, hrun', hout⟩ := bitmapFindFreeRegion_outcome bitmap hbits horder
    obtain rfl := hrun'.unique hrun
    cases hout with
    | found p hwithin hfree =>
      have hne : ¬ (p : Int) = -enomem := by unfold enomem; omega
      rw [if_neg hne, Int.toNat_natCast]
      have hadd := ih.alloc hwithin hfree
      exact hadd
    | none hnone =>
      rw [if_pos rfl]
      exact ih
  | allocate r _ hwithin hrun ih =>
    obtain ⟨hfree, hcall⟩ | ⟨-, hcall⟩ := bitmapAllocateRegion_cases hwithin
    · rw [hcall] at hrun
      cases hrun
      rw [if_pos rfl]
      exact ih.alloc hwithin hfree
    · rw [hcall] at hrun
      cases hrun
      rw [if_neg (by decide)]
      exact ih
  | release r _ hr ih => exact ih.release hr

/-- The allocator when an `int` numbers the bits. -/
theorem region_reachable (k bits : Nat) (bitmap : Longs k) (live : List Region)
    (hbits : bits < 2 ^ 31) (h : RegionReach bits bitmap live) :
    RegionOk bits bitmap live ∧
      (∀ order, order < 32 → ∃ ret bitmap',
        Returns (bitmapFindFreeRegion bitmap bits order) (ret, bitmap') ∧
        (ret = -enomem ↔ ¬ ∃ p, Within ⟨p, order⟩ bits ∧ Free ⟨p, order⟩ bitmap) ∧
        (ret = -enomem → bitmap' = bitmap)) ∧
      ∀ r : Region, r.Within bits → (bitmapAllocateRegion bitmap r.pos r.order).1 ≠ 0 →
        (bitmapAllocateRegion bitmap r.pos r.order).2 = bitmap := by
  refine ⟨h.ok hbits, fun order horder => ?_, fun r hwithin hfail => ?_⟩
  · obtain ⟨res, hrun, hout⟩ := bitmapFindFreeRegion_outcome bitmap hbits horder
    cases hout with
    | found p hwithin hfree =>
      have hne : ¬ (p : Int) = -enomem := by unfold enomem; omega
      exact ⟨_, _, hrun, iff_of_false hne fun hnone => hnone ⟨p, hwithin, hfree⟩,
        fun heq => absurd heq hne⟩
    | none hnone =>
      exact ⟨_, _, hrun, iff_of_true rfl fun ⟨p, hwithin, hfree⟩ => hnone p hwithin hfree,
        fun _ => rfl⟩
  · obtain ⟨-, hcall⟩ | ⟨-, hcall⟩ := @bitmapAllocateRegion_cases k bits bitmap r hwithin
    · rw [hcall] at hfail
      exact absurd rfl hfail
    · rw [hcall]

theorem RegionReach.alloc (h : RegionReach bits bitmap live) (hwithin : r.Within bits)
    (hfree : r.Free bitmap) :
    RegionReach bits (regOp bitmap r.pos r.order .alloc).2 (r :: live) := by
  obtain ⟨-, hcall⟩ | ⟨hnot, -⟩ := @bitmapAllocateRegion_cases k bits bitmap r hwithin
  · have hstep := RegionReach.allocate r h hwithin hcall
    rwa [if_pos rfl] at hstep
  · exact absurd hfree hnot

/-- The bitmap is full below a region of the largest order of an `int`. -/
structure FullBelow (bitmap : Longs k) (live : List Region) (n : Nat) : Prop where
  reach : RegionReach (3 * 2 ^ 30) bitmap live
  set : ∀ b, bitAt bitmap b = true ↔ b < n * 2 ^ 30

variable {n q : Nat} (h : FullBelow bitmap live n)

include h

theorem FullBelow.free_iff : Free ⟨q * 2 ^ 30, 30⟩ bitmap ↔ n ≤ q := by
  constructor
  · intro hfree
    have hb := hfree (q * 2 ^ 30) (has_iff.mpr (by omega))
    rw [← Bool.not_eq_true, h.set] at hb
    omega
  · intro hle b hb
    rw [has_iff] at hb
    rw [← Bool.not_eq_true, h.set b]
    omega

theorem FullBelow.next (hn : n < 3) :
    ∃ (bitmap' : Longs k) (live' : List Region), FullBelow bitmap' live' (n + 1) := by
  have hdvd : 2 ^ 30 ∣ n * 2 ^ 30 := Nat.dvd_mul_left _ _
  have hwithin : Within ⟨n * 2 ^ 30, 30⟩ (3 * 2 ^ 30) := by
    refine ⟨hdvd, ?_⟩
    change n * 2 ^ 30 + 2 ^ 30 ≤ 3 * 2 ^ 30
    omega
  have hreach := h.reach.alloc hwithin (h.free_iff.mpr le_rfl)
  refine ⟨_, _, hreach, fun b => ?_⟩
  rw [bitAt_regOp_alloc bitmap hdvd, has_iff, h.set b]
  omega

omit h

/-- No region is left, but the sum compared with the size wraps around, and a region is found
behind the end of the bitmap. -/
theorem findFreeRegion_passes_end :
    ∃ (bitmap : Longs 6) (live : List Region), RegionReach (3 * 2 ^ 30) bitmap live ∧
      (¬ ∃ p, Within ⟨p, 30⟩ (3 * 2 ^ 30) ∧ Free ⟨p, 30⟩ bitmap) ∧
      ¬ ∃ bitmap', Returns (bitmapFindFreeRegion bitmap (3 * 2 ^ 30) 30) (-enomem, bitmap') := by
  have hzero : FullBelow (fun _ => 0 : Longs 6) [] 0 := by
    refine ⟨.zeroed _ fun b _ => ?_, fun b => ?_⟩
    · simp [bitAt]
    · simp [bitAt]
  obtain ⟨_, _, h₁⟩ := hzero.next (by decide)
  obtain ⟨_, _, h₂⟩ := h₁.next (by decide)
  obtain ⟨bitmap, live, h⟩ := h₂.next (by decide)
  refine ⟨bitmap, live, h.reach, ?_, ?_⟩
  · rintro ⟨p, ⟨⟨q, hq⟩, hbelow⟩, hfree⟩
    simp only at hq hbelow
    rw [hq, Nat.mul_comm] at hfree
    have hle := h.free_iff.mp hfree
    omega
  rintro ⟨bitmap', hnone⟩
  have hpass : ∀ q, q < 3 → ∀ fuel, findLoop bitmap (3 * 2 ^ 30) 30 (fuel + 1) (q * 2 ^ 30) =
      findLoop bitmap (3 * 2 ^ 30) 30 fuel ((q + 1) * 2 ^ 30) := by
    intro q hq fuel
    have hstop : (q * 2 ^ 30 + 2 ^ 30) % 2 ^ 32 = (q + 1) * 2 ^ 30 := by omega
    have hbusy : ¬ Free ⟨q * 2 ^ 30, 30⟩ bitmap :=
      fun hfree => absurd (h.free_iff.mp hfree) (by omega)
    rw [findLoop_pass (Nat.dvd_mul_left _ _) hbusy (by omega), hstop]
  have hrun : Returns (bitmapFindFreeRegion bitmap (3 * 2 ^ 30) 30)
      (asInt (3 * 2 ^ 30), (regOp bitmap (3 * 2 ^ 30) 30 .alloc).2) := by
    have h₃ : Returns (findLoop bitmap (3 * 2 ^ 30) 30 · (3 * 2 ^ 30)) _ :=
      .of_end (findLoop_found (Nat.dvd_mul_left _ _) (h.free_iff.mpr le_rfl) (by decide))
    have h₂ : Returns (findLoop bitmap (3 * 2 ^ 30) 30 · (2 * 2 ^ 30)) _ :=
      h₃.of_pass (hpass 2 (by decide))
    have h₁ : Returns (findLoop bitmap (3 * 2 ^ 30) 30 · (1 * 2 ^ 30)) _ :=
      h₂.of_pass (hpass 1 (by decide))
    exact h₁.of_pass (hpass 0 (by decide))
  have hret : asInt (3 * 2 ^ 30) = -enomem := congrArg Prod.fst (hrun.unique hnone)
  exact absurd hret (by decide)

/-- One region of a bitmap of two longs is taken, another one is taken and released. -/
theorem region_reachable_three :
    ∃ bitmap : Longs 6, RegionReach 128 bitmap [⟨64, 3⟩] ∧ RegionOk 128 bitmap [⟨64, 3⟩] := by
  have hzero : RegionReach 128 (fun _ => 0 : Longs 6) [] := .zeroed _ fun b _ => by simp [bitAt]
  have hdvd : 2 ^ 3 ∣ 64 := by decide
  have hone := hzero.alloc (r := ⟨64, 3⟩) ⟨hdvd, by decide⟩ fun b _ => by simp [bitAt]
  have htwo := hone.alloc (r := ⟨0, 2⟩) ⟨Nat.dvd_zero _, by decide⟩ fun b hb => by
    rw [← Bool.not_eq_true, bitAt_regOp_alloc _ hdvd]
    rintro (hin | hset)
    · exact absurd (hin.1.trans_lt hb.2) (by decide)
    · simp [bitAt] at hset
  have hthree := htwo.release ⟨0, 2⟩ List.mem_cons_self
  exact ⟨_, hthree, (region_reachable 6 128 _ _ (by decide) hthree).1⟩

end LinuxKernel.Bitmap
