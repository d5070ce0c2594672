import LinuxKernel.Bpf.ClassicChecks
import LinuxKernel.Bpf.ConvertFilter
import Mathlib.Data.List.GetD

/-!
# The layout of a converted filter

The conversion of an accepted filter succeeds.  An instruction is converted to
one to six instructions, and their number does not depend on the addresses, so
both passes agree on all addresses and every jump gets its offset exactly.
-/

namespace LinuxKernel.Bpf

open Lib List

section Length

variable {o : SkbOffsets} {len i target idx : Nat} {f : SockFilter}

/-- The number of instructions that an instruction is converted to. -/
def insnLen (o : SkbOffsets) (len i : Nat) (f : SockFilter) : Nat :=
  ((convertInsn o none len i f).toOption.getD []).length

theorem emitJmp_ok (i : Nat) {target : Int} (h0 : 0 ≤ target) (hlen : target < len)
    (addrs : Option (Nat → Int)) (idx : Nat) : ∃ off, emitJmp addrs len i target idx = .ok off := by
  unfold emitJmp rejectIf
  rw [if_neg (by omega)]
  exact ⟨_, rfl⟩

theorem emitJmp_toInt {a : Nat → Int} {off : BitVec 16}
    (h : emitJmp (some a) len i target idx = .ok off) (hlo : -2 ^ 15 ≤ a target - a i - 1 - idx)
    (hhi : a target - a i - 1 - idx < 2 ^ 15) : off.toInt = a target - a i - 1 - idx := by
  unfold emitJmp at h
  simp only [ok_iff, Int.toNat_natCast] at h
  obtain ⟨-, -, rfl⟩ := h
  rw [BitVec.toInt_sub, BitVec.toInt_ofInt, BitVec.toInt_ofNat',
    Int.sub_bmod_bmod, Int.bmod_sub_bmod]
  exact Int.bmod_eq_of_le (by omega) (by omega)

theorem target_ja (hi : i < len) (hmax : len ≤ bpfMaxInsns) (hk : f.k.toNat < len - i - 1) :
    (BitVec.ofNat 32 i + f.k + 1).toInt = ((i + f.k.toNat + 1 : Nat) : Int) := by
  have hnat : (.ofNat 32 i + f.k + 1).toNat = i + f.k.toNat + 1 := by
    have hone : (1 : BitVec 32).toNat = 1 := rfl
    unfold bpfMaxInsns at hmax
    simp only [BitVec.toNat_add, BitVec.toNat_ofNat, hone]
    omega
  rw [BitVec.toInt_eq_toNat_of_lt (by unfold bpfMaxInsns at hmax; omega), hnat]

/-- The length of a converted conditional jump. -/
def condJmpLen (f : SockFilter) (op : JmpOp) (src : Src) : Nat :=
  (cmpPrologue f src).length + if f.jf = 0 ∨ f.jt = 0 ∧ op = .jeq then 1 else 2

theorem convertCondJmp_ok (op : JmpOp) (src : Src) (hjt : i + f.jt.toNat + 1 < len)
    (hjf : i + f.jf.toNat + 1 < len) (addrs : Option (Nat → Int)) :
    ∃ b, convertCondJmp addrs len i f op src = .ok b ∧ b.length = condJmpLen f op src := by
  have htrue (idx : Nat) : ∃ off, emitJmp addrs len i (i + f.jt.toNat + 1) idx = .ok off :=
    emitJmp_ok i (by omega) (by omega) addrs idx
  have hfalse (idx : Nat) : ∃ off, emitJmp addrs len i (i + f.jf.toNat + 1) idx = .ok off :=
    emitJmp_ok i (by omega) (by omega) addrs idx
  unfold convertCondJmp condJmpLen
  dsimp only
  split
  · next hzero =>
    obtain ⟨off, hoff⟩ := htrue (cmpPrologue f src).length
    rw [hoff]
    exact ⟨_, rfl, by simp [hzero]⟩
  next hzero =>
  split
  · next hjeq =>
    obtain ⟨off, hoff⟩ := hfalse (cmpPrologue f src).length
    rw [hoff]
    exact ⟨_, rfl, by simp [hjeq]⟩
  next hjeq =>
  obtain ⟨off, hoff⟩ := htrue (cmpPrologue f src).length
  obtain ⟨off', hoff'⟩ := hfalse ((cmpPrologue f src).length + 1)
  rw [hoff, hoff']
  refine ⟨_, rfl, ?_⟩
  rw [if_neg (by simp only [hzero, hjeq, or_self, not_false_eq_true])]
  simp

theorem checkSpecial_cond {op : JmpOp} {src : Src} (hop : op.classic = true)
    (h : checkSpecial len i f (.jmp op src) = .ok ()) :
    i + f.jt.toNat + 1 < len ∧ i + f.jf.toNat + 1 < len := by
  have hsplit : ¬ (len ≤ i + f.jt.toNat + 1 ∨ len ≤ i + f.jf.toNat + 1) := by
    rcases JmpOp.classic_cases hop with rfl | rfl | rfl | rfl <;> exact (rejectIf_eq_ok _ _ _).mp h
  omega

/-- An instruction that passed its checks is converted, to a length that does not depend on the
addresses. -/
theorem convertInsn_ok (hi : i < len) (hmax : len ≤ bpfMaxInsns) (h : InsnOk len i f)
    (addrs : Option (Nat → Int)) :
    ∃ b, convertInsn o addrs len i f = .ok b ∧ b.length ≤ 6 ∧ b.length = insnLen o len i f := by
  -- all but the jumps do not look at the addresses
  have fixed : ∀ b, b.length ≤ 6 → (∀ addrs, convertInsn o addrs len i f = .ok b) →
        ∃ b, convertInsn o addrs len i f = .ok b ∧ b.length ≤ 6 ∧ b.length = insnLen o len i f := by
    intro b hle hconv
    refine ⟨b, hconv addrs, hle, ?_⟩
    rw [insnLen, hconv none]
    rfl
  obtain ⟨code, hop, hallowed, hspecial⟩ := h
  cases hallowed with
  | alu hclassic =>
    refine fixed _ ?_ fun addrs => by
      rw [convertInsn, hop]; exact if_pos hclassic
    simp
  | @ldAbs size hsize =>
    cases hext : convertBpfExtensions o f.k with
    | some insns =>
      have hle : insns.length ≤ 4 := by
        unfold convertBpfExtensions at hext
        split at hext
        case h_1 => cases hext
        all_goals
          cases hext
          simp [convertSkbAccess]
      refine fixed insns (by omega) fun addrs => ?_
      rw [convertInsn, hop]
      cases size <;> first | exact absurd rfl hsize | simp only [hext]; rfl
    | none =>
      refine fixed [rawInsn (.ld .abs size) f.k] (by simp) fun addrs => ?_
      rw [convertInsn, hop]
      cases size <;> first | exact absurd rfl hsize | simp only [hext]; rfl
  | @ldInd size hsize =>
    refine fixed [rawInsn (.ld .ind size) f.k] (by simp) fun addrs => ?_
    rw [convertInsn, hop]
    cases size <;> first | exact absurd rfl hsize | rfl
  | ja =>
    have hk : f.k.toNat < len - i - 1 := Nat.lt_of_not_le ((rejectIf_eq_ok _ _ _).mp hspecial)
    have hok (addrs : Option (Nat → Int)) :
        ∃ off, convertInsn o addrs len i f = .ok [{ code := .jmp .ja .k, off := off }] := by
      obtain ⟨off, hoff⟩ : ∃ off, emitJmp addrs len i
            (.ofNat 32 i + f.k + 1).toInt 0 = .ok off := by
        rw [target_ja hi hmax hk]
        exact emitJmp_ok i (by omega) (by omega) addrs 0
      refine ⟨off, ?_⟩
      rw [convertInsn, hop]
      simp only [hoff]
      rfl
    obtain ⟨off, hoff⟩ := hok addrs
    obtain ⟨off', hoff'⟩ := hok none
    refine ⟨_, hoff, by simp, ?_⟩
    rw [insnLen, hoff']
    rfl
  | @cond op src hclassic =>
    obtain ⟨hjt, hjf⟩ := checkSpecial_cond hclassic hspecial
    have hconv (addrs : Option (Nat → Int)) :
        convertInsn o addrs len i f = convertCondJmp addrs len i f op src := by
      rw [convertInsn, hop]
      rcases JmpOp.classic_cases hclassic with rfl | rfl | rfl | rfl <;> rfl
    obtain ⟨b, hb, hlen⟩ := convertCondJmp_ok op src hjt hjf addrs
    obtain ⟨b', hb', hlen'⟩ := convertCondJmp_ok op src hjt hjf none
    refine ⟨b, (hconv addrs).trans hb, ?_, ?_⟩
    · have : (cmpPrologue f src).length ≤ 1 := by
        unfold cmpPrologue
        split <;> simp
      rw [hlen, condJmpLen]
      split <;> omega
    · rw [insnLen, hconv none, hb', hlen]
      exact hlen'.symm
  | _ =>
    refine fixed _ ?_ fun addrs => by rw [convertInsn, hop]; rfl
    simp

end Length

variable (o : SkbOffsets) (filter : List SockFilter)

/-- The address of the code of instruction `i`. -/
def codeAddr : Nat → Nat
  | 0 => 1
  | i + 1 =>
    codeAddr i + insnLen o filter.length i (filter.getD i default)

theorem codeAddr_mono : Monotone (codeAddr o filter) :=
  monotone_nat_of_le_succ fun _ => Nat.le_add_right _ _

/-- The table of addresses after the instructions from `i` up to `n`. -/
def addrsFrom (i n : Nat) (a : Nat → Int) : Nat → Int :=
  fun t => if i ≤ t ∧ t < n then (codeAddr o filter t : Int) else a t

variable {o filter}

theorem codeAddr_le (hf : FilterOk filter) {i : Nat} (hi : i ≤ filter.length) :
    codeAddr o filter i ≤ 1 + 6 * i := by
  induction i with
  | zero => exact le_refl 1
  | succ i ih =>
    obtain ⟨b, -, hle, hlen⟩ := convertInsn_ok (o := o) hi hf.max (hf.insn i hi) none
    have := ih (by omega)
    rw [codeAddr]
    omega

/-- One pass over the filter, by induction on the instructions left, with the addresses known at
each block. -/
theorem convertLoopClassic_ok (hf : FilterOk filter) {rest : List SockFilter} {i : Nat}
    (hi : i ≤ filter.length) (hdrop : filter.drop i = rest) (addrs : Option (Nat → Int)) :
    ∃ out, convertLoopClassic o filter.length i (codeAddr o filter i) addrs rest =
          .ok (out, addrs.map (addrsFrom o filter i filter.length)) ∧
        codeAddr o filter i + out.length = codeAddr o filter filter.length ∧
        ∀ j, i ≤ j → j < filter.length →
          ∃ b, convertInsn o (addrs.map (addrsFrom o filter i (j + 1)))
                filter.length j (filter.getD j default) = .ok b ∧
              ∀ q < b.length, out.getD (codeAddr o filter j - codeAddr o filter i + q)
                  default = b.getD q default := by
  induction rest generalizing i addrs with
  | nil =>
    have hlen : filter.length ≤ i := drop_eq_nil_iff.mp hdrop
    obtain rfl : i = filter.length := by omega
    refine ⟨[], ?_, rfl, ?_⟩
    · have hid : addrsFrom o filter filter.length filter.length = id := by
        funext a t
        unfold addrsFrom
        rw [if_neg (by omega)]
        rfl
      rw [hid, Option.map_id]
      rfl
    · intro j hij hj
      omega
  | cons f rest ih =>
    have hlt : i < filter.length := by
      have := congrArg List.length hdrop
      rw [length_drop, length_cons] at this
      omega
    have hdrop' : filter.drop (i + 1) = rest := by
      rw [← tail_drop, hdrop]
      rfl
    have hf' : filter.getD i default = f := by
      rw [getD_eq_getElem?_getD, ← head?_drop, hdrop]
      rfl
    have hinsn := hf.insn i hlt
    rw [hf'] at hinsn
    obtain ⟨b, hb, -, hlen⟩ := convertInsn_ok hlt hf.max hinsn
        (addrs.map (addrsFrom o filter i (i + 1)))
    have hnext : codeAddr o filter i + b.length = codeAddr o filter (i + 1) := by
      rw [codeAddr, hf', hlen]
    obtain ⟨out, hout, houtlen, hblocks⟩ := ih (i := i + 1) hlt hdrop'
        (addrs.map (addrsFrom o filter i (i + 1)))
    have hmap (n : Nat) (hn : i + 1 ≤ n) : (addrs.map (addrsFrom o filter i (i + 1))).map
            (addrsFrom o filter (i + 1) n) =
          addrs.map (addrsFrom o filter i n) := by
      rw [Option.map_map]
      congr 1
      funext a t
      simp only [Function.comp_apply, addrsFrom]
      grind
    refine ⟨b ++ out, ?_, ?_, ?_⟩
    · have hupd : addrs.map (fun a j =>
              if j = i then (codeAddr o filter i : Int) else a j) =
            addrs.map (addrsFrom o filter i (i + 1)) := by
        congr 1
        funext a t
        unfold addrsFrom
        grind
      rw [convertLoopClassic]
      simp only [hupd, ok_iff]
      refine ⟨b, hb, (out, addrs.map (addrsFrom o filter i filter.length)), ?_, rfl⟩
      rw [hnext, hout, hmap _ hlt]
    · rw [length_append]
      omega
    intro j hij hj
    rcases Nat.eq_or_lt_of_le hij with rfl | hij
    · rw [hf']
      refine ⟨b, hb, ?_⟩
      intro q hq
      rw [Nat.sub_self, Nat.zero_add, getD_append _ _ _ _ hq]
    obtain ⟨b', hb', hq'⟩ := hblocks j hij hj
    rw [hmap _ (by omega)] at hb'
    refine ⟨b', hb', ?_⟩
    intro q hq
    have hmono : codeAddr o filter (i + 1) ≤ codeAddr o filter j := codeAddr_mono o filter hij
    rw [getD_append_right _ _ _ _ (by omega), ← hq' q hq]
    congr 1
    omega

/-- The table of addresses in the second pass. -/
def addrTable (o : SkbOffsets) (filter : List SockFilter) : Nat → Int :=
  addrsFrom o filter 0 filter.length (fun _ => 0)

theorem addrTable_eq {i : Nat} (hi : i < filter.length) :
    addrTable o filter i = codeAddr o filter i := by
  unfold addrTable addrsFrom
  rw [if_pos (by omega)]

/-- Where the code of a filter is in the new program. -/
structure Placed (o : SkbOffsets) (filter : List SockFilter) (prog : List Insn) : Prop where
  length : prog.length = codeAddr o filter filter.length
  start : fetch prog 0 = mov64Reg regCtx 1
  block : ∀ j < filter.length,
      ∃ b, convertInsn o (some (addrTable o filter)) filter.length j
            (filter.getD j default) = .ok b ∧
          codeAddr o filter j + b.length = codeAddr o filter (j + 1) ∧
          ∀ q < b.length, fetch prog ((codeAddr o filter j + q : Nat) : Int) = b.getD q default

theorem convertPass_ok (hf : FilterOk filter) (addrs : Option (Nat → Int)) :
    ∃ prog, convertPass o filter addrs =
          .ok (prog, addrs.map (addrsFrom o filter 0 filter.length)) ∧
        prog.length = codeAddr o filter filter.length ∧
        (addrs = some (addrTable o filter) → Placed o filter prog) := by
  obtain ⟨out, hout, hlen, hblocks⟩ := convertLoopClassic_ok (o := o) hf (Nat.zero_le _) rfl addrs
  have hlen' : (mov64Reg regCtx 1 :: out).length = codeAddr o filter filter.length := by
    rw [length_cons, ← hlen, Nat.add_comm]
    rfl
  refine ⟨mov64Reg regCtx 1 :: out, ?_, hlen', ?_⟩
  · rw [convertPass]
    simp only [ok_iff]
    exact ⟨(out, _), hout, rfl⟩
  rintro rfl
  refine ⟨hlen', rfl, ?_⟩
  intro j hj
  obtain ⟨b, hb, hq⟩ := hblocks j (Nat.zero_le j) hj
  have htable : addrsFrom o filter 0 (j + 1) (addrTable o filter) = addrTable o filter := by
    funext t
    unfold addrsFrom
    by_cases ht : 0 ≤ t ∧ t < j + 1
    · rw [if_pos ht, addrTable_eq (by omega)]
    · rw [if_neg ht]
  rw [Option.map_some, htable] at hb
  obtain ⟨b', hb', -, hlen⟩ := convertInsn_ok (o := o) hj hf.max (hf.insn j hj)
      (some (addrTable o filter))
  obtain rfl : b' = b := Except.ok.inj (hb'.symm.trans hb)
  refine ⟨b', hb, by rw [codeAddr, hlen], ?_⟩
  intro q hlt
  have hpos : 1 ≤ codeAddr o filter j := codeAddr_mono o filter (Nat.zero_le j)
  rw [← hq q hlt, fetch, Int.toNat_natCast,
    show codeAddr o filter j + q = codeAddr o filter j - 1 + q + 1 by omega,
    getD_cons_succ]
  rfl

/-- An accepted filter is converted: the call without a buffer and both passes with one agree on
the length. -/
theorem bpfMigrateFilter_ok (hf : FilterOk filter) :
    ∃ prog, bpfMigrateFilter o filter = .ok prog ∧ Placed o filter prog := by
  have hpos := hf.pos
  have hmax := hf.max
  have hreject :
      rejectIf (filter.length = 0 ∨ bpfMaxInsns < filter.length) Errno.einval = .ok () := by
    rw [rejectIf_eq_ok]
    omega
  obtain ⟨out, hout, hlen, -⟩ := convertPass_ok (o := o) hf none
  obtain ⟨out₁, hout1, hlen1, -⟩ := convertPass_ok (o := o) hf (some (fun _ => 0))
  obtain ⟨out₂, hout2, hlen2, hplaced⟩ := convertPass_ok (o := o) hf (some (addrTable o filter))
  have hone : 1 ≤ codeAddr o filter filter.length := codeAddr_mono o filter (Nat.zero_le _)
  have hpasses : convertPasses o filter 3 0 (some (fun _ => 0)) = .ok out₂ := by
    rw [convertPasses, hout1]
    change (if 0 = out₁.length then _ else _) = _
    rw [if_neg (by omega)]
    change convertPasses o filter 2 out₁.length (some (addrTable o filter)) = _
    rw [convertPasses, hout2]
    change (if out₁.length = out₂.length then _ else _) = _
    rw [if_pos (by omega)]
    rfl
  refine ⟨out₂, ?_, hplaced rfl⟩
  rw [bpfMigrateFilter]
  simp only [ok_iff, not_not]
  refine ⟨out.length, ?_, out₂, ?_, (), by omega, rfl⟩
  · rw [bpfConvertLen, hreject]
    simp only [ok_iff]
    exact ⟨(), trivial, _, hout, rfl⟩
  · rw [bpfConvertFilter, hreject]
    exact hpasses

end LinuxKernel.Bpf
