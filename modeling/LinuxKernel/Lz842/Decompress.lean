import LinuxKernel.Lib.Checked
import Mathlib.Algebra.Ring.Nat
import Mathlib.Data.List.Sort

/-!
# The 842 decompressor

`sw842_decompress` of `lib/842/842_decompress.c`, on arbitrary input.  An access outside the two
buffers is a fault of the model.  What is read is masked to a few bits, so sizes are natural
numbers; only the count of free output bytes wraps like a `u64`.
-/

namespace LinuxKernel.Lz842

open Lib List

section Model

inductive Errno
  | einval
  | eoverflow
  | enospc
deriving DecidableEq

inductive Fault
  | read
  | write
  | copy
  | fuel
deriving DecidableEq

inductive Stop
  | errno (e : Errno)
  | fault (f : Fault)
deriving DecidableEq

/-- `struct sw842_param`: `pos` is the offset of `in`, `out` the bytes from `ostart` on. -/
structure Param where
  pos : Nat
  bit : Nat
  ilen : Nat
  out : List (BitVec 8)
  olen : Nat

/-- The difference of two values of type `u64`. -/
def sub64 (a b : Nat) : Nat :=
  (a + (2 ^ 64 - b)) % 2 ^ 64

/-- `OP_AMOUNT_2`, `OP_AMOUNT_4` and `OP_AMOUNT_8` of an action. -/
inductive Amount
  | two
  | four
  | eight
deriving DecidableEq

def Amount.bytes : Amount → Nat
  | .two => 2
  | .four => 4
  | .eight => 8

inductive Action
  | data (n : Amount)
  | index (n : Amount)
  | noop
deriving DecidableEq

def d2 : Action := .data .two
def d4 : Action := .data .four
def d8 : Action := .data .eight
def i2 : Action := .index .two
def i4 : Action := .index .four
def i8 : Action := .index .eight
def n0 : Action := .noop

/-- The table `decomp_ops`. -/
def decompOps : List (List Action) :=
  [[d8, n0, n0, n0], [d4, d2, i2, n0], [d4, i2, d2, n0], [d4, i2, i2, n0],
   [d4, i4, n0, n0], [d2, i2, d4, n0], [d2, i2, d2, i2], [d2, i2, i2, d2],
   [d2, i2, i2, i2], [d2, i2, i4, n0], [i2, d2, d4, n0], [i2, d4, i2, n0],
   [i2, d2, i2, d2], [i2, d2, i2, i2], [i2, d2, i4, n0], [i2, i2, d4, n0],
   [i2, i2, d2, i2], [i2, i2, i2, d2], [i2, i2, i2, i2], [i2, i2, i4, n0],
   [i4, d4, n0, n0], [i4, d2, i2, n0], [i4, i2, d2, n0], [i4, i2, i2, n0],
   [i4, i4, n0, n0], [i8, n0, n0, n0]]

def opRepeat : Nat := 0x1B
def opZeros : Nat := 0x1C
def opShortData : Nat := 0x1D
def opEnd : Nat := 0x1E

variable (input : List (BitVec 8)) (size : Nat)

/-- A big-endian load of `width` bytes at `p->in`. -/
def getUnaligned (p : Param) (width : Nat) : Except Stop Nat :=
  if p.pos + width ≤ input.length then
    .ok (((input.drop p.pos).take width).foldl (fun v b => v * 256 + b.toNat) 0)
  else
    .error (.fault .read)

/-- The end of `next_bits`: move on by `n` bits. -/
def Param.skip (p : Param) (n : Nat) : Param :=
  { p with
    pos := p.pos + (p.bit + n) / 8
    ilen := p.ilen - (p.bit + n) / 8
    bit := (p.bit + n) % 8 }

/-- `__split_next_bits`, for the `next_bits` it calls. -/
def splitNextBits (nextBits : Param → Nat → Except Stop (Nat × Param)) (p : Param) (n s : Nat) :
    Except Stop (Nat × Param) := do
  rejectIf (n ≤ s) (.errno .einval)
  let (tmp, p) ← nextBits p (n - s)
  let (d, p) ← nextBits p s
  return (d ||| (tmp <<< s) % 2 ^ 64, p)

/-- The load for a field that ends `bits` bits after `p->in`. -/
def loadWidth (bits : Nat) : Nat :=
  if bits ≤ 8 then 1 else if bits ≤ 16 then 2 else if bits ≤ 32 then 4 else 8

/-- `next_bits`; `depth` bounds the recursion. -/
def nextBitsTo : Nat → Param → Nat → Except Stop (Nat × Param)
  | 0, _, _ => .error (.fault .fuel)
  | depth + 1, p, n =>
    let bits := p.bit + n
    if n > 64 then
      .error (.errno .einval)
    else if bits > 64 then
      splitNextBits (nextBitsTo depth) p n 32
    else if p.ilen < 8 ∧ bits > 32 ∧ bits ≤ 56 then
      splitNextBits (nextBitsTo depth) p n 16
    else if p.ilen < 4 ∧ bits > 16 ∧ bits ≤ 24 then
      splitNextBits (nextBitsTo depth) p n 8
    else do
      rejectIf ((bits + 7) / 8 > p.ilen) (.errno .eoverflow)
      let v ← getUnaligned input p (loadWidth bits)
      return ((v >>> (8 * loadWidth bits - bits)) % 2 ^ n, p.skip n)

/-- `next_bits`: each split takes eight bits or more off at most 64. -/
def nextBits (p : Param) (n : Nat) : Except Stop (Nat × Param) :=
  nextBitsTo input 9 p n

/-- Write `bytes` at `p->out` and move on. -/
def put (p : Param) (bytes : List (BitVec 8)) : Except Stop Param :=
  if p.out.length + bytes.length ≤ size then
    .ok { p with out := p.out ++ bytes, olen := sub64 p.olen bytes.length }
  else
    .error (.fault .write)

/-- `memcpy` of `n` bytes at `offset` of the output to `p->out`. -/
def copyFrom (p : Param) (offset : Int) (n : Nat) : Except Stop Param :=
  if 0 ≤ offset ∧ offset + n ≤ p.out.length then
    put size p ((p.out.drop offset.toNat).take n)
  else
    .error (.fault .copy)

/-- The `n` low bytes of `v`, the highest first. -/
def bigEndian (n v : Nat) : List (BitVec 8) :=
  (List.range n).map fun i => BitVec.ofNat 8 (v >>> (8 * (n - 1 - i)))

def doData (p : Param) (n : Nat) : Except Stop Param := do
  rejectIf (n > p.olen) (.errno .enospc)
  let (v, p) ← nextBits input p (n * 8)
  put size p (bigEndian n v)

/-- The output offset of an index into the ring of `fsize` bytes. -/
def ringOffset (total fsize offset : Nat) : Nat :=
  if total > fsize then
    let start := total / fsize * fsize
    offset + (if offset ≥ total - start then start - fsize else start)
  else
    offset

/-- `__do_index` up to the copy. -/
def readIndex (p : Param) (n bits fsize : Nat) : Except Stop (Nat × Param) := do
  let total := p.out.length / 8 * 8
  let (index, p) ← nextBits input p bits
  let offset := ringOffset total fsize (index * n)
  rejectIf (offset + n > total) (.errno .einval)
  return (offset, p)

/-- `__do_index`. -/
def doIndexIn (p : Param) (n bits fsize : Nat) : Except Stop Param := do
  let (offset, p) ← readIndex input p n bits fsize
  copyFrom size p offset n

def doIndex (p : Param) : Amount → Except Stop Param
  | .two => doIndexIn input size p 2 8 (2 * 2 ^ 8)
  | .four => doIndexIn input size p 4 9 (4 * 2 ^ 9)
  | .eight => doIndexIn input size p 8 8 (8 * 2 ^ 8)

def doAction (p : Param) : Action → Except Stop Param
  | .data n => doData input size p n.bytes
  | .index n => doIndex input size p n
  | .noop => .ok p

/-- The loop of `do_op`. -/
def doActions : List Action → Param → Except Stop Param
  | [], p => .ok p
  | a :: actions, p => do
    let p ← doAction input size p a
    doActions actions p

def doOp (p : Param) (o : Nat) : Except Stop Param :=
  match decompOps[o]? with
  | some actions => doActions input size actions p
  | none => .error (.errno .einval)

/-- The number of copies of `OP_REPEAT`. -/
def readRepeat (p : Param) : Except Stop (Nat × Param) := do
  let (rep, p) ← nextBits input p 6
  rejectIf (p.out = []) (.errno .einval)
  rejectIf ((rep + 1) * 8 > p.olen) (.errno .enospc)
  return (rep, p)

/-- The copies of `OP_REPEAT`. -/
def copyRepeat : Nat → Param → Except Stop Param
  | 0, p => .ok p
  | rep + 1, p => do
    let p ← copyFrom size p (p.out.length - 8) 8
    copyRepeat rep p

/-- The number of bytes of `OP_SHORT_DATA`. -/
def readShort (p : Param) : Except Stop (Nat × Param) := do
  let (bytes, p) ← nextBits input p 3
  rejectIf (bytes = 0 ∨ bytes > 7) (.errno .einval)
  return (bytes, p)

/-- The bytes of `OP_SHORT_DATA`. -/
def shortData : Nat → Param → Except Stop Param
  | 0, p => .ok p
  | bytes + 1, p => do
    let (tmp, p) ← nextBits input p 8
    let p ← put size p [BitVec.ofNat 8 tmp]
    shortData bytes p

/-- The switch over the template `op`. -/
def doTemplate (op : Nat) (p : Param) : Except Stop Param :=
  if op = opRepeat then do
    let (rep, p) ← readRepeat input p
    copyRepeat size (rep + 1) p
  else if op = opZeros then do
    rejectIf (8 > p.olen) (.errno .enospc)
    put size p (List.replicate 8 0)
  else if op = opShortData then do
    let (bytes, p) ← readShort input p
    shortData input size bytes p
  else if op = opEnd then
    .ok p
  else
    doOp input size p op

def templates : Nat → Param → Except Stop Param
  | 0, _ => .error (.fault .fuel)
  | fuel + 1, p => do
    let (op, p) ← nextBits input p 5
    let p ← doTemplate input size op p
    if op = opEnd then return p else templates fuel p

def start : Param :=
  ⟨0, 0, input.length, [], size⟩

/-- `sw842_decompress`: the reported length and the output. -/
def sw842Decompress (crc32Be : List (BitVec 8) → BitVec 32) (olen : BitVec 32) :
    Except Stop (Nat × List (BitVec 8)) := do
  let total := olen.toNat
  let p ← templates input total (8 * input.length + 8) (start input total)
  let written := sub64 total p.olen
  let (crc, p) ← nextBits input p 32
  rejectIf (crc ≠ (crc32Be (p.out.take written)).toNat) (.errno .einval)
  rejectIf (written > 2 ^ 32 - 1) (.errno .enospc)
  return (written, p.out)

end Model

section Room

variable {α : Type} (input : List (BitVec 8)) (size : Nat)

/-- A step that fails asks for nothing. -/
def andThen (x : Except Stop α) (fits : α → Bool) : Bool :=
  match x with
  | .ok a => fits a
  | .error _ => true

/-- An index that is accepted finds room for its bytes. -/
def indexFits (p : Param) (n bits fsize : Nat) : Bool :=
  andThen (readIndex input p n bits fsize) fun (_, p) => decide (n ≤ p.olen)

def actionFits (p : Param) : Action → Bool
  | .index .two => indexFits input p 2 8 (2 * 2 ^ 8)
  | .index .four => indexFits input p 4 9 (4 * 2 ^ 9)
  | .index .eight => indexFits input p 8 8 (8 * 2 ^ 8)
  | _ => true

def actionsFit : List Action → Param → Bool
  | [], _ => true
  | a :: actions, p =>
    actionFits input p a && andThen (doAction input size p a) (actionsFit actions)

/-- Each byte of short data that is read finds room. -/
def shortFits : Nat → Param → Bool
  | 0, _ => true
  | bytes + 1, p =>
    andThen (nextBits input p 8) fun (tmp, p) =>
      decide (1 ≤ p.olen) && andThen (put size p [BitVec.ofNat 8 tmp]) (shortFits bytes)

/-- A repeat that is accepted finds eight bytes before it; indexes and short data find room. -/
def templateFits (op : Nat) (p : Param) : Bool :=
  if op = opRepeat then
    andThen (readRepeat input p) fun (_, p) => decide (8 ≤ p.out.length)
  else if op = opZeros then
    true
  else if op = opShortData then
    andThen (readShort input p) fun (bytes, p) => shortFits input size bytes p
  else if op = opEnd then
    true
  else
    match decompOps[op]? with
    | some actions => actionsFit input size actions p
    | none => true

/-- Every template up to the end meets `templateFits`. -/
def runFits : Nat → Param → Bool
  | 0, _ => true
  | fuel + 1, p =>
    andThen (nextBits input p 5) fun (op, p) =>
      templateFits input size op p &&
        andThen (doTemplate input size op p) fun p => decide (op = opEnd) || runFits fuel p

end Room

section Judged

/-- The call returned an error. -/
def Clean : Stop → Prop
  | .errno _ => True
  | .fault _ => False

/-- The ends of a call that was judged by `fits`. -/
def Allowed (fits : Bool) : Stop → Prop
  | .errno _ => fits = true
  | .fault .write => fits = false
  | .fault .copy => fits = false
  | .fault _ => False

variable {α β : Type} {fits : Bool} {x : Except Stop α} {f : α → Except Stop β} {next : α → Bool}
  {P : α → Prop} {Q : β → Prop}

/-- The call writes and copies inside the output exactly if `fits`. -/
def Judged (fits : Bool) (x : Except Stop α) (P : α → Prop) : Prop :=
  Ensures (Allowed fits) x fun a => fits = true ∧ P a

theorem Judged.of_clean (h : Ensures Clean x P) : Judged true x P := by
  refine ⟨fun hok => ⟨rfl, h.of_ok hok⟩, fun {e} herr => ?_⟩
  cases e with
  | errno e => rfl
  | fault f => exact (h.of_error herr).elim

/-- What is tested decides between a call without fault and one with. -/
theorem Judged.of_decide {c : Prop} [Decidable c] (hpos : c → Ensures Clean x P)
    (hneg : ¬ c → x = .error (.fault .write) ∨ x = .error (.fault .copy)) :
    Judged (decide c) x P := by
  by_cases hc : c
  · rw [decide_eq_true hc]
    exact .of_clean (hpos hc)
  · rw [decide_eq_false hc]
    obtain rfl | rfl := hneg hc
    · exact .error rfl
    · exact .error rfl

theorem Judged.bind (hx : Judged fits x P)
    (hf : ∀ a, x = .ok a → P a → Judged (next a) (f a) Q) :
    Judged (fits && andThen x next) (x >>= f) Q := by
  cases x with
  | error e =>
    rw [andThen, Bool.and_true]
    exact .error (hx.of_error rfl)
  | ok a =>
    obtain ⟨rfl, ha⟩ := hx.of_ok rfl
    exact hf a rfl ha

/-- After a step without fault the rest is judged. -/
theorem Judged.after (hx : Ensures Clean x P)
    (hf : ∀ a, x = .ok a → P a → Judged (next a) (f a) Q) : Judged (andThen x next) (x >>= f) Q :=
  (of_clean hx).bind hf

/-- Before steps without fault the first is judged. -/
theorem Judged.before (hx : Judged fits x P)
    (hf : ∀ a, x = .ok a → P a → Ensures Clean (f a) Q) : Judged fits (x >>= f) Q := by
  cases x with
  | error e => exact .error (hx.of_error rfl)
  | ok a =>
    obtain ⟨rfl, ha⟩ := hx.of_ok rfl
    exact .of_clean (hf a rfl ha)

theorem Judged.mono {P' : α → Prop} (h : Judged fits x P) (hP : ∀ a, P a → P' a) :
    Judged fits x P' :=
  Ensures.mono h fun a _ ha => ⟨ha.1, hP a ha.2⟩

end Judged

variable {input bytes : List (BitVec 8)} {size n s bits fsize op : Nat} {p q r : Param}

/-- The cursors stay inside the buffers. -/
structure Inside (input : List (BitVec 8)) (size : Nat) (p : Param) : Prop where
  bit_lt : p.bit < 8
  input_eq : p.pos + p.ilen = input.length
  output_eq : p.out.length + p.olen = size
  size_lt : size < 2 ^ 32

/-- From `p` the code went on to `q`. -/
structure Next (input : List (BitVec 8)) (size : Nat) (p q : Param) : Prop where
  inside : Inside input size q
  moved : 8 * p.pos + p.bit ≤ 8 * q.pos + q.bit

theorem Next.refl (hp : Inside input size p) : Next input size p p :=
  ⟨hp, Nat.le_refl _⟩

theorem Next.trans (hpq : Next input size p q) (hqr : Next input size q r) : Next input size p r :=
  ⟨hqr.inside, Nat.le_trans hpq.moved hqr.moved⟩

/-- From `p` the code read `n` bits. -/
structure Read (input : List (BitVec 8)) (size n : Nat) (p q : Param) : Prop where
  inside : Inside input size q
  moved : 8 * q.pos + q.bit = 8 * p.pos + p.bit + n
  out_eq : q.out = p.out
  olen_eq : q.olen = p.olen

theorem Read.next {n : Nat} (h : Read input size n p q) : Next input size p q :=
  ⟨h.inside, by have := h.moved; omega⟩

theorem splitNextBits_ensures {next : Param → Nat → Except Stop (Nat × Param)} (hs : 0 < s)
    (hp : Inside input size p) (hnext : ∀ q m, Inside input size q → 0 < m → m = n - s ∨ m = s →
      Ensures Clean (next q m) fun r => Read input size m q r.2) :
    Ensures Clean (splitNextBits next p n s) fun r => Read input size n p r.2 := by
  refine .check trivial fun hn => ?_
  refine .bind (hnext p (n - s) hp (by omega) (.inl rfl)) fun ⟨tmp, q⟩ _ hq => ?_
  refine .bind (hnext q s hq.inside hs (.inr rfl)) fun ⟨d, r⟩ _ hr => ?_
  have hpq : 8 * q.pos + q.bit = _ := hq.moved
  have hqr : 8 * r.pos + r.bit = _ := hr.moved
  exact .pure
    ⟨hr.inside, by dsimp only at *; omega, hr.out_eq.trans hq.out_eq, hr.olen_eq.trans hq.olen_eq⟩

theorem Inside.skip (hp : Inside input size p) (h : (p.bit + n + 7) / 8 ≤ p.ilen) :
    Read input size n p (p.skip n) := by
  have hin := hp.input_eq
  refine ⟨⟨?_, ?_, hp.output_eq, hp.size_lt⟩, ?_, rfl, rfl⟩ <;> simp only [Param.skip] <;> omega

theorem nextBitsTo_ensures (depth : Nat) : ∀ (p : Param) (n : Nat), Inside input size p →
    0 < n → n ≤ 64 → n + 8 ≤ 8 * depth →
      Ensures Clean (nextBitsTo input depth p n) fun r => Read input size n p r.2 := by
  induction depth with
  | zero => intros; omega
  | succ depth ih =>
    intro p n hp hpos hn hdepth
    have hbit := hp.bit_lt
    -- both parts of a split are short enough for the recursion
    have hsplit (s : Nat) (hs : 8 ≤ s ∧ s + 8 ≤ 8 * depth ∧ s < n) :
        Ensures Clean (splitNextBits (nextBitsTo input depth) p n s)
          fun r => Read input size n p r.2 := by
      refine splitNextBits_ensures (by omega) hp fun q m hq hm hms => ?_
      exact ih q m hq hm (by omega) (by omega)
    simp only [nextBitsTo]
    split_ifs with h64 h32 h16 h8
    · omega
    · exact hsplit 32 (by omega)
    · exact hsplit 16 (by omega)
    · exact hsplit 8 (by omega)
    refine .check trivial fun hlen => ?_
    have hwidth : loadWidth (p.bit + n) ≤ p.ilen := by
      unfold loadWidth
      split_ifs <;> omega
    have hin := hp.input_eq
    rw [getUnaligned, if_pos (by omega)]
    exact .ok (hp.skip (by omega))

theorem nextBits_ensures (hp : Inside input size p) (hn : 0 < n ∧ n ≤ 64) :
    Ensures Clean (nextBits input p n) fun r => Read input size n p r.2 :=
  nextBitsTo_ensures 9 p n hp hn.1 hn.2 (by omega)

theorem put_ensures (hp : Inside input size p) (hroom : bytes.length ≤ p.olen) :
    Ensures Clean (put size p bytes) fun q => Next input size p q ∧ q.out = p.out ++ bytes := by
  have hout := hp.output_eq
  have hsize := hp.size_lt
  unfold put
  rw [if_pos (by omega)]
  refine .ok ⟨⟨⟨hp.bit_lt, hp.input_eq, ?_, hsize⟩, Nat.le_refl _⟩, rfl⟩
  simp only [sub64, length_append]
  omega

theorem put_eq_error (hp : Inside input size p) (hroom : ¬ bytes.length ≤ p.olen) :
    put size p bytes = .error (.fault .write) := by
  have hout := hp.output_eq
  exact if_neg (by omega)

theorem length_source {offset : Int} (h : 0 ≤ offset ∧ offset + n ≤ p.out.length) :
    ((p.out.drop offset.toNat).take n).length = n := by
  rw [length_take, length_drop]
  omega

theorem copyFrom_ensures {offset : Int} (hp : Inside input size p)
    (hsource : 0 ≤ offset ∧ offset + n ≤ p.out.length) (hroom : n ≤ p.olen) :
    Ensures Clean (copyFrom size p offset n) fun q =>
      Next input size p q ∧ q.out.length = p.out.length + n := by
  have hlen := length_source hsource
  unfold copyFrom
  rw [if_pos hsource]
  refine (put_ensures hp (hlen.trans_le hroom)).mono fun q _ hq => ⟨hq.1, ?_⟩
  rw [hq.2, length_append, hlen]

theorem doData_ensures (hp : Inside input size p) (hn : 0 < n ∧ n ≤ 8) :
    Ensures Clean (doData input size p n) (Next input size p) := by
  refine .check trivial fun hroom => ?_
  refine .bind (nextBits_ensures hp (by omega)) fun ⟨v, q⟩ _ hq => ?_
  refine (put_ensures hq.inside ?_).mono fun r _ hr => hq.next.trans hr.1
  rw [bigEndian, length_map, length_range, hq.olen_eq]
  omega

/-- The source of an index that is accepted is written. -/
theorem readIndex_ensures (hp : Inside input size p) (hbits : 0 < bits ∧ bits ≤ 64) :
    Ensures Clean (readIndex input p n bits fsize) fun r =>
      Next input size p r.2 ∧ r.1 + n ≤ r.2.out.length := by
  refine .bind (nextBits_ensures hp hbits) fun ⟨index, q⟩ _ hq => ?_
  refine .check trivial fun hoffset => .pure ⟨hq.next, ?_⟩
  rw [hq.out_eq]
  omega

/-- Only the room for an index is not checked. -/
theorem doIndexIn_judged (hp : Inside input size p) (hbits : 0 < bits ∧ bits ≤ 64) :
    Judged (indexFits input p n bits fsize) (doIndexIn input size p n bits fsize)
      (Next input size p) := by
  refine .after (readIndex_ensures hp hbits) fun ⟨offset, q⟩ _ ⟨hq, hoffset⟩ => ?_
  have hsource : 0 ≤ (offset : Int) ∧ (offset : Int) + n ≤ q.out.length := by
    dsimp only at hoffset
    omega
  refine .of_decide (fun hroom => ?_) fun hroom => .inl ?_
  · exact (copyFrom_ensures hq.inside hsource hroom).mono fun r _ hr => hq.trans hr.1
  · refine (if_pos hsource).trans (put_eq_error hq.inside ?_)
    rwa [length_source hsource]

theorem doAction_judged (a : Action) (hp : Inside input size p) :
    Judged (actionFits input p a) (doAction input size p a) (Next input size p) := by
  rcases a with (_ | _ | _) | (_ | _ | _) | _
  case noop => exact .of_clean (.ok (.refl hp))
  case data.two | data.four | data.eight => exact .of_clean (doData_ensures hp (by decide))
  case index.two | index.four | index.eight => exact doIndexIn_judged hp (by decide)

theorem doActions_judged (actions : List Action) : ∀ p, Inside input size p →
    Judged (actionsFit input size actions p) (doActions input size actions p)
      (Next input size p) := by
  induction actions with
  | nil => exact fun p hp => .of_clean (.ok (.refl hp))
  | cons a actions ih =>
    intro p hp
    refine (doAction_judged a hp).bind fun q _ hq => ?_
    exact (ih q hq.inside).mono fun r hr => hq.trans hr

/-- After the first copy of eight bytes there are eight bytes before each. -/
theorem copyRepeat_ensures (rep : Nat) : ∀ p, Inside input size p → rep * 8 ≤ p.olen →
    8 ≤ p.out.length → Ensures Clean (copyRepeat size rep p) (Next input size p) := by
  induction rep with
  | zero => exact fun p hp _ _ => .ok (.refl hp)
  | succ rep ih =>
    intro p hp hroom hout
    refine .bind (copyFrom_ensures hp (by omega) (by omega)) fun q _ ⟨hq, hlen⟩ => ?_
    have hpq := hp.output_eq
    have hqs := hq.inside.output_eq
    exact (ih q hq.inside (by omega) (by omega)).mono fun r _ hr => hq.trans hr

theorem copyRepeat_judged {rep : Nat} (hp : Inside input size p) (hroom : (rep + 1) * 8 ≤ p.olen) :
    Judged (decide (8 ≤ p.out.length)) (copyRepeat size (rep + 1) p) (Next input size p) := by
  refine .of_decide (copyRepeat_ensures (rep + 1) p hp hroom) fun hout => .inr ?_
  have hfirst : copyFrom size p (p.out.length - 8) 8 = .error (.fault .copy) := if_neg (by omega)
  rw [copyRepeat, hfirst]
  rfl

theorem shortData_judged (bytes : Nat) : ∀ p, Inside input size p →
    Judged (shortFits input size bytes p) (shortData input size bytes p) (Next input size p) := by
  induction bytes with
  | zero => exact fun p hp => .of_clean (.ok (.refl hp))
  | succ bytes ih =>
    intro p hp
    refine .after (nextBits_ensures hp (by decide)) fun ⟨tmp, q⟩ _ hq => ?_
    have hput : Judged (decide (1 ≤ q.olen)) (put size q [BitVec.ofNat 8 tmp])
        (Next input size q) := by
      refine .of_decide (fun hroom => ?_) fun hroom => .inl (put_eq_error hq.inside hroom)
      exact Ensures.mono (put_ensures hq.inside hroom) fun r _ hr => hr.1
    refine hput.bind fun r _ hr => ?_
    exact (ih r hr.inside).mono fun _ hs => (hq.next.trans hr).trans hs

theorem readRepeat_ensures (hp : Inside input size p) :
    Ensures Clean (readRepeat input p) fun r =>
      Next input size p r.2 ∧ (r.1 + 1) * 8 ≤ r.2.olen := by
  refine .bind (nextBits_ensures hp (by decide)) fun ⟨rep, q⟩ _ hq => ?_
  refine .check trivial fun _ => .check trivial fun hroom => ?_
  exact .pure ⟨hq.next, Nat.le_of_not_lt hroom⟩

theorem readShort_ensures (hp : Inside input size p) :
    Ensures Clean (readShort input p) fun r => Next input size p r.2 := by
  refine .bind (nextBits_ensures hp (by decide)) fun ⟨bytes, q⟩ _ hq => ?_
  exact .check trivial fun _ => .pure hq.next

theorem doTemplate_judged (op : Nat) (hp : Inside input size p) :
    Judged (templateFits input size op p) (doTemplate input size op p) (Next input size p) := by
  unfold doTemplate templateFits
  split_ifs
  · refine .after (readRepeat_ensures hp) fun ⟨rep, q⟩ _ ⟨hq, hroom⟩ => ?_
    exact (copyRepeat_judged hq.inside hroom).mono fun r hr => hq.trans hr
  · refine .of_clean (.check trivial fun hroom => ?_)
    exact (put_ensures hp (by rw [length_replicate]; omega)).mono fun r _ hr => hr.1
  · refine .after (readShort_ensures hp) fun ⟨bytes, q⟩ _ hq => ?_
    exact (shortData_judged bytes q hq.inside).mono fun r hr => hq.trans hr
  · exact .of_clean (.ok (.refl hp))
  unfold doOp
  cases decompOps[op]? with
  | none => exact .of_clean (.error trivial)
  | some actions => exact doActions_judged actions p hp

/-- The loop ends before the bound on its passes, since each template takes five bits. -/
theorem templates_judged (fuel : Nat) : ∀ p, Inside input size p →
    8 * input.length + 8 ≤ 8 * p.pos + p.bit + fuel →
      Judged (runFits input size fuel p) (templates input size fuel p) (Inside input size) := by
  induction fuel with
  | zero =>
    intro p hp hfuel
    have := hp.input_eq
    have := hp.bit_lt
    omega
  | succ fuel ih =>
    intro p hp hfuel
    refine .after (nextBits_ensures hp (by decide)) fun ⟨op, q⟩ _ hq => ?_
    refine (doTemplate_judged op hq.inside).bind fun r _ hr => ?_
    by_cases hend : op = opEnd
    · simp only [hend, decide_true, Bool.true_or, if_true]
      exact .of_clean (.pure hr.inside)
    simp only [hend, decide_false, Bool.false_or, if_false]
    have hpq : 8 * q.pos + q.bit = 8 * p.pos + p.bit + 5 := hq.moved
    have hqr : 8 * q.pos + q.bit ≤ 8 * r.pos + r.bit := hr.moved
    exact ih r hr.inside (by omega)

theorem sw842Decompress_judged (input : List (BitVec 8)) (crc32Be : List (BitVec 8) → BitVec 32)
    (olen : BitVec 32) :
    Judged (runFits input olen.toNat (8 * input.length + 8) (start input olen.toNat))
      (sw842Decompress input crc32Be olen) fun r => r.1 = r.2.length ∧ r.1 ≤ olen.toNat := by
  have hstart : Inside input olen.toNat (start input olen.toNat) :=
    ⟨Nat.succ_pos 7, Nat.zero_add _, Nat.zero_add _, olen.isLt⟩
  refine (templates_judged _ _ hstart (by omega)).before fun p _ hp => ?_
  refine .bind (nextBits_ensures hp (by decide)) fun ⟨crc, q⟩ _ hq => ?_
  refine .check trivial fun _ => .check trivial fun _ => ?_
  have hout := hp.output_eq
  have hwritten : sub64 olen.toNat p.olen = p.out.length := by
    unfold sub64
    omega
  exact .pure ⟨hwritten.trans (congrArg _ hq.out_eq.symm), by rw [hwritten]; omega⟩

/-- Every call ends and reads the input inside its length.  It writes and copies inside the output
and reports what it has written exactly if each index and each byte of short data that is accepted
finds room, and each repeat eight bytes before it. -/
theorem sw842Decompress_safe_iff (input : List (BitVec 8)) (crc32Be : List (BitVec 8) → BitVec 32)
    (olen : BitVec 32) :
    (∀ f, sw842Decompress input crc32Be olen = .error (.fault f) → f = .write ∨ f = .copy) ∧
    (((∀ f, sw842Decompress input crc32Be olen ≠ .error (.fault f)) ∧
      ∀ n out, sw842Decompress input crc32Be olen = .ok (n, out) →
        n = out.length ∧ n ≤ olen.toNat) ↔
      runFits input olen.toNat (8 * input.length + 8) (start input olen.toNat) = true) := by
  have hrun := sw842Decompress_judged input crc32Be olen
  refine ⟨fun f hf => ?_, fun ⟨hno, _⟩ => ?_, fun hfits => ⟨fun f hf => ?_, fun n out h => ?_⟩⟩
  · have hallowed := hrun.of_error hf
    rcases f with _ | _ | _ | _
    case read | fuel => exact hallowed.elim
    case write => exact .inl rfl
    case copy => exact .inr rfl
  · cases hcall : sw842Decompress input crc32Be olen with
    | ok r => exact (hrun.of_ok hcall).1
    | error e =>
      cases e with
      | errno e => exact hrun.of_error hcall
      | fault f => exact absurd hcall (hno f)
  · have hallowed := hrun.of_error hf
    rw [hfits] at hallowed
    rcases f with _ | _ | _ | _
    case read | fuel => exact hallowed
    case write | copy => cases hallowed
  · exact (hrun.of_ok h).2

/-- Zeros, an index, two bytes of short data, a repeat and the end into 26 bytes. -/
theorem sw842Decompress_safe_iff_all : ∀ f,
    sw842Decompress [0xE6, 0x40, 0x3A, 0xAA, 0xAE, 0xF6, 0x07, 0x80, 0, 0, 0, 0] (fun _ => 0) 26 ≠
      .error (.fault f) :=
  ((sw842Decompress_safe_iff [0xE6, 0x40, 0x3A, 0xAA, 0xAE, 0xF6, 0x07, 0x80, 0, 0, 0, 0]
    (fun _ => 0) 26).2.mpr (by decide +kernel)).1

/-- An index into a full output and short data into an empty one are written past its end; a repeat
after one byte copies from before it. -/
theorem sw842Decompress_overruns :
    sw842Decompress [0xE6, 0x40, 0] (fun _ => 0) 8 = .error (.fault .write) ∧
    sw842Decompress [0xE9, 0xAA] (fun _ => 0) 0 = .error (.fault .write) ∧
    sw842Decompress [0xE9, 0xAA, 0xD8, 0] (fun _ => 0) 16 = .error (.fault .copy) :=
  ⟨rfl, rfl, rfl⟩

end LinuxKernel.Lz842
