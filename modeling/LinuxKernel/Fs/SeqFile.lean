import Mathlib.Algebra.Order.BigOperators.Group.List
import Mathlib.Algebra.Order.Ring.Nat
import LinuxKernel.Lib.Returns

/-!
# Sequential files

`traverse`, `seq_read` and `seq_lseek` of `fs/seq_file.c`, for a file whose `show` does
the same at a position every time.  Allocations and copies to the user succeed.
-/

namespace LinuxKernel.Fs

open Lib List

section Model

/-- What `show` does: the bytes it writes, and whether it returns `SEQ_SKIP`. -/
structure Record where
  bytes : List (BitVec 8)
  skip : Bool

/-- `struct seq_file`: `buf` is `NULL` or what was written to it. -/
structure SeqFile where
  buf : Option (List (BitVec 8))
  size : Nat
  fromOff : Nat
  count : Nat
  index : Nat
  readPos : Nat

def pageSize : Nat := 4096

variable (records : List Record) (m : SeqFile)

/-- The buffer, allocated if there was none. -/
def SeqFile.grab : SeqFile :=
  if m.buf.isNone then { m with buf := some [], size := pageSize } else m

/-- An empty buffer of twice the size. -/
def SeqFile.grow : SeqFile :=
  { m with buf := some [], size := 2 * m.size, count := 0 }

/-- The bytes at `m->buf`. -/
def SeqFile.data : List (BitVec 8) :=
  m.buf.getD []

/-- Bytes that do not fit leave `seq_has_overflowed`. -/
def SeqFile.write (bytes : List (BitVec 8)) : SeqFile :=
  if m.count + bytes.length < m.size then
    { m with buf := some (m.data.take m.count ++ bytes), count := m.count + bytes.length }
  else
    { m with count := m.size }

/-- `show` into the empty buffer. -/
def SeqFile.showFirst (r : Record) : SeqFile :=
  if r.skip then { m.write r.bytes with count := 0 } else m.write r.bytes

/-- The loop of `traverse`; the error is `-EAGAIN`. -/
def traverseLoop (offset : Nat) : List Record → Nat → Nat → SeqFile → Except SeqFile SeqFile
  | [], _, index, m => .ok { m with index := index }
  | r :: rs, pos, index, m =>
    let m := m.showFirst r
    if m.count = m.size then
      .error m.grow
    else if pos + m.count > offset then
      .ok { m with
        fromOff := offset - pos, count := m.count - (offset - pos), index := index }
    else if pos + m.count = offset then
      .ok { m with count := 0, index := index + 1 }
    else
      traverseLoop offset rs (pos + m.count) (index + 1) { m with count := 0 }

def traverse (offset : Nat) : Except SeqFile SeqFile :=
  if offset = 0 then
    .ok { m with count := 0, fromOff := 0, index := 0 }
  else
    traverseLoop offset records 0 0 { m.grab with count := 0, fromOff := 0 }

/-- `traverse` until it does not return `-EAGAIN`. -/
def traverseAgain (offset : Nat) : Nat → SeqFile → Option SeqFile
  | 0, _ => none
  | fuel + 1, m =>
    match traverse records m offset with
    | .ok m => some { m with readPos := offset }
    | .error m => traverseAgain offset fuel m

/-- `traverse` unless the file is at `offset`. -/
def moveTo (offset fuel : Nat) : Option SeqFile :=
  if offset ≠ m.readPos then traverseAgain records offset fuel m else some m

/-- The loop of `seq_read` for a first record: the rest and its position. -/
def firstLoop : Nat → List Record → Nat → SeqFile → Option (Option (List Record × Nat) × SeqFile)
  | 0, _, _, _ => none
  | _ + 1, [], _, m => some (none, { m with count := 0 })
  | fuel + 1, r :: rs, pos, m =>
    let m := m.showFirst r
    if m.count = 0 then
      firstLoop fuel rs (pos + 1) { m with index := pos + 1 }
    else if m.count < m.size then
      some (some (rs, pos), m)
    else
      firstLoop fuel (records.drop m.index) m.index m.grow

/-- The loop at `Fill`. -/
def fillLoop (size : Nat) : List Record → Nat → SeqFile → Nat × SeqFile
  | [], pos, m => (pos, m)
  | r :: rs, pos, m =>
    if m.count < size then
      let m' := m.write r.bytes
      if r.skip then
        fillLoop size rs (pos + 1) { m' with count := m.count }
      else if m'.count = m'.size then
        (pos, { m' with count := m.count })
      else
        fillLoop size rs (pos + 1) m'
    else
      (pos, m)

/-- From `Fill` to `Done`. -/
def fill (size : Nat) (rs : List Record) (pos : Nat) (m : SeqFile) : List (BitVec 8) × SeqFile :=
  let (pos, m) := fillLoop size rs pos m
  let n := min m.count size
  (m.data.take n,
    if m.count - n ≠ 0 then { m with count := m.count - n, fromOff := n, index := pos }
    else { m with count := 0, index := pos + 1 })

/-- `seq_read` with no bytes in the buffer. -/
def readRecords (size fuel : Nat) : Option (List (BitVec 8) × SeqFile) := do
  match ← firstLoop records fuel (records.drop m.index) m.index m with
  | (none, m) => return ([], m)
  | (some (rs, pos), m) => return fill size rs pos m

/-- The flush of `n` bytes. -/
def SeqFile.flush (n : Nat) : SeqFile :=
  { m with
    count := m.count - n
    fromOff := m.fromOff + n
    index := if m.count - n = 0 then m.index + 1 else m.index }

/-- `seq_read` at `*ppos = m->read_pos`. -/
def readHere (size fuel : Nat) : Option (List (BitVec 8) × SeqFile) :=
  if m.count ≠ 0 then do
    let n := min m.count size
    let out := (m.data.drop m.fromOff).take n
    if size - n = 0 then return (out, m.flush n)
    let (more, m) ← readRecords records (m.flush n) (size - n) fuel
    return (out ++ more, m)
  else
    readRecords records m size fuel

/-- `seq_read`: the bytes it copies. -/
def seqRead (ppos size fuel : Nat) : Option (List (BitVec 8) × SeqFile) := do
  let m ← moveTo records m ppos fuel
  let (out, m') ← readHere records m.grab size fuel
  return (out, { m' with readPos := m.readPos + out.length })

inductive Whence
  | seekSet
  | seekCur
  | other

/-- An open file: its `private_data` and its `f_pos`. -/
structure SeqOpen where
  m : SeqFile
  fPos : Nat

/-- A position of type `loff_t`.  A sum that is too large wraps around to a negative one. -/
def loffPos (offset : Int) : Option Nat :=
  if 0 ≤ offset ∧ offset.toNat < 2 ^ 63 then some offset.toNat else none

/-- The position that `seq_lseek` is asked for. -/
def Whence.target (pos : Nat) (offset : Int) : Whence → Option Nat
  | .seekSet => loffPos offset
  | .seekCur => loffPos (offset + pos)
  | .other => none

/-- `seq_lseek`; `none` is `-EINVAL`. -/
def seqLseek (f : SeqOpen) (offset : Int) (whence : Whence) (fuel : Nat) :
    Option (Option Nat × SeqOpen) :=
  match whence.target f.fPos offset with
  | none => some (none, f)
  | some offset => do
    let m ← moveTo records f.m offset fuel
    return (some offset, ⟨m, offset⟩)

inductive SeqCall
  | read (size : Nat)
  | pread (size offset : Nat)
  | lseek (offset : Int) (whence : Whence)

inductive SeqRet
  | copied (out : List (BitVec 8))
  | pos (offset : Option Nat)

def SeqOpen.call (fuel : Nat) (f : SeqOpen) : SeqCall → Option (SeqRet × SeqOpen)
  | .read size => do
    let (out, m) ← seqRead records f.m f.fPos size fuel
    return (.copied out, ⟨m, f.fPos + out.length⟩)
  | .pread size offset => do
    let (out, m) ← seqRead records f.m offset size fuel
    return (.copied out, ⟨m, f.fPos⟩)
  | .lseek offset whence => do
    let (ret, f) ← seqLseek records f offset whence fuel
    return (.pos ret, f)

def SeqOpen.calls (fuel : Nat) : List SeqCall → SeqOpen → Option (List SeqRet)
  | [], _ => some []
  | c :: cs, f => do
    let (ret, f) ← f.call records fuel c
    let rets ← SeqOpen.calls fuel cs f
    return ret :: rets

def seqOpen : SeqOpen :=
  ⟨⟨none, 0, 0, 0, 0, 0⟩, 0⟩

end Model

section Purpose

/-- The bytes that a record adds to the stream. -/
def Record.text (r : Record) : List (BitVec 8) :=
  if r.skip then [] else r.bytes

def stream (records : List Record) : List (BitVec 8) :=
  records.flatMap Record.text

variable (records : List Record)

/-- What a read of `size` bytes at `pos` may copy. -/
structure Delivers (pos size : Nat) (out : List (BitVec 8)) : Prop where
  part : out <+: (stream records).drop pos
  length_le : out.length ≤ size
  empty : out = [] → size = 0 ∨ (stream records).length ≤ pos

/-- What a call may return at `pos`, and the position behind it. -/
inductive Meets (pos : Nat) : SeqCall → SeqRet → Nat → Prop
  | read {size : Nat} {out : List (BitVec 8)} (h : Delivers records pos size out) :
    Meets pos (.read size) (.copied out) (pos + out.length)
  | pread {size offset : Nat} {out : List (BitVec 8)} (h : Delivers records offset size out) :
    Meets pos (.pread size offset) (.copied out) pos
  | lseek {offset : Int} {whence : Whence} {x : Nat} (h : whence.target pos offset = some x) :
    Meets pos (.lseek offset whence) (.pos (some x)) x
  | einval {offset : Int} {whence : Whence} (h : whence.target pos offset = none) :
    Meets pos (.lseek offset whence) (.pos none) pos

def MeetsAll : Nat → List SeqCall → List SeqRet → Prop
  | _, [], rets => rets = []
  | pos, c :: cs, rets =>
    ∃ ret pos' rets', rets = ret :: rets' ∧ Meets records pos c ret pos' ∧ MeetsAll pos' cs rets'

end Purpose

variable {records rs : List Record} {m m' : SeqFile} {text s : List (BitVec 8)}

/-- The buffer holds `text` from its start. -/
structure Holds (m : SeqFile) (text : List (BitVec 8)) : Prop where
  take_eq : m.data.take m.count = text
  length_eq : text.length = m.count

theorem Holds.write (h : Holds m text) (bytes : List (BitVec 8)) :
    (m.write bytes).count = m.size ∧ m.size ≤ m.count + bytes.length ∨
      (m.write bytes).count < m.size ∧ Holds (m.write bytes) (text ++ bytes) := by
  unfold SeqFile.write
  split_ifs with hfits
  · have hlen : (text ++ bytes).length = m.count + bytes.length := by
      rw [length_append, h.length_eq]
    refine .inr ⟨hfits, ?_, hlen⟩
    rw [h.take_eq]
    exact take_of_length_le hlen.le
  · exact .inl ⟨rfl, Nat.le_of_not_lt hfits⟩

theorem Holds.back (h : Holds m text) (bytes : List (BitVec 8)) :
    Holds { m.write bytes with count := m.count } text := by
  refine ⟨?_, h.length_eq⟩
  unfold SeqFile.write
  split_ifs with hfits
  · rw [h.take_eq]
    exact take_left' h.length_eq
  · exact h.take_eq

theorem write_frame (m : SeqFile) (bytes : List (BitVec 8)) :
    (m.write bytes).size = m.size ∧ (m.write bytes).index = m.index := by
  unfold SeqFile.write
  split_ifs <;> exact ⟨rfl, rfl⟩

theorem showFirst_cases (hcount : m.count = 0) (hsize : 0 < m.size) (r : Record) :
    (m.showFirst r).size = m.size ∧ (m.showFirst r).index = m.index ∧
      ((m.showFirst r).count = m.size ∧ m.size ≤ r.bytes.length ∨
        (m.showFirst r).count < m.size ∧ Holds (m.showFirst r) r.text) := by
  have hempty : Holds m [] := ⟨by rw [hcount, take_zero], hcount.symm⟩
  have hframe := write_frame m r.bytes
  unfold SeqFile.showFirst Record.text
  split_ifs
  · exact ⟨hframe.1, hframe.2, .inr ⟨hsize, take_zero, rfl⟩⟩
  · refine ⟨hframe.1, hframe.2, ?_⟩
    have hwrite := hempty.write r.bytes
    rwa [hcount, zero_add] at hwrite

/-- The bytes to be flushed. -/
def SeqFile.held (m : SeqFile) : List (BitVec 8) :=
  (m.data.drop m.fromOff).take m.count

/-- The position of the first record behind them. -/
def SeqFile.ahead (m : SeqFile) : Nat :=
  if m.count = 0 then m.index else m.index + 1

open SeqFile (held ahead)

/-- The bytes `s` are left to be read. -/
structure Ready (records : List Record) (m : SeqFile) (s : List (BitVec 8)) : Prop where
  length_eq : m.held.length = m.count
  left_eq : m.held ++ stream (records.drop m.ahead) = s
  room : m.buf.isSome = true → 0 < m.size

theorem Ready.of_empty (hcount : m.count = 0) (hleft : stream (records.drop m.index) = s)
    (hroom : m.buf.isSome = true → 0 < m.size) : Ready records m s := by
  refine ⟨?_, ?_, hroom⟩
  · rw [held, hcount, take_zero, length_nil]
  · rw [held, ahead, hcount, take_zero, if_pos rfl, nil_append, hleft]

theorem Ready.of_held {i n : Nat} (h : Holds m text) (hn : n < text.length) (hsize : 0 < m.size) :
    Ready records { m with count := m.count - n, fromOff := n, index := i }
      (text.drop n ++ stream (records.drop (i + 1))) := by
  have hheld : (m.data.drop n).take (m.count - n) = text.drop n := by
    rw [← drop_take, h.take_eq]
  have hlen := h.length_eq
  refine ⟨?_, ?_, fun _ => hsize⟩
  · rw [held]
    simp only [SeqFile.data] at hheld ⊢
    rw [hheld, length_drop, hlen]
  · simp only [held, ahead, SeqFile.data] at hheld ⊢
    rw [hheld, if_neg (by omega)]

variable {L pos index offset size n : Nat}

theorem drop_succ {r : Record} (h : r :: rs = records.drop index) :
    rs = records.drop (index + 1) := by
  rw [← tail_drop, ← h, tail_cons]

theorem stream_cons (r : Record) (rs : List Record) : stream (r :: rs) = r.text ++ stream rs :=
  flatMap_cons

/-- The loop of `traverse` gets to `offset` or to a record that does not fit. -/
theorem traverseLoop_cases (hrs : rs = records.drop index) (hcount : m.count = 0)
    (hsize : 0 < m.size) (hpos : pos < offset) :
    (∃ m', traverseLoop offset rs pos index m = .ok m' ∧
      Ready records m' ((stream rs).drop (offset - pos))) ∨
    ∃ m', traverseLoop offset rs pos index m = .error m' ∧ m'.buf.isSome = true ∧
      m'.size = 2 * m.size ∧ ∃ r ∈ rs, m.size ≤ r.bytes.length := by
  induction rs generalizing pos index m with
  | nil =>
    refine .inl ⟨_, rfl, .of_empty hcount ?_ fun _ => hsize⟩
    rw [← hrs]
    exact drop_nil.symm
  | cons r rs ih =>
    have hrest := drop_succ hrs
    obtain ⟨hsize', -, hshow⟩ := showFirst_cases hcount hsize r
    rw [traverseLoop, stream_cons]
    rcases hshow with ⟨hover, hlong⟩ | ⟨hlt, hholds⟩
    · rw [if_pos (hover.trans hsize'.symm)]
      refine .inr ⟨_, rfl, rfl, ?_, r, mem_cons_self, hlong⟩
      rw [SeqFile.grow, hsize']
    have hlen := hholds.length_eq
    have hroom : 0 < (m.showFirst r).size := by omega
    rw [if_neg (by omega)]
    split_ifs with hin hend
    · refine .inl ⟨_, rfl, ?_⟩
      rw [drop_append_of_le_length (by omega), hrest]
      exact .of_held hholds (by omega) hroom
    · refine .inl ⟨_, rfl, .of_empty rfl ?_ fun _ => hroom⟩
      rw [drop_left' (by omega), hrest]
    have hnext : pos + (m.showFirst r).count < offset := by omega
    have hdrop : (r.text ++ stream rs).drop (offset - pos) =
        (stream rs).drop (offset - (pos + (m.showFirst r).count)) := by
      rw [drop_append, drop_of_length_le (by omega), nil_append, hlen, Nat.sub_sub]
    rw [hdrop]
    refine (ih (m := { m.showFirst r with count := 0 }) hrest rfl hroom hnext).imp_right ?_
    rintro ⟨m', herror, hbuf, hgrown, r', hr', hlong⟩
    dsimp only at hgrown hlong
    rw [hsize'] at hgrown hlong
    exact ⟨m', herror, hbuf, hgrown, r', mem_cons_of_mem r hr', hlong⟩

variable (hroom : m.buf.isSome = true → 0 < m.size)

include hroom

theorem grab_room : 0 < m.grab.size := by
  unfold SeqFile.grab
  cases hbuf : m.buf with
  | none => exact Nat.succ_pos _
  | some b => exact hroom (hbuf ▸ rfl)

theorem traverse_cases :
    (∃ m', traverse records m offset = .ok m' ∧ Ready records m' ((stream records).drop offset)) ∨
    ∃ m', traverse records m offset = .error m' ∧ m'.buf.isSome = true ∧
      m'.size = 2 * m.grab.size ∧ ∃ r ∈ records, m.grab.size ≤ r.bytes.length := by
  unfold traverse
  split_ifs with hzero
  · rw [hzero]
    exact .inl ⟨_, rfl, .of_empty rfl rfl hroom⟩
  · exact traverseLoop_cases (m := { m.grab with count := 0, fromOff := 0 }) rfl rfl
      (grab_room hroom) (Nat.pos_of_ne_zero hzero)

variable (hlong : ∀ r ∈ records, r.bytes.length ≤ L) {f : SeqOpen}

include hlong

theorem traverseAgain_returns {offset : Nat} :
    ∃ m', Returns (fun fuel => traverseAgain records offset fuel m) m' ∧ m'.readPos = offset ∧
      Ready records m' ((stream records).drop offset) := by
  induction hn : L + 1 - m.grab.size using Nat.strong_induction_on generalizing m with
  | _ n ih =>
    rcases traverse_cases hroom with ⟨m', hok, hready⟩ | ⟨m', herror, hbuf, hgrown, r, hr, hlen⟩
    · refine ⟨{ m' with readPos := offset }, .of_end fun fuel => ?_, rfl,
        hready.length_eq, hready.left_eq, hready.room⟩
      rw [traverseAgain, hok]
    have hsize := grab_room hroom
    have hle := hlong r hr
    have hgrab : m'.grab = m' := if_neg (by rw [Option.isNone_eq_false_iff.mpr hbuf]; decide)
    obtain ⟨m'', hreturns, hend⟩ := ih _ (by rw [hgrab]; omega) (fun _ => by omega) rfl
    refine ⟨m'', hreturns.of_pass fun fuel => ?_, hend⟩
    rw [traverseAgain, herror]

omit hroom

/-- What the loop for the first record finds in `rs`. -/
def Found (records rs : List Record) : Option (List Record × Nat) × SeqFile → Prop
  | (none, m) => stream rs = [] ∧ Ready records m []
  | (some (rs', i), m) => rs' = records.drop (i + 1) ∧ 0 < m.size ∧ m.count ≠ 0 ∧
      ∃ text, Holds m text ∧ stream rs = text ++ stream rs'

theorem firstLoop_returns (hrs : rs = records.drop m.index) (hcount : m.count = 0)
    (hsize : 0 < m.size) :
    ∃ first, Returns (fun fuel => firstLoop records fuel rs m.index m) first ∧
      Found records rs first := by
  induction hn : L + 1 - m.size using Nat.strong_induction_on generalizing rs m with
  | _ n ihn =>
    induction rs generalizing m with
    | nil =>
      refine ⟨_, .of_end fun fuel => rfl, rfl, .of_empty rfl ?_ fun _ => hsize⟩
      rw [← hrs]
      rfl
    | cons r rs ih =>
      obtain ⟨hsize', hindex, hshow⟩ := showFirst_cases hcount hsize r
      have hrest := drop_succ hrs
      have hmem : r ∈ records := mem_of_mem_drop (hrs ▸ mem_cons_self)
      rcases hshow with ⟨hover, hlen⟩ | ⟨hlt, hholds⟩
      · have hle := hlong r hmem
        have hgrown : (m.showFirst r).grow.size = 2 * m.size := congrArg (2 * ·) hsize'
        have hagain : r :: rs = records.drop (m.showFirst r).grow.index :=
          hrs.trans (congrArg records.drop hindex.symm)
        obtain ⟨first, hreturns, hfound⟩ :=
          ihn (L + 1 - (m.showFirst r).grow.size) (by omega) hagain rfl (by omega) rfl
        refine ⟨first, hreturns.of_pass fun fuel => ?_, hfound⟩
        simp only [firstLoop]
        rw [if_neg (by omega), if_neg (by omega)]
        exact congrArg (firstLoop records fuel · _ _) hagain.symm
      by_cases hempty : (m.showFirst r).count = 0
      · have htext : r.text = [] := eq_nil_of_length_eq_zero (hholds.length_eq.trans hempty)
        obtain ⟨first, hreturns, hfound⟩ := ih (m := { m.showFirst r with index := m.index + 1 })
          hrest hempty (hsize' ▸ hsize) (hsize' ▸ hn)
        refine ⟨first, hreturns.of_pass fun fuel => ?_, ?_⟩
        · simp only [firstLoop]
          rw [if_pos hempty]
        · unfold Found at hfound ⊢
          rwa [stream_cons, htext]
      · refine ⟨(some (rs, m.index), m.showFirst r), .of_end fun fuel => ?_, hrest,
          hsize' ▸ hsize, hempty, r.text, hholds, stream_cons r rs⟩
        simp only [firstLoop]
        rw [if_neg hempty, if_pos (hsize' ▸ hlt)]

/-- The buffer that the loop at `Fill` leaves, with `s` to be copied. -/
structure Filled (records : List Record) (m : SeqFile) (s : List (BitVec 8)) (r : Nat × SeqFile) :
    Prop where
  size_eq : r.2.size = m.size
  count_le : m.count ≤ r.2.count
  holds : ∃ text, Holds r.2 text ∧ s = text ++ stream (records.drop (r.1 + 1))

omit hlong in
theorem fillLoop_filled (hrs : rs = records.drop (pos + 1)) (h : Holds m text) :
    Filled records m (text ++ stream rs) (fillLoop size rs pos m) := by
  induction rs generalizing pos m text with
  | nil => exact ⟨rfl, le_refl _, text, h, hrs ▸ rfl⟩
  | cons r rs ih =>
    have hrest := drop_succ hrs
    have hsize := (write_frame m r.bytes).1
    simp only [fillLoop]
    split_ifs with hmore hskip hover
    · have htext : r.text = [] := if_pos hskip
      have hback := ih hrest (h.back r.bytes)
      rw [stream_cons, htext]
      exact ⟨hback.size_eq.trans hsize, hback.count_le, hback.holds⟩
    · exact ⟨hsize, le_refl _, text, h.back r.bytes, hrs ▸ rfl⟩
    · have htext : r.text = r.bytes := if_neg hskip
      rcases h.write r.bytes with ⟨hfull, -⟩ | ⟨-, hholds⟩
      · exact absurd (hfull.trans hsize.symm) hover
      · have hcount := hholds.length_eq
        rw [length_append, h.length_eq] at hcount
        have hnext := ih hrest hholds
        rw [stream_cons, htext, ← append_assoc]
        exact ⟨hnext.size_eq.trans hsize, by have := hnext.count_le; omega, hnext.holds⟩
    · exact ⟨rfl, le_refl _, text, h, hrs ▸ rfl⟩

/-- A read of up to `size` bytes where `s` is left copies `out`. -/
structure Copies (records : List Record) (size : Nat) (s : List (BitVec 8))
    (r : List (BitVec 8) × SeqFile) : Prop where
  left : ∃ s', Ready records r.2 s' ∧ s = r.1 ++ s'
  length_le : r.1.length ≤ size
  empty : r.1 = [] → size = 0 ∨ s = []

omit hlong in
theorem fill_copies (hrs : rs = records.drop (pos + 1)) (h : Holds m text) (hsize : 0 < m.size)
    (hcount : m.count ≠ 0) : Copies records size (text ++ stream rs) (fill size rs pos m) := by
  have hfilled : Filled records m _ (fillLoop size rs pos m) := fillLoop_filled hrs h
  unfold fill
  generalize fillLoop size rs pos m = r at hfilled ⊢
  rcases r with ⟨i, m'⟩
  rcases hfilled with ⟨hsize', hle, text', hholds, hleft⟩
  dsimp only at hsize' hle hholds hleft ⊢
  have hlen := hholds.length_eq
  have hout : m'.data.take (min m'.count size) = text'.take (min m'.count size) := by
    rw [← hholds.take_eq, take_take, min_eq_left (min_le_left _ _)]
  have hroom : 0 < m'.size := hsize' ▸ hsize
  rw [hout, hleft]
  refine ⟨?_, ?_, fun hnil => .inl ?_⟩
  · split_ifs with hrest
    · refine ⟨_, .of_held hholds (by omega) hroom, ?_⟩
      rw [← append_assoc, take_append_drop]
    · refine ⟨_, .of_empty rfl rfl fun _ => hroom, ?_⟩
      rw [take_of_length_le (by omega)]
  · rw [length_take]
    omega
  · have hzero := congrArg List.length hnil
    rw [length_take, length_nil] at hzero
    omega

theorem readRecords_returns (h : Ready records m s) (hcount : m.count = 0) (hsize : 0 < m.size) :
    ∃ r, Returns (readRecords records m size) r ∧ Copies records size s r := by
  have hs : stream (records.drop m.index) = s := by
    have hleft := h.left_eq
    rwa [held, ahead, hcount, take_zero, if_pos rfl] at hleft
  obtain ⟨⟨first, m'⟩, hreturns, hfound⟩ := firstLoop_returns hlong rfl hcount hsize
  rw [← hs]
  cases first with
  | none =>
    refine ⟨([], m'), hreturns.bind (.of_some _), ⟨_, hfound.2, hfound.1⟩, ?_, ?_⟩
    · exact Nat.zero_le _
    · exact fun _ => .inr hfound.1
  | some first =>
    obtain ⟨hrs, hroom, hne, text, hholds, heq⟩ := hfound
    refine ⟨_, hreturns.bind (.of_some _), ?_⟩
    rw [heq]
    exact fill_copies hrs hholds hroom hne

omit hlong in
theorem Ready.flush (h : Ready records m s) (hcount : m.count ≠ 0) (hn : n ≤ m.count) :
    Ready records (m.flush n) (s.drop n) ∧ (m.data.drop m.fromOff).take n = s.take n := by
  have hlen := h.length_eq
  have hahead : (m.flush n).ahead = m.ahead := by
    unfold ahead SeqFile.flush
    split_ifs <;> rfl
  have hheld : (m.flush n).held = m.held.drop n := by
    rw [held, held, drop_take, drop_drop]
    rfl
  refine ⟨⟨?_, ?_, h.room⟩, ?_⟩
  · rw [hheld, length_drop, hlen]
    rfl
  · rw [hheld, hahead, ← h.left_eq, drop_append_of_le_length (hlen ▸ hn)]
  · rw [← h.left_eq, take_append_of_le_length (hlen ▸ hn), held, take_take, min_eq_left hn]

theorem readHere_returns (h : Ready records m s) (hsize : 0 < m.size) :
    ∃ r, Returns (readHere records m size) r ∧ Copies records size s r := by
  unfold readHere
  split_ifs with hcount
  · have hlen : m.count ≤ s.length := by
      rw [← h.left_eq, length_append, h.length_eq]
      exact Nat.le_add_right _ _
    obtain ⟨hready, hout⟩ := h.flush hcount (min_le_left m.count size)
    have htake : (s.take (min m.count size)).length = min m.count size :=
      length_take_of_le (by omega)
    dsimp only
    rw [hout]
    split_ifs with hdone
    · refine ⟨_, .of_some _, ⟨_, hready, (take_append_drop _ s).symm⟩, ?_, fun hnil => ?_⟩
      · rw [htake]
        exact min_le_right _ _
      · have hzero : min m.count size = 0 := htake.symm.trans (congrArg List.length hnil)
        exact .inl (by omega)
    obtain ⟨r, hreturns, ⟨s', hready', hs'⟩, hle, -⟩ :=
      readRecords_returns hlong hready (show m.count - min m.count size = 0 by omega) hsize
    refine ⟨_, hreturns.bind (.of_some _), ⟨s', hready', ?_⟩, ?_, fun hnil => ?_⟩
    · rw [append_assoc, ← hs', take_append_drop]
    · rw [length_append, htake]
      omega
    · rw [(append_eq_nil_iff.mp hnil).1, length_nil] at htake
      omega
  · exact readRecords_returns hlong h (not_not.mp hcount) hsize

/-- What is left to be read is the stream from `m->read_pos` on. -/
def SeqFile.Ok (records : List Record) (m : SeqFile) : Prop :=
  Ready records m ((stream records).drop m.readPos)

theorem moveTo_returns (h : m.Ok records) (offset : Nat) :
    ∃ m', Returns (moveTo records m offset) m' ∧ m'.readPos = offset ∧ m'.Ok records := by
  unfold moveTo
  split_ifs with hne
  · obtain ⟨m', hreturns, rfl, hready⟩ := @traverseAgain_returns _ _ _ h.room hlong offset
    exact ⟨m', hreturns, rfl, hready⟩
  · exact ⟨m, .of_some m, (not_not.mp hne).symm, h⟩

omit hlong in
theorem Ready.grab (h : Ready records m s) : Ready records m.grab s := by
  rcases m with ⟨_ | b, size, fromOff, count, index, readPos⟩
  · exact ⟨h.length_eq, h.left_eq, fun _ => Nat.succ_pos _⟩
  · exact h

theorem seqRead_returns (h : m.Ok records) (ppos size : Nat) :
    ∃ r, Returns (seqRead records m ppos size) r ∧ Delivers records ppos size r.1 ∧
      r.2.Ok records := by
  obtain ⟨m, hmove, rfl, hok⟩ := moveTo_returns hlong h ppos
  obtain ⟨r, hreturns, ⟨s, hready, hs⟩, hle, hempty⟩ :=
    readHere_returns hlong hok.grab (grab_room hok.room)
  refine ⟨_, hmove.bind (hreturns.bind (.of_some _)), ⟨⟨s, hs.symm⟩, hle, fun hnil => ?_⟩,
    hready.length_eq, ?_, hready.room⟩
  · exact (hempty hnil).imp_right drop_eq_nil_iff.mp
  · have hdrop : (stream records).drop (m.readPos + r.1.length) = s := by
      rw [← drop_drop, hs, drop_left]
    exact hready.left_eq.trans hdrop.symm

theorem SeqOpen.call_returns (h : f.m.Ok records) (c : SeqCall) :
    ∃ r, Returns (fun fuel => f.call records fuel c) r ∧ Meets records f.fPos c r.1 r.2.fPos ∧
      r.2.m.Ok records := by
  cases c with
  | read size =>
    obtain ⟨r, hreturns, hread, hok⟩ := seqRead_returns hlong h f.fPos size
    exact ⟨_, hreturns.bind (.of_some _), .read hread, hok⟩
  | pread size offset =>
    obtain ⟨r, hreturns, hread, hok⟩ := seqRead_returns hlong h offset size
    exact ⟨_, hreturns.bind (.of_some _), .pread hread, hok⟩
  | lseek offset whence =>
    cases htarget : whence.target f.fPos offset with
    | none =>
      have hcall : seqLseek records f offset whence = fun _ => some (none, f) := by
        funext fuel
        rw [seqLseek, htarget]
      exact ⟨_, Returns.bind (hcall ▸ Returns.of_some _) (Returns.of_some _), .einval htarget, h⟩
    | some x =>
      obtain ⟨m', hmove, -, hok⟩ := moveTo_returns hlong h x
      have hcall : seqLseek records f offset whence = fun fuel =>
          (moveTo records f.m x fuel).bind fun m => some (some x, ⟨m, x⟩) := by
        funext fuel
        rw [seqLseek, htarget]
        rfl
      exact ⟨_, .bind (hcall ▸ hmove.bind (.of_some _)) (.of_some _), .lseek htarget, hok⟩

theorem SeqOpen.calls_return (cs : List SeqCall) (h : f.m.Ok records) :
    ∃ rets, Returns (fun fuel => SeqOpen.calls records fuel cs f) rets ∧
      MeetsAll records f.fPos cs rets := by
  induction cs generalizing f with
  | nil => exact ⟨[], .of_some [], rfl⟩
  | cons c cs ih =>
    obtain ⟨r, hcall, hmeets, hok⟩ := SeqOpen.call_returns hlong h c
    obtain ⟨rets, hcalls, hall⟩ := ih hok
    exact ⟨_, hcall.bind (hcalls.bind (.of_some _)), _, _, rets, rfl, hmeets, hall⟩

omit hlong in
/-- Whatever is read or sought, the calls return, and a read copies the bytes of the stream from
its position on, none only at the end. -/
theorem seq_file_stream (records : List Record) (cs : List SeqCall) :
    ∃ rets, Returns (fun fuel => SeqOpen.calls records fuel cs seqOpen) rets ∧
      MeetsAll records 0 cs rets := by
  have hlong : ∀ r ∈ records, r.bytes.length ≤ (records.map (·.bytes.length)).sum :=
    fun r hr => le_sum_of_mem (mem_map_of_mem hr)
  have hopen : seqOpen.m.Ok records := .of_empty rfl rfl nofun
  exact SeqOpen.calls_return hlong cs hopen

end LinuxKernel.Fs
