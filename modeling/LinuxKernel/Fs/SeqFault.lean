import LinuxKernel.Fs.SeqFile

/-!
# Sequential files after a fault

`seq_read` where the copies to the user may fail.  A fault while old bytes are flushed leaves the
file as it was.  A fault behind `Fill` leaves the new bytes in the buffer with the `from` and the
`index` of the time before, so the next read may copy bytes that are not in the buffer, or go on
at a record that it has already given.
-/

namespace LinuxKernel.Fs

open Lib List

/-- A call of `seq_read`; its copies may fail: the flush, and the one behind `Fill`. -/
structure ReadCall where
  ppos : Nat
  size : Nat
  flushFault : Bool
  fillFault : Bool

section Model

variable (records : List Record) (junk : BitVec 8)

/-- `seq_read` with an empty buffer, `none` for `-EFAULT`.  The copy of no bytes does not fail. -/
def readRecordsFault (fault : Bool) (m : SeqFile) (size fuel : Nat) :
    Option (Option (List (BitVec 8)) × SeqFile) := do
  match ← firstLoop records fuel (records.drop m.index) m.index m with
  | (none, m) => return (some [], m)
  | (some (rs, pos), m) =>
    let m' := (fillLoop size rs pos m).2
    if fault ∧ min m'.count size ≠ 0 then return (none, m')
    let (out, m) := fill size rs pos m
    return (some out, m)

/-- `seq_read` at `*ppos = m->read_pos`; `junk` is behind what was written. -/
def readHereFault (c : ReadCall) (m : SeqFile) (fuel : Nat) :
    Option (Option (List (BitVec 8)) × SeqFile) :=
  if m.count ≠ 0 then do
    let n := min m.count c.size
    if c.flushFault ∧ n ≠ 0 then return (none, m)
    let out := ((m.data.drop m.fromOff).take n).rightpad n junk
    if c.size - n = 0 then return (some out, m.flush n)
    let (more, m) ← readRecordsFault records c.fillFault (m.flush n) (c.size - n) fuel
    return (some (out ++ more.getD []), m)
  else
    readRecordsFault records c.fillFault m c.size fuel

def seqReadFault (c : ReadCall) (m : SeqFile) (fuel : Nat) :
    Option (Option (List (BitVec 8)) × SeqFile) := do
  let m ← moveTo records m c.ppos fuel
  let (out, m') ← readHereFault records junk c m.grab fuel
  return (out, { m' with readPos := m.readPos + (out.getD []).length })

def seqReadsFault (fuel : Nat) : List ReadCall → SeqFile → Option (List (Option (List (BitVec 8))))
  | [], _ => some []
  | c :: cs, m => do
    let (out, m) ← seqReadFault records junk c m fuel
    let outs ← seqReadsFault fuel cs m
    return out :: outs

end Model

variable {records : List Record} {m : SeqFile} {s : List (BitVec 8)} {L : Nat} {c : ReadCall}

theorem readRecordsFault_eq (size fuel : Nat) : readRecordsFault records false m size fuel =
      (readRecords records m size fuel).map fun r => (some r.1, r.2) := by
  unfold readRecordsFault readRecords
  cases firstLoop records fuel (records.drop m.index) m.index m with
  | none => rfl
  | some first =>
    obtain ⟨_ | ⟨rs, pos⟩, m'⟩ := first
    · rfl
    · simp

/-- A call that does not fail behind `Fill` fails at once, or reads as without faults. -/
theorem readHereFault_eq (junk : BitVec 8) (h : Ready records m s) (hfill : c.fillFault = false) :
    readHereFault records junk c m = (fun _ => some (none, m)) ∨
      readHereFault records junk c m = fun fuel =>
        (readHere records m c.size fuel).map fun r => (some r.1, r.2) := by
  have hpad : ((m.data.drop m.fromOff).take (min m.count c.size)).rightpad (min m.count c.size)
      junk = (m.data.drop m.fromOff).take (min m.count c.size) := by
    have hheld := h.length_eq
    rw [SeqFile.held, length_take] at hheld
    rw [rightpad, length_take, Nat.sub_eq_zero_of_le (by omega), replicate_zero, append_nil]
  unfold readHereFault readHere
  by_cases hcount : m.count = 0
  · simp [hcount, hfill, readRecordsFault_eq]
  by_cases hfault : c.flushFault = true ∧ min m.count c.size ≠ 0
  · left
    funext fuel
    rw [if_pos hcount]
    exact if_pos hfault
  · right
    funext fuel
    simp only [if_pos hcount, if_neg hfault, hpad, hfill, readRecordsFault_eq]
    split
    · rfl
    · cases readRecords records (m.flush _) _ fuel <;> rfl

/-- A read that succeeds copies the stream at its position. -/
def Served (records : List Record) (c : ReadCall) (out : Option (List (BitVec 8))) : Prop :=
  ∀ bytes, out = some bytes → Delivers records c.ppos c.size bytes

/-- While no copy behind `Fill` fails, the reads return and serve. -/
theorem seq_reads_after_faults (records : List Record) (junk : BitVec 8) (cs : List ReadCall)
    (hfill : ∀ c ∈ cs, c.fillFault = false) :
    ∃ outs, Returns (fun fuel => seqReadsFault records junk fuel cs seqOpen.m) outs ∧
      Forall₂ (Served records) cs outs := by
  have hlong : ∀ r ∈ records, r.bytes.length ≤ (records.map (·.bytes.length)).sum :=
    fun r hr => le_sum_of_mem (mem_map_of_mem hr)
  have hok : seqOpen.m.Ok records := .of_empty rfl rfl nofun
  generalize seqOpen.m = m at hok
  induction cs generalizing m with
  | nil => exact ⟨[], .of_some [], .nil⟩
  | cons c cs ih =>
    obtain ⟨hc, hcs⟩ := forall_mem_cons.mp hfill
    have hcall : ∃ r, Returns (seqReadFault records junk c m) r ∧
        Served records c r.1 ∧ r.2.Ok records := by
      obtain ⟨m', hmove, hpos, hok'⟩ := moveTo_returns hlong hok c.ppos
      rcases readHereFault_eq junk hok'.grab hc with heq | heq
      · have hhere : Returns (readHereFault records junk c m'.grab) (none, m'.grab) :=
          heq ▸ .of_some _
        obtain ⟨hlength, hleft, hroom⟩ := hok'.grab
        exact ⟨_, hmove.bind (hhere.bind (.of_some _)), nofun, hlength, hleft, hroom⟩
      · obtain ⟨r, hread, hdelivers, hok''⟩ := seqRead_returns hlong hok c.ppos c.size
        obtain ⟨r', hhere, -⟩ := readHere_returns hlong hok'.grab (grab_room hok'.room)
        have hhere' : Returns (readHereFault records junk c m'.grab) (some r'.1, r'.2) :=
          heq ▸ hhere.map _
        cases hread.unique (hmove.bind (hhere.bind (.of_some _)))
        refine ⟨_, hmove.bind (hhere'.bind (.of_some _)), ?_, hok''⟩
        rintro _ ⟨⟩
        exact hdelivers
    obtain ⟨r, hreturns, hdelivers, hok'⟩ := hcall
    obtain ⟨outs, hrest, hall⟩ := ih hcs r.2 hok'
    exact ⟨_, hreturns.bind (hrest.bind (.of_some _)), .cons hdelivers hall⟩

/-- A file of two records. -/
def shortFile : List Record :=
  [⟨[1, 2, 3], false⟩, ⟨[4], false⟩]

theorem seq_reads_after_faults_flush :
    ∃ outs, Returns (fun fuel => seqReadsFault shortFile 0 fuel
        [⟨0, 1, false, false⟩, ⟨1, 3, true, false⟩] seqOpen.m) outs ∧
      Forall₂ (Served shortFile) [⟨0, 1, false, false⟩, ⟨1, 3, true, false⟩] outs :=
  seq_reads_after_faults shortFile 0 _ (by simp)

/-- The copy of the second record fails after the rest of the first was flushed; the next read, at
the second record, copies a byte from behind it. -/
theorem seqReadsFault_junk :
    seqReadsFault shortFile 0 9
        [⟨0, 1, false, false⟩, ⟨1, 3, false, true⟩, ⟨3, 1, false, false⟩] seqOpen.m =
      some [some [1], some [2, 3], some [0]] ∧ (stream shortFile)[3]? = some 4 :=
  ⟨rfl, rfl⟩

end LinuxKernel.Fs
