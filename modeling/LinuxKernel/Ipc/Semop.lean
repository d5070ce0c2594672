import Mathlib.Data.List.Sort

/-!
# Semaphore operations

`perform_atomic_semop()` applies the operations of one caller to a semaphore array and to the
caller's undo adjustments, and takes them back at the first one that cannot proceed.  So the call
has the effect of all operations in order, with every value on the way in range, or no effect.
-/

namespace LinuxKernel.Ipc

open Function BitVec

def semvmx : Int :=
  32767

def semaem : Int :=
  semvmx

def eagain : Int :=
  11

def erange : Int :=
  34

/-- `struct sembuf`, with the flags that are read.  The caller has compared the number with the
array's length. -/
structure Sembuf (nsems : Nat) where
  semNum : Fin nsems
  semOp : BitVec 16
  semUndo : Bool
  ipcNowait : Bool
  deriving DecidableEq

/-- The semaphores of an array and the caller's `semadj`. -/
structure SemState (nsems : Nat) where
  semval : Fin nsems → Int
  sempid : Fin nsems → Int
  semadj : Fin nsems → BitVec 16

/-- `struct sem_queue`: the operations of one caller. -/
structure SemQueue (nsems : Nat) where
  sops : List (Sembuf nsems)
  pid : Int
  blocking : Option (Sembuf nsems)

/-- The two labels that end the loop early. -/
inductive Stop where
  | wouldBlock
  | outOfRange
  deriving DecidableEq

variable {nsems : Nat}

/-- One pass of the first loop. -/
def performSop (s : SemState nsems) (sop : Sembuf nsems) : Except Stop (SemState nsems) :=
  let semOp := sop.semOp.toInt
  let semval := s.semval sop.semNum
  if semOp = 0 ∧ semval ≠ 0 then
    .error .wouldBlock
  else
    let result := semval + semOp
    if result < 0 then
      .error .wouldBlock
    else if semvmx < result then
      .error .outOfRange
    else
      let s' := { s with semval := update s.semval sop.semNum result }
      if sop.semUndo then
        let undo := (s.semadj sop.semNum).toInt - semOp
        if undo < -semaem - 1 ∨ semaem < undo then
          .error .outOfRange
        else
          .ok { s' with semadj := update s.semadj sop.semNum (BitVec.ofInt 16 undo) }
      else
        .ok s'

/-- The first loop; `done` are the operations before `sop`, nearest first. -/
def performLoop :
    List (Sembuf nsems) → List (Sembuf nsems) → SemState nsems →
      SemState nsems × List (Sembuf nsems) × Option (Stop × Sembuf nsems)
  | [], done, s => (s, done, none)
  | sop :: sops, done, s =>
    match performSop s sop with
    | .ok s' => performLoop sops (sop :: done) s'
    | .error stop => (s, done, some (stop, sop))

/-- One pass of the loop behind `undo:`. -/
def undoSop (s : SemState nsems) (sop : Sembuf nsems) : SemState nsems :=
  { s with
    semval := update s.semval sop.semNum (s.semval sop.semNum - sop.semOp.toInt)
    semadj :=
      if sop.semUndo then
        update s.semadj sop.semNum (s.semadj sop.semNum + sop.semOp)
      else s.semadj }

def performAtomicSemop (s : SemState nsems) (q : SemQueue nsems) :
    Int × SemState nsems × SemQueue nsems :=
  match performLoop q.sops [] s with
  | (s', done, none) =>
    (0, { s' with
          sempid := done.foldl (fun f sop => update f sop.semNum q.pid) s'.sempid }, q)
  | (s', done, some (.outOfRange, _)) => (-erange, done.foldl undoSop s', q)
  | (s', done, some (.wouldBlock, sop)) =>
    (if sop.ipcNowait then -eagain else 1, done.foldl undoSop s', { q with blocking := some sop })

/-- What the operations are about: the semaphores and the adjustments. -/
@[ext]
structure Values (nsems : Nat) where
  semval : Fin nsems → Int
  semadj : Fin nsems → Int

def SemState.values (s : SemState nsems) : Values nsems :=
  ⟨s.semval, fun i => (s.semadj i).toInt⟩

/-- All values and adjustments are in range. -/
def Values.InRange (v : Values nsems) : Prop :=
  ∀ i, (0 ≤ v.semval i ∧ v.semval i ≤ semvmx) ∧ -semaem - 1 ≤ v.semadj i ∧ v.semadj i ≤ semaem

def Sembuf.applied (sop : Sembuf nsems) (v : Values nsems) : Values nsems where
  semval := update v.semval sop.semNum (v.semval sop.semNum + sop.semOp.toInt)
  semadj :=
    if sop.semUndo then
      update v.semadj sop.semNum (v.semadj sop.semNum - sop.semOp.toInt)
    else v.semadj

/-- The caller has to wait: for zero, or for a larger value. -/
def Blocks (v : Values nsems) (sop : Sembuf nsems) : Prop :=
  sop.semOp.toInt = 0 ∧ v.semval sop.semNum ≠ 0 ∨ v.semval sop.semNum + sop.semOp.toInt < 0

/-- An operation that can proceed leaves everything in range. -/
def Proceeds (v : Values nsems) (sop : Sembuf nsems) : Prop :=
  ¬ Blocks v sop ∧ (sop.applied v).InRange

def applyAll (v : Values nsems) (sops : List (Sembuf nsems)) : Values nsems :=
  sops.foldl (fun v sop => sop.applied v) v

/-- Every operation can proceed after those before it. -/
def AllProceed (v : Values nsems) : List (Sembuf nsems) → Prop
  | [] => True
  | sop :: sops => Proceeds v sop ∧ AllProceed (sop.applied v) sops

/-- The first operation that cannot proceed would block. -/
def FirstBlocks (v : Values nsems) : List (Sembuf nsems) → Prop
  | [] => False
  | sop :: sops => Blocks v sop ∨ Proceeds v sop ∧ FirstBlocks (sop.applied v) sops

variable {s : SemState nsems} {v : Values nsems}

theorem values_inRange (h : ∀ i, 0 ≤ s.semval i ∧ s.semval i ≤ semvmx) : s.values.InRange := by
  intro i
  have hlo := le_toInt (s.semadj i)
  have hhi := toInt_lt (x := s.semadj i)
  refine ⟨h i, ?_⟩
  simp only [SemState.values, semaem, semvmx]
  omega

/-- One operation leaves the other semaphores alone. -/
theorem applied_inRange_iff (sop : Sembuf nsems) (h : v.InRange) :
    (sop.applied v).InRange ↔
      (0 ≤ v.semval sop.semNum + sop.semOp.toInt ∧ v.semval sop.semNum + sop.semOp.toInt ≤ semvmx) ∧
      (sop.semUndo = true →
        -semaem - 1 ≤ v.semadj sop.semNum - sop.semOp.toInt ∧
          v.semadj sop.semNum - sop.semOp.toInt ≤ semaem) := by
  constructor
  · intro hr
    have hown := hr sop.semNum
    simp only [Sembuf.applied, update_self] at hown
    refine ⟨hown.1, fun hundo => ?_⟩
    simpa [hundo] using hown.2
  rintro ⟨hval, hadj⟩ i
  have hi := h i
  by_cases heq : i = sop.semNum
  · subst heq
    simp only [Sembuf.applied, update_self]
    refine ⟨hval, ?_⟩
    split
    · next hundo => simpa using hadj hundo
    · exact hi.2
  · simp only [Sembuf.applied, update_of_ne heq]
    refine ⟨hi.1, ?_⟩
    split
    · simpa [update_of_ne heq] using hi.2
    · exact hi.2

/-- What one pass of the first loop can do. -/
inductive SopOutcome (s : SemState nsems) (sop : Sembuf nsems) : Except Stop (SemState nsems) → Prop
  | blocks (h : Blocks s.values sop) : SopOutcome s sop (.error .wouldBlock)
  | range (hb : ¬ Blocks s.values sop) (hr : ¬ (sop.applied s.values).InRange) :
      SopOutcome s sop (.error .outOfRange)
  | ok (s' : SemState nsems) (h : Proceeds s.values sop) (hv : s'.values = sop.applied s.values)
      (hundo : undoSop s' sop = s) : SopOutcome s sop (.ok s')

theorem undoSop_update (s : SemState nsems) (sop : Sembuf nsems) (adj : Fin nsems → BitVec 16)
    (hadj :
      (if sop.semUndo then update adj sop.semNum (adj sop.semNum + sop.semOp) else adj) =
        s.semadj) :
    undoSop
        { s with
          semval := update s.semval sop.semNum (s.semval sop.semNum + sop.semOp.toInt)
          semadj := adj } sop = s := by
  simp [undoSop, hadj]

theorem performSop_outcome (sop : Sembuf nsems) (h : s.values.InRange) :
    SopOutcome s sop (performSop s sop) := by
  have happ := applied_inRange_iff sop h
  simp only [SemState.values] at happ
  unfold performSop
  dsimp only
  split
  · next hzero => exact .blocks (.inl hzero)
  next hzero =>
  split
  · next hneg => exact .blocks (.inr hneg)
  next hneg =>
  have hb : ¬ Blocks s.values sop := by
    rintro (hz | hn)
    · exact hzero hz
    · exact hneg hn
  split
  · next hmax =>
    refine .range hb fun hr => ?_
    have := (happ.mp hr).1.2
    omega
  next hmax =>
  split
  · next hundo =>
    split
    · next hadj =>
      refine .range hb fun hr => ?_
      have := (happ.mp hr).2 hundo
      omega
    next hadj =>
    have hin : (BitVec.ofInt 16 ((s.semadj sop.semNum).toInt - sop.semOp.toInt)).toInt =
        (s.semadj sop.semNum).toInt - sop.semOp.toInt := by
      unfold semaem semvmx at hadj
      exact toInt_ofInt_eq_self (by decide) (by omega) (by omega)
    refine .ok _ ⟨hb, happ.mpr ⟨by omega, fun _ => by omega⟩⟩ ?_ ?_
    · ext i
      · rfl
      · by_cases heq : i = sop.semNum
        · subst heq
          simp [SemState.values, Sembuf.applied, hundo, hin]
        · simp [SemState.values, Sembuf.applied, hundo, heq]
    refine undoSop_update s sop _ ?_
    have hback : .ofInt 16 ((s.semadj sop.semNum).toInt - sop.semOp.toInt) + sop.semOp =
        s.semadj sop.semNum := by
      rw [Int.sub_eq_add_neg, ofInt_add, ofInt_toInt, ofInt_neg,
        ofInt_toInt, ← BitVec.sub_eq_add_neg, BitVec.sub_add_cancel]
    rw [if_pos hundo, update_self, update_idem, hback, update_eq_self]
  · next hundo =>
    refine .ok _ ⟨hb, happ.mpr ⟨by omega, fun hu => absurd hu hundo⟩⟩ ?_ ?_
    · simp [SemState.values, Sembuf.applied, hundo]
    · exact undoSop_update s sop s.semadj (if_neg hundo)

/-- What the first loop has done when it ends. -/
structure LoopOutcome (s : SemState nsems) (sops done : List (Sembuf nsems))
    (r : SemState nsems × List (Sembuf nsems) × Option (Stop × Sembuf nsems)) : Prop where
  ok : r.2.2 = none ↔ AllProceed s.values sops
  values : r.2.2 = none → r.1.values = applyAll s.values sops
  blocks : (∃ sop, r.2.2 = some (.wouldBlock, sop)) ↔ FirstBlocks s.values sops
  undo : r.2.1.foldl undoSop r.1 = done.foldl undoSop s

/-- By induction on the operations left; an applied one goes in front of `done`, where the second
loop undoes it first. -/
theorem performLoop_outcome (sops : List (Sembuf nsems)) (done : List (Sembuf nsems))
    (h : s.values.InRange) : LoopOutcome s sops done (performLoop sops done s) := by
  induction sops generalizing s done with
  | nil =>
    refine ⟨?_, fun _ => rfl, ?_, rfl⟩
    · simp [performLoop, AllProceed]
    · simp [performLoop, FirstBlocks]
  | cons sop sops ih =>
    rw [performLoop]
    have hout := performSop_outcome sop h
    generalize performSop s sop = r at hout
    cases hout with
    | blocks hb =>
      refine ⟨?_, nofun, ?_, rfl⟩
      · simp [AllProceed, Proceeds, hb]
      · simp [FirstBlocks, hb]
    | range hb hr =>
      refine ⟨?_, nofun, ?_, rfl⟩
      · simp [AllProceed, Proceeds, hr]
      · simp [FirstBlocks, Proceeds, hb, hr]
    | ok s' hp hv hundo =>
      obtain ⟨hok, hvalues, hblocks, hundone⟩ := ih (s := s') (sop :: done) (hv ▸ hp.2)
      rw [hv] at hok hvalues hblocks
      rw [List.foldl_cons, hundo] at hundone
      refine ⟨?_, hvalues, ?_, hundone⟩
      · rw [hok]
        exact ⟨fun hall => ⟨hp, hall⟩, fun hall => hall.2⟩
      · rw [hblocks]
        exact ⟨fun hfirst => .inr ⟨hp, hfirst⟩, fun hfirst => (hfirst.resolve_left hp.1).2⟩

/-- The call applies all operations in order, with every value on the way in range, or changes
nothing; the caller is to wait, or told so, exactly when the first operation that cannot proceed
would block. -/
theorem performAtomicSemop_atomic (s : SemState nsems) (q : SemQueue nsems)
    (h : ∀ i, 0 ≤ s.semval i ∧ s.semval i ≤ semvmx) :
    ((performAtomicSemop s q).1 = 0 ↔ AllProceed s.values q.sops) ∧
      ((performAtomicSemop s q).1 = 0 →
        (performAtomicSemop s q).2.1.values = applyAll s.values q.sops) ∧
      ((performAtomicSemop s q).1 ≠ 0 → (performAtomicSemop s q).2.1 = s) ∧
      ((performAtomicSemop s q).1 = 1 ∨ (performAtomicSemop s q).1 = -eagain ↔
        FirstBlocks s.values q.sops) := by
  have hloop := performLoop_outcome q.sops [] (values_inRange h)
  unfold performAtomicSemop
  generalize performLoop q.sops [] s = r at hloop
  obtain ⟨s', done, stop⟩ := r
  obtain ⟨hok, hvalues, hblocks, hundo⟩ := hloop
  rw [List.foldl_nil] at hundo
  simp only at hok hvalues hblocks hundo
  rw [← hok, ← hblocks]
  match stop with
  | none => exact ⟨by simp, fun _ => hvalues rfl, nofun, by simp [eagain]⟩
  | some (.outOfRange, sop) =>
    exact ⟨by simp [erange], nofun, fun _ => hundo, by simp [erange, eagain]⟩
  | some (.wouldBlock, sop) => cases hnowait : sop.ipcNowait <;> simp [hnowait, eagain, hundo]

/-- Two semaphores, the first at one: it is taken, the second waited for. -/
theorem performAtomicSemop_waits :
    let s : SemState 2 := ⟨fun i => if i = 0 then 1 else 0, fun _ => 0, fun _ => 0⟩
    let q : SemQueue 2 := ⟨[⟨0, -1, true, false⟩, ⟨1, -1, true, false⟩], 7, none⟩
    (∀ i, 0 ≤ s.semval i ∧ s.semval i ≤ semvmx) ∧
      ((performAtomicSemop s q).1 = 1 ∨ (performAtomicSemop s q).1 = -eagain) ∧
      FirstBlocks s.values q.sops := by
  intro s q
  have hrange : ∀ i, 0 ≤ s.semval i ∧ s.semval i ≤ semvmx := by decide
  have hwaits : (performAtomicSemop s q).1 = 1 := by decide
  exact ⟨hrange, Or.inl hwaits, (performAtomicSemop_atomic s q hrange).2.2.2.mp (.inl hwaits)⟩

end LinuxKernel.Ipc
