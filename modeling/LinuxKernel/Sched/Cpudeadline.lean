import LinuxKernel.Lib.BinaryHeap

/-!
# The heap of CPU deadlines

`kernel/sched/cpudeadline.c`.  One array of items serves two purposes: the `cpu` and
`dl` of an item are a slot of a binary heap, and the `idx` of the item of a CPU is the
slot where that CPU is.
-/

namespace LinuxKernel.Sched

open Function

/-- `dl_time_before()`: the signed difference is negative. -/
def dlTimeBefore (a b : UInt64) : Bool :=
  (a - b).toInt64 < 0

def idxInvalid : Int :=
  -1

/-- The possible CPUs; their numbers are below `nr_cpu_ids`. -/
structure Cpus where
  nrCpuIds : Nat
  possible : Nat → Bool
  lt : ∀ cpu, possible cpu → cpu < nrCpuIds

structure CpudlItem where
  dl : UInt64
  cpu : Nat
  idx : Int
deriving DecidableEq

structure Cpudl where
  size : Nat
  freeCpus : Nat → Bool
  elements : Nat → CpudlItem

def parent (i : Nat) : Nat :=
  (i - 1) / 2

def leftChild (i : Nat) : Nat :=
  2 * i + 1

def rightChild (i : Nat) : Nat :=
  2 * i + 2

namespace Cpudl

variable (cp : Cpudl)

def setDl (i : Nat) (dl : UInt64) : Cpudl :=
  { cp with elements := update cp.elements i { cp.elements i with dl } }

def setCpu (i cpu : Nat) : Cpudl :=
  { cp with elements := update cp.elements i { cp.elements i with cpu } }

def setIdx (cpu : Nat) (idx : Int) : Cpudl :=
  { cp with elements := update cp.elements cpu { cp.elements cpu with idx } }

/-- `cpumask_set_cpu()` and `cpumask_clear_cpu()` on `free_cpus`. -/
def setFree (cpu : Nat) (free : Bool) : Cpudl :=
  { cp with freeCpus := update cp.freeCpus cpu free }

section Fields

variable (i j cpu : Nat) (dl : UInt64) (idx : Int) (free : Bool)

@[simp] theorem dl_setDl :
    ((cp.setDl i dl).elements j).dl = if j = i then dl else (cp.elements j).dl := by
  by_cases h : j = i <;> simp [setDl, h]

@[simp] theorem cpu_setDl : ((cp.setDl i dl).elements j).cpu = (cp.elements j).cpu := by
  by_cases h : j = i <;> simp [setDl, h]

@[simp] theorem idx_setDl : ((cp.setDl i dl).elements j).idx = (cp.elements j).idx := by
  by_cases h : j = i <;> simp [setDl, h]

@[simp] theorem dl_setCpu : ((cp.setCpu i cpu).elements j).dl = (cp.elements j).dl := by
  by_cases h : j = i <;> simp [setCpu, h]

@[simp] theorem cpu_setCpu :
    ((cp.setCpu i cpu).elements j).cpu = if j = i then cpu else (cp.elements j).cpu := by
  by_cases h : j = i <;> simp [setCpu, h]

@[simp] theorem idx_setCpu : ((cp.setCpu i cpu).elements j).idx = (cp.elements j).idx := by
  by_cases h : j = i <;> simp [setCpu, h]

@[simp] theorem dl_setIdx : ((cp.setIdx i idx).elements j).dl = (cp.elements j).dl := by
  by_cases h : j = i <;> simp [setIdx, h]

@[simp] theorem cpu_setIdx : ((cp.setIdx i idx).elements j).cpu = (cp.elements j).cpu := by
  by_cases h : j = i <;> simp [setIdx, h]

@[simp] theorem idx_setIdx :
    ((cp.setIdx i idx).elements j).idx = if j = i then idx else (cp.elements j).idx := by
  by_cases h : j = i <;> simp [setIdx, h]

@[simp] theorem size_setDl : (cp.setDl i dl).size = cp.size := rfl
@[simp] theorem size_setCpu : (cp.setCpu i cpu).size = cp.size := rfl
@[simp] theorem size_setIdx : (cp.setIdx i idx).size = cp.size := rfl
@[simp] theorem size_setFree : (cp.setFree i free).size = cp.size := rfl
@[simp] theorem freeCpus_setDl : (cp.setDl i dl).freeCpus = cp.freeCpus := rfl
@[simp] theorem freeCpus_setCpu : (cp.setCpu i cpu).freeCpus = cp.freeCpus := rfl
@[simp] theorem freeCpus_setIdx : (cp.setIdx i idx).freeCpus = cp.freeCpus := rfl

end Fields

def cpudlExchange (a b : Nat) : Cpudl :=
  let cpuA := (cp.elements a).cpu
  let cpuB := (cp.elements b).cpu
  let cp := (cp.setCpu a cpuB).setCpu b cpuA
  let dlA := (cp.elements a).dl
  let dlB := (cp.elements b).dl
  let cp := (cp.setDl a dlB).setDl b dlA
  let idxA := (cp.elements cpuA).idx
  let idxB := (cp.elements cpuB).idx
  (cp.setIdx cpuA idxB).setIdx cpuB idxA

@[simp] theorem size_cpudlExchange (a b : Nat) : (cp.cpudlExchange a b).size = cp.size :=
  rfl

/-- The choice of one pass of `cpudl_heapify()`. -/
def largest (idx : Nat) : Nat :=
  let l := leftChild idx
  let r := rightChild idx
  let largest :=
    if l < cp.size ∧ dlTimeBefore (cp.elements idx).dl (cp.elements l).dl then l else idx
  if r < cp.size ∧ dlTimeBefore (cp.elements largest).dl (cp.elements r).dl then r else largest

theorem largest_cases (idx : Nat) :
    cp.largest idx = idx ∨ idx < cp.largest idx ∧ cp.largest idx < cp.size := by
  unfold largest leftChild rightChild
  grind

def cpudlHeapify (cp : Cpudl) (idx : Nat) : Cpudl :=
  if _h : cp.largest idx = idx then
    cp
  else
    cpudlHeapify (cp.cpudlExchange (cp.largest idx) idx) (cp.largest idx)
  termination_by cp.size - idx
  decreasing_by
    obtain heq | ⟨hlt, hsize⟩ := cp.largest_cases idx
    · contradiction
    · simp only [size_cpudlExchange]
      omega

/-- Move an item up while its deadline is later than the one above, with the index where it ends.
-/
def siftUp (cp : Cpudl) (idx : Nat) : Cpudl × Nat :=
  if _h : idx > 0 ∧ dlTimeBefore (cp.elements (parent idx)).dl (cp.elements idx).dl then
    siftUp (cp.cpudlExchange idx (parent idx)) (parent idx)
  else
    (cp, idx)
  termination_by idx
  decreasing_by
    unfold parent
    omega

def cpudlChangeKey (idx : Nat) (newDl : UInt64) : Cpudl :=
  if dlTimeBefore newDl (cp.elements idx).dl then
    (cp.setDl idx newDl).cpudlHeapify idx
  else
    ((cp.setDl idx newDl).siftUp idx).1

def cpudlSet (cpu : Nat) (dl : UInt64) (isValid : Bool) : Cpudl :=
  let oldIdx := (cp.elements cpu).idx
  if !isValid then
    if oldIdx = idxInvalid then
      cp
    else
      let oldIdx := oldIdx.toNat
      let newCpu := (cp.elements (cp.size - 1)).cpu
      let cp := cp.setDl oldIdx (cp.elements (cp.size - 1)).dl
      let cp := cp.setCpu oldIdx newCpu
      let cp := { cp with size := cp.size - 1 }
      let cp := cp.setIdx newCpu oldIdx
      let cp := cp.setIdx cpu idxInvalid
      let (cp, oldIdx) := cp.siftUp oldIdx
      let cp := cp.setFree cpu true
      cp.cpudlHeapify oldIdx
  else if oldIdx = idxInvalid then
    let cp := { cp with size := cp.size + 1 }
    let cp := cp.setDl (cp.size - 1) 0
    let cp := cp.setCpu (cp.size - 1) cpu
    let cp := cp.setIdx cpu ((cp.size - 1 : Nat) : Int)
    let cp := cp.cpudlChangeKey (cp.size - 1) dl
    cp.setFree cpu false
  else
    cp.cpudlChangeKey oldIdx.toNat dl

/-- `cpudl_init()`, when its allocations succeed. -/
def cpudlInit (cpus : Cpus) : Cpudl where
  size := 0
  freeCpus _ := false
  elements i := { dl := 0, cpu := 0, idx := if cpus.possible i then idxInvalid else 0 }

end Cpudl

end LinuxKernel.Sched
