import TaskLunev.CpuTopologyInitModel
import TaskLunev.IntegralModel
import TaskLunev.ThreadPlacement

/-!
# A whole call of `hpcIntegral`

The call as it is configured, with the topology it makes, reads, sorts and
destroys around the integral. What the system answers about the topology is an
argument. The calls about threads succeed, and so do the allocations of the
three arrays for them, which the source never frees.
-/
namespace TaskLunev.HpcCallModel
open BlockHeap CpuTopologyModel CpuTopologyInitModel ThreadPlacement IntegralModel

/-- The value returned, the CPU sets of the threads that were created, and the
heap. -/
structure Ended where
  value : Double
  attrs : List CpuSet
  heap : Heap Block

/-- `cputopSortUniqSetsCoreId` on the object in memory, with the topology that it
leaves. No result when its passes run out. -/
def sortObject (qsort : QSort) (passes : ℕ) (w : World) :
    Except Fault (Option (ℤ × Option CpuTopology × World)) :=
  match w.cputop with
  | none => .ok (some (-1, none, w))
  | some cputop =>
      if cputop.numLogicCpu = 0 ∨ cputop.logicCpus = none then .ok (some (-1, none, w))
      else do
        let (address, cpus) ← loadCpus w.heap cputop.logicCpus
        if h : cpus.length = cputop.numLogicCpu then
          return (cputopSortUniqSetsCoreId qsort passes
              (some ⟨cputop.numLogicCpu, some ⟨cpus.toArray, by simpa using h⟩⟩)).bind fun reply =>
            reply.cputop.bind fun sorted => sorted.logicCpus.map fun logicCpus =>
              (reply.ret, some sorted,
                { w with heap := store w.heap address (.cpus logicCpus.toList) })
        else .error .outside

/-- `calloc` of an array with a place for each thread. -/
def callocThreads (num : ℕ) (heap : Heap Block) : Heap Block := (allocate heap (.threads num)).2

/-- `_integral_linear` with the CPU sets of its threads and the heap that it
leaves. -/
def integralLinearOn (fuel : ℕ) (arg : HpcIntArg) (func : ℚ → ℚ) (cputop : Option CpuTopology)
    (heap : Heap Block) : Option (Double × List CpuSet × Heap Block) :=
  let numThreads := toInt arg.numThreads
  let numLogicCpu := cputopGetNumLogicCPU cputop
  let numDummy := if numThreads < numLogicCpu then toInt (numLogicCpu - numThreads) else 0
  let num := toUnsigned (numThreads + numDummy)
  -- tid_attr_arr
  let heap := callocThreads num heap
  (distributeAttrThreads num cputop).bind fun (state, attrs) =>
    if state ≠ 0 then some (none, attrs, heap)
    else
      -- tid_arr and int_args
      let heap := callocThreads num (callocThreads num heap)
      (integralLinear fuel arg.a arg.b func arg.eps numThreads numLogicCpu).map fun value =>
        (some value, attrs, heap)

/-- The end of the call, where the topology is destroyed. -/
def ended (value : Double) (attrs : List CpuSet) (w : World) : Except Fault (Option Ended) := do
  let (_, w) ← cputopDestroy w
  return some ⟨value, attrs, w.heap⟩

/-- `calloc` says whether there is memory for the object. No result while the
passes given to the loops do not suffice. -/
def hpcIntegralCall (qsort : QSort) (passes fuel : ℕ) (calloc : Bool) (answers : Answers)
    (arg : HpcIntArg) (heap : Heap Block) : Except Fault (Option Ended) :=
  match verifierIntArg arg, arg.func with
  | true, some func =>
      let w := cputopCreate calloc heap
      if w.cputop = none then .ok (some ⟨none, [], w.heap⟩)
      else do
        let (ret, w) ← cputopInit answers w
        if ret = -1 then ended none [] w
        else
          match ← sortObject qsort passes w with
          | none => return none
          | some (ret, cputop, w) =>
              if ret = -1 then ended none [] w
              else
                match integralLinearOn fuel arg func cputop w.heap with
                | none => return none
                | some (value, attrs, heap) => ended value attrs { w with heap }
  | _, _ => .ok (some ⟨none, [], heap⟩)

end TaskLunev.HpcCallModel
