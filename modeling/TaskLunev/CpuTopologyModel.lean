import Mathlib.Algebra.GroupWithZero.Nat
import Mathlib.Data.Int.Notation
import Mathlib.Data.Nat.Notation
import Mathlib.Logic.Function.Basic

/-!
# The CPU topology

The logical CPUs of a machine, each with the core it belongs to, and the
function that puts them into the order in which threads are placed on them:
first one CPU of every core, then the second ones, and so on. `qsort` is a
parameter. The outer loop has a number of passes it may take. The cores are
counted with a mark for each in an array that has an entry for every CPU.
-/
namespace TaskLunev.CpuTopologyModel

/-- `logic_cpu_t` -/
structure LogicCpu where
  id : ℤ
  coreId : ℤ
  deriving DecidableEq, Repr

/-- `cpu_topology_t`; `logicCpus` is `none` for a null pointer. -/
structure CpuTopology where
  numLogicCpu : ℕ
  logicCpus : Option (Vector LogicCpu numLogicCpu)
  deriving DecidableEq, Repr

def cputopVerifier (cputop : CpuTopology) : Bool :=
  decide (cputop.numLogicCpu > 0) && cputop.logicCpus.isSome

/-- The comparison never answers with a negative number. -/
def cmpCoreId (first second : LogicCpu) : ℤ := if first.coreId > second.coreId then 1 else 0

/-- The type of `qsort`, which sorts in place. -/
abbrev QSort := ∀ n : ℕ, (LogicCpu → LogicCpu → ℤ) → Vector LogicCpu n → Vector LogicCpu n

/-- The variables of the loops but for the copy. -/
structure SortVars (n : ℕ) where
  logicCpus : Vector LogicCpu n
  i : ℕ
  min : ℤ

/-- The inner loop over the entries of the copy, which it gives back with the
taken ones marked. `none` when it writes behind the array. -/
def innerLoop {n : ℕ} : List LogicCpu → SortVars n → Option (SortVars n × List LogicCpu)
  | [], s => some (s, [])
  | cpu :: rest, s =>
      if cpu.coreId > s.min then
        if h : s.i < n then do
          let (s, rest) ← innerLoop rest
            { logicCpus := s.logicCpus.set s.i cpu h, i := s.i + 1, min := cpu.coreId }
          return (s, { cpu with coreId := -2 } :: rest)
        else none
      else do
        let (s, rest) ← innerLoop rest s
        return (s, cpu :: rest)

/-- `none` also when the passes run out. -/
def outerLoop {n : ℕ} : ℕ → Vector LogicCpu n → List LogicCpu → ℕ → Option (Vector LogicCpu n)
  | 0, logicCpus, _, i => if i < n then none else some logicCpus
  | passes + 1, logicCpus, copy, i =>
      if i < n then do
        let (s, copy) ← innerLoop copy { logicCpus, i, min := -1 }
        outerLoop passes s.logicCpus copy s.i
      else some logicCpus

def EINVAL : ℤ := 22

/-- The value returned, the error number the call sets, and the topology it
leaves behind. -/
structure Reply where
  ret : ℤ
  errno : Option ℤ
  cputop : Option CpuTopology

/-- The argument is `none` for a null pointer. -/
def cputopSortUniqSetsCoreId (qsort : QSort) (passes : ℕ) : Option CpuTopology → Option Reply
  | none => some ⟨-1, some EINVAL, none⟩
  | some cputop =>
      if cputopVerifier cputop = false then some ⟨-1, none, some cputop⟩
      else
        match cputop.logicCpus with
        | none => none
        | some logicCpus => do
            let sorted := qsort cputop.numLogicCpu cmpCoreId logicCpus
            let logicCpus ← outerLoop passes sorted sorted.toList 0
            return ⟨0, none, some { cputop with logicCpus := some logicCpus }⟩

/-! ## Counting the cores -/

/-- `none` when a core id is no index of the array. -/
def markCores {n : ℕ} : List LogicCpu → (Fin n → ℕ) → Option (Fin n → ℕ)
  | [], mask => some mask
  | cpu :: rest, mask =>
      if h : 0 ≤ cpu.coreId ∧ cpu.coreId.toNat < n then
        markCores rest (Function.update mask ⟨cpu.coreId.toNat, h.2⟩ 1)
      else none

def cputopGetNumCoreCPU : Option CpuTopology → Option Reply
  | none => some ⟨-1, some EINVAL, none⟩
  | some cputop =>
      if cputopVerifier cputop = false then some ⟨-1, some EINVAL, some cputop⟩
      else
        match cputop.logicCpus with
        | none => none
        | some logicCpus => do
            let mask ← markCores logicCpus.toList fun _ => 0
            return ⟨((List.finRange cputop.numLogicCpu).map mask).sum, none, some cputop⟩

end TaskLunev.CpuTopologyModel
