import TaskLunev.BlockHeap
import TaskLunev.CStrings
import TaskLunev.CpuTopologyModel

/-!
# Reading the CPU topology

A topology is made empty and filled from the text files of the kernel, as often
as a caller likes: first the list of the CPUs that are online, then a file for
each CPU with the core it belongs to. What the system answers at each point is
an argument. All that is allocated are blocks on one heap. A call that frees a
block twice, leaves the array it fills or counts past the largest `int` is a
fault, and nothing is said about what follows.
-/
namespace TaskLunev.CpuTopologyInitModel
open BlockHeap CStrings CpuTopologyModel

inductive Fault where
  | doubleFree | dangling | null | outside | overflow
  deriving DecidableEq, Repr

/-- The topology object, a file read into memory, an array of CPUs, or one with
a place for each thread of a caller. -/
inductive Block where
  | object
  | text (s : List Char)
  | cpus (logicCpus : List LogicCpu)
  | threads (num : ℕ)
  deriving DecidableEq, Repr

/-- `cpu_topology_t` as a block of its own, with a pointer to its array. -/
structure Cputop where
  address : ℕ
  numLogicCpu : ℕ
  logicCpus : Option ℕ
  deriving DecidableEq, Repr

/-- `free` -/
def freeBlock (heap : Heap Block) (a : ℕ) : Except Fault (Heap Block) :=
  match free heap a with
  | some heap => .ok heap
  | none => .error .doubleFree

/-! ## Filling the array of CPUs -/

def LOGIC_CPU_MAX : ℕ := 256

def INT_MAX : ℤ := 2 ^ 31 - 1

/-- `logic_cpus[num_cpus++].id = id` on the entries written so far of an array
that was zeroed. -/
def pushCpu (cpus : List LogicCpu) (id : ℤ) : Except Fault (List LogicCpu) :=
  if cpus.length < LOGIC_CPU_MAX then .ok (cpus ++ [⟨id, 0⟩]) else .error .outside

/-- The loop over a range. Each pass writes an entry, so one pass more than
there are entries is never taken. -/
def fillRange (maxLogicCpu : ℤ) : ℕ → ℤ → List LogicCpu → Except Fault (List LogicCpu)
  | 0, _, _ => .error .outside
  | passes + 1, cur, cpus => do
      let cpus ← pushCpu cpus cur
      if cur = INT_MAX then .error .overflow
      else if cur + 1 ≤ maxLogicCpu then fillRange maxLogicCpu passes (cur + 1) cpus
      else return cpus

def fillToken (token : List Char) (cpus : List LogicCpu) : Except Fault (List LogicCpu) :=
  match strchr token '-' with
  | none => pushCpu cpus (atoi token)
  | some posDelim => fillRange (atoi (posDelim.drop 1)) (LOGIC_CPU_MAX + 1) (atoi token) cpus

def fillTokens : List (List Char) → List LogicCpu → Except Fault (List LogicCpu)
  | [], cpus => .ok cpus
  | token :: rest, cpus => do
      let cpus ← fillToken token cpus
      fillTokens rest cpus

inductive Realloc where
  | fails | inPlace | moved
  deriving DecidableEq, Repr

/-- `realloc` to the size of these entries. With size zero it frees the block
and gives null. -/
def realloc (answer : Realloc) (heap : Heap Block) (address : ℕ) (cpus : List LogicCpu) :
    Except Fault (Option ℕ × Heap Block) :=
  if cpus = [] then do
    let heap ← freeBlock heap address
    return (none, heap)
  else
    match answer with
    | .fails => .ok (none, heap)
    | .inPlace => .ok (some address, heap)
    | .moved => do
        let (temp, heap) := allocate heap (.cpus cpus)
        let heap ← freeBlock heap address
        return (some temp, heap)

/-- The value returned, the heap and the object. -/
abbrev Outcome := Except Fault (ℤ × Heap Block × Cputop)

def cputopFillLogicCPU (calloc : Bool) (answer : Realloc) (strOnline : List Char)
    (heap : Heap Block) (cputop : Cputop) : Outcome :=
  if calloc = false then .ok (-1, heap, { cputop with logicCpus := none })
  else do
    let (address, heap) := allocate heap (.cpus [])
    let cpus ← fillTokens (tokens ',' strOnline) []
    let heap := store heap address (.cpus cpus)
    let (temp, heap) ← realloc answer heap address cpus
    let logicCpus := some (temp.getD address)
    return (0, heap, { cputop with numLogicCpu := cpus.length, logicCpus })

/-! ## Files -/

/-- How opening and reading a file goes. -/
inductive FileRead where
  | openFails | fstatFails | callocFails | readFails
  | text (s : List Char)
  deriving DecidableEq, Repr

/-- `_readCpuTopologyFile`: the buffer and the text in it, or null. A buffer
that nothing could be read into stays allocated. -/
def readCpuTopologyFile (heap : Heap Block) : FileRead → Option (ℕ × List Char) × Heap Block
  | .text s => (some ((allocate heap (.text s)).1, s), (allocate heap (.text s)).2)
  | .readFails => (none, (allocate heap (.text [])).2)
  | _ => (none, heap)

/-- What the system answers in one initialisation; `core` is about the file of
the CPU at each place of the array. -/
structure Answers where
  online : FileRead
  calloc : Bool
  realloc : Realloc
  core : ℕ → FileRead

def cputopInitLogicCPU (answers : Answers) (heap : Heap Block) (cputop : Cputop) : Outcome :=
  match readCpuTopologyFile heap answers.online with
  | (none, heap) => .ok (-1, heap, cputop)
  | (some (address, strOnline), heap) => do
      let (ret, heap, cputop) ←
        cputopFillLogicCPU answers.calloc answers.realloc strOnline heap cputop
      let heap ← freeBlock heap address
      return (ret, heap, cputop)

def loadCpus (heap : Heap Block) : Option ℕ → Except Fault (ℕ × List LogicCpu)
  | none => .error .null
  | some address =>
      match load heap address with
      | some (.cpus cpus) => .ok (address, cpus)
      | _ => .error .dangling

/-- The loop of `_cputopFillCoreCPU` with so many CPUs to go. -/
def fillCores (core : ℕ → FileRead) (logicCpus : Option ℕ) :
    ℕ → ℕ → Heap Block → Except Fault (ℤ × Heap Block)
  | 0, _, heap => .ok (0, heap)
  | left + 1, i, heap => do
      let (address, cpus) ← loadCpus heap logicCpus
      match cpus[i]? with
      | none => .error .outside
      | some cpu =>
          match readCpuTopologyFile heap (core i) with
          | (none, heap) => return (-1, heap)
          | (some (buf, strCoreId), heap) => do
              let coreId := atoi strCoreId
              let heap := store heap address (.cpus (cpus.set i { cpu with coreId }))
              let heap ← freeBlock heap buf
              fillCores core logicCpus left (i + 1) heap

def cputopFillCoreCPU (core : ℕ → FileRead) (heap : Heap Block) (cputop : Cputop) :
    Except Fault (ℤ × Heap Block) :=
  fillCores core cputop.logicCpus cputop.numLogicCpu 0 heap

/-! ## The object -/

/-- The heap and the pointer that the caller has. -/
structure World where
  heap : Heap Block
  cputop : Option Cputop
  deriving DecidableEq, Repr

def cputopCreate (calloc : Bool) (heap : Heap Block) : World :=
  if calloc then ⟨(allocate heap .object).2, some ⟨(allocate heap .object).1, 0, none⟩⟩
  else ⟨heap, none⟩

def freeArray (heap : Heap Block) : Option ℕ → Except Fault (Heap Block)
  | none => .ok heap
  | some address => freeBlock heap address

def cputopInit (answers : Answers) (w : World) : Except Fault (ℤ × World) :=
  match w.cputop with
  | none => .ok (-1, w)
  | some cputop => do
      let heap ← freeArray w.heap cputop.logicCpus
      let (ret, heap, cputop) ← cputopInitLogicCPU answers heap cputop
      if ret = -1 then return (-1, ⟨heap, some cputop⟩)
      else
        let (ret, heap) ← cputopFillCoreCPU answers.core heap cputop
        return (ret, ⟨heap, some cputop⟩)

def cputopDestroy (w : World) : Except Fault (ℤ × World) :=
  match w.cputop with
  | none => .error .null
  | some cputop => do
      let heap ← freeArray w.heap cputop.logicCpus
      let heap ← freeBlock heap cputop.address
      return (0, ⟨heap, none⟩)

end TaskLunev.CpuTopologyInitModel
