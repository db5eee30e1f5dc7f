import TaskLunev.BinArrayModel
import TaskLunev.TransitionRuns

/-!
# Objects of the wrapper class

`binarray` keeps a raw handle to a `BinArray` in its one field that matters,
`arr_`. A program constructs objects, copies, moves, swaps and assigns them and
destroys each one. Every array gets an address of its own, which is not used
again. A call that reads through a handle that leads to no array is a fault,
and nothing is said about the program from there on.
-/
namespace TaskLunev.WrapperModel
open BinArrayModel TransitionRuns

inductive Handle where
  | unset | null
  | array (address : ℕ)
  deriving DecidableEq, Repr

inductive Fault where
  | unset | null | destroyed | outside
  deriving DecidableEq, Repr

/-- The array at each address so far, `none` once it is destroyed. -/
abbrev Heap := List Ptr

def deref (heap : Heap) : Handle → Except Fault BinArray
  | .unset => .error .unset
  | .null => .error .null
  | .array address =>
      match heap[address]? with
      | some (some arr) => .ok arr
      | _ => .error .destroyed

def allocate (heap : Heap) : Ptr → Handle × Heap
  | some arr => (.array heap.length, heap ++ [some arr])
  | none => (.null, heap)

/-! ## Functions of the library on handles -/

/-- `baGetClone`, which refuses a null handle and reads through any other. -/
def cloneHandle (grant : ℕ → Bool) (heap : Heap) : Handle → Except Fault Ptr
  | .null => .ok none
  | handle => do
      let arr ← deref heap handle
      match baGetClone grant (some arr) with
      | some clone => return clone
      | none => .error .outside

def freeHandle (heap : Heap) : Handle → Heap
  | .array address => heap.set address none
  | _ => heap

/-- `baDestroy` reads through the handle without a check and leaves null in it. -/
def baDestroy (heap : Heap) (arr : Option Handle) :
    Except Fault ((ℤ × Option Errno) × Heap × Option Handle) :=
  match arr with
  | none => .ok ((-1, some .einval), heap, none)
  | some handle => do
      let _ ← deref heap handle
      return ((0, none), freeHandle heap handle, some .null)

/-! ## Objects -/

/-- The named objects, and the by-value parameter of `operator=`. -/
inductive Name where
  | obj (x : ℕ)
  | param
  deriving DecidableEq, Repr

/-- `arr` gives the field `arr_` of each living object, `destroyed` the handles
that `baDestroy` was called on. -/
structure World where
  heap : Heap
  arr : Name → Option Handle
  destroyed : List Handle

namespace World

def empty : World := ⟨[], fun _ => none, []⟩

/-- The field of an object that is not alive is as good as unset. -/
def handle (w : World) (x : Name) : Handle := (w.arr x).getD .unset

/-- `arr_ (baCreate (size))` or `arr_ (baGetClone (other.arr_))`; with a null
handle the constructor throws and there is no object. -/
def initialise (w : World) (x : Name) (made : Ptr) : Option World :=
  match allocate w.heap made with
  | (.null, _) => none
  | (handle, heap) => some { w with heap, arr := Function.update w.arr x (some handle) }

/-- `binarray (size_t size)` -/
def construct (grant : ℕ → Bool) (size : ℕ) (x : Name) (w : World) : Option World :=
  w.initialise x (baCreate grant size).2

/-- `binarray (const binarray& other)` -/
def copyConstruct (grant : ℕ → Bool) (x other : Name) (w : World) :
    Except Fault (Option World) := do
  let clone ← cloneHandle grant w.heap (w.handle other)
  return w.initialise x clone

def swap (x other : Name) (w : World) : World :=
  { w with arr := Function.update (Function.update w.arr x (w.arr other)) other (w.arr x) }

/-- `binarray (binarray&& other)`: the new field has no value when it is swapped. -/
def moveConstruct (x other : Name) (w : World) : World :=
  swap x other { w with arr := Function.update w.arr x (some .unset) }

/-- `~binarray ()` -/
def destroy (x : Name) (w : World) : Except Fault World := do
  let (_, heap, _) ← baDestroy w.heap (some (w.handle x))
  return { heap, arr := Function.update w.arr x none, destroyed := w.destroyed ++ [w.handle x] }

/-- `operator= (binarray other)`, once its parameter is there. -/
def assignParam (x : Name) (w : World) : Except Fault World := destroy .param (swap x .param w)

/-! ### Bits of an object -/

/-- What a function of the library gets that checks its pointer: it refuses null
and reads through any other handle. -/
def argument (heap : Heap) : Handle → Except Fault Ptr
  | .null => .ok none
  | handle => do return some (← deref heap handle)

/-- The array a call leaves at its handle. -/
def putArray (heap : Heap) (handle : Handle) (arr : Ptr) : Heap :=
  match handle with
  | .array address => heap.set address arr
  | _ => heap

/-- `baGetNumBits` does not check its pointer. -/
def getNumBits (x : Name) (w : World) : Except Fault ℕ := do
  return (← deref w.heap (w.handle x)).numBits

/-- `baGetValue (arr_, num_bit)` -/
def getValue (x : Name) (numBit : ℕ) (w : World) : Except Fault ℤ := do
  let arr ← argument w.heap (w.handle x)
  match baGetValue arr numBit with
  | some r => return r.value
  | none => .error .outside

/-- `proxyBit::operator=`, which does not look at what `baSetValue` returns. -/
def setValue (x : Name) (numBit : ℕ) (val : Bool) (w : World) : Except Fault World := do
  let arr ← argument w.heap (w.handle x)
  match baSetValue arr numBit val with
  | some r => return { w with heap := putArray w.heap (w.handle x) r.arr }
  | none => .error .outside

/-- The loop of `logicAnd` over the bits below `num_bits`. The left side of `&&`
is a `proxyBit`, for which -1 is true, and the right side throws at -1; `none`
is an exception. -/
def logicAndFrom (x other : Name) : ℕ → World → Except Fault (Option ℤ × World)
  | 0, w => .ok (some 0, w)
  | numBits + 1, w => do
      let mine ← w.getValue x numBits
      if mine = 0 then
        let w ← w.setValue x numBits false
        logicAndFrom x other numBits w
      else
        let theirs ← w.getValue other numBits
        if theirs = -1 then return (none, w)
        else
          let w ← w.setValue x numBits (theirs ≠ 0)
          logicAndFrom x other numBits w

def logicAnd (x other : Name) (w : World) : Except Fault (Option ℤ × World) := do
  let mine ← w.getNumBits x
  let theirs ← w.getNumBits other
  if mine ≠ theirs then return (none, w) else logicAndFrom x other mine w

end World

/-! ## Programs -/

/-- The operations of a program on its objects. A call of `operator=` with an
rvalue names the overload it means, since both accept one; its by-value
parameter is then move-constructed. -/
inductive Op where
  | construct (x size : ℕ) (grant : ℕ → Bool)
  | copyConstruct (x other : ℕ) (grant : ℕ → Bool)
  | moveConstruct (x other : ℕ)
  | swap (x other : ℕ)
  | assign (x other : ℕ) (grant : ℕ → Bool)
  | assignMoved (x other : ℕ)
  | assignRvalue (x other : ℕ)
  | getNumBits (x : ℕ)
  | destroy (x : ℕ)

namespace Op

/-- A constructor that throws leaves the world as it was. -/
def run (op : Op) (w : World) : Except Fault World :=
  match op with
  | construct x size grant => .ok ((w.construct grant size (.obj x)).getD w)
  | copyConstruct x other grant => do
      let w' ← w.copyConstruct grant (.obj x) (.obj other)
      return w'.getD w
  | moveConstruct x other => .ok (w.moveConstruct (.obj x) (.obj other))
  | swap x other | assignRvalue x other => .ok (w.swap (.obj x) (.obj other))
  | assign x other grant => do
      match ← w.copyConstruct grant .param (.obj other) with
      | some w' => w'.assignParam (.obj x)
      | none => return w
  | assignMoved x other => (w.moveConstruct .param (.obj other)).assignParam (.obj x)
  | getNumBits x => do
      let _ ← deref w.heap (w.handle (.obj x))
      return w
  | destroy x => w.destroy (.obj x)

/-- Only new names are constructed and only living objects are used. -/
def Permitted (w : World) : Op → Prop
  | construct x _ _ => w.arr (.obj x) = none
  | copyConstruct x other _ | moveConstruct x other =>
      w.arr (.obj x) = none ∧ w.arr (.obj other) ≠ none
  | swap x other | assign x other _ | assignMoved x other | assignRvalue x other =>
      w.arr (.obj x) ≠ none ∧ w.arr (.obj other) ≠ none
  | getNumBits x | destroy x => w.arr (.obj x) ≠ none

instance (w : World) : DecidablePred (Permitted w)
  | construct .. => inferInstanceAs (Decidable (_ = none))
  | copyConstruct .. | moveConstruct .. => inferInstanceAs (Decidable (_ ∧ _))
  | swap .. | assign .. | assignMoved .. | assignRvalue .. => inferInstanceAs (Decidable (_ ∧ _))
  | getNumBits _ | destroy _ => inferInstanceAs (Decidable (_ ≠ none))

def MoveConstructs : Op → Prop
  | moveConstruct .. | assignMoved .. => True
  | _ => False

end Op

abbrev State := Except Fault World

def start : State := .ok World.empty

/-- A faulted program takes no further step. -/
def Step (s : State) (op : Op) (t : State) : Prop :=
  ∃ w, s = .ok w ∧ op.Permitted w ∧ t = op.run w

/-- The run of these operations, up to a fault or to one that is not permitted. -/
def execute : State → List Op → List (Op × State)
  | .ok w, op :: ops => if op.Permitted w then (op, op.run w) :: execute (op.run w) ops else []
  | _, _ => []

theorem path_execute (s : State) (ops : List Op) : Path Step s (execute s ops) := by
  induction ops generalizing s with
  | nil => cases s <;> exact .nil
  | cons op ops ih =>
      cases s with
      | error e => exact .nil
      | ok w =>
          rw [execute]
          split_ifs with hperm
          · exact .cons ⟨w, rfl, hperm, rfl⟩ (ih _)
          · exact .nil

/-- Every array was destroyed once, `baDestroy` got arrays only, and no call read
through a handle that leads to none. -/
def Sound (s : State) : Prop :=
  ∃ w, s = .ok w ∧ (∀ a < w.heap.length, w.destroyed.count (.array a) = 1) ∧
    ∀ h ∈ w.destroyed, ∃ a < w.heap.length, h = .array a

/-- A program that got through has destroyed all its objects. -/
def Complete (s : State) : Prop := ∀ w, s = .ok w → ∀ x, w.arr x = none

end TaskLunev.WrapperModel
