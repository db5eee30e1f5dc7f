import Mathlib.Logic.Function.Basic
import TaskLunev.TransitionRuns

/-!
# Children that print their numbers

`GenChildPrnt1_n` after its argument has been parsed. The parent forks the
children one by one; a child waits for the message of the one before it, prints
its number and sends a message of its own. The parent waits for the message of
the last child, prints a newline and removes the queue. Forks succeed, calls on
the queue are atomic, and they fail only once the queue has been removed. There
is room for each message: the queue never holds more than one.
-/
namespace TaskLunev.ChildChainModel

/-- `error` stands for the lines that `CHECK_ERROR` prints. -/
inductive Printed where
  | number (i : ℕ)
  | newline
  | error
  deriving DecidableEq, Repr

/-- The next step of a child. -/
inductive ChildPc where
  | unborn
  | receiving
  | printing
  | sending
  | returned
  | failed
  deriving DecidableEq, Repr

/-- The next step of the parent, `forking i` in the pass of its loop with `i`. -/
inductive ParentPc where
  | forking (i : ℕ)
  | receiving
  | newline
  | removing
  | returned
  | failed
  deriving DecidableEq, Repr

/-- Messages have a type and no text. `queue` has the types in order, `none`
once it has been removed; `out` is what has been printed, by whomever. -/
structure State where
  numberChilds : ℕ
  queue : Option (List ℕ)
  out : List Printed
  parent : ParentPc
  child : ℕ → ChildPc

namespace State

def start (numberChilds : ℕ) : State where
  numberChilds := numberChilds
  queue := some []
  out := []
  parent := .forking 1
  child := fun _ => .unborn

def setParent (pc : ParentPc) (s : State) : State := { s with parent := pc }

def setChild (number : ℕ) (pc : ChildPc) (s : State) : State :=
  { s with child := Function.update s.child number pc }

def print (p : Printed) (s : State) : State := { s with out := s.out ++ [p] }

/-- The first message of a positive type; blocked while there is none. -/
def msgrcv (s : State) (type : ℕ) (failed go : State → State) : Option State :=
  match s.queue with
  | none => some (failed s)
  | some types =>
      if type ∈ types then some (go { s with queue := some (types.erase type) }) else none

def msgsnd (s : State) (type : ℕ) (failed go : State → State) : Option State :=
  match s.queue with
  | none => some (failed s)
  | some types => some (go { s with queue := some (types ++ [type]) })

/-- `msgctl` with `IPC_RMID` -/
def msgctl (s : State) (failed go : State → State) : Option State :=
  match s.queue with
  | none => some (failed s)
  | some _ => some (go { s with queue := none })

/-- A child that finds its number set; the first one waits for nobody. -/
def childEntry (number : ℕ) : ChildPc := if number ≠ 1 then .receiving else .printing

def childStep (s : State) (number : ℕ) : Option State :=
  match s.child number with
  | .unborn => none
  | .receiving =>
      s.msgrcv (number - 1) (print .error ∘ setChild number .failed) (setChild number .printing)
  | .printing => some ((s.print (.number number)).setChild number .sending)
  | .sending => s.msgsnd number (print .error ∘ setChild number .failed) (setChild number .returned)
  | .returned => none
  | .failed => none

def parentStep (s : State) : Option State :=
  match s.parent with
  | .forking i =>
      if i ≤ s.numberChilds then some ((s.setChild i (childEntry i)).setParent (.forking (i + 1)))
      else some (s.setParent (if 0 < s.numberChilds then .receiving else .newline))
  | .receiving => s.msgrcv s.numberChilds (print .error ∘ setParent .failed) (setParent .newline)
  | .newline => some ((s.print .newline).setParent .removing)
  | .removing => s.msgctl (print .error ∘ setParent .failed) (setParent .returned)
  | .returned => none
  | .failed => none

end State

inductive Event where
  | parent
  | child (number : ℕ)
  deriving DecidableEq, Repr

def State.next (s : State) : Event → Option State
  | .parent => s.parentStep
  | .child number => s.childStep number

def Step (s : State) (e : Event) (t : State) : Prop := s.next e = some t

/-! ## What is asked of a state -/

/-- The numbers from `1` to `k`. -/
def numbers (k : ℕ) : List Printed := (List.range k).map fun i => .number (i + 1)

/-- The numbers stand in order, the newline only behind the last one, and the
queue is gone only when every child has returned, none of them with an error. -/
structure Safe (s : State) : Prop where
  out : ∃ k ≤ s.numberChilds,
    s.out = numbers k ∨ k = s.numberChilds ∧ s.out = numbers k ++ [.newline]
  removal : s.queue = none →
    ∀ number, 1 ≤ number → number ≤ s.numberChilds → s.child number = .returned
  child : ∀ number, s.child number ≠ .failed
  parent : s.parent ≠ .failed

end TaskLunev.ChildChainModel
