import Mathlib.Logic.Function.Basic
import TaskLunev.ByteMemory

/-!
# The transfer phase

The writer fills the reader's personal memory chunk by chunk, the reader
prints it, and two semaphores without undo pass the buffer back and forth.
Every semaphore operation, every access to shared memory and every call is a
step of its own. No call fails by itself, nothing times out and the reader
writes all it asks for; but an operation on the semaphores after the reader
has removed them does fail, and then the function returns `-1`.
-/
namespace TaskLunev.TransferModel
open ByteMemory

def SIZE_BUF : ℕ := 4096

/-- `PERS::SEM` -/
inductive Sem where
  | empty
  | full
  deriving DecidableEq, Repr

/-- The next step of the writer; `storing` has the result of `read`. -/
inductive WriterPc where
  | pEmpty
  | reading
  | storing (size : ℕ)
  | vFull
  | testing
  | detaching
  | returned (code : ℤ)
  deriving DecidableEq, Repr

/-- The next step of the reader; after the loop it removes the semaphores,
detaches the memory and removes it. -/
inductive ReaderPc where
  | pFull
  | writing
  | vEmpty
  | testing
  | removing
  | detaching
  | removingShm
  | returned (code : ℤ)
  deriving DecidableEq, Repr

/-- `removed` says that the semaphores are gone, `out` what was written. -/
structure State where
  sem : Sem → ℕ
  removed : Bool
  currSizeData : ℕ
  buf : Memory SIZE_BUF
  unread : List Byte
  out : List Byte
  writer : WriterPc
  reader : ReaderPc

/-- The values of `InitPersSem`. -/
def values : Sem → ℕ
  | .empty => 1
  | .full => 0

namespace State

def start (file : List Byte) : State where
  sem := values
  removed := false
  currSizeData := 0
  buf := fun _ => 0
  unread := file
  out := []
  writer := .pEmpty
  reader := .pFull

/-- `semtimedop` by `-1`: `failed` on a removed set, blocked at zero. -/
def Ptime (s : State) (k : Sem) (failed go : State → State) : Option State :=
  if s.removed then some (failed s)
  else if 0 < s.sem k then some (go { s with sem := Function.update s.sem k (s.sem k - 1) })
  else none

def Vtime (s : State) (k : Sem) (failed go : State → State) : Option State :=
  if s.removed then some (failed s)
  else some (go { s with sem := Function.update s.sem k (s.sem k + 1) })

def setWriter (pc : WriterPc) (s : State) : State := { s with writer := pc }

def setReader (pc : ReaderPc) (s : State) : State := { s with reader := pc }

/-- A step of the writer other than `read`. -/
def writerStep (s : State) : Option State :=
  match s.writer with
  | .pEmpty => s.Ptime .empty (setWriter (.returned (-1))) (setWriter .reading)
  | .reading => none
  | .storing size => some ({ s with currSizeData := size }.setWriter .vFull)
  | .vFull => s.Vtime .full (setWriter (.returned (-1))) (setWriter .testing)
  | .testing => some (s.setWriter (if 0 < s.currSizeData then .pEmpty else .detaching))
  | .detaching => some (s.setWriter (.returned 0))
  | .returned _ => none

/-- `read` into the shared buffer, with `0` at the end of the file only. -/
def readFile (s : State) (size : ℕ) : Option State :=
  if s.writer = .reading ∧ size ≤ SIZE_BUF ∧ size ≤ s.unread.length ∧ (size = 0 → s.unread = []) then
    (writeBytes s.buf 0 (s.unread.take size)).map fun buf =>
      { s with buf, unread := s.unread.drop size }.setWriter (.storing size)
  else none

def readerStep (s : State) : Option State :=
  match s.reader with
  | .pFull => s.Ptime .full (setReader (.returned (-1))) (setReader .writing)
  | .writing =>
      (readBytes s.buf 0 s.currSizeData).map fun bytes =>
        { s with out := s.out ++ bytes }.setReader .vEmpty
  | .vEmpty => s.Vtime .empty (setReader (.returned (-1))) (setReader .testing)
  | .testing => some (s.setReader (if 0 < s.currSizeData then .pFull else .removing))
  | .removing => some ({ s with removed := true }.setReader .detaching)
  | .detaching => some (s.setReader .removingShm)
  | .removingShm => some (s.setReader (.returned 0))
  | .returned _ => none

end State

inductive Event where
  | writer
  | read (size : ℕ)
  | reader
  deriving DecidableEq, Repr

def State.next (s : State) : Event → Option State
  | .writer => s.writerStep
  | .read size => s.readFile size
  | .reader => s.readerStep

def Step (s : State) (e : Event) (t : State) : Prop := s.next e = some t

/-! ## What is asked of a state -/

/-- The reader is past its loop. -/
def ReaderPc.Left (pc : ReaderPc) : Prop :=
  pc = .removing ∨ pc = .detaching ∨ pc = .removingShm ∨ pc = .returned 0

/-- The writer's next step is no operation on removed semaphores, and no
function has returned an error. -/
structure Safe (s : State) : Prop where
  semop : s.removed = true → s.writer ≠ .pEmpty ∧ s.writer ≠ .vFull
  writer : s.writer ≠ .returned (-1)
  reader : s.reader ≠ .returned (-1)

/-- The reader does not evaluate its loop test while the writer stands between
storing the size `0` of the end of the file and its `V (FULL)`. -/
def Event.LateTest (s : State) (e : Event) : Prop :=
  e = .reader → s.reader = .testing → s.writer = .vFull → s.currSizeData ≠ 0

end TaskLunev.TransferModel
