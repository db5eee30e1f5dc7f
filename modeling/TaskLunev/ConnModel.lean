import TaskLunev.UndoSemaphores

/-!
# The connection phase

Every reader hands the identifier of its personal memory to a writer through
one shared cell, guarded by four semaphores on which all processes work with
`SEM_UNDO`. The steps below are the semaphore operations and the accesses to
shared memory in the order of the source; a process that is blocked has no
step. The log `reads` is no part of the program: it keeps which writer read
which identifier.
-/
namespace TaskLunev.ConnModel
open UndoSemaphores

/-- `CONN::SEM` -/
inductive Sem where
  | empty
  | mutex
  | full
  | wReaded
  deriving DecidableEq, Repr

instance : Fintype Sem := ⟨{.empty, .mutex, .full, .wReaded}, fun k => by cases k <;> decide⟩

/-- The values that `InitConnShm` and every reader at its end give to `SETALL`. -/
def ops : Sem → ℕ
  | .empty => 1
  | .mutex => 1
  | .full => 0
  | .wReaded => 0

/-- The next step of a writer: `readSem` is the access to the personal memory
it has attached. -/
inductive WriterPc where
  | pFull
  | pMutex
  | readId
  | readSem
  | vMutex
  | vReaded
  | done
  deriving DecidableEq, Repr

/-- The next step of a reader. -/
inductive ReaderPc where
  | pEmpty
  | pMutex
  | writeId
  | vMutex
  | vFull
  | pReaded
  | setAll
  | done
  deriving DecidableEq, Repr

inductive Pc where
  | writer (pc : WriterPc)
  | reader (pc : ReaderPc)
  | exited
  deriving DecidableEq, Repr

/-- Which function of the source a process runs. -/
inductive Role where
  | writer
  | reader
  deriving DecidableEq, Repr

def Role.begin : Role → Pc
  | writer => .writer .pFull
  | reader => .reader .pEmpty

/-- `readerShmID` is the cell of the shared memory. -/
structure State (ι : Type*) where
  sem : SemSet Sem ι
  readerShmID : ℤ
  pc : ι → Pc
  reads : List (ι × ℤ)

namespace State

variable {ι : Type*}

/-- All processes before their first step. -/
def start (role : ι → Role) (readerShmID : ℤ) : State ι :=
  ⟨.setAll ops, readerShmID, fun p => (role p).begin, []⟩

variable [DecidableEq ι]

def goto (s : State ι) (p : ι) (pc : Pc) : State ι := { s with pc := Function.update s.pc p pc }

/-- `semop` on the connection semaphores with `SEM_UNDO`, then the next step. -/
def semop (s : State ι) (p : ι) (k : Sem) (d : ℤ) (pc : Pc) : Option (State ι) :=
  (s.sem.semop p k d).map fun sem => { s with sem }.goto p pc

def connP (s : State ι) (p : ι) (k : Sem) (pc : Pc) : Option (State ι) := s.semop p k (-1) pc

def connV (s : State ι) (p : ι) (k : Sem) (pc : Pc) : Option (State ι) := s.semop p k 1 pc

def writer (s : State ι) (p : ι) : WriterPc → Option (State ι)
  | .pFull => s.connP p .full (.writer .pMutex)
  | .pMutex => s.connP p .mutex (.writer .readId)
  | .readId => some ({ s with reads := s.reads ++ [(p, s.readerShmID)] }.goto p (.writer .readSem))
  | .readSem => some (s.goto p (.writer .vMutex))
  | .vMutex => s.connV p .mutex (.writer .vReaded)
  | .vReaded => s.connV p .wReaded (.writer .done)
  | .done => none

def reader (persShmID : ι → ℤ) (s : State ι) (p : ι) : ReaderPc → Option (State ι)
  | .pEmpty => s.connP p .empty (.reader .pMutex)
  | .pMutex => s.connP p .mutex (.reader .writeId)
  | .writeId => some ({ s with readerShmID := persShmID p }.goto p (.reader .vMutex))
  | .vMutex => s.connV p .mutex (.reader .vFull)
  | .vFull => s.connV p .full (.reader .pReaded)
  | .pReaded => s.connP p .wReaded (.reader .setAll)
  | .setAll => some ({ s with sem := .setAll ops }.goto p (.reader .done))
  | .done => none

/-- One step of one process. -/
def exec (persShmID : ι → ℤ) (s : State ι) (p : ι) : Option (State ι) :=
  match s.pc p with
  | .writer pc => s.writer p pc
  | .reader pc => s.reader persShmID p pc
  | .exited => none

/-- The process ends, wherever it is, and the kernel adds its adjustments. -/
def exit (s : State ι) (p : ι) : Option (State ι) :=
  match s.pc p with
  | .exited => none
  | _ => some ({ s with sem := s.sem.exit p }.goto p .exited)

end State

inductive Event (ι : Type*) where
  | step (p : ι)
  | exit (p : ι)
  deriving DecidableEq, Repr

def State.next {ι : Type*} [DecidableEq ι] (persShmID : ι → ℤ) (s : State ι) :
    Event ι → Option (State ι)
  | .step p => s.exec persShmID p
  | .exit p => s.exit p

/-! ## What is asked of a state -/

/-- Between `P (MUTEX)` and `V (MUTEX)`. -/
def Pc.InCritical (pc : Pc) : Prop :=
  pc = .writer .readId ∨ pc = .writer .readSem ∨ pc = .writer .vMutex ∨
    pc = .reader .writeId ∨ pc = .reader .vMutex

/-- A reader past `P (W_READED)`. -/
def Pc.Passed (pc : Pc) : Prop := pc = .reader .setAll ∨ pc = .reader .done

variable {ι : Type*}

/-- One process at a time holds the mutex, and the registrations of readers
are read once each, before the reader goes on. -/
structure HandedOver (persShmID : ι → ℤ) (s : State ι) : Prop where
  exclusive : ∀ p q, (s.pc p).InCritical → (s.pc q).InCritical → p = q
  read : ∀ r, (s.pc r).Passed → ∃! w, (w, persShmID r) ∈ s.reads
  once : ∀ r w w', (w, persShmID r) ∈ s.reads → (w', persShmID r) ∈ s.reads → w = w'

structure Guarded (persShmID : ι → ℤ) (s : State ι) : Prop where
  mutex : s.sem.val .mutex ≤ 1
  read : ∀ r, (s.pc r).Passed → ∃ w, (w, persShmID r) ∈ s.reads

/-- An exit cuts off no value of a semaphore: every adjustment of the process
can be added in full. -/
def Event.Undone (s : State ι) : Event ι → Prop
  | .step _ => True
  | .exit p => s.sem.Undoable p

instance (s : State ι) : (e : Event ι) → Decidable (e.Undone s)
  | .step _ => inferInstanceAs (Decidable True)
  | .exit p => inferInstanceAs (Decidable (s.sem.Undoable p))

end TaskLunev.ConnModel
