import TaskLunev.ByteMemory
import TaskLunev.NamedPipe
import TaskLunev.TransitionRuns
import Mathlib.Logic.Function.Basic

/-!
# Readers and writers on one connection FIFO

`wrrd.cpp`: a reader writes its pid into the connection FIFO and waits at a FIFO
of its own for a greeting and a file; a writer takes a pid and sends both. A
write is atomic and happens once there is room for it, a read takes what it asks
for if it is there. A file descriptor is blocking behind `SetBlock`. A process
may end at any time, be it killed, by a call that fails or by returning, and the
kernel closes its ends then, one by one and in any order. A FIFO that does not
exist is one that nobody has open.
-/
namespace TaskLunev.SuperFifoModel
open ByteMemory NamedPipe

abbrev Pid := BitVec 32

def PIPE_BUF : ℕ := 4096

/-- The bytes of a `pid_t`. -/
def pidBytes (pid : Pid) : List Byte :=
  [pid.extractLsb' 0 8, pid.extractLsb' 8 8, pid.extractLsb' 16 8, pid.extractLsb' 24 8]

/-- What a read leaves in a `pid_t` that was zero. -/
def pidOfBytes (bytes : List Byte) : Pid :=
  bytes.getD 3 0 ++ bytes.getD 2 0 ++ bytes.getD 1 0 ++ bytes.getD 0 0

/-- The bytes of `'_EDA'`. -/
def greetingBytes : List Byte := [0x41, 0x44, 0x45, 0x5F]

/-- What a reader prints: the bytes it has read, or a message of its own. -/
inductive Printed where
  | byte (b : Byte)
  | writerNotFound
  | line
  deriving DecidableEq, Repr

/-- The next step of a reader; `waitingConn` has the number of opens for reading
that its own open of the connection has found. -/
inductive ReaderPc where
  | openingPers
  | openingConn
  | waitingConn (seen : ℕ)
  | sending
  | polling
  | greeting
  | reading
  | printing (buf : List Byte)
  deriving DecidableEq, Repr

/-- `seen` counts the opens for writing when the reader opened its own FIFO,
`temp` is what it has read as the greeting, `out` what it has given to `stdout`. -/
structure Reader where
  pc : ReaderPc
  seen : ℕ
  temp : List Byte
  out : List Printed
  deriving DecidableEq, Repr

/-- The next step of a writer; `writing` has what was read from the file. -/
inductive WriterPc where
  | openingConn
  | waitingConn (seen : ℕ)
  | readingPid
  | openingReader
  | greeting
  | openingFile
  | reading
  | writing (buf : List Byte)
  deriving DecidableEq, Repr

/-- `pos` is the offset in the file. -/
structure Writer where
  pc : WriterPc
  pid_r : Pid
  file : List Byte
  pos : ℕ
  deriving DecidableEq, Repr

inductive Process where
  | reader (r : Reader)
  | writer (w : Writer)
  deriving DecidableEq, Repr

/-- `pers` has the FIFO of each pid. `opened` records which process has opened
whose FIFO for sending. -/
structure State where
  conn : Fifo Pid Byte
  pers : Pid → Fifo Pid Byte
  process : Pid → Process
  exited : Pid → Bool
  opened : List (Pid × Pid)

namespace State

/-- Each pid is a writer with its file or a reader. -/
def start (role : Pid → Option (List Byte)) : State where
  conn := .empty
  pers := fun _ => .empty
  process := fun p =>
    match role p with
    | none => .reader ⟨.openingPers, 0, [], []⟩
    | some file => .writer ⟨.openingConn, 0, file, 0⟩
  exited := fun _ => false
  opened := []

def set (s : State) (p : Pid) (x : Process) : State :=
  { s with process := Function.update s.process p x }

def setPers (s : State) (p : Pid) (fifo : Fifo Pid Byte) : State :=
  { s with pers := Function.update s.pers p fifo }

def exit (s : State) (p : Pid) : State := { s with exited := Function.update s.exited p true }

section
variable {s : State} {p q : Pid} {x : Process} {fifo : Fifo Pid Byte}

@[simp] theorem set_self : (s.set p x).process p = x := Function.update_self ..

theorem set_of_ne (h : q ≠ p) : (s.set p x).process q = s.process q := Function.update_of_ne h ..

@[simp] theorem setPers_self : (s.setPers p fifo).pers p = fifo := Function.update_self ..

theorem setPers_of_ne (h : q ≠ p) : (s.setPers p fifo).pers q = s.pers q :=
  Function.update_of_ne h ..

@[simp] theorem exit_self : (s.exit p).exited p = true := Function.update_self ..

theorem exit_of_ne (h : q ≠ p) : (s.exit p).exited q = s.exited q := Function.update_of_ne h ..

end

def readerStep (s : State) (p : Pid) (r : Reader) : Option State :=
  match r.pc with
  | .openingPers =>
      some ((s.setPers p ((s.pers p).openRead p)).set p
        (.reader { r with pc := .openingConn, seen := (s.pers p).writerOpens }))
  | .openingConn =>
      some ({ s with conn := s.conn.openWrite p }.set p
        (.reader { r with pc := .waitingConn s.conn.readerOpens }))
  | .waitingConn seen =>
      if s.conn.readers.Nonempty ∨ s.conn.readerOpens ≠ seen then
        some (s.set p (.reader { r with pc := .sending }))
      else none
  | .sending =>
      match s.conn.write (pidBytes p) with
      | some conn => some ({ s with conn }.set p (.reader { r with pc := .polling }))
      | none => some (s.exit p)
  | .polling =>
      if (s.pers p).Ready r.seen then some (s.set p (.reader { r with pc := .greeting })) else none
  | .greeting =>
      ((s.pers p).read 4).map fun (temp, fifo) =>
        (s.setPers p fifo).set p (.reader { r with pc := .reading, temp })
  | .reading =>
      ((s.pers p).read PIPE_BUF).map fun (buf, fifo) =>
        if buf = [] then s.exit p
        else (s.setPers p fifo).set p (.reader { r with pc := .printing buf })
  | .printing buf =>
      some (s.set p (.reader { r with pc := .reading, out := r.out ++ buf.map .byte }))

/-- `poll` comes back without an event. -/
def timeout (s : State) (p : Pid) (r : Reader) : Option State :=
  if r.pc = .polling ∧ ¬ (s.pers p).Ready r.seen then
    some ((s.set p (.reader { r with out := r.out ++ [.writerNotFound] })).exit p)
  else none

/-- All bytes into the FIFO of the reader, or the end by `SIGPIPE`. -/
def send (s : State) (p : Pid) (w : Writer) (bytes : List Byte) (pc : WriterPc) : State :=
  match (s.pers w.pid_r).write bytes with
  | some fifo => (s.setPers w.pid_r fifo).set p (.writer { w with pc })
  | none => s.exit p

def writerStep (s : State) (p : Pid) (w : Writer) : Option State :=
  match w.pc with
  | .openingConn =>
      some ({ s with conn := s.conn.openRead p }.set p
        (.writer { w with pc := .waitingConn s.conn.writerOpens }))
  | .waitingConn seen =>
      if s.conn.writers.Nonempty ∨ s.conn.writerOpens ≠ seen then
        some (s.set p (.writer { w with pc := .readingPid }))
      else none
  | .readingPid =>
      (s.conn.read 4).map fun (bytes, conn) =>
        if bytes = [] then s.exit p
        else { s with conn }.set p
          (.writer { w with pc := .openingReader, pid_r := pidOfBytes bytes })
  | .openingReader =>
      if (s.pers w.pid_r).readers.Nonempty then
        some (({ s with opened := s.opened ++ [(p, w.pid_r)] }.setPers w.pid_r
          ((s.pers w.pid_r).openWrite p)).set p (.writer { w with pc := .greeting }))
      else some (s.exit p)
  | .greeting => some (s.send p w greetingBytes .openingFile)
  | .openingFile => some (s.set p (.writer { w with pc := .reading }))
  | .reading => none
  | .writing buf => some (s.send p w buf .reading)

/-- `read` from the file, with `0` at its end only. -/
def readFile (s : State) (p : Pid) (w : Writer) (size : ℕ) : Option State :=
  if w.pc = .reading ∧ size ≤ PIPE_BUF ∧ w.pos + size ≤ w.file.length ∧
      (size = 0 → w.pos = w.file.length) then
    if size = 0 then some (s.exit p)
    else some (s.set p (.writer
      { w with pc := .writing ((w.file.drop w.pos).take size), pos := w.pos + size }))
  else none

/-- The end of a process by `CHECK_ERROR`, which prints a line. -/
def fail (s : State) (p : Pid) : State :=
  match s.process p with
  | .reader r => (s.set p (.reader { r with out := r.out ++ [.line] })).exit p
  | .writer _ => s.exit p

def step (s : State) (p : Pid) : Option State :=
  match s.process p with
  | .reader r => s.readerStep p r
  | .writer w => s.writerStep p w

end State

inductive Event where
  | step (p : Pid)
  | timeout (p : Pid)
  | readFile (p : Pid) (size : ℕ)
  | exit (p : Pid)
  | fail (p : Pid)
  | closeConnRead (p : Pid)
  | closeConnWrite (p : Pid)
  | closePersRead (p : Pid)
  | closePersWrite (p r : Pid)
  deriving DecidableEq, Repr

/-- The steps of a process are over once it has ended; what is left is to close
the ends it has open. -/
def State.next (s : State) : Event → Option State
  | .step p => if s.exited p then none else s.step p
  | .timeout p =>
      if s.exited p then none
      else match s.process p with
        | .reader r => s.timeout p r
        | .writer _ => none
  | .readFile p size =>
      if s.exited p then none
      else match s.process p with
        | .reader _ => none
        | .writer w => s.readFile p w size
  | .exit p => if s.exited p then none else some (s.exit p)
  | .fail p => if s.exited p then none else some (s.fail p)
  | .closeConnRead p =>
      if s.exited p ∧ p ∈ s.conn.readers then some { s with conn := s.conn.closeRead p } else none
  | .closeConnWrite p =>
      if s.exited p ∧ p ∈ s.conn.writers then some { s with conn := s.conn.closeWrite p } else none
  | .closePersRead p =>
      if s.exited p ∧ p ∈ (s.pers p).readers then some (s.setPers p ((s.pers p).closeRead p))
      else none
  | .closePersWrite p r =>
      if s.exited p ∧ p ∈ (s.pers r).writers then some (s.setPers r ((s.pers r).closeWrite p))
      else none

def Step (s : State) (e : Event) (t : State) : Prop := s.next e = some t

/-! ## What is asked of a state -/

/-- The bytes of a file in what a reader has printed. -/
def data (out : List Printed) : List Byte :=
  out.filterMap fun
    | .byte b => some b
    | .writerNotFound => none
    | .line => none

/-- Nobody's FIFO has been opened for sending twice, and what a reader has
printed is a prefix of the file of the writer that has opened its FIFO. -/
structure Safe (role : Pid → Option (List Byte)) (s : State) : Prop where
  exclusive : (s.opened.map Prod.snd).Nodup
  printed : ∀ p r, s.process p = .reader r → data r.out = [] ∨
    ∃ q file, (q, p) ∈ s.opened ∧ role q = some file ∧ data r.out <+: file

end TaskLunev.SuperFifoModel
