import Mathlib.Logic.Function.Basic
import TaskLunev.ByteMemory

/-!
# A file sent by signals

The writer sends every bit as one of two signals and waits for the reader's
confirmation before the next one. All signals are blocked except inside
`sigsuspend`, which takes one pending signal that its mask lets through and
runs its handler; which one is left open. A signal that is sent again while it
is pending is lost. An alarm may come at any time, and the writer may end at
any time, be it by returning or by being killed. The calls of the reader and
the `kill`s succeed: the writer stays a zombie, the reader outlives it.
-/
namespace TaskLunev.SignalModel
open ByteMemory

def SIZE_BUF : ℕ := 4096

inductive Signal where
  | usr1
  | usr2
  | alrm
  | chld
  deriving DecidableEq, Repr

/-- The signals pending for a process. -/
abbrev Pending := Signal → Bool

def Pending.raise (p : Pending) (sig : Signal) : Pending := Function.update p sig true

def Pending.clear (p : Pending) (sig : Signal) : Pending := Function.update p sig false

/-- `exited none` is a writer that was killed. -/
inductive WriterPc where
  | reading
  | sending
  | suspended
  | testing
  | returned (code : ℤ)
  | exited (code : Option ℤ)
  deriving DecidableEq, Repr

/-- `buf` is the part of the buffer from the byte `j` on, which is shifted in
place; `unread` is what the file still has. -/
structure Writer where
  pc : WriterPc
  unread : List Byte
  buf : List Byte
  i : ℕ
  timeConfReaderOver : Bool
  pending : Pending

inductive ReaderPc where
  | suspended
  | testing
  | confirming
  | storing
  | returned
  deriving DecidableEq, Repr

/-- `out` is what the reader has written. -/
structure Reader where
  pc : ReaderPc
  buf : Byte
  i : ℕ
  curBit : Bool
  sigChild : Bool
  out : List Byte
  pending : Pending

structure State where
  writer : Writer
  reader : Reader

def State.start (file : List Byte) : State where
  writer := ⟨.reading, file, [], 0, false, fun _ => false⟩
  reader := ⟨.suspended, 0, 0, false, false, [], fun _ => false⟩

/-! ## The writer -/

namespace Writer

/-- `read` with its result, which is `0` at the end of the file only. -/
def read (w : Writer) (curSize : ℕ) : Option Writer :=
  if w.pc = .reading ∧ curSize ≤ SIZE_BUF ∧ curSize ≤ w.unread.length ∧
      (curSize = 0 → w.unread = []) then
    if curSize = 0 then some { w with pc := .returned 0 }
    else some
      { w with
        pc := .sending
        unread := w.unread.drop curSize
        buf := w.unread.take curSize
        i := 0 }
  else none

def readFails (w : Writer) : Option Writer :=
  if w.pc = .reading then some { w with pc := .returned (-1) } else none

/-- The signal for the lowest bit of the byte in work, and the shift. -/
def send (w : Writer) : Option (Signal × Writer) :=
  match w.pc, w.buf with
  | .sending, b :: rest =>
      some (if b.getLsbD 0 then .usr2 else .usr1,
        { w with pc := .suspended, buf := b.sshiftRight 1 :: rest })
  | _, _ => none

/-- `sigsuspend` and the handler of the signal it takes. -/
def take (w : Writer) (sig : Signal) : Option Writer :=
  if w.pc = .suspended ∧ w.pending sig then
    match sig with
    | .usr1 => some { w with pc := .testing, pending := w.pending.clear .usr1 }
    | .alrm =>
        some
          { w with
            pc := .testing
            pending := w.pending.clear .alrm
            timeConfReaderOver := true }
    | _ => none
  else none

/-- After `sigsuspend`: the test of the alarm and the heads of the loops. -/
def test (w : Writer) : Option Writer :=
  if w.pc = .testing then
    if w.timeConfReaderOver then some { w with pc := .returned (-1) }
    else if w.i + 1 < 8 then some { w with pc := .sending, i := w.i + 1 }
    else some
      { w with
        pc := if w.buf.tail = [] then .reading else .sending
        buf := w.buf.tail
        i := 0 }
  else none

/-- The end of the process. -/
def exit (w : Writer) : Option Writer :=
  match w.pc with
  | .exited _ => none
  | .returned code => some { w with pc := .exited (some code) }
  | _ => some { w with pc := .exited none }

def Returned (w : Writer) (code : ℤ) : Prop := w.pc = .returned code ∨ w.pc = .exited (some code)

end Writer

/-! ## The reader -/

namespace Reader

/-- `sigsuspend` and the handler of the signal it takes. -/
def take (r : Reader) (sig : Signal) : Option Reader :=
  if r.pc = .suspended ∧ r.pending sig then
    match sig with
    | .usr1 => some { r with pc := .testing, pending := r.pending.clear .usr1, curBit := false }
    | .usr2 => some { r with pc := .testing, pending := r.pending.clear .usr2, curBit := true }
    | .chld => some { r with pc := .testing, pending := r.pending.clear .chld, sigChild := true }
    | .alrm => none
  else none

def test (r : Reader) : Option Reader :=
  if r.pc = .testing then
    if r.sigChild then some { r with pc := .returned }
    else some
      { r with
        pc := .confirming
        buf := r.buf ||| ((if r.curBit then 1#8 else 0#8) <<< r.i) }
  else none

/-- After the `kill`: the next bit, or the byte is full. -/
def confirm (r : Reader) : Option Reader :=
  if r.pc = .confirming then
    some { r with pc := if r.i + 1 < 8 then .suspended else .storing, i := r.i + 1 }
  else none

def store (r : Reader) : Option Reader :=
  if r.pc = .storing then
    some { r with pc := .suspended, out := r.out ++ [r.buf], buf := 0, i := 0 }
  else none

def raise (r : Reader) (sig : Signal) : Reader := { r with pending := r.pending.raise sig }

end Reader

def Writer.raise (w : Writer) (sig : Signal) : Writer := { w with pending := w.pending.raise sig }

/-! ## Both -/

inductive Event where
  | read (curSize : ℕ)
  | readFails
  | send
  | writerTakes (sig : Signal)
  | writerTests
  | alarm
  | exit
  | readerTakes (sig : Signal)
  | readerTests
  | confirm
  | store
  deriving DecidableEq, Repr

def State.next (s : State) : Event → Option State
  | .read curSize => (s.writer.read curSize).map fun writer => { s with writer }
  | .readFails => s.writer.readFails.map fun writer => { s with writer }
  | .send => s.writer.send.map fun (sig, writer) => { writer, reader := s.reader.raise sig }
  | .writerTakes sig => (s.writer.take sig).map fun writer => { s with writer }
  | .writerTests => s.writer.test.map fun writer => { s with writer }
  | .alarm => some { s with writer := s.writer.raise .alrm }
  | .exit => s.writer.exit.map fun writer => { writer, reader := s.reader.raise .chld }
  | .readerTakes sig => (s.reader.take sig).map fun reader => { s with reader }
  | .readerTests => s.reader.test.map fun reader => { s with reader }
  | .confirm => s.reader.confirm.map fun reader => { writer := s.writer.raise .usr1, reader }
  | .store => s.reader.store.map fun reader => { s with reader }

end TaskLunev.SignalModel
