import TaskLunev.ByteMemory
import Mathlib.Algebra.BigOperators.Intervals
import Mathlib.Data.Fin.Basic

/-!
# The local proxy

`StartProxy` lays the channel buffers out in one block, and `SendFile` runs an
event loop over the pipes of the clients. A proxy has `last + 1` channels, and
positions are offsets into `m_totalBuffer`. The pipes themselves are not
modelled. What the system calls of one pass answer is the pass's input, and the
state carries a record of the bytes that went through each descriptor.

The source reads `channels[-1].m_size` while it sets the events of the first
channel. That word is part of the input too.
-/
namespace TaskLunev.ProxyModel
open ByteMemory

/-! ## Buffers -/

/-- A `double` holding an integer, converted to `int` as x86-64 does. -/
@[irreducible] def doubleToInt (x : ℤ) : ℤ :=
  if -2 ^ 31 ≤ x ∧ x < 2 ^ 31 then x else -2 ^ 31

def calcSizeBuf (i n : ℕ) : ℤ := doubleToInt (3 ^ (n - i) * 1000)

/-- The sum the allocation loop leaves in `totalSizeBuf`, an `int`. -/
def totalSizeBuf (n : ℕ) : ℤ :=
  (List.range n).foldl (fun total i => Int.bmod (total + calcSizeBuf i n) (2 ^ 32)) 0

/-- `mBuf` and `mCurPos` are offsets from `m_totalBuffer`. -/
structure ProxyChannel where
  mBuf : ℤ
  mCurPos : ℤ
  mSize : ℤ
  mCapacity : ℤ
  mFull : Bool
  deriving DecidableEq, Repr

/-- Channel `i` of `n` as the second part of `StartProxy` leaves it. -/
def startChannel (n i : ℕ) : ProxyChannel where
  mBuf := ∑ j ∈ Finset.range i, calcSizeBuf j n
  mCurPos := ∑ j ∈ Finset.range i, calcSizeBuf j n
  mSize := 0
  mCapacity := calcSizeBuf i n
  mFull := false

@[simp] theorem startChannel_mCapacity (n i : ℕ) :
    (startChannel n i).mCapacity = calcSizeBuf i n := rfl

@[simp] theorem startChannel_mBuf (n i : ℕ) :
    (startChannel n i).mBuf = ∑ j ∈ Finset.range i, calcSizeBuf j n := rfl

/-! ## The state of the event loop -/

structure PollFlags where
  pollIn : Bool
  pollOut : Bool
  pollHup : Bool
  deriving DecidableEq, Repr

/-- `polls[2 * i]`, the way to client `i` (for the first channel the size pipe),
and `polls[2 * i + 1]`, the way from it. -/
structure PollPair where
  write : PollFlags
  read : PollFlags
  deriving DecidableEq, Repr

/-- What went through the descriptors: kept beside the program's own state and
never read by it. -/
structure Traffic (last : ℕ) where
  fromClient : Fin (last + 1) → List Byte
  toClient : Fin (last + 1) → List Byte
  toStdout : List Byte
  sizeMessage : Option ℤ

structure State (last total : ℕ) where
  channels : Fin (last + 1) → ProxyChannel
  totalBuffer : Memory total
  events : Fin (last + 1) → PollPair
  counter : ℤ
  sizeFile : ℤ
  traffic : Traffic last

/-- `LONG_MAX` -/
def longMax : ℤ := 2 ^ 63 - 1

/-- The channels of `StartProxy` with the locals `SendFile` sets up before its
loop. -/
def start (last : ℕ) : State last (totalSizeBuf (last + 1)).toNat where
  channels i := startChannel (last + 1) i
  totalBuffer := fun _ => 0
  events := fun _ => ⟨⟨false, false, true⟩, ⟨false, false, true⟩⟩
  counter := 0
  sizeFile := longMax
  traffic := ⟨fun _ => [], fun _ => [], [], none⟩

@[simp] theorem start_channels (last : ℕ) (i : Fin (last + 1)) :
    (start last).channels i = startChannel (last + 1) i := rfl

/-- How a computation of the source ends early: it returns, it touches bytes
outside the block or a channel that is not there, or the input has no answer
left for the next call. -/
inductive Stop (σ : Type) where
  | returned (code : ℤ) (state : σ)
  | outside
  | starved

/-! ## The input of a pass -/

inductive WriteReply where
  | wrote (count : ℕ)
  | again
  | failed
  deriving DecidableEq, Repr

inductive SizeReply where
  | message (size : ℤ)
  | ended
  | failed
  deriving DecidableEq, Repr

/-- `numPolls` and `revents` are the answer of `poll`. A call that offers more
bytes than were asked for is read as giving all that were asked for; `none` is
the answer -1. -/
structure Pass (last : ℕ) where
  stray : ℤ
  numPolls : ℤ
  revents : Fin (last + 1) → PollPair
  sizeRead : SizeReply
  reads : Fin (last + 1) → Option (List Byte)
  writes : Fin (last + 1) → List WriteReply
  stdout : Option ℕ

/-- `POLLHUP` on either descriptor of channel `i`. -/
def Pass.hungUp {last : ℕ} (e : Pass last) (i : Fin (last + 1)) : Bool :=
  (e.revents i).write.pollHup || (e.revents i).read.pollHup

section
variable {last total : ℕ} {σ α : Type}

/-- There is a first channel. -/
scoped instance (priority := 1100) neZero_channels : NeZero (last + 1) := ⟨Nat.succ_ne_zero last⟩

/-- The channel before `i`; the first one has none. -/
def previous (i : Fin (last + 1)) : Option (Fin last) :=
  if h : i = 0 then none else some (i.pred h)

/-- An `int` passed as a `size_t`. -/
def sizeT (x : ℤ) : ℕ := (x % 2 ^ 64).toNat

def orOutside : Option α → Except (Stop σ) α
  | some a => .ok a
  | none => .error .outside

def writeAt (m : Memory total) (pos : ℤ) (bytes : List Byte) : Except (Stop σ) (Memory total) :=
  orOutside (pos.toNat?.bind fun off => writeBytes m off bytes)

def readAt (m : Memory total) (pos count : ℤ) : Except (Stop σ) (List Byte) :=
  orOutside (pos.toNat?.bind fun off => readBytes m off count.toNat)

/-- The masks set at the top of a pass. -/
def setEvents (stray : ℤ) (s : State last total) (i : Fin (last + 1)) : PollPair :=
  let before : ℤ := match previous i with
    | none => stray
    | some c => (s.channels c.castSucc).mSize
  { write :=
      { (s.events i).write with
        pollOut := decide (before ≠ 0)
        pollIn := if i = 0 then true else (s.events i).write.pollIn }
    read := { (s.events i).read with pollIn := decide ((s.channels i).mSize = 0) } }

def State.announced (s : State last total) (size : ℤ) : State last total :=
  { s with sizeFile := size, traffic := { s.traffic with sizeMessage := some size } }

def readSize (e : Pass last) (s : State last total) :
    Except (Stop (State last total)) (State last total) :=
  match e.sizeRead with
  | .message size => .ok (s.announced size)
  | .ended => .ok s
  | .failed => .error (.returned (-1) s)

/-- `bytes` out of the block went to standard output. -/
def State.printed (s : State last total) (i : Fin (last + 1)) (bytes : List Byte) :
    State last total :=
  { s with
    channels := Function.update s.channels i
      { s.channels i with mSize := (s.channels i).mSize - bytes.length }
    counter := s.counter + bytes.length
    traffic := { s.traffic with toStdout := s.traffic.toStdout ++ bytes } }

def printRead (e : Pass last) (i : Fin (last + 1)) (ret : ℤ) (s : State last total) :
    Except (Stop (State last total)) (State last total) :=
  match e.stdout with
  | none => .error (.returned (-1) s)
  | some k => do
      let bytes ← readAt s.totalBuffer (s.channels i).mBuf ret
      pure (s.printed i (bytes.take k))

/-- `bytes` from client `i` are now in the block, which became `totalBuffer`. -/
def State.received (s : State last total) (i : Fin (last + 1)) (totalBuffer : Memory total)
    (bytes : List Byte) : State last total :=
  { s with
    totalBuffer
    channels := Function.update s.channels i { s.channels i with mSize := bytes.length }
    traffic := { s.traffic with
      fromClient := Function.update s.traffic.fromClient i (s.traffic.fromClient i ++ bytes) } }

/-- The last channel goes straight to standard output. -/
def receive (e : Pass last) (i : Fin (last + 1)) (s : State last total) :
    Except (Stop (State last total)) (State last total) :=
  match e.reads i with
  | none => .error (.returned (-1) s)
  | some offered => do
      let bytes := offered.take (sizeT (s.channels i).mCapacity)
      let totalBuffer ← writeAt s.totalBuffer (s.channels i).mBuf bytes
      let s := s.received i totalBuffer bytes
      if i = Fin.last last then printRead e i bytes.length s else pure s

structure Drained where
  buf : ℤ
  size : ℤ
  full : Bool
  sent : List Byte
  deriving DecidableEq, Repr

/-- The `while (size > 0)` loop with its chunks of at most 16 bytes; `s` is the
state it returns in when so many bytes have gone out. -/
def drain (m : Memory total) (s : List Byte → σ) :
    List WriteReply → ℤ → ℤ → ℤ → Except (Stop σ) Drained
  | [], buf, size, _ => if size > 0 then .error .starved else .ok ⟨buf, size, false, []⟩
  | reply :: rest, buf, size, len =>
      if size > 0 then
        let len := if size < len then size else len
        match reply with
        | .failed => .error (.returned (-1) (s []))
        | .again => .ok ⟨buf, size, true, []⟩
        | .wrote k => do
            let chunk ← readAt m buf len
            let sent := chunk.take k
            let d ← drain m (fun more => s (sent ++ more)) rest (buf + sent.length)
              (size - sent.length) len
            .ok { d with sent := sent ++ d.sent }
      else .ok ⟨buf, size, false, []⟩

/-- `bytes` went to client `i` in a loop that was left before its channel was
told. -/
def State.sent (s : State last total) (i : Fin (last + 1)) (bytes : List Byte) :
    State last total :=
  { s with traffic := { s.traffic with
      toClient := Function.update s.traffic.toClient i (s.traffic.toClient i ++ bytes) } }

/-- Channel `c` after its bytes were drained to client `i`. -/
def State.forwarded (s : State last total) (i : Fin (last + 1)) (c : Fin last) (d : Drained) :
    State last total :=
  let from_ := s.channels c.castSucc
  let channels := Function.update s.channels c.castSucc
    { from_ with mSize := d.size, mCurPos := if d.size = 0 then from_.mBuf else d.buf }
  { s with
    channels := Function.update channels i
      { channels i with mFull := (channels i).mFull || d.full }
    traffic := { s.traffic with
      toClient := Function.update s.traffic.toClient i (s.traffic.toClient i ++ d.sent) } }

/-- The bytes of the channel before `i` go to client `i`. -/
def forward (e : Pass last) (i : Fin (last + 1)) (s : State last total) :
    Except (Stop (State last total)) (State last total) :=
  match previous i with
  | none => .error .outside
  | some c => do
      let from_ := s.channels c.castSucc
      let d ← drain s.totalBuffer (s.sent i) (e.writes i) from_.mCurPos from_.mSize 16
      pure (s.forwarded i c d)

def readTurn (e : Pass last) (i : Fin (last + 1)) (s : State last total) (numPolls : ℤ) :
    Except (Stop (State last total)) (State last total × ℤ) :=
  if (e.revents i).read.pollIn then do
    let s ← receive e i s
    pure (s, numPolls - 1)
  else pure (s, numPolls)

def writeTurn (e : Pass last) (i : Fin (last + 1)) (s : State last total) (numPolls : ℤ) :
    Except (Stop (State last total)) (State last total × ℤ) :=
  if (e.revents i).write.pollOut then do
    let s ← forward e i s
    pure (s, numPolls - 1)
  else pure (s, numPolls)

/-- One channel of the event loop, with the count of events still to handle. -/
def handle (e : Pass last) (i : Fin (last + 1)) (s : State last total) (numPolls : ℤ) :
    Except (Stop (State last total)) (State last total × ℤ) :=
  if e.hungUp i then .error (.returned 0 s)
  else do
    let (s, numPolls) ← readTurn e i s numPolls
    writeTurn e i s numPolls

/-- The `for` loop over the channels from `i` on. -/
def handleFrom (e : Pass last) :
    ℕ → ℕ → State last total → ℤ → Except (Stop (State last total)) (State last total)
  | 0, _, s, _ => pure s
  | rest + 1, i, s, numPolls =>
      if h : i < last + 1 ∧ numPolls ≠ 0 then do
        let (s, numPolls) ← handle e ⟨i, h.1⟩ s numPolls
        handleFrom e rest (i + 1) s numPolls
      else pure s

def sizeTurn (e : Pass last) (s : State last total) :
    Except (Stop (State last total)) (State last total) :=
  if (e.revents 0).write.pollIn then readSize e s else pure s

/-- One pass of `while (counter < sizeFile)`; the loop's end is the `return 0`
behind it. -/
def onePass (s : State last total) (e : Pass last) :
    Except (Stop (State last total)) (State last total) :=
  if s.counter < s.sizeFile then
    let s := { s with events := setEvents e.stray s }
    if e.numPolls = -1 ∨ e.numPolls = 0 then .error (.returned (-1) s)
    else do
      let s ← sizeTurn e s
      handleFrom e (last + 1) 0 s e.numPolls
  else .error (.returned 0 s)

/-- The path went to the first client. -/
def State.asked (s : State last total) (bytes : List Byte) : State last total :=
  { s with traffic := { s.traffic with
      toClient := Function.update s.traffic.toClient 0 (s.traffic.toClient 0 ++ bytes) } }

/-- The passes of the loop, until the call returns. -/
def eventLoop : State last total → List (Pass last) →
    Except (Stop (State last total)) (State last total)
  | _, [] => .error .starved
  | s, e :: passes => do
      let s ← onePass s e
      eventLoop s passes

/-- `SendFile` on a proxy with or without channels. `written` is the answer of
the `write` of the path to the first client. -/
def sendFile (verified : Bool) (path : List Byte) (written : Option ℕ) (s : State last total)
    (passes : List (Pass last)) : Except (Stop (State last total)) (State last total) :=
  if verified = false then .error (.returned (-1) s)
  else match written with
    | none => .error (.returned (-1) s)
    | some ret =>
        if ret = path.length + 1 then .error (.returned (-1) s)
        else eventLoop (s.asked (path.take ret)) passes

end

/-! ## The clients -/

inductive SpliceEnd where
  | running
  | failed
  | finished
  deriving DecidableEq, Repr

/-- The bytes a loop of `splice` calls moves out of `input`, at most `chunk` by
one call, and how the loop stands. -/
def spliceLoop (chunk : ℕ) : List (Option ℕ) → List Byte → List Byte × SpliceEnd
  | [], _ => ([], .running)
  | none :: _, _ => ([], .failed)
  | some ret :: rest, input =>
      if ret = 0 then ([], .finished)
      else
        let count := min ret chunk
        let (moved, ending) := spliceLoop chunk rest (input.drop count)
        (input.take count ++ moved, ending)

def startClient (splices : List (Option ℕ)) (input : List Byte) : List Byte × SpliceEnd :=
  spliceLoop (1024 * 16) splices input

/-- One file of `StartFirstClient`, with the size message it sends when all of
it has been moved. -/
def startFirstClient (splices : List (Option ℕ)) (file : List Byte) : List Byte × Option ℤ :=
  let (moved, ending) := spliceLoop 1280 splices file
  (moved, if ending = .finished then some moved.length else none)

end TaskLunev.ProxyModel
