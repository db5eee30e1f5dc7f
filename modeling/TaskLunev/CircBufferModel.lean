import TaskLunev.ByteMemory

/-!
# The circular buffer

`CircBuffer.cpp` as it computes. Pointers into the buffer are offsets from
`m_buf`, so the end of the buffer is the offset `mCapacity`. Both getters
answer with the pointer they store and the length they return. They assert
that the buffer is initialised, and a `CircBuffer` below always is.
-/
namespace TaskLunev.CircBufferModel
open ByteMemory

/-- `mBuf` is the block `calloc` returned; `mReader` is `m_reader - m_buf`. -/
structure CircBuffer where
  mCapacity : ℕ
  mSize : ℤ
  mBuf : Memory mCapacity
  mReader : ℕ
  capacity_pos : 0 < mCapacity

/-- `given` tells whether the struct pointer is non-null, `grant` whether
`calloc` can serve a number of bytes. -/
def circBufferInitialize (grant : ℕ → Bool) (given : Bool) (capacity : ℤ) :
    ℤ × Option CircBuffer :=
  if given = false then (-1, none)
  else if h : capacity > 0 then
    if grant capacity.toNat then
      (0, some ⟨capacity.toNat, 0, fun _ => 0, 0, by omega⟩)
    else (-1, none)
  else (-1, none)

namespace CircBuffer

/-- The local `writer` of every getter. -/
def writer (c : CircBuffer) : ℤ := c.mReader + c.mSize

/-- The `m_size` bytes from the reader on, going round at the end. -/
def stored (c : CircBuffer) : List Byte :=
  (List.range c.mSize.toNat).map fun j => byteAt c.mBuf ((c.mReader + j) % c.mCapacity)

end CircBuffer

/-- The pointer argument is not used. -/
def circBufferGetEmpty (c : CircBuffer) : ℤ :=
  if c.writer ≤ c.mCapacity then c.mCapacity - c.writer else c.mCapacity - c.mSize

def circBufferGetSize (c : CircBuffer) : ℤ :=
  if c.writer ≤ c.mCapacity then c.mSize else c.mCapacity - c.mReader

def circBufferGetWriter (c : CircBuffer) : ℤ × ℤ :=
  if c.writer < c.mCapacity then (c.writer, c.mCapacity - c.writer)
  else if c.writer = c.mCapacity then
    if c.mReader ≠ 0 then (0, c.mReader) else (0, 0)
  else (c.mReader + c.mSize - c.mCapacity, c.mCapacity - c.mSize)

def circBufferGetReader (c : CircBuffer) : ℤ × ℤ :=
  if c.writer ≤ c.mCapacity then (c.mReader, c.mSize) else (0, c.mCapacity - c.mSize)

/-- The source returns 0 on every path. The reader moves only when the shrunk
contents end exactly at the end of the buffer. -/
def circBufferChangeSize (c : CircBuffer) (value : ℤ) : CircBuffer :=
  let grown := { c with mSize := c.mSize + value }
  if value < 0 then
    if grown.writer = grown.mCapacity then { grown with mReader := 0 } else grown
  else grown

end TaskLunev.CircBufferModel
