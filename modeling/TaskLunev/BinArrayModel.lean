import TaskLunev.ByteMemory

/-!
# The packed bit array

`BinArray.c` over the byte buffers of `ByteMemory`. A pointer argument is an
`Option`, `NULL` being `none`. A call answers `none` when it touches a byte
outside the array's buffer, which C leaves undefined. Sizes are 64 bits wide;
the wrapping conversions are written out where a value can leave its type.
Shift counts are taken modulo 64, as x86-64 takes them.
-/
namespace TaskLunev.BinArrayModel
open ByteMemory

def baGetSizeArrayIn8Byte (numBits : ℕ) : ℕ := numBits / 64 + if numBits % 64 ≠ 0 then 1 else 0

theorem baGetSizeArrayIn8Byte_bounds (numBits : ℕ) :
    numBits ≤ 64 * baGetSizeArrayIn8Byte numBits ∧
      64 * baGetSizeArrayIn8Byte numBits < numBits + 64 := by
  unfold baGetSizeArrayIn8Byte
  split_ifs <;> omega

def baBits2Bytes (numBits : ℕ) : ℕ := numBits / 8 + if numBits % 8 ≠ 0 then 1 else 0

/-- The two fields of `struct bin_array`. The buffer has whole 64-bit words, as
`baCreate` and `baResize` allocate it; no x86-64 address space holds the
2^60 bytes of an array with 2^63 bits. -/
structure BinArray where
  numBits : ℕ
  buf : Memory (8 * baGetSizeArrayIn8Byte numBits)
  numBits_pos : 0 < numBits
  numBits_lt : numBits < 2 ^ 63

abbrev Ptr := Option BinArray

def BinArray.bit (arr : BinArray) (i : ℕ) : Bool := ByteMemory.bit arr.buf i

inductive Errno where
  | einval | e2big
  deriving DecidableEq, Repr

/-- What an `int` function leaves: its value, the error number it sets itself
and the array. -/
structure Reply where
  value : ℤ
  errno : Option Errno
  arr : Ptr

def baCheckPtr (arr : Ptr) : Bool := arr.isSome

@[simp] theorem baCheckPtr_some (a : BinArray) : baCheckPtr (some a) = true := rfl

/-- The resolved length of an accepted range. The sum is taken in `size_t`. -/
def baCheckCalcArg (arr : Ptr) (begin : ℕ) (len : ℤ) : Option ℕ :=
  match baCheckPtr arr, arr with
  | true, some a =>
    if len = -1 then
      if begin < a.numBits then some (a.numBits - begin) else none
    else if 0 ≤ len then
      if (begin + len.toNat) % 2 ^ 64 < a.numBits + 1 then some len.toNat else none
    else none
  | _, _ => none

/-! ## Creation -/

def killAllocator : ℕ := 165641546145144896

/-- `ba_calloc`: `grant` is the allocator's answer to a request of that many
bytes. -/
def baCalloc (grant : ℕ → Bool) (nmemb size : ℕ) : Bool :=
  size ≠ baBits2Bytes killAllocator && nmemb * size < 2 ^ 60 && grant (nmemb * size)

theorem baCalloc_lt {grant : ℕ → Bool} {nmemb size : ℕ} (h : baCalloc grant nmemb size = true) :
    nmemb * size < 2 ^ 60 := by
  unfold baCalloc at h
  simp only [Bool.and_eq_true, decide_eq_true_eq] at h
  exact h.1.2

def baCreate (grant : ℕ → Bool) (numBits : ℕ) : Option Errno × Ptr :=
  if h : numBits = 0 then (some .einval, none)
  else if baCalloc grant 1 16 = false then (none, none)
  else if hb : baCalloc grant 1 (8 * baGetSizeArrayIn8Byte numBits) = true then
    (none, some
      { numBits
        buf := fun _ => 0
        numBits_pos := Nat.pos_of_ne_zero h
        numBits_lt := by
          have := baCalloc_lt hb
          have := (baGetSizeArrayIn8Byte_bounds numBits).1
          omega })
  else (none, none)

/-- `ba_reallocarray` asks as `ba_calloc` does. -/
def baReallocarray (grant : ℕ → Bool) (nmemb size : ℕ) : Bool := baCalloc grant nmemb size

/-- `fresh` is what `realloc` leaves in the bytes past the old buffer. -/
def baResize (grant : ℕ → Bool) (fresh : ℕ → Byte) (arr : Ptr) (newNumBits : ℕ) : Reply :=
  match baCheckPtr arr, arr with
  | true, some a =>
    if h : newNumBits = 0 then ⟨-1, none, some a⟩
    else if hb : baReallocarray grant (8 * baGetSizeArrayIn8Byte newNumBits) 1 = true then
      ⟨0, none, some
        { numBits := newNumBits
          buf := resized a.buf fresh
          numBits_pos := Nat.pos_of_ne_zero h
          numBits_lt := by
            have := baCalloc_lt hb
            have := (baGetSizeArrayIn8Byte_bounds newNumBits).1
            omega }⟩
    else ⟨-1, none, some a⟩
  | _, _ => ⟨-1, some .einval, none⟩

/-! ## Getters and setters -/

def baGetMaskBitFromByte (numBit : ℕ) : Byte := 1#8 <<< numBit

def baGetBitFromByte (byte : Byte) (numBit : ℕ) : Bool :=
  (byte &&& baGetMaskBitFromByte numBit) ≠ 0

/-- `_baGetValue` -/
def baGetValueRaw {n : ℕ} (m : Memory n) (numBit : ℕ) : Option Bool := do
  let byte ← load 1 m (numBit / 8)
  return baGetBitFromByte byte (numBit % 8)

/-- `_baSetOne` -/
def baSetOneRaw {n : ℕ} (m : Memory n) (numBit : ℕ) : Option (Memory n) := do
  let byte ← load 1 m (numBit / 8)
  store 1 m (numBit / 8) (byte ||| baGetMaskBitFromByte (numBit % 8))

/-- `_baSetZero` -/
def baSetZeroRaw {n : ℕ} (m : Memory n) (numBit : ℕ) : Option (Memory n) := do
  let byte ← load 1 m (numBit / 8)
  store 1 m (numBit / 8) (byte &&& ~~~baGetMaskBitFromByte (numBit % 8))

/-- `_baSetValue` -/
def baSetValueRaw {n : ℕ} (m : Memory n) (numBit : ℕ) (val : Bool) : Option (Memory n) :=
  if val then baSetOneRaw m numBit else baSetZeroRaw m numBit

/-- The frame shared by the four accessors: pointer check, index check, access.
The index is compared with `>`, so the index `numBits` passes. -/
def checkedAccess (arr : Ptr) (numBit : ℕ) (access : BinArray → Option (ℤ × BinArray)) :
    Option Reply :=
  match baCheckPtr arr, arr with
  | true, some a =>
    if numBit > a.numBits then some ⟨-1, some .e2big, some a⟩
    else (access a).map fun r => ⟨r.1, none, some r.2⟩
  | _, _ => some ⟨-1, some .einval, none⟩

def baGetValue (arr : Ptr) (numBit : ℕ) : Option Reply :=
  checkedAccess arr numBit fun a => (baGetValueRaw a.buf numBit).map fun v => (v.toNat, a)

def baSetOne (arr : Ptr) (numBit : ℕ) : Option Reply :=
  checkedAccess arr numBit fun a =>
    (baSetOneRaw a.buf numBit).map fun buf => (0, { a with buf })

def baSetZero (arr : Ptr) (numBit : ℕ) : Option Reply :=
  checkedAccess arr numBit fun a =>
    (baSetZeroRaw a.buf numBit).map fun buf => (0, { a with buf })

def baSetValue (arr : Ptr) (numBit : ℕ) (val : Bool) : Option Reply :=
  checkedAccess arr numBit fun a =>
    (baSetValueRaw a.buf numBit val).map fun buf => (0, { a with buf })

/-! ## Find -/

/-- One plus the index of the least significant set bit, or zero. -/
def ffsll (qword : BitVec 64) : ℕ :=
  match (List.range 64).find? fun j => qword.getLsbD j with
  | some j => j + 1
  | none => 0

def baFindBitOneInQWord (qword : BitVec 64) : ℤ := ffsll qword - 1

def baFindBitZeroInQWord (qword : BitVec 64) : ℤ := baFindBitOneInQWord (~~~qword)

/-- What `baFindOne` and `baFindZero` do differently: the shift of the first
word, the word that holds nothing wanted, and the search inside a word. -/
structure Finder where
  shift : BitVec 64 → ℕ → BitVec 64
  skip : BitVec 64
  findBit : BitVec 64 → ℤ

section
variable {n : ℕ}

/-- The word loop from index `i` with `left` words to go; it gives the index at
exit and `add_pos`. -/
def findWord (F : Finder) (m : Memory n) (w : ℕ) : ℕ → ℕ → Option (ℕ × ℤ)
  | 0, i => some (i, -1)
  | left + 1, i => do
      let qword ← loadWord m (w + i)
      if qword = F.skip then findWord F m w left (i + 1) else return (i, F.findBit qword)

/-- The aligned part, from word `w` at bit `pos` on. Both the number of words
and the product `64 * i` are 32 bits wide, and `add_pos` is compared with the
whole remaining length. -/
def findAligned (F : Finder) (m : Memory n) (w len pos : ℕ) : Option ℤ := do
  let (i, addPos) ← findWord F m w (baGetSizeArrayIn8Byte len % 2 ^ 32) 0
  return if addPos ≠ -1 ∧ addPos < len then (64 * i % 2 ^ 32 : ℕ) + pos + addPos else -1

def findRange (F : Finder) (m : Memory n) (begin len : ℕ) : Option ℤ :=
  let w := begin / 64
  let rshift := begin % 64
  if rshift ≠ 0 then do
    let qword ← loadWord m w
    let pos := F.findBit (F.shift qword rshift)
    if rshift + len ≤ 64 then
      return if pos ≠ -1 ∧ pos < len then begin + pos else -1
    else if pos ≠ -1 then return begin + pos
    else findAligned F m (w + 1) (len - (64 - rshift)) (begin + (64 - rshift))
  else findAligned F m w len begin

end

def baFindWith (F : Finder) (arr : Ptr) (begin : ℕ) (len : ℤ) : Option ℤ :=
  match arr, baCheckCalcArg arr begin len with
  | some a, some len => findRange F a.buf begin len
  | _, _ => some (-1)

def oneFinder : Finder := ⟨fun q s => q >>> s, 0, baFindBitOneInQWord⟩

/-- The first word is shifted as an `int64_t`, so its sign bit is copied. -/
def zeroFinder : Finder := ⟨BitVec.sshiftRight, BitVec.allOnes 64, baFindBitZeroInQWord⟩

def baFindOne : Ptr → ℕ → ℤ → Option ℤ := baFindWith oneFinder

def baFindZero : Ptr → ℕ → ℤ → Option ℤ := baFindWith zeroFinder

/-- The window is not handed on. -/
def baFind (arr : Ptr) (_begin : ℕ) (_len : ℤ) (val : Bool) : Option ℤ :=
  if val then baFindOne arr 0 (-1) else baFindZero arr 0 (-1)

/-! ## Fill and invert -/

/-- An argument passed for a `uint8_t` parameter. -/
def toUInt8 (x : ℤ) : ℕ := (x % 256).toNat

/-- `0xFFFFFFFFFFFFFFFF >> (64 - len)`, the count reduced modulo 64. -/
def baGetMaskLastQWord (len : ℤ) : BitVec 64 :=
  BitVec.allOnes 64 >>> ((64 - toUInt8 len : ℤ) % 64).toNat

def baGetMaskFirtsQWord (rshift : ℕ) (len : ℤ) : BitVec 64 :=
  baGetMaskLastQWord len <<< rshift

section
variable {n : ℕ}

/-- `*buf = update (*buf)` on word `w`. -/
def updateWord (m : Memory n) (w : ℕ) (update : BitVec 64 → BitVec 64) : Option (Memory n) := do
  let qword ← loadWord m w
  storeWord m w (update qword)

/-- The body of `baFillOne` and `baFillZero`: `put` writes a mask into a word and
`byte` is the value given to `memset`. -/
def fillRange (put : BitVec 64 → BitVec 64 → BitVec 64) (byte : Byte) (m : Memory n)
    (begin len : ℕ) : Option (Memory n) :=
  let w := begin / 64
  let rshift := begin % 64
  if rshift + len ≤ 64 then
    updateWord m w fun q => put q (baGetMaskFirtsQWord rshift len)
  else do
    let rlen := 64 - rshift
    let m ← updateWord m w fun q => put q (baGetMaskFirtsQWord rshift rlen)
    let len := len - rlen
    let numU64 := baGetSizeArrayIn8Byte len - 1
    let m ← fill m (8 * (w + 1)) (8 * numU64) byte
    updateWord m (w + 1 + numU64) fun q => put q (baGetMaskLastQWord (len - 64 * numU64))

/-- The loop of `baInvert` over whole words, `left` of them from word `w` on. -/
def invertWords (m : Memory n) (w : ℕ) : ℕ → Option (Memory n)
  | 0 => some m
  | left + 1 => do
      let m ← updateWord m w fun q => ~~~q
      invertWords m (w + 1) left

/-- Every pass of the word loop subtracts the length of all its words, and the
bits of the first and last word outside the mask become zero. -/
def invertRange (m : Memory n) (begin len : ℕ) : Option (Memory n) :=
  let w := begin / 64
  let rshift := begin % 64
  if rshift + len ≤ 64 then
    let mask := baGetMaskFirtsQWord rshift len
    updateWord m w fun q => ~~~(q &&& mask) &&& mask
  else do
    let rlen := 64 - rshift
    let mask := baGetMaskFirtsQWord rshift rlen
    let m ← updateWord m w fun q => ~~~(q &&& mask) &&& mask
    let len := len - rlen
    let numU64 := baGetSizeArrayIn8Byte len - 1
    let m ← invertWords m (w + 1) numU64
    let mask := baGetMaskLastQWord (len - 64 * numU64 * numU64)
    updateWord m (w + 1 + numU64) fun q => ~~~(q &&& mask) &&& mask

end

/-- The frame of the three functions that rewrite a range of the array. -/
def onRange (change : (a : BinArray) → ℕ → ℕ → Option (Memory (8 * baGetSizeArrayIn8Byte a.numBits)))
    (arr : Ptr) (begin : ℕ) (len : ℤ) : Option Reply :=
  match arr, baCheckCalcArg arr begin len with
  | some a, some len => (change a begin len).map fun buf => ⟨0, none, some { a with buf }⟩
  | _, _ => some ⟨-1, none, arr⟩

def baFillOne : Ptr → ℕ → ℤ → Option Reply :=
  onRange fun a => fillRange (fun q mask => q ||| mask) 0xFF a.buf

def baFillZero : Ptr → ℕ → ℤ → Option Reply :=
  onRange fun a => fillRange (fun q mask => q &&& ~~~mask) 0x00 a.buf

def baInvert : Ptr → ℕ → ℤ → Option Reply :=
  onRange fun a => invertRange a.buf

/-- The two fills of a whole array, padding included. -/
def baFillFull (byte : Byte) (arr : Ptr) : Option Reply :=
  match baCheckPtr arr, arr with
  | true, some a =>
    (fill a.buf 0 (8 * baGetSizeArrayIn8Byte a.numBits) byte).map fun buf =>
      ⟨0, none, some { a with buf }⟩
  | _, _ => some ⟨-1, some .einval, none⟩

def baFillZeroFull : Ptr → Option Reply := baFillFull 0x00

def baFillOneFull : Ptr → Option Reply := baFillFull 0xFF

/-! ## Inverted copy -/

section
variable {n k : ℕ}

/-- A loop `*inv_buf++ = ~*buf++` over blocks of `size` bytes, `left` of them from
byte `off` of both buffers. -/
def invertBlocks (size : ℕ) (src : Memory k) : ℕ → Memory n → ℕ → Option (Memory n)
  | 0, dst, _ => some dst
  | left + 1, dst, off => do
      let block ← load size src off
      let dst ← store size dst off (~~~block)
      invertBlocks size src left dst (off + size)

/-- Whole words, then the bytes of what is left. -/
def copyInverted (dst : Memory n) (src : Memory k) (numBits : ℕ) : Option (Memory n) := do
  let numU64 := numBits / 64
  let numU8 := baBits2Bytes (numBits % 64)
  let dst ← invertBlocks 8 src numU64 dst 0
  invertBlocks 1 src numU8 dst (8 * numU64)

end

def baGetInvert (grant : ℕ → Bool) (arr : Ptr) : Option (Option Errno × Ptr) :=
  match baCheckPtr arr, arr with
  | true, some a =>
    match baCreate grant a.numBits with
    | (errno, none) => some (errno, none)
    | (errno, some inv) =>
      (copyInverted inv.buf a.buf a.numBits).map fun buf => (errno, some { inv with buf })
  | _, _ => some (some .einval, none)

/-! ## Sub-array -/

section
variable {n k : ℕ}

/-- The loop of 8-byte copies with a stride of 7 bytes, `left` passes from byte
`buf` of the source and byte `sub` of the copy. -/
def copyShifted56 (src : Memory k) (rshift : ℕ) : ℕ → Memory n → ℕ → ℕ → Option (Memory n)
  | 0, dst, _, _ => some dst
  | left + 1, dst, sub, buf => do
      let qword : BitVec 64 ← load 8 src buf
      let dst ← store 8 dst sub (qword >>> rshift)
      copyShifted56 src rshift left dst (sub + 7) (buf + 7)

/-- The loop of 2-byte copies with a stride of one byte. -/
def copyShifted8 (src : Memory k) (rshift : ℕ) : ℕ → Memory n → ℕ → ℕ → Option (Memory n)
  | 0, dst, _, _ => some dst
  | left + 1, dst, sub, buf => do
      let pair : BitVec 16 ← load 2 src buf
      let dst ← store 2 dst sub (pair >>> rshift)
      copyShifted8 src rshift left dst (sub + 1) (buf + 1)

def copySubBits (dst : Memory n) (src : Memory k) (begin len : ℕ) : Option (Memory n) :=
  let buf := begin / 8
  let rshift := begin % 8
  if rshift = 0 then copy dst src buf (baBits2Bytes len)
  else do
    let overBytes := baBits2Bytes (len + rshift)
    let numU56 := if baBits2Bytes len < 8 then 0 else (overBytes - 1) / 7
    let dst ← copyShifted56 src rshift numU56 dst 0 buf
    let state := overBytes ≠ baBits2Bytes len
    let numU8 := overBytes - 7 * numU56 - 1 - if state then 1 else 0
    let dst ← copyShifted8 src rshift numU8 dst (7 * numU56) (buf + 7 * numU56)
    let sub := 7 * numU56 + numU8
    if state then
      let pair : BitVec 16 ← load 2 src (buf + sub)
      store 1 dst sub ((pair >>> rshift).setWidth 8)
    else
      let byte : BitVec 8 ← load 1 src (buf + sub)
      store 1 dst sub (byte >>> rshift)

end

def baGetSubArray (grant : ℕ → Bool) (arr : Ptr) (begin : ℕ) (len : ℤ) : Option Ptr :=
  match arr, baCheckCalcArg arr begin len with
  | some a, some len =>
    match (baCreate grant len).2 with
    | none => some none
    | some clone =>
      (copySubBits clone.buf a.buf begin len).map fun buf => some { clone with buf }
  | _, _ => some none

/-! ## Clone -/

def baGetClone (grant : ℕ → Bool) (arr : Ptr) : Option Ptr :=
  match baCheckPtr arr, arr with
  | true, some a =>
    match (baCreate grant a.numBits).2 with
    | none => some none
    | some clone =>
      (copy clone.buf a.buf 0 (8 * baGetSizeArrayIn8Byte clone.numBits)).map fun buf =>
        some { clone with buf }
  | _, _ => some none

/-- A clone copies whole buffers of one size. -/
theorem baGetClone_defined (grant : ℕ → Bool) (arr : Ptr) :
    ∃ clone, baGetClone grant arr = some clone := by
  cases arr with
  | none => exact ⟨none, rfl⟩
  | some a =>
      unfold baGetClone baCreate
      simp only [baCheckPtr_some, dif_neg a.numBits_pos.ne']
      by_cases hheader : baCalloc grant 1 16 = false
      · simp [if_pos hheader]
      · by_cases hbuf : baCalloc grant 1 (8 * baGetSizeArrayIn8Byte a.numBits) = true
        · simp [hheader, hbuf, copy]
        · simp [hheader, hbuf]

end TaskLunev.BinArrayModel
