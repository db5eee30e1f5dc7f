import Mathlib.Data.Nat.Bitwise
import Mathlib.Tactic.Common

/-!
# Byte buffers with little-endian loads and stores

A buffer is a fixed number of bytes. Every access names the bytes it touches
and fails when one of them lies outside the buffer, so a program over these
accesses succeeds exactly when it stays inside. The lemmas speak about single
bits, numbered through the whole buffer with the least significant bit of each
byte first.
-/
namespace TaskLunev.ByteMemory

abbrev Byte := BitVec 8

abbrev Memory (n : ℕ) := Fin n → Byte

variable {n : ℕ}

/-- Bit `i` of the buffer; a bit past the end reads as `false`. -/
def bit (m : Memory n) (i : ℕ) : Bool :=
  if h : i / 8 < n then (m ⟨i / 8, h⟩).getLsbD (i % 8) else false

/-- The `k` bytes from `off` on, least significant byte first. -/
def load (k : ℕ) (m : Memory n) (off : ℕ) : Option (BitVec (8 * k)) :=
  if off + k ≤ n then
    some (BitVec.ofNat _ (Nat.ofBits fun j : Fin (8 * k) => bit m (8 * off + j)))
  else none

def store (k : ℕ) (m : Memory n) (off : ℕ) (v : BitVec (8 * k)) : Option (Memory n) :=
  if off + k ≤ n then
    some fun i => if off ≤ i ∧ i < off + k then v.extractLsb' (8 * (i - off)) 8 else m i
  else none

/-- `memset`: a fill of no bytes touches nothing. -/
def fill (m : Memory n) (off count : ℕ) (b : Byte) : Option (Memory n) :=
  if count = 0 ∨ off + count ≤ n then
    some fun i => if off ≤ i ∧ i < off + count then b else m i
  else none

/-- `memcpy` of `count` bytes from `src` at `from_` to the start of `m`. -/
def copy {k : ℕ} (m : Memory n) (src : Memory k) (from_ count : ℕ) : Option (Memory n) :=
  if h : count ≤ n ∧ from_ + count ≤ k then
    some fun i => if hi : i < count then src ⟨from_ + i, by omega⟩ else m i
  else none

/-- `realloc`: the bytes both blocks have are kept, further ones come as they are
found. -/
def resized {k : ℕ} (m : Memory k) (fresh : ℕ → Byte) : Memory n := fun i =>
  if h : i < k then m ⟨i, h⟩ else fresh i

abbrev loadWord (m : Memory n) (w : ℕ) : Option (BitVec 64) := load 8 m (8 * w)

abbrev storeWord (m : Memory n) (w : ℕ) (v : BitVec 64) : Option (Memory n) :=
  store 8 m (8 * w) v

/-- Byte `i` of the buffer, zero past the end. -/
def byteAt (m : Memory n) (i : ℕ) : Byte := if h : i < n then m ⟨i, h⟩ else 0

/-- The `count` bytes from `off` on, in order. -/
def slice (m : Memory n) (off count : ℕ) : List Byte := (List.range' off count).map (byteAt m)

def readBytes (m : Memory n) (off count : ℕ) : Option (List Byte) :=
  if off + count ≤ n then some (slice m off count) else none

def writeBytes (m : Memory n) (off : ℕ) (bytes : List Byte) : Option (Memory n) :=
  if off + bytes.length ≤ n then
    some fun i => if off ≤ i ∧ i < off + bytes.length then bytes.getD (i - off) 0 else m i
  else none

/-- A buffer is its bits. -/
theorem eq_of_bit_eq {m m' : Memory n} (h : ∀ i, bit m i = bit m' i) : m = m' := by
  funext b
  apply BitVec.eq_of_getLsbD_eq
  intro j hj
  have hb := h (8 * b + j)
  have hdiv : (8 * b.val + j) / 8 = b := by omega
  have hmod : (8 * b.val + j) % 8 = j := by omega
  simpa only [bit, hdiv, hmod, b.isLt, dite_true] using hb

theorem load_isSome {k : ℕ} {m : Memory n} {off : ℕ} :
    (load k m off).isSome ↔ off + k ≤ n := by
  unfold load
  split_ifs with h <;> simp [h]

/-- An access inside the buffer succeeds. -/
theorem load_of_le {k : ℕ} {m : Memory n} {off : ℕ} (h : off + k ≤ n) :
    ∃ v, load k m off = some v :=
  Option.isSome_iff_exists.mp (load_isSome.mpr h)

theorem store_of_le {k off : ℕ} (m : Memory n) (h : off + k ≤ n) (v : BitVec (8 * k)) :
    ∃ m', store k m off v = some m' :=
  ⟨_, if_pos h⟩

theorem load_bit {k : ℕ} {m : Memory n} {off j : ℕ} {v : BitVec (8 * k)}
    (h : load k m off = some v) (hj : j < 8 * k) : v.getLsbD j = bit m (8 * off + j) := by
  unfold load at h
  split_ifs at h
  cases h
  rw [BitVec.getLsbD_ofNat, Nat.testBit_ofBits_lt _ _ hj, decide_eq_true hj, Bool.true_and]

/-- A store rewrites the bits of its own bytes and no others. -/
theorem bit_store {k : ℕ} {m m' : Memory n} {off : ℕ} {v : BitVec (8 * k)}
    (h : store k m off v = some m') (i : ℕ) :
    bit m' i = if 8 * off ≤ i ∧ i < 8 * (off + k) then v.getLsbD (i - 8 * off)
      else bit m i := by
  unfold store at h
  split_ifs at h with hk
  cases h
  by_cases hi : i / 8 < n
  · have hin : (off ≤ i / 8 ∧ i / 8 < off + k) ↔ (8 * off ≤ i ∧ i < 8 * (off + k)) := by omega
    simp only [bit, hi, dite_true, hin]
    split_ifs with hb
    · have hm : i % 8 < 8 := Nat.mod_lt _ (by decide)
      have he : 8 * (i / 8 - off) + i % 8 = i - 8 * off := by omega
      simp [hm, he]
    · rfl
  · simp only [bit, hi, dite_false]
    rw [if_neg (by omega)]

/-- A fill sets the bits of its bytes to those of the value and no others. -/
theorem bit_fill {m m' : Memory n} {off count : ℕ} {b : Byte} (h : fill m off count b = some m')
    (hn : off + count ≤ n) (i : ℕ) :
    bit m' i = if 8 * off ≤ i ∧ i < 8 * (off + count) then b.getLsbD (i % 8) else bit m i := by
  unfold fill at h
  split_ifs at h
  cases h
  by_cases hi : i / 8 < n
  · have hin : (off ≤ i / 8 ∧ i / 8 < off + count) ↔ (8 * off ≤ i ∧ i < 8 * (off + count)) := by
      omega
    simp only [bit, hi, dite_true, hin]
    split_ifs <;> rfl
  · simp only [bit, hi, dite_false]
    rw [if_neg (by omega)]

/-- A copy brings the bits of the source's bytes to the start. -/
theorem bit_copy {k : ℕ} {m m' : Memory n} {src : Memory k} {from_ count : ℕ}
    (h : copy m src from_ count = some m') {i : ℕ} (hi : i < 8 * count) :
    bit m' i = bit src (8 * from_ + i) := by
  unfold copy at h
  split_ifs at h with hin
  cases h
  have hdiv : (8 * from_ + i) / 8 = from_ + i / 8 := by omega
  have hmod : (8 * from_ + i) % 8 = i % 8 := by omega
  have hcount : i / 8 < count := by omega
  have hn : i / 8 < n := by omega
  have hk : from_ + i / 8 < k := by omega
  simp only [bit, hdiv, hmod, hn, hk, hcount, dite_true]

theorem bit_resized {k : ℕ} (m : Memory k) (fresh : ℕ → Byte) {i : ℕ} (hi : i / 8 < n) :
    bit (resized m fresh : Memory n) i =
      if i / 8 < k then bit m i else (fresh (i / 8)).getLsbD (i % 8) := by
  simp only [bit, resized, hi, dite_true]
  by_cases hk : i / 8 < k
  · simp only [hk, dite_true, if_true]
  · simp only [hk, dite_false, if_false]

/-! ## Runs of bytes -/

@[simp] theorem slice_length (m : Memory n) (off count : ℕ) :
    (slice m off count).length = count := by
  simp [slice]

@[simp] theorem slice_zero (m : Memory n) (off : ℕ) : slice m off 0 = [] := rfl

theorem slice_add (m : Memory n) (off a b : ℕ) :
    slice m off (a + b) = slice m off a ++ slice m (off + a) b := by
  simp only [slice, ← List.map_append]
  rw [← List.range'_append_1]

theorem slice_take (m : Memory n) (off : ℕ) {k count : ℕ} (h : k ≤ count) :
    (slice m off count).take k = slice m off k := by
  obtain ⟨d, rfl⟩ := Nat.exists_eq_add_of_le h
  rw [slice_add, List.take_left' (slice_length ..)]

/-- The first bytes of a run, then the rest of a longer one. -/
theorem take_slice_append (m : Memory n) (off k : ℕ) {part count : ℕ} (h : part ≤ count) :
    (slice m off part).take k ++ slice m (off + min k part) (count - min k part) =
      slice m off count := by
  have hk : (slice m off part).take k = slice m off (min k part) := by
    rw [List.take_eq_take_min, slice_length, slice_take _ _ (min_le_right ..)]
  rw [hk, ← slice_add, Nat.add_sub_cancel' ((min_le_right ..).trans h)]

theorem slice_congr {m m' : Memory n} {off count : ℕ}
    (h : ∀ i, off ≤ i → i < off + count → byteAt m' i = byteAt m i) :
    slice m' off count = slice m off count := by
  apply List.map_congr_left
  intro i hi
  rw [List.mem_range'_1] at hi
  exact h i hi.1 hi.2

theorem byteAt_writeBytes {m m' : Memory n} {off : ℕ} {bytes : List Byte}
    (h : writeBytes m off bytes = some m') (i : ℕ) :
    byteAt m' i = if off ≤ i ∧ i < off + bytes.length then bytes.getD (i - off) 0
      else byteAt m i := by
  unfold writeBytes at h
  split_ifs at h with hn
  cases h
  by_cases hi : i < n
  · simp only [byteAt, hi, dite_true]
  · rw [if_neg (by omega)]
    simp only [byteAt, hi, dite_false]

theorem slice_writeBytes_self {m m' : Memory n} {off : ℕ} {bytes : List Byte}
    (h : writeBytes m off bytes = some m') : slice m' off bytes.length = bytes := by
  apply List.ext_getElem (slice_length ..)
  intro i hi hib
  simp only [slice, List.getElem_map, List.getElem_range', byteAt_writeBytes h]
  rw [if_pos (by omega), show off + 1 * i - off = i by omega, List.getD_eq_getElem _ _ hib]

/-- A write leaves every run of bytes beside it as it was. -/
theorem slice_writeBytes_disjoint {m m' : Memory n} {off at_ count : ℕ} {bytes : List Byte}
    (h : writeBytes m off bytes = some m')
    (hd : at_ + count ≤ off ∨ off + bytes.length ≤ at_) :
    slice m' at_ count = slice m at_ count := by
  apply slice_congr
  intro i hlo hhi
  rw [byteAt_writeBytes h, if_neg (by omega)]

end TaskLunev.ByteMemory
