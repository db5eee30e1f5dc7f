import TaskLunev.BinArrayInvert

/-!
# What the mask builders are asked for

The range operations once more, with a record of their calls of the two mask
builders. A shift count outside 0 to 63 is undefined in C, so the record keeps
the counts before x86-64 reduces them. The calls depend on the range alone, and
without the record the operations are those of the model.
-/
namespace TaskLunev.BinArrayMasks
open ByteMemory BinArrayModel BinArrayFill BinArrayInvert BinArrayRange

/-- A call of `_baGetMaskFirtsQWord` or `_baGetMaskLastQWord`, with the arguments
before they are converted to `uint8_t`. -/
inductive MaskCall where
  | first (rshift : ℕ) (len : ℤ)
  | last (len : ℤ)
  deriving DecidableEq, Repr

def MaskCall.mask : MaskCall → BitVec 64
  | .first rshift len => baGetMaskFirtsQWord rshift len
  | .last len => baGetMaskLastQWord len

/-- The shift counts of a call, in the type `int` they have. -/
def MaskCall.shifts : MaskCall → List ℤ
  | .first rshift len => [64 - toUInt8 len, rshift]
  | .last len => [64 - toUInt8 len]

/-- C defines every shift of the calls. -/
def ShiftsDefined (calls : List MaskCall) : Prop :=
  ∀ call ∈ calls, ∀ count ∈ call.shifts, 0 ≤ count ∧ count < 64

instance (calls : List MaskCall) : Decidable (ShiftsDefined calls) :=
  inferInstanceAs (Decidable (∀ _ ∈ _, _))

/-! ## The operations with their calls -/

section
variable {n : ℕ}

/-- A word rewritten with a mask, and the call that built it. -/
def maskWord (put : BitVec 64 → BitVec 64 → BitVec 64) (m : Memory n) (w : ℕ) (call : MaskCall) :
    Option (Memory n × List MaskCall) :=
  (updateWord m w fun q => put q call.mask).map fun m => (m, [call])

def fillRangeCalls (put : BitVec 64 → BitVec 64 → BitVec 64) (byte : Byte) (m : Memory n)
    (begin len : ℕ) : Option (Memory n × List MaskCall) :=
  let w := begin / 64
  let rshift := begin % 64
  if rshift + len ≤ 64 then maskWord put m w (.first rshift len)
  else do
    let rlen := 64 - rshift
    let (m, first) ← maskWord put m w (.first rshift rlen)
    let len := len - rlen
    let numU64 := baGetSizeArrayIn8Byte len - 1
    let m ← fill m (8 * (w + 1)) (8 * numU64) byte
    let (m, last) ← maskWord put m (w + 1 + numU64) (.last (len - 64 * numU64))
    return (m, first ++ last)

/-- The word loop with the length it keeps. Where that leaves 64 bits its lowest
byte, all that is used of it, stays the same. -/
def invertWordsLen (numU64 : ℕ) : ℕ → Memory n → ℕ → ℤ → Option (Memory n × ℤ)
  | 0, m, _, len => some (m, len)
  | left + 1, m, w, len => do
      let m ← updateWord m w fun q => ~~~q
      invertWordsLen numU64 left m (w + 1) (len - 64 * numU64)

def invertRangeCalls (m : Memory n) (begin len : ℕ) : Option (Memory n × List MaskCall) :=
  let w := begin / 64
  let rshift := begin % 64
  let put := fun q mask => ~~~(q &&& mask) &&& mask
  if rshift + len ≤ 64 then maskWord put m w (.first rshift len)
  else do
    let rlen := 64 - rshift
    let (m, first) ← maskWord put m w (.first rshift rlen)
    let len := len - rlen
    let numU64 := baGetSizeArrayIn8Byte len - 1
    let (m, len) ← invertWordsLen numU64 numU64 m (w + 1) len
    let (m, last) ← maskWord put m (w + 1 + numU64) (.last len)
    return (m, first ++ last)

/-- The calls for a range: one when it lies in one word, else one for the first
and one for the last word. `lastLen` is the length for the last word, from the
bits behind the first word and the number of whole words. -/
def rangeCalls (lastLen : ℕ → ℕ → ℤ) (begin len : ℕ) : List MaskCall :=
  let rshift := begin % 64
  if rshift + len ≤ 64 then [.first rshift len]
  else
    let rlen := 64 - rshift
    let rest := len - rlen
    [.first rshift rlen, .last (lastLen rest (baGetSizeArrayIn8Byte rest - 1))]

def fillCalls : ℕ → ℕ → List MaskCall := rangeCalls fun rest k => rest - 64 * k

def invertCalls : ℕ → ℕ → List MaskCall := rangeCalls fun rest k => rest - 64 * k * k

theorem fillRangeCalls_eq (put : BitVec 64 → BitVec 64 → BitVec 64) (byte : Byte) (m : Memory n)
    (begin len : ℕ) : fillRangeCalls put byte m begin len =
      (fillRange put byte m begin len).map fun m' => (m', fillCalls begin len) := by
  unfold fillRangeCalls fillRange fillCalls rangeCalls maskWord
  by_cases hshort : begin % 64 + len ≤ 64
  · simp only [if_pos hshort, MaskCall.mask]
  · simp only [if_neg hshort, MaskCall.mask, Option.bind_eq_bind, Option.pure_def,
      Function.comp_def, Option.map_eq_bind, Option.bind_assoc, Option.bind_some, List.cons_append,
      List.nil_append]

theorem invertWordsLen_eq (numU64 left : ℕ) (m : Memory n) (w : ℕ) (len : ℤ) :
    invertWordsLen numU64 left m w len =
      (invertWords m w left).map fun m' => (m', len - 64 * numU64 * left) := by
  induction left generalizing m w len with
  | zero => simp [invertWordsLen, invertWords]
  | succ left ih =>
      simp only [invertWordsLen, invertWords, ih, Option.bind_eq_bind, Option.map_bind]
      congr 1
      funext m'
      simp only [Function.comp_apply]
      congr 1
      funext m''
      rw [Nat.cast_succ, Int.mul_add, Int.mul_one, Int.add_comm, ← Int.sub_sub]

theorem invertRangeCalls_eq (m : Memory n) (begin len : ℕ) :
    invertRangeCalls m begin len =
      (invertRange m begin len).map fun m' => (m', invertCalls begin len) := by
  unfold invertRangeCalls invertRange invertCalls rangeCalls maskWord
  by_cases hshort : begin % 64 + len ≤ 64
  · simp only [if_pos hshort, MaskCall.mask]
  · simp only [if_neg hshort, MaskCall.mask, invertWordsLen_eq, Option.bind_eq_bind,
      Option.pure_def, Function.comp_def, Option.map_eq_bind, Option.bind_assoc, Option.bind_some,
      List.cons_append, List.nil_append]

end

/-- The frame of the range operations, with the calls of an accepted range. -/
def onRangeCalls (change : (a : BinArray) → ℕ → ℕ →
      Option (Memory (8 * baGetSizeArrayIn8Byte a.numBits) × List MaskCall))
    (arr : Ptr) (begin : ℕ) (len : ℤ) : Option (Reply × List MaskCall) :=
  match arr, baCheckCalcArg arr begin len with
  | some a, some len =>
    (change a begin len).map fun r => (⟨0, none, some { a with buf := r.1 }⟩, r.2)
  | _, _ => some (⟨-1, none, arr⟩, [])

def baFillOneCalls : Ptr → ℕ → ℤ → Option (Reply × List MaskCall) :=
  onRangeCalls fun a => fillRangeCalls (fun q mask => q ||| mask) 0xFF a.buf

def baFillZeroCalls : Ptr → ℕ → ℤ → Option (Reply × List MaskCall) :=
  onRangeCalls fun a => fillRangeCalls (fun q mask => q &&& ~~~mask) 0x00 a.buf

def baInvertCalls : Ptr → ℕ → ℤ → Option (Reply × List MaskCall) :=
  onRangeCalls fun a => invertRangeCalls a.buf

/-- The calls for the resolved range, none when it is refused. -/
def acceptedCalls (calls : ℕ → ℕ → List MaskCall) (arr : Ptr) (begin : ℕ) (len : ℤ) :
    List MaskCall :=
  match baCheckCalcArg arr begin len with
  | none => []
  | some count => calls begin count

/-- An operation with its calls is the operation, and the calls of the range. -/
theorem onRangeCalls_eq {changeCalls : (a : BinArray) → ℕ → ℕ →
      Option (Memory (8 * baGetSizeArrayIn8Byte a.numBits) × List MaskCall)}
    {change : (a : BinArray) → ℕ → ℕ → Option (Memory (8 * baGetSizeArrayIn8Byte a.numBits))}
    {calls : ℕ → ℕ → List MaskCall}
    (h : ∀ a begin count,
      changeCalls a begin count = (change a begin count).map fun m => (m, calls begin count))
    (arr : Ptr) (begin : ℕ) (len : ℤ) :
    onRangeCalls changeCalls arr begin len =
      (onRange change arr begin len).map fun r => (r, acceptedCalls calls arr begin len) := by
  unfold onRangeCalls onRange acceptedCalls
  cases arr with
  | none => rfl
  | some a =>
      cases baCheckCalcArg (some a) begin len with
      | none => rfl
      | some count => simp only [h, Option.map_map, Function.comp_def]

theorem baFillOneCalls_eq (arr : Ptr) (begin : ℕ) (len : ℤ) : baFillOneCalls arr begin len =
    (baFillOne arr begin len).map fun r => (r, acceptedCalls fillCalls arr begin len) :=
  onRangeCalls_eq (fun a => fillRangeCalls_eq _ _ a.buf) arr begin len

theorem baFillZeroCalls_eq (arr : Ptr) (begin : ℕ) (len : ℤ) : baFillZeroCalls arr begin len =
    (baFillZero arr begin len).map fun r => (r, acceptedCalls fillCalls arr begin len) :=
  onRangeCalls_eq (fun a => fillRangeCalls_eq _ _ a.buf) arr begin len

theorem baInvertCalls_eq (arr : Ptr) (begin : ℕ) (len : ℤ) : baInvertCalls arr begin len =
    (baInvert arr begin len).map fun r => (r, acceptedCalls invertCalls arr begin len) :=
  onRangeCalls_eq (fun a => invertRangeCalls_eq a.buf) arr begin len

/-! ## The calls of `baInvert` -/

/-- The number of words between the first and the last word of a range. -/
def wordsBetween (begin count : ℕ) : ℕ := (begin + count - 1) / 64 - begin / 64 - 1

/-- The number of bits of a range in its last word. -/
def lastWordBits (begin count : ℕ) : ℕ :=
  begin + count - max begin (64 * ((begin + count - 1) / 64))

/-- The last word is masked for the bits that the range has in it. -/
def LastExact (begin count : ℕ) (calls : List MaskCall) : Prop :=
  ∀ len, .last len ∈ calls →
    toUInt8 len = lastWordBits begin count ∧ 1 ≤ toUInt8 len ∧ toUInt8 len ≤ 64

theorem shiftsDefined_single {r count : ℕ} (hpos : 0 < count) (hshort : r + count ≤ 64) :
    ShiftsDefined [.first r count] := by
  intro call hcall shift hshift
  rw [List.mem_singleton] at hcall
  subst hcall
  rw [MaskCall.shifts, toUInt8_eq (by omega)] at hshift
  simp only [List.mem_cons, List.not_mem_nil, or_false] at hshift
  omega

theorem shiftsDefined_pair_iff {r : ℕ} (hr : r < 64) (len : ℤ) :
    ShiftsDefined [.first r (64 - r : ℕ), .last len] ↔ 1 ≤ toUInt8 len ∧ toUInt8 len ≤ 64 := by
  have hfirst : ShiftsDefined [.first r (64 - r : ℕ)] :=
    shiftsDefined_single (by omega) (by omega)
  constructor
  · intro h
    have hlast := h (.last len) (by simp) (64 - toUInt8 len) (by simp [MaskCall.shifts])
    omega
  · intro hlen call hcall shift hshift
    rw [List.mem_cons] at hcall
    rcases hcall with hcall | hcall
    · exact hfirst call (hcall ▸ List.mem_cons_self) shift hshift
    · rw [List.mem_singleton] at hcall
      subst hcall
      simp only [MaskCall.shifts, List.mem_singleton] at hshift
      omega

/-- The length behind `k` passes of the word loop, as a byte. -/
theorem toUInt8_lastLen {rest k : ℕ} (hlo : 64 * k < rest) (hhi : rest ≤ 64 * k + 64) :
    toUInt8 ((rest : ℤ) - 64 * k * k) =
      if k % 4 < 2 then rest - 64 * k else rest - 64 * k + 128 := by
  obtain ⟨square, hsquare⟩ : ∃ square, square = k * k := ⟨_, rfl⟩
  have hmod : square % 4 = (k % 4) * (k % 4) % 4 := by rw [hsquare, Nat.mul_mod]
  have hlen : (rest : ℤ) - 64 * k * k = rest - 64 * square := by
    rw [hsquare, Nat.cast_mul, Int.mul_assoc]
  rw [hlen, toUInt8]
  have hk : k % 4 < 4 := Nat.mod_lt k (by decide)
  -- squares are 0 or 1 modulo 4, as the number is even or odd
  obtain h | h | h | h : k % 4 = 0 ∨ k % 4 = 1 ∨ k % 4 = 2 ∨ k % 4 = 3 := by omega
  all_goals
    rw [h] at hmod
    split_ifs <;> omega

theorem invertCalls_exact_iff {begin count : ℕ} (hpos : 0 < count) :
    ShiftsDefined (invertCalls begin count) ∧ LastExact begin count (invertCalls begin count) ↔
      wordsBetween begin count % 4 < 2 := by
  have hr := Nat.mod_lt begin (show 0 < 64 by decide)
  unfold invertCalls rangeCalls
  by_cases hshort : begin % 64 + count ≤ 64
  · have hnone : wordsBetween begin count = 0 := by
      unfold wordsBetween
      omega
    rw [if_pos hshort, hnone]
    exact iff_of_true ⟨shiftsDefined_single hpos hshort, by simp [LastExact]⟩ (by decide)
  · obtain ⟨rest, hrest⟩ : ∃ rest, rest = count - (64 - begin % 64) := ⟨_, rfl⟩
    obtain ⟨k, hk, hlo, hhi⟩ := exists_wholeWords (show 0 < rest by omega)
    have hbetween : wordsBetween begin count = k := by
      unfold wordsBetween
      omega
    have hbits : lastWordBits begin count = rest - 64 * k := by
      unfold lastWordBits
      omega
    have hlen := toUInt8_lastLen hlo hhi
    simp only [if_neg hshort, ← hrest, hk, Nat.add_sub_cancel, shiftsDefined_pair_iff hr, hbetween]
    constructor
    · rintro ⟨-, hexact⟩
      have hlast := (hexact (rest - 64 * k * k) (by simp)).1
      rw [hlen, hbits] at hlast
      split_ifs at hlast with hmod
      · exact hmod
      · omega
    · intro hmod
      rw [if_pos hmod] at hlen
      refine ⟨by omega, fun len hmem => ?_⟩
      simp only [List.mem_cons, reduceCtorEq, MaskCall.last.injEq, List.not_mem_nil, or_false,
        false_or] at hmem
      rw [hmem, hlen, hbits]
      omega

/-- On a range that is not empty and lies in the array, the shifts of `baInvert`
are defined and its last word is masked for the bits of the range exactly when
the number of words between the first and the last one is 0 or 1 modulo 4. -/
theorem invert_masks_iff {arr : BinArray} {begin count : ℕ} {len : ℤ}
    (h : Covers arr begin len count) :
    ∃ reply calls, baInvertCalls (some arr) begin len = some (reply, calls) ∧
      (ShiftsDefined calls ∧ LastExact begin count calls ↔ wordsBetween begin count % 4 < 2) := by
  obtain ⟨buf, hbuf, -⟩ := baInvert_spec h
  refine ⟨⟨0, none, some { arr with buf }⟩, invertCalls begin count, ?_,
    invertCalls_exact_iff h.pos⟩
  rw [baInvertCalls_eq, hbuf, Option.map_some]
  simp only [acceptedCalls, h.check]

/-- 193 zero bits. -/
def zeros193 : BinArray := ⟨193, fun _ => 0, by decide, by decide⟩

/-- Both edge words and two words between. -/
theorem invert_masks_undefined : Covers zeros193 0 193 193 ∧
    ∃ reply, baInvertCalls (some zeros193) 0 193 = some (reply, [.first 0 64, .last (-127)]) ∧
      (MaskCall.last (-127)).shifts = [-65] ∧ toUInt8 (-127) = 129 ∧
      lastWordBits 0 193 = 1 := by
  have hcovers : Covers zeros193 0 193 193 := ⟨.inl rfl, by decide, by decide⟩
  obtain ⟨buf, hbuf, -⟩ := baInvert_spec hcovers
  refine ⟨hcovers, ⟨0, none, some { zeros193 with buf }⟩, ?_, rfl, rfl, rfl⟩
  rw [baInvertCalls_eq, hbuf]
  rfl

/-- 70 bits over the border of two words. -/
theorem invert_masks_tail : Covers (oneOf130 100) 60 (-1) 70 ∧
    ∃ reply calls, baInvertCalls (some (oneOf130 100)) 60 (-1) = some (reply, calls) ∧
      (ShiftsDefined calls ∧ LastExact 60 70 calls ↔ wordsBetween 60 70 % 4 < 2) :=
  ⟨⟨.inr ⟨rfl, rfl⟩, by decide, by decide⟩,
    invert_masks_iff ⟨.inr ⟨rfl, rfl⟩, by decide, by decide⟩⟩

end TaskLunev.BinArrayMasks
