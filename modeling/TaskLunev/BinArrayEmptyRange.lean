import TaskLunev.BinArrayFillEach
import TaskLunev.BinArrayFind
import TaskLunev.BinArrayMasks

/-!
# Empty ranges

The check accepts a range of no bits anywhere up to the end of the array. Its
mask is built with a shift by 64, which C does not define and x86-64 takes as a
shift by 0, so the mask has all bits from `begin` to the end of the word. At the
end of an array of whole words the word lies behind the buffer.
-/
namespace TaskLunev.BinArrayEmptyRange
open ByteMemory BinArrayModel BinArrayFill BinArrayFillEach BinArrayFind BinArrayInvert
open BinArrayRange BinArrayMasks

/-- The operation stays inside the buffer, shifts by 0 to 63 where the range
lies in one word, and leaves the array when the range is empty. -/
def OpSafe (op : Ptr → ℕ → ℤ → Option (Reply × List MaskCall)) (arr : BinArray) (begin : ℕ)
    (len : ℤ) : Prop :=
  ∃ reply calls, op (some arr) begin len = some (reply, calls) ∧
    (∀ count, baCheckCalcArg (some arr) begin len = some count → begin % 64 + count ≤ 64 →
      ShiftsDefined calls) ∧
    (len = 0 → reply.arr = some arr)

section
variable {arr : BinArray} {begin count : ℕ} {len : ℤ}

theorem covers_of_inArray (h : InArray arr begin len) (hlen : len ≠ 0) :
    ∃ count, Covers arr begin len count := by
  rcases h with ⟨hall, hbegin⟩ | ⟨hpos, hin⟩
  · exact ⟨arr.numBits - begin, .inr ⟨hall, by omega⟩, by omega, by omega⟩
  · exact ⟨len.toNat, .inl (Int.toNat_of_nonneg hpos).symm, by omega, by omega⟩

theorem check_empty (h : begin ≤ arr.numBits) :
    baCheckCalcArg (some arr) begin 0 = some 0 := by
  have hlt := arr.numBits_lt
  have hsum : (begin + (0 : ℤ).toNat) % 2 ^ 64 = begin := Nat.mod_eq_of_lt (by simp; omega)
  simp only [baCheckCalcArg, baCheckPtr_some, hsum, if_pos (show begin < arr.numBits + 1 by omega)]
  rfl

/-- A range inside one word has one call, and that of an empty range shifts by
64. -/
theorem rangeCalls_single {lastLen : ℕ → ℕ → ℤ} (h : begin % 64 + count ≤ 64) :
    rangeCalls lastLen begin count = [.first (begin % 64) count] := by
  rw [rangeCalls, if_pos h]

theorem not_shiftsDefined_empty (r : ℕ) : ¬ ShiftsDefined [.first r (0 : ℕ)] := by
  intro h
  have hshift := h (.first r (0 : ℕ)) (by simp) 64 (by simp [MaskCall.shifts, toUInt8])
  omega

/-- An operation that works on ranges of at least one bit is safe on exactly
these. -/
theorem opSafe_iff {op : Ptr → ℕ → ℤ → Option (Reply × List MaskCall)}
    {base : Ptr → ℕ → ℤ → Option Reply} {lastLen : ℕ → ℕ → ℤ}
    (hop : ∀ arr begin len, op arr begin len =
      (base arr begin len).map fun r => (r, acceptedCalls (rangeCalls lastLen) arr begin len))
    (hbase : ∀ count, Covers arr begin len count → ∃ reply, base (some arr) begin len = some reply)
    (h : InArray arr begin len) : OpSafe op arr begin len ↔ len ≠ 0 := by
  constructor
  · rintro ⟨reply, calls, hrun, hshifts, -⟩ hzero
    subst hzero
    have hcheck : baCheckCalcArg (some arr) begin 0 = some 0 := check_empty (by
      unfold InArray at h
      omega)
    have hsingle : begin % 64 + 0 ≤ 64 := by omega
    rw [hop, Option.map_eq_some_iff] at hrun
    obtain ⟨r, -, hr⟩ := hrun
    cases hr
    have hdefined := hshifts 0 hcheck hsingle
    simp only [acceptedCalls, hcheck, rangeCalls_single hsingle] at hdefined
    exact not_shiftsDefined_empty _ hdefined
  · intro hlen
    obtain ⟨count, hcovers⟩ := covers_of_inArray h hlen
    obtain ⟨reply, hreply⟩ := hbase count hcovers
    refine ⟨reply, rangeCalls lastLen begin count, ?_, fun count' hcheck hsingle => ?_,
      fun hzero => absurd hzero hlen⟩
    · rw [hop, hreply, Option.map_some]
      simp only [acceptedCalls, hcovers.check]
    · rw [hcovers.check, Option.some.injEq] at hcheck
      subst hcheck
      rw [rangeCalls_single hsingle]
      exact shiftsDefined_single hcovers.pos hsingle

/-- On a range that lies in the array each of the three operations stays inside
the buffer, has its shifts defined and keeps an array it has nothing to change
in exactly when the range is not empty. -/
theorem range_safe_iff (h : InArray arr begin len) :
    (OpSafe baFillOneCalls arr begin len ↔ len ≠ 0) ∧
    (OpSafe baFillZeroCalls arr begin len ↔ len ≠ 0) ∧
    (OpSafe baInvertCalls arr begin len ↔ len ≠ 0) := by
  refine ⟨opSafe_iff baFillOneCalls_eq (fun count hcovers => ?_) h,
    opSafe_iff baFillZeroCalls_eq (fun count hcovers => ?_) h,
    opSafe_iff baInvertCalls_eq (fun count hcovers => ?_) h⟩
  · have hones : ∀ j < 8, (0xFF : Byte).getLsbD j = true := by decide
    obtain ⟨buf, hbuf, -⟩ := fill_spec puts_one hones hcovers
    exact ⟨_, hbuf⟩
  · have hzeros : ∀ j < 8, (0x00 : Byte).getLsbD j = false := by decide
    obtain ⟨buf, hbuf, -⟩ := fill_spec puts_zero hzeros hcovers
    exact ⟨_, hbuf⟩
  · obtain ⟨buf, hbuf, -⟩ := baInvert_spec hcovers
    exact ⟨_, hbuf⟩

end

/-- In 128 bits the empty range at bit 5 sets and clears bits from there on, and
the one at the end touches a word that is not there. -/
theorem emptyRange_unsafe :
    (InArray bitHundred 5 0 ∧ bitHundred.bit 5 = false ∧ bitHundred.bit 100 = true ∧
      (baFillOneCalls (some bitHundred) 5 0).map Prod.snd = some [.first 5 0] ∧
      (MaskCall.first 5 0).shifts = [64, 5] ∧
      ((baFillOne (some bitHundred) 5 0).bind Reply.arr).map (BinArray.bit · 5) = some true ∧
      ((baFillZero (some bitHundred) 100 0).bind Reply.arr).map (BinArray.bit · 100) = some false ∧
      ((baInvert (some bitHundred) 5 0).bind Reply.arr).map (BinArray.bit · 5) = some true) ∧
    InArray bitHundred 128 0 ∧ baFillOne (some bitHundred) 128 0 = none ∧
      baFillZero (some bitHundred) 128 0 = none ∧ baInvert (some bitHundred) 128 0 = none := by
  refine ⟨⟨.inr ⟨le_rfl, by decide⟩, rfl, rfl, by decide +kernel, rfl, by decide +kernel,
    by decide +kernel, by decide +kernel⟩, .inr ⟨le_rfl, by decide⟩, rfl, rfl, rfl⟩

/-- Bits 5 and 6 of 128. -/
theorem range_safe_two : InArray bitHundred 5 2 ∧
    (OpSafe baFillOneCalls bitHundred 5 2 ↔ (2 : ℤ) ≠ 0) ∧
    (OpSafe baFillZeroCalls bitHundred 5 2 ↔ (2 : ℤ) ≠ 0) ∧
    (OpSafe baInvertCalls bitHundred 5 2 ↔ (2 : ℤ) ≠ 0) :=
  ⟨.inr ⟨by decide, by decide⟩, range_safe_iff (.inr ⟨by decide, by decide⟩)⟩

end TaskLunev.BinArrayEmptyRange
