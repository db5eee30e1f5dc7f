import TaskLunev.BinArrayFill
import TaskLunev.BinArrayRange
import TaskLunev.BinArrayVector

/-!
# A fill is a setter for every index

Calls that write one value at indices of an array set the bits of these indices
and leave all others, those of the padding too. A fill of a range that lies in
the array does the same in whole words.
-/
namespace TaskLunev.BinArrayFillEach
open ByteMemory BinArrayModel BinArrayVector BinArrayFill BinArrayRange

section
variable {arr : BinArray} {val : Bool}

theorem baSetValue_spec {i : ℕ} (hi : i < arr.numBits) (val : Bool) :
    ∃ buf, baSetValue (some arr) i val = some ⟨0, none, some { arr with buf }⟩ ∧
      ∀ j, bit buf j = if j = i then val else bit arr.buf j := by
  obtain ⟨buf, hbuf, hbits⟩ := baSetValueRaw_spec (m := arr.buf) (BinArray.byte_lt arr hi) val
  refine ⟨buf, ?_, hbits⟩
  simp only [baSetValue, checkedAccess, baCheckPtr_some, if_neg (Nat.not_lt.mpr hi.le), hbuf,
    Option.map_some]

/-- Setters in any order and with repetitions: what counts is which indices are
among them. -/
theorem runCalls_written (arr : BinArray) (calls : List Call)
    (h : ∀ c ∈ calls, c.written = some val ∧ c.index < arr.numBits) :
    ∃ buf, runCalls (some arr) calls =
        some (List.replicate calls.length (0, none), some { arr with buf }) ∧
      ∀ i, bit buf i = if i ∈ calls.map Call.index then val else bit arr.buf i := by
  induction calls generalizing arr with
  | nil => exact ⟨arr.buf, rfl, fun i => by simp⟩
  | cons c cs ih =>
      obtain ⟨hwritten, hindex⟩ := h c List.mem_cons_self
      obtain ⟨mid, hmid, hbits⟩ := baSetValue_spec hindex val
      obtain ⟨buf, hbuf, hrest⟩ := ih { arr with buf := mid } fun d hd =>
        h d (List.mem_cons_of_mem c hd)
      refine ⟨buf, ?_, fun i => ?_⟩
      · rw [runCalls, Call.run_of_written hwritten, hmid]
        simp only [Option.bind_eq_bind, Option.bind_some, hbuf, Option.pure_def, List.length_cons,
          List.replicate_succ]
      · rw [hrest, hbits]
        by_cases hi : i ∈ cs.map Call.index
        · simp only [List.map_cons, List.mem_cons, hi, or_true, if_true]
        · simp only [List.map_cons, List.mem_cons, hi, or_false, if_false]

theorem fill_spec {put : BitVec 64 → BitVec 64 → BitVec 64} (hput : Puts put val) {byte : Byte}
    (hbyte : ∀ j < 8, byte.getLsbD j = val) {begin count : ℕ} {len : ℤ}
    (h : Covers arr begin len count) :
    ∃ buf, onRange (fun a => fillRange put byte a.buf) (some arr) begin len =
        some ⟨0, none, some { arr with buf }⟩ ∧
      ∀ i, bit buf i = if begin ≤ i ∧ i < begin + count then val else bit arr.buf i := by
  obtain ⟨buf, hbuf, hbits⟩ := fillRange_spec (m := arr.buf) hput hbyte h.pos rfl h.words
  refine ⟨buf, ?_, hbits⟩
  simp only [onRange, h.check, hbuf, Option.map_some]

/-- The setter `set` for every index of the range, in any order, leaves what the
fill leaves. -/
theorem fill_eq_each {put : BitVec 64 → BitVec 64 → BitVec 64} (hput : Puts put val) {byte : Byte}
    (hbyte : ∀ j < 8, byte.getLsbD j = val) {set : ℕ → Call}
    (hset : ∀ i, (set i).written = some val ∧ (set i).index = i) {begin count : ℕ} {len : ℤ}
    (h : Covers arr begin len count) {indices : List ℕ}
    (hperm : indices.Perm (List.range' begin count)) :
    ∃ arr', onRange (fun a => fillRange put byte a.buf) (some arr) begin len =
        some ⟨0, none, some arr'⟩ ∧
      runCalls (some arr) (indices.map set) = some (List.replicate count (0, none), some arr') := by
  obtain ⟨buf, hfill, hbits⟩ := fill_spec hput hbyte h
  have hmem : ∀ i, i ∈ indices ↔ begin ≤ i ∧ i < begin + count := fun i => by
    rw [hperm.mem_iff, List.mem_range'_1]
  have hcalls : ∀ c ∈ indices.map set, c.written = some val ∧ c.index < arr.numBits := by
    intro c hc
    obtain ⟨i, hi, rfl⟩ := List.mem_map.mp hc
    rw [hmem] at hi
    have hinside := h.inside
    rw [(hset i).2]
    exact ⟨(hset i).1, by omega⟩
  have hindex : (indices.map set).map Call.index = indices := by
    rw [List.map_map]
    exact List.map_id'' (fun i => (hset i).2) indices
  obtain ⟨buf', hrun, heach⟩ := runCalls_written arr _ hcalls
  have hsame : buf' = buf := eq_of_bit_eq fun i => by
    rw [heach, hbits, hindex]
    simp only [hmem]
  refine ⟨{ arr with buf }, hfill, ?_⟩
  rw [hrun, hsame, List.length_map, hperm.length_eq, List.length_range']

end

/-- On a range that is not empty and lies in the array, `baFillOne` and
`baFillZero` stay inside the buffer and leave exactly the array that `baSetOne`
and `baSetZero` leave, called once for each index of the range. -/
theorem fills_eq_each {arr : BinArray} {begin count : ℕ} {len : ℤ}
    (h : Covers arr begin len count) {indices : List ℕ}
    (hperm : indices.Perm (List.range' begin count)) :
    (∃ arr', baFillOne (some arr) begin len = some ⟨0, none, some arr'⟩ ∧
      runCalls (some arr) (indices.map .setOne) =
        some (List.replicate count (0, none), some arr')) ∧
    ∃ arr', baFillZero (some arr) begin len = some ⟨0, none, some arr'⟩ ∧
      runCalls (some arr) (indices.map .setZero) =
        some (List.replicate count (0, none), some arr') := by
  constructor
  · exact fill_eq_each puts_one (by decide) (fun _ => ⟨rfl, rfl⟩) h hperm
  · exact fill_eq_each puts_zero (by decide) (fun _ => ⟨rfl, rfl⟩) h hperm

/-- An array of 150 zero bits. -/
def zeros150 : BinArray := ⟨150, fun _ => 0, by decide, by decide⟩

/-- The last 70 bits of 150, over the border of two words, in descending order. -/
theorem fills_eq_each_tail : Covers zeros150 80 (-1) 70 ∧
    (∃ arr', baFillOne (some zeros150) 80 (-1) = some ⟨0, none, some arr'⟩ ∧
      runCalls (some zeros150) ((List.range' 80 70).reverse.map .setOne) =
        some (List.replicate 70 (0, none), some arr')) ∧
    ∃ arr', baFillZero (some zeros150) 80 (-1) = some ⟨0, none, some arr'⟩ ∧
      runCalls (some zeros150) ((List.range' 80 70).reverse.map .setZero) =
        some (List.replicate 70 (0, none), some arr') :=
  ⟨⟨.inr ⟨rfl, rfl⟩, by decide, by decide⟩,
    fills_eq_each ⟨.inr ⟨rfl, rfl⟩, by decide, by decide⟩ (List.reverse_perm _)⟩

end TaskLunev.BinArrayFillEach
