import TaskLunev.BinArrayModel

/-!
# The shared range check

Six operations take a range and ask `baCheckCalcArg` first. The check adds a
`size_t` and an `ssize_t` in 64 bits. It refuses every range outside the array
except those whose end, less 2^64, is again a legal end.
-/
namespace TaskLunev.BinArrayRange
open ByteMemory BinArrayModel

/-- The range lies in the array over the integers; `-1` asks for the rest. -/
def InArray (arr : BinArray) (begin : ℕ) (len : ℤ) : Prop :=
  (len = -1 ∧ begin < arr.numBits) ∨ (0 ≤ len ∧ begin + len ≤ arr.numBits)

/-- The range has `count` bits, at least one, and all lie in the array. -/
structure Covers (arr : BinArray) (begin : ℕ) (len : ℤ) (count : ℕ) : Prop where
  len_eq : len = count ∨ (len = -1 ∧ begin + count = arr.numBits)
  pos : 0 < count
  inside : begin + count ≤ arr.numBits

/-- The end of the range passes 2^64 and comes back inside the array. -/
def SumWraps (arr : BinArray) (begin : ℕ) (len : ℤ) : Prop :=
  0 ≤ len ∧ 2 ^ 64 ≤ begin + len ∧ begin + len ≤ 2 ^ 64 + arr.numBits

/-- Every ranged operation refuses and leaves the array as it was. -/
structure AllRefuse (grant : ℕ → Bool) (arr : BinArray) (begin : ℕ) (len : ℤ) : Prop where
  fillOne : baFillOne (some arr) begin len = some ⟨-1, none, some arr⟩
  fillZero : baFillZero (some arr) begin len = some ⟨-1, none, some arr⟩
  invert : baInvert (some arr) begin len = some ⟨-1, none, some arr⟩
  findOne : baFindOne (some arr) begin len = some (-1)
  findZero : baFindZero (some arr) begin len = some (-1)
  subArray : baGetSubArray grant (some arr) begin len = some none

section
variable {grant : ℕ → Bool} {arr : BinArray} {begin : ℕ} {len : ℤ}

variable {count : ℕ}

theorem Covers.check (h : Covers arr begin len count) :
    baCheckCalcArg (some arr) begin len = some count := by
  obtain ⟨hlen, hpos, hinside⟩ := h
  have hlt := arr.numBits_lt
  simp only [baCheckCalcArg, baCheckPtr_some]
  cases hlen with
  | inl hlen =>
      have hneg : len ≠ -1 := by omega
      have hsum : (begin + len.toNat) % 2 ^ 64 = begin + count := by
        rw [hlen, Int.toNat_natCast]
        exact Nat.mod_eq_of_lt (by omega)
      simp only [if_neg hneg, hsum, if_pos (show 0 ≤ len by omega),
        if_pos (show begin + count < arr.numBits + 1 by omega)]
      rw [hlen, Int.toNat_natCast]
  | inr hrest =>
      simp only [if_pos hrest.1, if_pos (show begin < arr.numBits by omega), Option.some.injEq]
      omega

/-- A range inside the array is a range inside its words. -/
theorem Covers.words (h : Covers arr begin len count) :
    begin + count ≤ 64 * baGetSizeArrayIn8Byte arr.numBits :=
  h.inside.trans (baGetSizeArrayIn8Byte_bounds arr.numBits).1

/-- The whole array is a range of at least one bit. -/
theorem covers_whole (arr : BinArray) : Covers arr 0 (-1) arr.numBits where
  len_eq := .inr ⟨rfl, Nat.zero_add _⟩
  pos := arr.numBits_pos
  inside := (Nat.zero_add _).le

theorem SumWraps.not_inArray (h : SumWraps arr begin len) : ¬ InArray arr begin len := by
  have := arr.numBits_lt
  unfold SumWraps InArray at *
  omega

theorem baCheckCalcArg_eq_none (hb : begin < 2 ^ 64) (hl : len < 2 ^ 63) :
    baCheckCalcArg (some arr) begin len = none ↔
      ¬ InArray arr begin len ∧ ¬ SumWraps arr begin len := by
  have := arr.numBits_lt
  simp only [baCheckCalcArg, baCheckPtr_some, InArray, SumWraps]
  split_ifs <;> simp only [true_iff, false_iff] <;> omega

theorem allRefuse_of_check (h : baCheckCalcArg (some arr) begin len = none) :
    AllRefuse grant arr begin len := by
  constructor <;>
    simp only [baFillOne, baFillZero, baInvert, onRange, baFindOne, baFindZero, baFindWith,
      baGetSubArray, h]

/-- A passed check makes a fill report success or leave the buffer. -/
theorem baFillOne_of_check {n : ℕ} (h : baCheckCalcArg (some arr) begin len = some n)
    {r : Reply} (hr : baFillOne (some arr) begin len = some r) : r.value = 0 := by
  simp only [baFillOne, onRange, h, Option.map_eq_some_iff] at hr
  obtain ⟨buf, -, rfl⟩ := hr
  rfl

theorem refuse_outside_iff (hb : begin < 2 ^ 64) (hl : len < 2 ^ 63) :
    (¬ InArray arr begin len → AllRefuse grant arr begin len) ↔ ¬ SumWraps arr begin len := by
  constructor
  · intro h hw
    have hrefuse := h hw.not_inArray
    cases hc : baCheckCalcArg (some arr) begin len with
    | none => exact ((baCheckCalcArg_eq_none hb hl).mp hc).2 hw
    | some n =>
        have hzero : (-1 : ℤ) = 0 := baFillOne_of_check hc hrefuse.fillOne
        exact absurd hzero (by decide)
  · exact fun hw hout => allRefuse_of_check ((baCheckCalcArg_eq_none hb hl).mpr ⟨hout, hw⟩)

end

theorem refuse_outside_created : ∃ arr, (baCreate (fun _ => true) 128).2 = some arr ∧
    ((¬ InArray arr 100 29 → AllRefuse (fun _ => true) arr 100 29) ↔ ¬ SumWraps arr 100 29) :=
  ⟨_, rfl, refuse_outside_iff (by decide) (by decide)⟩

/-- One bit at the last `size_t` index passes the check of a 128-bit array, and
the fill writes outside its buffer. -/
theorem wrapped_range_passes : ∃ arr, (baCreate (fun _ => true) 128).2 = some arr ∧
    ¬ InArray arr (2 ^ 64 - 1) 1 ∧ baCheckCalcArg (some arr) (2 ^ 64 - 1) 1 = some 1 ∧
    baFillOne (some arr) (2 ^ 64 - 1) 1 = none :=
  ⟨_, rfl, by unfold InArray; decide, rfl, rfl⟩

end TaskLunev.BinArrayRange
