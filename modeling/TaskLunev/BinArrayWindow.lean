import TaskLunev.BinArrayFind
import TaskLunev.BinArrayRange

/-!
# The bits a search visits

A search visits the bits from `begin` on up to a place that depends on the range
alone, and answers with the first wanted one of them. It counts the words behind
the first word boundary in 32 bits, so what it visits there and the position it
reports are right only within these bits. Both the search for the only bit of
its value and the dispatcher `baFind`, which drops its window, are judged by
what is visited.
-/
namespace TaskLunev.BinArrayWindow
open ByteMemory BinArrayModel BinArrayFind BinArrayRange

/-- How many bits the word loop visits when `len` are left. -/
def visited (len : ℕ) : ℕ :=
  if len < 64 then len else 64 * (baGetSizeArrayIn8Byte len % 2 ^ 32)

/-- The first word boundary from `begin` on. -/
def boundary (begin : ℕ) : ℕ := 64 * ((begin + 63) / 64)

/-- The end of the bits that a search of `len` bits from `begin` on visits. -/
def visitedEnd (begin len : ℕ) : ℕ :=
  if begin + len ≤ boundary begin then begin + len
  else boundary begin + visited (begin + len - boundary begin)

/-- The position that is reported for bit `q`. -/
def reported (begin q : ℕ) : ℕ :=
  if q < boundary begin then q else boundary begin + (q - boundary begin) % 2 ^ 32

theorem boundary_bounds (begin : ℕ) : begin ≤ boundary begin ∧ boundary begin < begin + 64 := by
  unfold boundary
  omega

@[simp] theorem boundary_zero : boundary 0 = 0 := rfl

theorem boundary_aligned {begin : ℕ} (h : begin % 64 = 0) : boundary begin = begin := by
  unfold boundary
  omega

theorem boundary_inside {begin : ℕ} (h : begin % 64 ≠ 0) :
    boundary begin = begin + (64 - begin % 64) := by
  unfold boundary
  omega

theorem visited_le (len : ℕ) : visited len ≤ 64 * baGetSizeArrayIn8Byte len := by
  have hwords := (baGetSizeArrayIn8Byte_bounds len).1
  have hmod := Nat.mod_le (baGetSizeArrayIn8Byte len) (2 ^ 32)
  unfold visited
  split_ifs <;> omega

theorem visitedEnd_zero (len : ℕ) : visitedEnd 0 len = visited len := by
  unfold visitedEnd
  rw [boundary_zero, Nat.zero_add, Nat.sub_zero, Nat.zero_add]
  split_ifs with h
  · rw [Nat.le_zero.mp h]
    rfl
  · rfl

theorem visitedEnd_aligned {begin : ℕ} (h : begin % 64 = 0) (len : ℕ) :
    visitedEnd begin len = begin + visited len := by
  rw [visitedEnd, boundary_aligned h]
  split_ifs with hzero
  · have hlen : len = 0 := by omega
    rw [hlen]
    rfl
  · rw [Nat.add_sub_cancel_left]

theorem visitedEnd_short {begin len : ℕ} (h : begin % 64 ≠ 0) (hshort : begin % 64 + len ≤ 64) :
    visitedEnd begin len = begin + len := by
  have hs := boundary_inside h
  rw [visitedEnd, if_pos (by omega)]

theorem visitedEnd_across {begin len : ℕ} (h : begin % 64 ≠ 0) (hlong : 64 < begin % 64 + len) :
    visitedEnd begin len =
      begin + ((64 - begin % 64) + visited (len - (64 - begin % 64))) := by
  have hs := boundary_inside h
  have hrest : begin + len - (begin + (64 - begin % 64)) = len - (64 - begin % 64) := by omega
  rw [visitedEnd, if_neg (by omega), hs, hrest, Nat.add_assoc]

theorem reported_zero (q : ℕ) : reported 0 q = q % 2 ^ 32 := by
  unfold reported
  rw [boundary_zero, if_neg (Nat.not_lt_zero q), Nat.zero_add, Nat.sub_zero]

theorem le_reported {begin q : ℕ} (h : begin ≤ q) : begin ≤ reported begin q := by
  have hb := (boundary_bounds begin).1
  unfold reported
  split_ifs <;> omega

theorem le_visitedEnd (begin len : ℕ) : begin ≤ visitedEnd begin len := by
  have hb := (boundary_bounds begin).1
  unfold visitedEnd
  split_ifs <;> omega

theorem visitedEnd_inside {arr : BinArray} {begin len : ℕ} (hin : begin + len ≤ arr.numBits) :
    visitedEnd begin len ≤ 64 * baGetSizeArrayIn8Byte arr.numBits := by
  have hsize := baGetSizeArrayIn8Byte_bounds arr.numBits
  have hwords := baGetSizeArrayIn8Byte_bounds (begin + len - boundary begin)
  have hvisited := visited_le (begin + len - boundary begin)
  unfold visitedEnd
  split_ifs
  · omega
  · unfold boundary at *
    omega

/-! ## The searches in closed form -/

section
variable {arr : BinArray} {v : Bool} {F : Finder}

theorem findAligned_visited (hF : Searches F v) (arr : BinArray) (w len : ℕ)
    (hin : 64 * w + len ≤ arr.numBits) :
    findAligned F arr.buf w len (64 * w) =
      some (answer ((firstBit arr.buf v (64 * w) (visited len)).map fun q =>
        64 * w + (q - 64 * w) % 2 ^ 32)) := by
  have hwords := baGetSizeArrayIn8Byte_bounds len
  have hsize := baGetSizeArrayIn8Byte_bounds arr.numBits
  have hmod := Nat.mod_le (baGetSizeArrayIn8Byte len) (2 ^ 32)
  rw [findAligned_eq hF (by omega), Option.some.injEq]
  unfold visited
  cases hf : firstBit arr.buf v (64 * w) (64 * (baGetSizeArrayIn8Byte len % 2 ^ 32)) with
  | none =>
      rw [firstBit_eq_none] at hf
      split_ifs with hlen
      · have hone : baGetSizeArrayIn8Byte len % 2 ^ 32 = baGetSizeArrayIn8Byte len :=
          Nat.mod_eq_of_lt (by omega)
        rw [firstBit_eq_none.mpr fun q hlo hhi => hf q hlo (by omega)]
        rfl
      · rw [firstBit_eq_none.mpr hf]
        rfl
  | some q =>
      obtain ⟨hlo, hhi, hv, hmin⟩ := firstBit_eq_some.mp hf
      have hcount : ((64 * (q / 64 - w) % 2 ^ 32 : ℕ) : ℤ) + (64 * w : ℕ) + (q % 64 : ℕ) =
          (64 * w + (q - 64 * w) % 2 ^ 32 : ℕ) := by omega
      dsimp only
      by_cases hmask : q % 64 < len
      · rw [if_pos hmask, hcount]
        by_cases hlen : len < 64
        · rw [if_pos hlen, firstBit_of_lt hf (by omega), Option.map_some, answer_some]
        · rw [if_neg hlen, hf, Option.map_some, answer_some]
      · have hlen : len < 64 := by omega
        rw [if_neg hmask, if_pos hlen, firstBit_eq_none.mpr fun j hj hlt => hmin j hj (by omega)]
        rfl

/-- From a word boundary on there is only the word loop. -/
theorem findRange_aligned (hF : Searches F v) {begin len : ℕ} (hr : begin % 64 = 0)
    (hin : begin + len ≤ arr.numBits) :
    findRange F arr.buf begin len =
      some (answer ((firstBit arr.buf v begin (visited len)).map (reported begin))) := by
  have hw : 64 * (begin / 64) = begin := by omega
  have haligned := findAligned_visited hF arr (begin / 64) len (by omega)
  rw [hw] at haligned
  rw [findRange, if_neg (by simpa using hr), haligned]
  cases hf : firstBit arr.buf v begin (visited len) with
  | none => rfl
  | some q =>
      have hlo := (firstBit_eq_some.mp hf).1
      rw [Option.map_some, Option.map_some, reported, boundary_aligned hr, if_neg (by omega)]

/-- The rest of the first word, then the words behind the boundary. -/
theorem findRange_across (hF : Searches F v) {begin len : ℕ} (hr : begin % 64 ≠ 0)
    (hlong : 64 < begin % 64 + len) (hin : begin + len ≤ arr.numBits) :
    findRange F arr.buf begin len =
      some (answer ((firstBit arr.buf v begin
        ((64 - begin % 64) + visited (len - (64 - begin % 64)))).map (reported begin))) := by
  have hsize := baGetSizeArrayIn8Byte_bounds arr.numBits
  have hs := boundary_inside hr
  obtain ⟨qword, hq⟩ := loadWord_of_le (m := arr.buf) (w := begin / 64) (by omega)
  have hword := firstBit_word (v := v) (s := begin % 64) hq (by omega)
  rw [Nat.div_add_mod] at hword
  simp only [findRange, hr, ne_eq, not_false_eq_true, if_true, hq, Option.bind_eq_bind,
    Option.bind_some, hF.shift _ _ (Nat.mod_lt begin (by decide : 64 > 0)), not_le.mpr hlong,
    if_false, Option.pure_def, firstBit_append, hword]
  cases hj : firstInWord v qword (begin % 64) with
  | some j =>
      rw [hj, Option.map_some] at hword
      have hsj := ((firstInWord_eq_some (by omega)).mp hj).1
      have hhi := (firstBit_eq_some.mp hword).2.1
      rw [Option.map_some, Option.map_some, Option.some_or, Option.map_some, answer_some,
        answer_some, reported, if_pos (by omega), if_pos (by omega), Option.some.injEq]
      omega
  | none =>
      have haligned := findAligned_visited hF arr (begin / 64 + 1)
        (len - (64 - begin % 64)) (by omega)
      rw [show 64 * (begin / 64 + 1) = begin + (64 - begin % 64) by omega] at haligned
      rw [Option.map_none, Option.map_none, Option.none_or, answer_none, if_neg (by simp),
        haligned]
      cases hf : firstBit arr.buf v (begin + (64 - begin % 64))
          (visited (len - (64 - begin % 64))) with
      | none => rfl
      | some q =>
          have hlo := (firstBit_eq_some.mp hf).1
          rw [Option.map_some, Option.map_some, reported, if_neg (by omega), hs]

/-- A search inside the array answers with the first wanted bit it visits. -/
theorem findRange_visited (hF : Searches F v) {begin len : ℕ} (hin : begin + len ≤ arr.numBits) :
    findRange F arr.buf begin len =
      some (answer ((firstBit arr.buf v begin (visitedEnd begin len - begin)).map
        (reported begin))) := by
  by_cases hr : begin % 64 = 0
  · rw [findRange_aligned hF hr hin, visitedEnd_aligned hr, Nat.add_sub_cancel_left]
  · by_cases hshort : begin % 64 + len ≤ 64
    · have hs := boundary_inside hr
      rw [findRange_short hF hin hr hshort, visitedEnd_short hr hshort, Nat.add_sub_cancel_left]
      cases hf : firstBit arr.buf v begin len with
      | none => rfl
      | some q =>
          have hhi := (firstBit_eq_some.mp hf).2.1
          rw [Option.map_some, reported, if_pos (by omega)]
    · rw [findRange_across hF hr (not_le.mp hshort) hin, visitedEnd_across hr (not_le.mp hshort),
        Nat.add_sub_cancel_left]

theorem baFindWith_whole (hF : Searches F v) (arr : BinArray) :
    baFindWith F (some arr) 0 (-1) =
      some (answer ((firstBit arr.buf v 0 (visited arr.numBits)).map fun q => q % 2 ^ 32)) := by
  rw [baFindWith_eq (covers_whole arr).check, findRange_visited hF (Nat.zero_add _).le,
    visitedEnd_zero, Nat.sub_zero]
  simp only [funext reported_zero]

end

/-! ## The only bit of its value -/

/-- `p` is the only bit of the buffer, padding included, that equals `v`. -/
def OnlyBit (arr : BinArray) (v : Bool) (p : ℕ) : Prop :=
  ∀ i < 64 * baGetSizeArrayIn8Byte arr.numBits, (arr.bit i = v ↔ i = p)

instance (arr : BinArray) (v : Bool) (p : ℕ) : Decidable (OnlyBit arr v p) :=
  inferInstanceAs (Decidable (∀ _ < _, _))

/-- The position has 32 bits, and the word counter gets to the word of `p`. -/
def Reached (n p : ℕ) : Prop := p < 2 ^ 32 ∧ p / 64 < baGetSizeArrayIn8Byte n % 2 ^ 32

section
variable {arr : BinArray} {v : Bool} {F : Finder} {p : ℕ}

theorem lt_visited_iff {n : ℕ} (hp : p < n) :
    p < visited n ↔ p / 64 < baGetSizeArrayIn8Byte n % 2 ^ 32 := by
  have hwords := baGetSizeArrayIn8Byte_bounds n
  unfold visited
  split_ifs <;> omega

/-- A search for the only bit finds it when it visits it, and reports its last
32 bits. -/
theorem baFindWith_onlyBit (hF : Searches F v) (honly : OnlyBit arr v p) :
    baFindWith F (some arr) 0 (-1) =
      some (if p < visited arr.numBits then ((p % 2 ^ 32 : ℕ) : ℤ) else -1) := by
  have hwords : visitedEnd 0 arr.numBits ≤ 64 * baGetSizeArrayIn8Byte arr.numBits :=
    visitedEnd_inside (Nat.zero_add _).le
  rw [visitedEnd_zero] at hwords
  rw [baFindWith_whole hF]
  split_ifs with hvisited
  · have hfirst : firstBit arr.buf v 0 (visited arr.numBits) = some p := by
      rw [firstBit_eq_some]
      refine ⟨Nat.zero_le _, by omega, (honly p (by omega)).mpr rfl, fun j _ hj hv => ?_⟩
      have hjp := (honly j (by omega)).mp hv
      omega
    rw [hfirst, Option.map_some, answer_some]
  · have hnone : firstBit arr.buf v 0 (visited arr.numBits) = none := by
      rw [firstBit_eq_none]
      intro j _ hj hv
      have hjp := (honly j (by omega)).mp hv
      omega
    rw [hnone, Option.map_none, answer_none]

theorem baFindWith_onlyBit_iff (hF : Searches F v) (hp : p < arr.numBits)
    (honly : OnlyBit arr v p) :
    baFindWith F (some arr) 0 (-1) = some (p : ℤ) ↔ Reached arr.numBits p := by
  rw [baFindWith_onlyBit hF honly, Option.some.injEq, Reached, ← lt_visited_iff hp]
  split_ifs with hvisited
  · rw [Int.ofNat_inj, Nat.mod_eq_iff_lt (by decide)]
    exact (and_iff_left hvisited).symm
  · exact iff_of_false id fun h => hvisited h.2

/-- The only 1 and the only 0 of a buffer are found where the 32-bit counters
reach them. -/
theorem find_onlyBit_iff (hp : p < arr.numBits) :
    (OnlyBit arr true p → (baFindOne (some arr) 0 (-1) = some (p : ℤ) ↔ Reached arr.numBits p)) ∧
    (OnlyBit arr false p → (baFindZero (some arr) 0 (-1) = some (p : ℤ) ↔ Reached arr.numBits p)) :=
  ⟨baFindWith_onlyBit_iff oneFinder_searches hp, baFindWith_onlyBit_iff zeroFinder_searches hp⟩

end

/-- 128 bits with bit 100 clear. -/
def zeroHundred : BinArray :=
  { bitHundred with buf := fun i => if i.val = 12 then 0xEF else 0xFF }

theorem onlyBit_hundred : OnlyBit bitHundred true 100 ∧ OnlyBit zeroHundred false 100 := by
  decide +kernel

theorem find_onlyBit_hundred :
    (baFindOne (some bitHundred) 0 (-1) = some ((100 : ℕ) : ℤ) ↔
      Reached bitHundred.numBits 100) ∧
    (baFindZero (some zeroHundred) 0 (-1) = some ((100 : ℕ) : ℤ) ↔
      Reached zeroHundred.numBits 100) :=
  ⟨(find_onlyBit_iff (by decide)).1 onlyBit_hundred.1,
    (find_onlyBit_iff (by decide)).2 onlyBit_hundred.2⟩

/-- 2^32 + 1 bits of which the last is set. -/
def lastOfMany : BinArray where
  numBits := 2 ^ 32 + 1
  buf i := if i.val = 2 ^ 29 then 1 else 0
  numBits_pos := by decide
  numBits_lt := by decide

theorem lastOfMany_onlyBit : OnlyBit lastOfMany true (2 ^ 32) := by
  intro i hi
  have hbyte : i / 8 < 8 * baGetSizeArrayIn8Byte lastOfMany.numBits := by omega
  have hbit : lastOfMany.bit i = (if i / 8 = 2 ^ 29 then 1 else 0 : Byte).getLsbD (i % 8) := by
    simp only [BinArray.bit, bit, hbyte, dite_true]
    rfl
  rw [hbit]
  split_ifs with hlast
  · rw [show (1 : Byte) = 1#8 by rfl, BitVec.getLsbD_one]
    simp
    omega
  · simp
    omega

/-- The last bit is set and no other, and the search returns 0. -/
theorem baFindOne_wraps : OnlyBit lastOfMany true (2 ^ 32) ∧
    baFindOne (some lastOfMany) 0 (-1) = some 0 := by
  have hvisited : 2 ^ 32 < visited lastOfMany.numBits := by decide
  have hfound := baFindWith_onlyBit oneFinder_searches lastOfMany_onlyBit
  rw [if_pos hvisited] at hfound
  exact ⟨lastOfMany_onlyBit, hfound⟩

end TaskLunev.BinArrayWindow
