import TaskLunev.BinArrayWindow

/-!
# The dispatcher drops its window

`baFind` hands neither its begin nor its length on and searches the whole array.
That is the search of the window exactly when the window makes no difference:
both searches visit no wanted bit, or the first one of the array lies in both.
-/
namespace TaskLunev.BinArrayDispatch
open ByteMemory BinArrayModel BinArrayFind BinArrayRange BinArrayWindow

/-- The end of what a search of the window visits; a refused range visits
nothing. -/
def windowEnd (arr : BinArray) (begin : ℕ) (len : ℤ) : ℕ :=
  match baCheckCalcArg (some arr) begin len with
  | none => begin
  | some count => visitedEnd begin count

/-- Neither search visits a bit equal to `v`, nor the window a word outside the
buffer. -/
def NeitherFinds (arr : BinArray) (begin last : ℕ) (v : Bool) : Prop :=
  (∀ q < visited arr.numBits, arr.bit q ≠ v) ∧
    ∀ q, begin ≤ q → q < last → q < 64 * baGetSizeArrayIn8Byte arr.numBits ∧ arr.bit q ≠ v

/-- The first bit of the array equal to `v` is visited by both searches. Behind
2^32 bits the two count its position from places that agree. -/
def BothFind (arr : BinArray) (begin last : ℕ) (v : Bool) : Prop :=
  ∃ q, begin ≤ q ∧ q < last ∧ q < visited arr.numBits ∧ arr.bit q = v ∧
    (∀ j < q, arr.bit j ≠ v) ∧ (q < boundary begin → q < 2 ^ 32) ∧
    (boundary begin ≤ q → boundary begin ≤ q % 2 ^ 32)

/-- The window makes no difference to the search for `v`. -/
def WindowIdle (arr : BinArray) (begin : ℕ) (len : ℤ) (v : Bool) : Prop :=
  NeitherFinds arr begin (windowEnd arr begin len) v ∨
    BothFind arr begin (windowEnd arr begin len) v

/-! ## First bits -/

theorem reported_eq_mod_iff {begin q : ℕ} : reported begin q = q % 2 ^ 32 ↔
    (q < boundary begin → q < 2 ^ 32) ∧ (boundary begin ≤ q → boundary begin ≤ q % 2 ^ 32) := by
  unfold reported
  split_ifs with h
  · omega
  · omega

section
variable {arr : BinArray} {v : Bool} {begin last all q : ℕ}

/-- A first bit of the whole and one of the window that are reported alike are
one bit. -/
theorem firstBit_shared {q' : ℕ} (hq : firstBit arr.buf v 0 all = some q)
    (hq' : firstBit arr.buf v begin (last - begin) = some q')
    (h : q % 2 ^ 32 = reported begin q') : q = q' := by
  obtain ⟨-, hall, hv, hmin⟩ := firstBit_eq_some.mp hq
  obtain ⟨hlo, hlast, hv', hmin'⟩ := firstBit_eq_some.mp hq'
  have hreported := le_reported hlo
  have hmod := Nat.mod_le q (2 ^ 32)
  rcases Nat.lt_trichotomy q q' with hlt | heq | hgt
  · -- the bit lies before the window, so it is reported as itself
    exact absurd hv (hmin' q (by omega) hlt)
  · exact heq
  · exact absurd hv' (hmin q' (Nat.zero_le _) hgt)

theorem firstBit_none_iff (hlast : begin ≤ last)
    (hin : last ≤ 64 * baGetSizeArrayIn8Byte arr.numBits) :
    firstBit arr.buf v 0 (visited arr.numBits) = none ∧
      firstBit arr.buf v begin (last - begin) = none ↔ NeitherFinds arr begin last v := by
  rw [firstBit_eq_none, firstBit_eq_none, Nat.zero_add, Nat.add_sub_cancel' hlast]
  constructor
  · rintro ⟨hall, hwindow⟩
    exact ⟨fun q hq => hall q (Nat.zero_le _) hq,
      fun q hlo hhi => ⟨hhi.trans_le hin, hwindow q hlo hhi⟩⟩
  · rintro ⟨hall, hwindow⟩
    exact ⟨fun q _ hq => hall q hq, fun q hlo hhi => (hwindow q hlo hhi).2⟩

theorem firstBit_some_iff (hlast : begin ≤ last) :
    (∃ q, firstBit arr.buf v 0 (visited arr.numBits) = some q ∧
      firstBit arr.buf v begin (last - begin) = some q ∧ reported begin q = q % 2 ^ 32) ↔
      BothFind arr begin last v := by
  apply exists_congr
  intro q
  rw [firstBit_eq_some, firstBit_eq_some, Nat.zero_add, Nat.add_sub_cancel' hlast,
    reported_eq_mod_iff]
  constructor
  · rintro ⟨⟨-, hall, hv, hmin⟩, ⟨hlo, hhi, -, -⟩, hplace⟩
    exact ⟨hlo, hhi, hall, hv, fun j hj => hmin j (Nat.zero_le _) hj, hplace⟩
  · rintro ⟨hlo, hhi, hall, hv, hmin, hplace⟩
    exact ⟨⟨Nat.zero_le _, hall, hv, fun j _ hj => hmin j hj⟩,
      ⟨hlo, hhi, hv, fun j _ hj => hmin j hj⟩, hplace⟩

/-- Two searches inside the buffer agree when they find nothing or the same. -/
theorem answers_eq_iff (hlast : begin ≤ last)
    (hin : last ≤ 64 * baGetSizeArrayIn8Byte arr.numBits) :
    answer ((firstBit arr.buf v 0 (visited arr.numBits)).map fun q => q % 2 ^ 32) =
      answer ((firstBit arr.buf v begin (last - begin)).map (reported begin)) ↔
      NeitherFinds arr begin last v ∨ BothFind arr begin last v := by
  rw [← firstBit_none_iff hlast hin, ← firstBit_some_iff hlast]
  cases hall : firstBit arr.buf v 0 (visited arr.numBits) with
  | none =>
      cases hwindow : firstBit arr.buf v begin (last - begin) with
      | none => simp
      | some q => simp
  | some q =>
      cases hwindow : firstBit arr.buf v begin (last - begin) with
      | none =>
          refine iff_of_false ?_ (by simp)
          rw [Option.map_some, Option.map_none, answer_some, answer_none]
          omega
      | some q' =>
          simp only [Option.map_some, answer_some, Int.ofNat_inj, reduceCtorEq, and_self, false_or,
            Option.some.injEq]
          constructor
          · intro h
            have hsame := firstBit_shared hall hwindow h
            exact ⟨q, rfl, hsame.symm, hsame ▸ h.symm⟩
          · rintro ⟨_, rfl, rfl, h⟩
            exact h.symm

end

/-! ## Ranges outside the buffer -/

/-- An accepted range lies in the array, or its sum wrapped and it starts behind
every buffer. -/
theorem check_inside_or_far {arr : BinArray} {begin count : ℕ} {len : ℤ} (hb : begin < 2 ^ 64)
    (hl : len < 2 ^ 63) (h : baCheckCalcArg (some arr) begin len = some count) :
    begin + count ≤ arr.numBits ∨ (0 < count ∧ 2 ^ 63 ≤ begin) := by
  have hlt := arr.numBits_lt
  simp only [baCheckCalcArg, baCheckPtr_some] at h
  split_ifs at h <;> cases h <;> omega

/-- A search that starts behind the buffer visits nothing or leaves it. -/
theorem findRange_far {n : ℕ} {m : Memory n} (F : Finder) {begin len : ℕ}
    (hfar : n < 8 * (begin / 64 + 1)) (hpos : 0 < len) :
    findRange F m begin len = if visitedEnd begin len ≤ begin then some (-1) else none := by
  have hwords := baGetSizeArrayIn8Byte_bounds len
  unfold findRange
  by_cases hr : begin % 64 = 0
  · simp only [hr, ne_eq, not_true_eq_false, if_false, findAligned, visitedEnd_aligned hr]
    cases hleft : baGetSizeArrayIn8Byte len % 2 ^ 32 with
    | zero =>
        have hnone : visited len = 0 := by
          unfold visited
          rw [hleft, if_neg (by omega)]
        rw [hnone]
        simp [findWord]
    | succ left =>
        have hsome : 0 < visited len := by
          unfold visited
          split_ifs <;> omega
        rw [if_neg (by omega)]
        simp only [findWord, Nat.add_zero, loadWord_none hfar, Option.bind_eq_bind, Option.bind_none]
  · have hs := boundary_inside hr
    have hend : begin < visitedEnd begin len := by
      unfold visitedEnd
      split_ifs <;> omega
    simp only [hr, ne_eq, not_false_eq_true, if_true, loadWord_none hfar, Option.bind_eq_bind,
      Option.bind_none]
    rw [if_neg (by omega)]

/-- Behind the buffer nothing is found, and only an empty visit is defined. -/
theorem windowIdle_far {arr : BinArray} {v : Bool} {begin last : ℕ} (hlast : begin ≤ last)
    (hfar : 64 * baGetSizeArrayIn8Byte arr.numBits ≤ begin) :
    NeitherFinds arr begin last v ∨ BothFind arr begin last v ↔
      (∀ q < visited arr.numBits, arr.bit q ≠ v) ∧ last ≤ begin := by
  have hvisited := visited_le arr.numBits
  constructor
  · rintro (⟨hall, hwindow⟩ | ⟨q, hlo, -, hall, -⟩)
    · refine ⟨hall, Nat.le_of_not_lt fun hlt => ?_⟩
      have := (hwindow begin le_rfl hlt).1
      omega
    · omega
  · rintro ⟨hall, hempty⟩
    exact .inl ⟨hall, fun q hlo hhi => by omega⟩

/-! ## Arrays -/

section
variable {arr : BinArray} {v : Bool} {F : Finder} {begin : ℕ} {len : ℤ}

theorem whole_finds_nothing_iff (hF : Searches F v) :
    baFindWith F (some arr) 0 (-1) = some (-1) ↔ ∀ q < visited arr.numBits, arr.bit q ≠ v := by
  rw [baFindWith_whole hF]
  cases hall : firstBit arr.buf v 0 (visited arr.numBits) with
  | none =>
      rw [firstBit_eq_none] at hall
      exact iff_of_true rfl fun q hq => hall q (Nat.zero_le _) (by omega)
  | some q =>
      obtain ⟨-, hlt, hv, -⟩ := firstBit_eq_some.mp hall
      rw [Option.map_some, answer_some, Option.some.injEq]
      exact iff_of_false (by omega) fun h => h q (by omega) hv

/-- A search of the whole array is the search of a window exactly when the
window makes no difference. -/
theorem baFindWith_window_iff (hF : Searches F v) (hb : begin < 2 ^ 64) (hl : len < 2 ^ 63) :
    baFindWith F (some arr) 0 (-1) = baFindWith F (some arr) begin len ↔
      WindowIdle arr begin len v := by
  unfold WindowIdle windowEnd
  cases hcheck : baCheckCalcArg (some arr) begin len with
  | none =>
      have hrefused : baFindWith F (some arr) begin len = some (-1) := by
        simp only [baFindWith, hcheck]
      rw [hrefused, whole_finds_nothing_iff hF]
      constructor
      · exact fun hall => .inl ⟨hall, fun q hlo hhi => absurd hhi (Nat.not_lt_of_le hlo)⟩
      · rintro (⟨hall, -⟩ | ⟨q, hlo, hhi, -⟩)
        · exact hall
        · exact absurd hhi (Nat.not_lt_of_le hlo)
  | some count =>
      have hlast := le_visitedEnd begin count
      rw [baFindWith_eq hcheck]
      rcases check_inside_or_far hb hl hcheck with hin | ⟨hpos, hfar⟩
      · rw [findRange_visited hF hin, baFindWith_whole hF, Option.some.injEq]
        exact answers_eq_iff hlast (visitedEnd_inside hin)
      · have hlt := arr.numBits_lt
        have hsize := baGetSizeArrayIn8Byte_bounds arr.numBits
        have hbehind : 64 * baGetSizeArrayIn8Byte arr.numBits ≤ begin := by omega
        rw [findRange_far F (by omega) hpos, windowIdle_far hlast hbehind]
        split_ifs with hempty
        · rw [whole_finds_nothing_iff hF, and_iff_left hempty]
        · rw [baFindWith_whole hF]
          exact iff_of_false (by simp) fun h => hempty h.2

/-- `baFind` answers as the search of the window for the sought value exactly
when the window makes no difference to that search. -/
theorem baFind_window_iff (arr : BinArray) (hb : begin < 2 ^ 64) (hl : len < 2 ^ 63) (val : Bool) :
    baFind (some arr) begin len val =
        (if val then baFindOne (some arr) begin len else baFindZero (some arr) begin len) ↔
      WindowIdle arr begin len val := by
  cases val with
  | true => exact baFindWith_window_iff oneFinder_searches hb hl
  | false => exact baFindWith_window_iff zeroFinder_searches hb hl

end

/-- A window that starts at the only set bit. -/
theorem baFind_window_hundred :
    baFind (some bitHundred) 100 28 true =
        (if true then baFindOne (some bitHundred) 100 28
          else baFindZero (some bitHundred) 100 28) ↔
      WindowIdle bitHundred 100 28 true :=
  baFind_window_iff bitHundred (by decide) (by decide) true

/-- Behind the only set bit and outside the array nothing is to be found, and
`baFind` answers 100. -/
theorem baFind_ignores_window :
    baFindOne (some bitHundred) 101 (-1) = some (-1) ∧
    baFind (some bitHundred) 101 (-1) true = some 100 ∧
    baCheckCalcArg (some bitHundred) 128 1 = none ∧
    baFindOne (some bitHundred) 128 1 = some (-1) ∧
    baFind (some bitHundred) 128 1 true = some 100 :=
  ⟨by decide +kernel, by decide +kernel, rfl, by decide +kernel, by decide +kernel⟩

end TaskLunev.BinArrayDispatch
