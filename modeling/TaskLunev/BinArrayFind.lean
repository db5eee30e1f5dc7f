import TaskLunev.BinArrayVector
import Mathlib.Data.List.Find

/-!
# The word-wise search against a bit-by-bit scan

`baFindOne` and `baFindZero` read the first, possibly unaligned word, then
whole words. The scan they stand for visits the range bit by bit. The two
agree except where the word loop stops on a bit behind the end of the range,
or where its 32-bit counters are too small for the range.
-/
namespace TaskLunev.BinArrayFind
open ByteMemory BinArrayModel BinArrayVector

/-- A position as a result, `-1` when there is none. -/
def answer : Option ℕ → ℤ
  | some i => i
  | none => -1

@[simp] theorem answer_some (i : ℕ) : answer (some i) = i := rfl

@[simp] theorem answer_none : answer none = -1 := rfl

/-- The least bit equal to `v` among `count` bits from `lo` on. -/
def firstBit {n : ℕ} (m : Memory n) (v : Bool) (lo count : ℕ) : Option ℕ :=
  (List.range' lo count).find? fun i => bit m i == v

/-- The scan by `baGetValue` over `count` indices from `begin` on. -/
def linearScan (arr : BinArray) (v : Bool) (begin count : ℕ) : ℤ :=
  answer ((List.range' begin count).find? fun i =>
    (baGetValue (some arr) i).map Reply.value == some (v.toNat : ℤ))

section
variable {n : ℕ} {m : Memory n} {v : Bool} {lo count q : ℕ}

theorem firstBit_eq_some : firstBit m v lo count = some q ↔
    lo ≤ q ∧ q < lo + count ∧ bit m q = v ∧ ∀ j, lo ≤ j → j < q → bit m j ≠ v := by
  simp only [firstBit, List.find?_range'_eq_some, beq_iff_eq, List.mem_range'_1,
    Bool.not_eq_true', beq_eq_false_iff_ne]
  tauto

theorem firstBit_eq_none :
    firstBit m v lo count = none ↔ ∀ q, lo ≤ q → q < lo + count → bit m q ≠ v := by
  simp only [firstBit, List.find?_range'_eq_none, Bool.not_eq_true', beq_eq_false_iff_ne]

theorem firstBit_append (m : Memory n) (v : Bool) (lo a b : ℕ) :
    firstBit m v lo (a + b) = (firstBit m v lo a).or (firstBit m v (lo + a) b) := by
  rw [firstBit, ← List.range'_append, List.find?_append, Nat.one_mul]
  rfl

/-- A bit found in a longer window is the one found in a window that still
holds it. -/
theorem firstBit_of_lt {k : ℕ} (h : firstBit m v lo count = some q) (hq : q < lo + k) :
    firstBit m v lo k = some q := by
  rw [firstBit_eq_some] at h ⊢
  exact ⟨h.1, hq, h.2.2⟩

end

theorem linearScan_eq (arr : BinArray) (v : Bool) {begin count : ℕ}
    (h : begin + count ≤ arr.numBits) :
    linearScan arr v begin count = answer (firstBit arr.buf v begin count) := by
  unfold linearScan firstBit
  congr 1
  apply List.find?_congr
  intro i hi
  rw [baGetValue_eq arr (by have := List.mem_range'_1.mp hi; omega)]
  change (some ((bit arr.buf i).toNat : ℤ) == some (v.toNat : ℤ)) = _
  cases bit arr.buf i <;> cases v <;> rfl

/-! ## One word -/

/-- The least bit `v` of a word from bit `s` on. -/
def firstInWord (v : Bool) (qword : BitVec 64) (s : ℕ) : Option ℕ :=
  (List.range' s (64 - s)).find? fun j => qword.getLsbD j == v

/-- What the word operations of a search for `v` compute. -/
structure Searches (F : Finder) (v : Bool) : Prop where
  skip : ∀ q, q = F.skip ↔ firstInWord v q 0 = none
  findBit : ∀ q, F.findBit q = answer (firstInWord v q 0)
  shift : ∀ q s, s < 64 →
    F.findBit (F.shift q s) = answer ((firstInWord v q s).map fun j => j - s)

theorem firstInWord_eq_some {v : Bool} {q : BitVec 64} {s j : ℕ} (hs : s ≤ 64) :
    firstInWord v q s = some j ↔
      s ≤ j ∧ j < 64 ∧ q.getLsbD j = v ∧ ∀ i, s ≤ i → i < j → q.getLsbD i ≠ v := by
  simp only [firstInWord, List.find?_range'_eq_some, beq_iff_eq, List.mem_range'_1,
    Bool.not_eq_true', beq_eq_false_iff_ne, Nat.add_sub_cancel' hs]
  tauto

theorem firstInWord_eq_none {v : Bool} {q : BitVec 64} {s : ℕ} (hs : s ≤ 64) :
    firstInWord v q s = none ↔ ∀ j, s ≤ j → j < 64 → q.getLsbD j ≠ v := by
  simp only [firstInWord, List.find?_range'_eq_none, Bool.not_eq_true', beq_eq_false_iff_ne,
    Nat.add_sub_cancel' hs]

/-- A word that repeats the bits of `q` from `s` on, and whose remaining bits
hold `v` only when one of these does. -/
theorem firstInWord_shift {v : Bool} {q q' : BitVec 64} {s : ℕ} (hs : s < 64)
    (hbits : ∀ j, s + j < 64 → q'.getLsbD j = q.getLsbD (s + j))
    (hpad : (∀ j, s + j < 64 → q'.getLsbD j ≠ v) → ∀ j < 64, q'.getLsbD j ≠ v) :
    firstInWord v q' 0 = (firstInWord v q s).map fun j => j - s := by
  cases hq : firstInWord v q s with
  | none =>
      rw [firstInWord_eq_none hs.le] at hq
      rw [Option.map_none, firstInWord_eq_none (Nat.zero_le _)]
      exact fun j _ hj => hpad (fun i hi => hbits i hi ▸ hq _ (by omega) hi) j hj
  | some j =>
      rw [firstInWord_eq_some hs.le] at hq
      obtain ⟨hsj, hj, hv, hmin⟩ := hq
      rw [Option.map_some, firstInWord_eq_some (Nat.zero_le _)]
      refine ⟨Nat.zero_le _, by omega, ?_, fun i _ hi => ?_⟩
      · rw [hbits _ (by omega), Nat.add_sub_cancel' hsj, hv]
      · rw [hbits _ (by omega)]
        exact hmin _ (by omega) (by omega)

theorem baFindBitOneInQWord_eq (q : BitVec 64) :
    baFindBitOneInQWord q = answer (firstInWord true q 0) := by
  unfold baFindBitOneInQWord ffsll firstInWord
  simp only [Nat.sub_zero, ← List.range_eq_range', beq_true]
  cases (List.range 64).find? fun j => q.getLsbD j with
  | none => rfl
  | some j => simp [answer]

theorem baFindBitZeroInQWord_eq (q : BitVec 64) :
    baFindBitZeroInQWord q = answer (firstInWord false q 0) := by
  rw [baFindBitZeroInQWord, baFindBitOneInQWord_eq]
  congr 1
  apply List.find?_congr
  intro j hj
  have hlt : j < 64 := (List.mem_range'_1.mp hj).2
  simp only [BitVec.getLsbD_not, hlt, decide_true, Bool.true_and]
  cases q.getLsbD j <;> rfl

theorem oneFinder_searches : Searches oneFinder true where
  skip q := by
    rw [firstInWord_eq_none (Nat.zero_le _)]
    refine ⟨fun h j _ _ => by simp [h, oneFinder], fun h => ?_⟩
    exact BitVec.eq_of_getLsbD_eq fun j hj => by simpa [oneFinder] using h j (Nat.zero_le _) hj
  findBit := baFindBitOneInQWord_eq
  shift q s hs := by
    change baFindBitOneInQWord (q >>> s) = _
    rw [baFindBitOneInQWord_eq]
    congr 1
    refine firstInWord_shift hs (fun j _ => BitVec.getLsbD_ushiftRight ..) fun h j hj => ?_
    by_cases hin : s + j < 64
    · exact h j hin
    · rw [BitVec.getLsbD_ushiftRight, BitVec.getLsbD_of_ge _ _ (by omega)]
      exact Bool.false_ne_true

/-- The copied sign bit is the last bit of the word: when it is zero, a zero is
found before the copies. -/
theorem zeroFinder_searches : Searches zeroFinder false where
  skip q := by
    rw [firstInWord_eq_none (Nat.zero_le _)]
    have hones : ∀ j < 64, zeroFinder.skip.getLsbD j = true := fun j hj => by
      rw [zeroFinder, BitVec.getLsbD_allOnes, decide_eq_true hj]
    refine ⟨fun h j _ hj => by simp [h, hones j hj], fun h => ?_⟩
    refine BitVec.eq_of_getLsbD_eq fun j hj => ?_
    rw [hones j hj]
    exact (Bool.not_eq_false _).mp (h j (Nat.zero_le _) hj)
  findBit := baFindBitZeroInQWord_eq
  shift q s hs := by
    change baFindBitZeroInQWord (q.sshiftRight s) = _
    rw [baFindBitZeroInQWord_eq]
    congr 1
    have hbits : ∀ j < 64, (q.sshiftRight s).getLsbD j =
        if s + j < 64 then q.getLsbD (s + j) else q.getLsbD 63 := by
      intro j hj
      rw [BitVec.getLsbD_sshiftRight]
      simp [BitVec.msb_eq_getLsbD_last, hj]
    refine firstInWord_shift hs (fun j hj => ?_) fun h j hj => ?_
    · rw [hbits j (by omega), if_pos hj]
    · have hlast := h (63 - s) (by omega)
      rw [hbits _ (by omega), if_pos (by omega), Nat.add_sub_cancel' (by omega)] at hlast
      by_cases hin : s + j < 64
      · exact h j hin
      · rwa [hbits j hj, if_neg hin]

/-! ## Whole words -/

section
variable {n : ℕ} {m : Memory n} {v : Bool} {F : Finder}

theorem firstBit_word {w s : ℕ} {qword : BitVec 64} (h : loadWord m w = some qword) (hs : s ≤ 64) :
    firstBit m v (64 * w + s) (64 - s) = (firstInWord v qword s).map fun j => 64 * w + j := by
  have hbit : ∀ j < 64, qword.getLsbD j = bit m (64 * w + j) := by
    intro j hj
    rw [load_bit h hj, show 8 * (8 * w) = 64 * w by omega]
  cases hq : firstInWord v qword s with
  | none =>
      rw [firstInWord_eq_none hs] at hq
      rw [Option.map_none, firstBit_eq_none]
      intro q hlo hhi
      have := hq (q - 64 * w) (by omega) (by omega)
      rwa [hbit _ (by omega), Nat.add_sub_cancel' (by omega)] at this
  | some j =>
      rw [firstInWord_eq_some hs] at hq
      obtain ⟨hsj, hj, hv, hmin⟩ := hq
      rw [Option.map_some, firstBit_eq_some]
      refine ⟨by omega, by omega, hbit j hj ▸ hv, fun i hi hij => ?_⟩
      have := hmin (i - 64 * w) (by omega) (by omega)
      rwa [hbit _ (by omega), Nat.add_sub_cancel' (by omega)] at this

theorem loadWord_of_le {w : ℕ} (h : 8 * (w + 1) ≤ n) : ∃ qword, loadWord m w = some qword :=
  load_of_le (by omega)

theorem loadWord_none {w : ℕ} (h : n < 8 * (w + 1)) : loadWord m w = none := by
  rw [← Option.not_isSome_iff_eq_none, load_isSome]
  omega

/-- The word loop stops at the word of the first wanted bit. -/
theorem findWord_eq (hF : Searches F v) {w left i : ℕ} (hmem : 8 * (w + i + left) ≤ n) :
    findWord F m w left i = some (match firstBit m v (64 * (w + i)) (64 * left) with
      | some q => (q / 64 - w, ((q % 64 : ℕ) : ℤ))
      | none => (i + left, -1)) := by
  induction left generalizing i with
  | zero => rfl
  | succ left ih =>
      obtain ⟨qword, hq⟩ := loadWord_of_le (m := m) (show 8 * (w + i + 1) ≤ n by omega)
      have hsplit : firstBit m v (64 * (w + i)) (64 * (left + 1)) =
          ((firstInWord v qword 0).map fun j => 64 * (w + i) + j).or
            (firstBit m v (64 * (w + (i + 1))) (64 * left)) := by
        rw [show 64 * (left + 1) = 64 + 64 * left by omega, firstBit_append,
          ← firstBit_word hq (Nat.zero_le _)]
        rfl
      simp only [findWord, hq, Option.bind_eq_bind, Option.bind_some, Option.pure_def]
      split_ifs with hskip
      · rw [ih (by omega), hsplit, (hF.skip qword).mp hskip, Option.map_none, Option.none_or,
          show i + 1 + left = i + (left + 1) by omega]
      · obtain ⟨j, hj⟩ := Option.ne_none_iff_exists'.mp (mt (hF.skip qword).mpr hskip)
        have hlt : j < 64 := ((firstInWord_eq_some (Nat.zero_le _)).mp hj).2.1
        rw [hsplit, hj, Option.map_some, Option.some_or, hF.findBit, hj]
        simp only [answer, Option.some.injEq, Prod.mk.injEq]
        omega

theorem findAligned_eq (hF : Searches F v) {w len : ℕ}
    (hmem : 8 * (w + baGetSizeArrayIn8Byte len % 2 ^ 32) ≤ n) :
    findAligned F m w len (64 * w) =
      some (match firstBit m v (64 * w) (64 * (baGetSizeArrayIn8Byte len % 2 ^ 32)) with
      | some q => if q % 64 < len then
          ((64 * (q / 64 - w) % 2 ^ 32 : ℕ) : ℤ) + (64 * w : ℕ) + (q % 64 : ℕ) else -1
      | none => -1) := by
  unfold findAligned
  rw [findWord_eq hF (by simpa using hmem)]
  simp only [Nat.add_zero, Option.bind_eq_bind, Option.bind_some, Option.pure_def]
  cases firstBit m v (64 * w) (64 * (baGetSizeArrayIn8Byte len % 2 ^ 32)) with
  | none => simp
  | some q =>
      have hne : ((q % 64 : ℕ) : ℤ) ≠ -1 := by omega
      simp only [hne, ne_eq, not_false_eq_true, true_and, Int.ofNat_lt]

end

/-! ## When the search is the scan -/

/-- The word loop from the boundary `pos` on is right: the first wanted bit of
the range lies where the 32-bit counters reach, and without one the rest of
the last word holds none either, unless that word is the only one or is not
reached. -/
def WordsExact (arr : BinArray) (v : Bool) (pos len : ℕ) : Prop :=
  let words := baGetSizeArrayIn8Byte len
  (∀ q, firstBit arr.buf v pos len = some q →
    q < pos + 2 ^ 32 ∧ (q - pos) / 64 < words % 2 ^ 32) ∧
  (firstBit arr.buf v pos len = none → 64 < len → words < 2 ^ 32 →
    ∀ q, pos + len ≤ q → q < pos + 64 * words → arr.bit q ≠ v)

/-- Some bit of the range up to the first word boundary is wanted, or the words
behind that boundary are searched correctly. -/
def WindowExact (arr : BinArray) (v : Bool) (begin len : ℕ) : Prop :=
  let s := 64 * ((begin + 63) / 64)
  (∃ q, begin ≤ q ∧ q < begin + len ∧ q < s ∧ arr.bit q = v) ∨
    WordsExact arr v s (begin + len - s)

theorem findAligned_eq_answer_iff (arr : BinArray) {v : Bool} {F : Finder} (hF : Searches F v)
    (w len : ℕ) (hin : 64 * w + len ≤ arr.numBits) :
    findAligned F arr.buf w len (64 * w) = some (answer (firstBit arr.buf v (64 * w) len)) ↔
      WordsExact arr v (64 * w) len := by
  have hwords := baGetSizeArrayIn8Byte_bounds len
  have hsize := baGetSizeArrayIn8Byte_bounds arr.numBits
  rw [findAligned_eq hF (by omega), Option.some.injEq]
  unfold WordsExact
  dsimp only
  generalize baGetSizeArrayIn8Byte len = words at hwords ⊢
  have hmod : words % 2 ^ 32 ≤ words := Nat.mod_le _ _
  cases hg : firstBit arr.buf v (64 * w) len with
  | none =>
      have hnone := firstBit_eq_none.mp hg
      cases hf : firstBit arr.buf v (64 * w) (64 * (words % 2 ^ 32)) with
      | none =>
          refine iff_of_true rfl ⟨nofun, fun _ _ hlt q _ hq => ?_⟩
          rw [Nat.mod_eq_of_lt hlt] at hf
          exact firstBit_eq_none.mp hf q (by omega) hq
      | some q =>
          obtain ⟨hlo, hhi, hv, -⟩ := firstBit_eq_some.mp hf
          have hbehind : 64 * w + len ≤ q := Nat.le_of_not_lt fun h => hnone q hlo h hv
          dsimp only
          by_cases hlen : 64 < len
          · have hmask : q % 64 < len := by omega
            rw [if_pos hmask]
            refine iff_of_false (by simp only [answer]; omega) fun h => ?_
            exact h.2 rfl hlen (by omega) q hbehind (by omega) hv
          · have hmask : ¬ q % 64 < len := by omega
            rw [if_neg hmask]
            exact iff_of_true rfl ⟨nofun, fun _ h => absurd h hlen⟩
  | some g =>
      obtain ⟨hlo, hhi, hv, hmin⟩ := firstBit_eq_some.mp hg
      simp only [Option.some.injEq, forall_eq', reduceCtorEq, false_implies, and_true]
      by_cases hr : (g - 64 * w) / 64 < words % 2 ^ 32
      · have hf := firstBit_of_lt (k := 64 * (words % 2 ^ 32)) hg (by omega)
        have hmask : g % 64 < len := by omega
        simp only [hf, if_pos hmask, answer, hr, and_true]
        have hword : 64 * (g / 64 - w) + 64 * w + g % 64 = g := by omega
        norm_cast
        omega
      · have hf : firstBit arr.buf v (64 * w) (64 * (words % 2 ^ 32)) = none :=
          firstBit_eq_none.mpr fun q hq hlt => hmin q hq (by omega)
        simp only [hf, answer, hr, and_false, iff_false]
        omega

theorem wordsExact_zero (arr : BinArray) (v : Bool) (pos : ℕ) : WordsExact arr v pos 0 := by
  refine ⟨fun q hq => ?_, fun _ h => absurd h (by decide)⟩
  have := firstBit_eq_some.mp hq
  omega

/-- A window inside one word is searched correctly. -/
theorem findRange_short {arr : BinArray} {v : Bool} {F : Finder} (hF : Searches F v)
    {begin len : ℕ} (hin : begin + len ≤ arr.numBits) (hr : begin % 64 ≠ 0)
    (hlen : begin % 64 + len ≤ 64) :
    findRange F arr.buf begin len = some (answer (firstBit arr.buf v begin len)) := by
  have hsize := baGetSizeArrayIn8Byte_bounds arr.numBits
  obtain ⟨qword, hq⟩ := loadWord_of_le (m := arr.buf) (w := begin / 64) (by omega)
  have hword := firstBit_word (v := v) (s := begin % 64) hq (by omega)
  rw [Nat.div_add_mod] at hword
  simp only [findRange, hr, ne_eq, not_false_eq_true, if_true, hq, Option.bind_eq_bind,
    Option.bind_some, hF.shift _ _ (Nat.mod_lt begin (by decide : 64 > 0)), hlen, Option.pure_def]
  cases hj : firstInWord v qword (begin % 64) with
  | none =>
      rw [hj, Option.map_none, firstBit_eq_none] at hword
      rw [firstBit_eq_none.mpr fun q hlo hhi => hword q hlo (by omega)]
      simp [answer]
  | some j =>
      rw [hj, Option.map_some] at hword
      have hsj := ((firstInWord_eq_some (by omega)).mp hj).1
      obtain ⟨hlo, -, -, hmin⟩ := firstBit_eq_some.mp hword
      rw [Option.map_some, answer_some, Option.some.injEq]
      by_cases hjl : 64 * (begin / 64) + j < begin + len
      · rw [firstBit_of_lt hword hjl, if_pos (by omega), answer_some]
        omega
      · rw [firstBit_eq_none.mpr fun q hq hlt => hmin q hq (by omega), if_neg (by omega),
          answer_none]

theorem findRange_eq_answer_iff {arr : BinArray} {v : Bool} {F : Finder} (hF : Searches F v)
    {begin len : ℕ} (hin : begin + len ≤ arr.numBits) :
    findRange F arr.buf begin len = some (answer (firstBit arr.buf v begin len)) ↔
      WindowExact arr v begin len := by
  unfold WindowExact
  dsimp only
  by_cases hr : begin % 64 = 0
  · have hw : 64 * (begin / 64) = begin := by omega
    have hiff := findAligned_eq_answer_iff arr hF (begin / 64) len (by omega)
    rw [hw] at hiff
    rw [show 64 * ((begin + 63) / 64) = begin by omega, Nat.add_sub_cancel_left, findRange,
      if_neg (by simpa using hr), hiff]
    exact ⟨Or.inr, fun h => h.resolve_left fun ⟨q, h₁, _, h₂, _⟩ => by omega⟩
  · have hs : 64 * ((begin + 63) / 64) = 64 * (begin / 64 + 1) := by omega
    by_cases hlen : begin % 64 + len ≤ 64
    · rw [show begin + len - 64 * ((begin + 63) / 64) = 0 by omega]
      exact iff_of_true (findRange_short hF hin hr hlen) (Or.inr (wordsExact_zero ..))
    · have hsize := baGetSizeArrayIn8Byte_bounds arr.numBits
      obtain ⟨qword, hq⟩ := loadWord_of_le (m := arr.buf) (w := begin / 64) (by omega)
      have hword := firstBit_word (v := v) (s := begin % 64) hq (by omega)
      rw [Nat.div_add_mod] at hword
      have hsplit := firstBit_append arr.buf v begin (64 - begin % 64)
        (len - (64 - begin % 64))
      rw [Nat.add_sub_cancel' (by omega), hword] at hsplit
      simp only [findRange, hr, ne_eq, not_false_eq_true, if_true, hq, Option.bind_eq_bind,
        Option.bind_some, hF.shift _ _ (Nat.mod_lt begin (by decide : 64 > 0)), hlen, if_false,
        Option.pure_def, hsplit]
      cases hj : firstInWord v qword (begin % 64) with
      | some j =>
          rw [hj, Option.map_some] at hword
          obtain ⟨hlo, hhi, hv, -⟩ := firstBit_eq_some.mp hword
          have hsj := ((firstInWord_eq_some (by omega)).mp hj).1
          rw [Option.map_some, Option.map_some, Option.some_or, answer_some, answer_some,
            if_pos (by omega), Option.some.injEq]
          exact iff_of_true (by omega) (Or.inl ⟨_, hlo, by omega, by omega, hv⟩)
      | none =>
          rw [hj, Option.map_none, firstBit_eq_none] at hword
          rw [Option.map_none, Option.map_none, Option.none_or, answer_none, if_neg (by simp)]
          have hiff := findAligned_eq_answer_iff arr hF (begin / 64 + 1)
            (len - (64 - begin % 64)) (by omega)
          rw [show 64 * (begin / 64 + 1) = begin + (64 - begin % 64) by omega] at hiff
          rw [hiff, hs, show 64 * (begin / 64 + 1) = begin + (64 - begin % 64) by omega,
            show begin + len - (begin + (64 - begin % 64)) = len - (64 - begin % 64) by omega]
          exact ⟨Or.inr, fun h => h.resolve_left fun ⟨q, h₁, _, h₂, hv⟩ => hword q h₁ h₂ hv⟩

theorem baFindWith_eq {arr : BinArray} {begin n : ℕ} {len : ℤ}
    (h : baCheckCalcArg (some arr) begin len = some n) (F : Finder) :
    baFindWith F (some arr) begin len = findRange F arr.buf begin n := by
  simp only [baFindWith, h]

/-- On an accepted range inside the array each search is the scan by
`baGetValue` exactly when its window is exact. -/
theorem baFind_scan_iff {arr : BinArray} {begin n : ℕ} {len : ℤ}
    (h : baCheckCalcArg (some arr) begin len = some n) (hin : begin + n ≤ arr.numBits) :
    (baFindOne (some arr) begin len = some (linearScan arr true begin n) ↔
      WindowExact arr true begin n) ∧
    (baFindZero (some arr) begin len = some (linearScan arr false begin n) ↔
      WindowExact arr false begin n) := by
  rw [baFindOne, baFindZero, baFindWith_eq h, baFindWith_eq h, linearScan_eq arr true hin,
    linearScan_eq arr false hin]
  exact ⟨findRange_eq_answer_iff oneFinder_searches hin,
    findRange_eq_answer_iff zeroFinder_searches hin⟩

/-- 128 bits with bit 100 set, as one `baSetOne` after `baCreate` leaves them. -/
def bitHundred : BinArray where
  numBits := 128
  buf i := if i.val = 12 then 0x10 else 0
  numBits_pos := by decide
  numBits_lt := by decide

theorem baFind_scan_bitHundred :
    (baFindOne (some bitHundred) 3 (-1) = some (linearScan bitHundred true 3 125) ↔
      WindowExact bitHundred true 3 125) ∧
    (baFindZero (some bitHundred) 3 (-1) = some (linearScan bitHundred false 3 125) ↔
      WindowExact bitHundred false 3 125) :=
  baFind_scan_iff (n := 125) rfl (by decide)

/-- The first 65 bits are zero, yet the search returns index 100. -/
theorem baFindOne_behind_range :
    baCheckCalcArg (some bitHundred) 0 65 = some 65 ∧
      baFindOne (some bitHundred) 0 65 = some 100 ∧ linearScan bitHundred true 0 65 = -1 :=
  ⟨rfl, by decide +kernel, by decide +kernel⟩

end TaskLunev.BinArrayFind
