import TaskLunev.BinArrayFind

/-!
# The search for a zero in the complement

`baFindZero` is a hand-made copy of `baFindOne`. Its word operations on a word
are those of the other search on the complement: the shift copies the sign bit
where the other one brings in zeros, and a word of ones is the complement of
zero. So the two searches agree on complemented arrays step by step.
-/
namespace TaskLunev.BinArrayComplement
open ByteMemory BinArrayModel BinArrayFind

/-! ## Words -/

theorem firstInWord_not (v : Bool) (q : BitVec 64) (s : ℕ) :
    firstInWord v (~~~q) s = firstInWord (!v) q s := by
  unfold firstInWord
  apply List.find?_congr
  intro j hj
  by_cases hlt : j < 64
  · rw [BitVec.getLsbD_not, decide_eq_true hlt, Bool.true_and]
    cases q.getLsbD j <;> cases v <;> rfl
  · have := List.mem_range'_1.mp hj
    omega

/-- What `F` does with a word, `G` does with its complement. -/
structure Mirrors (F G : Finder) : Prop where
  skip : ∀ q, q = F.skip ↔ ~~~q = G.skip
  findBit : ∀ q, F.findBit q = G.findBit (~~~q)
  shift : ∀ q s, s < 64 → F.findBit (F.shift q s) = G.findBit (G.shift (~~~q) s)

/-- Searches for the two bit values mirror one another. -/
theorem searches_mirror {F G : Finder} {v : Bool} (hF : Searches F (!v)) (hG : Searches G v) :
    Mirrors F G where
  skip q := by rw [hF.skip, hG.skip, firstInWord_not]
  findBit q := by rw [hF.findBit, hG.findBit, firstInWord_not]
  shift q s hs := by rw [hF.shift q s hs, hG.shift _ s hs, firstInWord_not]

/-! ## Buffers -/

section
variable {n : ℕ} {m m' : Memory n} {F G : Finder}

/-- The words of `m'` are the complements of those of `m`. -/
def WordsComplement (m m' : Memory n) : Prop :=
  ∀ w, loadWord m' w = (loadWord m w).map fun q => ~~~q

theorem findWord_mirror (hFG : Mirrors F G) (h : WordsComplement m m') (w left i : ℕ) :
    findWord F m w left i = findWord G m' w left i := by
  induction left generalizing i with
  | zero => rfl
  | succ left ih =>
      unfold findWord
      rw [h (w + i)]
      cases loadWord m (w + i) with
      | none => rfl
      | some qword =>
          simp only [Option.map_some, Option.bind_eq_bind, Option.bind_some, hFG.skip qword,
            hFG.findBit qword, ih]

theorem findAligned_mirror (hFG : Mirrors F G) (h : WordsComplement m m') (w len pos : ℕ) :
    findAligned F m w len pos = findAligned G m' w len pos := by
  unfold findAligned
  rw [findWord_mirror hFG h]

theorem findRange_mirror (hFG : Mirrors F G) (h : WordsComplement m m') (begin len : ℕ) :
    findRange F m begin len = findRange G m' begin len := by
  simp only [findRange, h (begin / 64), findAligned_mirror hFG h]
  cases loadWord m (begin / 64) with
  | none => rfl
  | some qword =>
      simp only [Option.map_some, Option.bind_eq_bind, Option.bind_some,
        hFG.shift qword _ (Nat.mod_lt begin (by decide : 64 > 0))]

end

/-! ## Arrays -/

/-- `arr'` has the size of `arr`, and its words are the complements. -/
def Complement (arr arr' : BinArray) : Prop :=
  arr'.numBits = arr.numBits ∧
    ∀ w < baGetSizeArrayIn8Byte arr.numBits,
      loadWord arr'.buf w = (loadWord arr.buf w).map fun q => ~~~q

theorem baFindWith_mirror {F G : Finder} (hFG : Mirrors F G) {arr arr' : BinArray}
    (h : Complement arr arr') (begin : ℕ) (len : ℤ) :
    baFindWith F (some arr) begin len = baFindWith G (some arr') begin len := by
  obtain ⟨numBits, buf, hpos, hlt⟩ := arr
  obtain ⟨numBits', buf', hpos', hlt'⟩ := arr'
  obtain ⟨hnum, hwords⟩ := h
  cases hnum
  have hall : WordsComplement buf buf' := by
    intro w
    by_cases hw : w < baGetSizeArrayIn8Byte numBits
    · exact hwords w hw
    · rw [loadWord_none (by omega), loadWord_none (by omega), Option.map_none]
  have hcheck : baCheckCalcArg (some ⟨numBits, buf, hpos, hlt⟩) begin len =
      baCheckCalcArg (some ⟨numBits, buf', hpos', hlt'⟩) begin len := rfl
  unfold baFindWith
  rw [hcheck]
  cases baCheckCalcArg (some ⟨numBits, buf', hpos', hlt'⟩) begin len with
  | none => rfl
  | some count => exact findRange_mirror hFG hall begin count

/-- `baFindZero` is `baFindOne` on the complement, for every range, also in what
it refuses and in what it finds behind the range. -/
theorem baFindZero_complement {arr arr' : BinArray} (h : Complement arr arr') (begin : ℕ)
    (len : ℤ) : baFindZero (some arr) begin len = baFindOne (some arr') begin len :=
  baFindWith_mirror (searches_mirror zeroFinder_searches oneFinder_searches) h begin len

/-- The array with every byte complemented. -/
def complement (arr : BinArray) : BinArray := { arr with buf := fun i => ~~~arr.buf i }

theorem loadWord_complement {n : ℕ} (m : Memory n) (w : ℕ) :
    loadWord (fun i => ~~~m i) w = (loadWord m w).map fun q => ~~~q := by
  by_cases hw : 8 * w + 8 ≤ n
  · obtain ⟨q, hq⟩ := loadWord_of_le (m := m) (w := w) (by omega)
    obtain ⟨q', hq'⟩ := loadWord_of_le (m := fun i => ~~~m i) (w := w) (by omega)
    rw [hq, hq', Option.map_some, Option.some.injEq]
    apply BitVec.eq_of_getLsbD_eq
    intro j hj
    have hbyte : (8 * (8 * w) + j) / 8 < n := by omega
    have hbit : (8 * (8 * w) + j) % 8 < 8 := Nat.mod_lt _ (by decide)
    rw [load_bit hq' hj, BitVec.getLsbD_not, load_bit hq hj, decide_eq_true hj, Bool.true_and]
    simp only [bit, hbyte, dite_true, BitVec.getLsbD_not, hbit, decide_true, Bool.true_and]
  · rw [loadWord_none (by omega), loadWord_none (by omega), Option.map_none]

theorem complement_complement (arr : BinArray) : Complement arr (complement arr) :=
  ⟨rfl, fun w _ => loadWord_complement arr.buf w⟩

/-- A window of `bitHundred` that holds a zero, and its complement. -/
theorem baFindZero_complement_hundred :
    baFindZero (some bitHundred) 3 (-1) = baFindOne (some (complement bitHundred)) 3 (-1) :=
  baFindZero_complement (complement_complement bitHundred) 3 (-1)

end TaskLunev.BinArrayComplement
