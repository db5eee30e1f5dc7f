import TaskLunev.BinArrayModel

/-!
# Filling a range of bits

A fill masks the first word, writes the whole words between and masks the last
one. For a range that is not empty and lies inside the buffer the masks have
exactly the bits of the range, so together the three parts set the range and
nothing else.
-/
namespace TaskLunev.BinArrayFill
open ByteMemory BinArrayModel

/-- How a fill with `val` puts a mask into a word. -/
def Puts (put : BitVec 64 → BitVec 64 → BitVec 64) (val : Bool) : Prop :=
  ∀ (q mask : BitVec 64), ∀ j < 64,
    (put q mask).getLsbD j = if mask.getLsbD j then val else q.getLsbD j

theorem puts_one : Puts (fun q mask => q ||| mask) true := fun q mask j _ => by
  rw [BitVec.getLsbD_or]
  cases mask.getLsbD j <;> simp

theorem puts_zero : Puts (fun q mask => q &&& ~~~mask) false := fun q mask j hj => by
  rw [BitVec.getLsbD_and, BitVec.getLsbD_not, decide_eq_true hj]
  cases mask.getLsbD j <;> simp

/-! ## Masks -/

theorem toUInt8_eq {len : ℕ} (hlen : len ≤ 64) : toUInt8 len = len := by
  unfold toUInt8
  omega

theorem baGetMaskLastQWord_bit {len j : ℕ} (hpos : 0 < len) (hlen : len ≤ 64) :
    (baGetMaskLastQWord len).getLsbD j = decide (j < len) := by
  have hshift : ((64 - toUInt8 len : ℤ) % 64).toNat = 64 - len := by
    rw [toUInt8_eq hlen]
    omega
  rw [baGetMaskLastQWord, hshift, BitVec.getLsbD_ushiftRight, BitVec.getLsbD_allOnes]
  by_cases hjl : j < len
  · rw [decide_eq_true hjl, decide_eq_true (by omega)]
  · rw [decide_eq_false hjl, decide_eq_false (by omega)]

theorem baGetMaskFirtsQWord_bit {rshift len j : ℕ} (hpos : 0 < len) (hlen : rshift + len ≤ 64)
    (hj : j < 64) :
    (baGetMaskFirtsQWord rshift len).getLsbD j = decide (rshift ≤ j ∧ j < rshift + len) := by
  rw [baGetMaskFirtsQWord, BitVec.getLsbD_shiftLeft, decide_eq_true hj, Bool.true_and]
  by_cases hlo : rshift ≤ j
  · rw [decide_eq_false (by omega), Bool.not_false, Bool.true_and,
      baGetMaskLastQWord_bit hpos (by omega)]
    exact decide_eq_decide.mpr (by omega)
  · rw [decide_eq_true (by omega), Bool.not_true, Bool.false_and, decide_eq_false (by omega)]

/-! ## Words -/

section
variable {n : ℕ} {m : Memory n}

/-- A word rewritten in place: its own bits are those of the new word. -/
theorem updateWord_spec {w : ℕ} (hw : 8 * w + 8 ≤ n) (update : BitVec 64 → BitVec 64) :
    ∃ q m', updateWord m w update = some m' ∧ (∀ j < 64, q.getLsbD j = bit m (64 * w + j)) ∧
      ∀ i, bit m' i = if 64 * w ≤ i ∧ i < 64 * w + 64 then (update q).getLsbD (i - 64 * w)
        else bit m i := by
  obtain ⟨q, hq⟩ : ∃ q, loadWord m w = some q := load_of_le hw
  obtain ⟨m', hstore⟩ : ∃ m', storeWord m w (update q) = some m' := store_of_le m hw _
  refine ⟨q, m', ?_, fun j hj => ?_, fun i => ?_⟩
  · exact Option.bind_eq_some_iff.mpr ⟨q, hq, hstore⟩
  · rw [load_bit hq hj]
    congr 1
    omega
  · rw [bit_store hstore]
    have hin : (8 * (8 * w) ≤ i ∧ i < 8 * (8 * w + 8)) ↔ (64 * w ≤ i ∧ i < 64 * w + 64) := by omega
    have hoff : i - 8 * (8 * w) = i - 64 * w := by omega
    simp only [hin, hoff]

variable {put : BitVec 64 → BitVec 64 → BitVec 64} {val : Bool}

/-- A mask put into a word sets the bits it has. -/
theorem putWord_spec (hput : Puts put val) {w lo hi : ℕ} (hw : 8 * w + 8 ≤ n) (hhi : hi ≤ 64)
    {mask : BitVec 64} (hmask : ∀ j < 64, mask.getLsbD j = decide (lo ≤ j ∧ j < hi)) :
    ∃ m', updateWord m w (fun q => put q mask) = some m' ∧
      ∀ i, bit m' i = if 64 * w + lo ≤ i ∧ i < 64 * w + hi then val else bit m i := by
  obtain ⟨q, m', hm', hq, hbits⟩ := updateWord_spec (m := m) hw fun q => put q mask
  refine ⟨m', hm', fun i => ?_⟩
  rw [hbits]
  by_cases hin : 64 * w ≤ i ∧ i < 64 * w + 64
  · rw [if_pos hin, hput _ _ _ (by omega), hmask _ (by omega), hq _ (by omega),
      Nat.add_sub_cancel' hin.1]
    simp only [decide_eq_true_eq]
    congr 1
    exact propext (by omega)
  · rw [if_neg hin, if_neg (by omega)]

/-! ## Ranges -/

/-- The words of what is left behind the first one: `k` whole ones and the last. -/
theorem exists_wholeWords {rest : ℕ} (hpos : 0 < rest) :
    ∃ k, baGetSizeArrayIn8Byte rest = k + 1 ∧ 64 * k < rest ∧ rest ≤ 64 * k + 64 := by
  have hwhole := baGetSizeArrayIn8Byte_bounds rest
  obtain ⟨k, hk⟩ : ∃ k, baGetSizeArrayIn8Byte rest = k + 1 :=
    Nat.exists_eq_succ_of_ne_zero (by omega)
  rw [hk] at hwhole
  exact ⟨k, hk, by omega, by omega⟩

/-- The mask of a first word that the range does not end in. -/
theorem firstMask_bit {r : ℕ} (hr : r < 64) : ∀ j < 64,
    (baGetMaskFirtsQWord r (64 - r : ℕ)).getLsbD j = decide (r ≤ j ∧ j < 64) := by
  intro j hj
  rw [baGetMaskFirtsQWord_bit (by omega) (by omega) hj]
  exact decide_eq_decide.mpr (by omega)

theorem lastMask_bit {rest k : ℕ} (hlo : 64 * k < rest) (hhi : rest ≤ 64 * k + 64) : ∀ j < 64,
    (baGetMaskLastQWord (rest - 64 * k : ℕ)).getLsbD j = decide (0 ≤ j ∧ j < rest - 64 * k) := by
  intro j _
  rw [baGetMaskLastQWord_bit (by omega) (by omega)]
  exact decide_eq_decide.mpr (by omega)

theorem fillRange_spec (hput : Puts put val) {byte : Byte}
    (hbyte : ∀ j < 8, byte.getLsbD j = val) {begin len : ℕ} (hpos : 0 < len)
    {words : ℕ} (hwords : n = 8 * words) (hlen : begin + len ≤ 64 * words) :
    ∃ m', fillRange put byte m begin len = some m' ∧
      ∀ i, bit m' i = if begin ≤ i ∧ i < begin + len then val else bit m i := by
  have hdiv := Nat.div_add_mod begin 64
  have hmod := Nat.mod_lt begin (show 0 < 64 by decide)
  unfold fillRange
  by_cases hshort : begin % 64 + len ≤ 64
  · simp only [if_pos hshort]
    obtain ⟨m', hm', hbits⟩ := putWord_spec (m := m) hput (w := begin / 64) (by omega) hshort
      fun j hj => baGetMaskFirtsQWord_bit hpos hshort hj
    refine ⟨m', hm', fun i => ?_⟩
    rw [hbits]
    congr 1
    exact propext (by omega)
  · -- the rest of the first word, whole words, and what is left in the last one
    obtain ⟨w, hw⟩ : ∃ w, w = begin / 64 := ⟨_, rfl⟩
    obtain ⟨r, hr⟩ : ∃ r, r = begin % 64 := ⟨_, rfl⟩
    obtain ⟨rest, hrest⟩ : ∃ rest, rest = len - (64 - r) := ⟨_, rfl⟩
    obtain ⟨k, hk, hlo, hhi⟩ := exists_wholeWords (show 0 < rest by omega)
    rw [← hr] at hshort
    simp only [← hw, ← hr, if_neg hshort, ← hrest, hk, Nat.add_sub_cancel]
    have hlast : ∀ j < 64, (baGetMaskLastQWord (rest - 64 * k)).getLsbD j =
        decide (0 ≤ j ∧ j < rest - 64 * k) := by
      rw [show (rest : ℤ) - 64 * k = (rest - 64 * k : ℕ) by omega]
      exact lastMask_bit hlo hhi
    obtain ⟨m₁, hm₁, hbits₁⟩ :=
      putWord_spec (m := m) hput (w := w) (by omega) le_rfl (firstMask_bit (r := r) (by omega))
    obtain ⟨m₂, hm₂⟩ : ∃ m₂, fill m₁ (8 * (w + 1)) (8 * k) byte = some m₂ :=
      ⟨_, if_pos (by omega)⟩
    have hbits₂ := bit_fill hm₂ (by omega)
    obtain ⟨m₃, hm₃, hbits₃⟩ :=
      putWord_spec (m := m₂) hput (w := w + 1 + k) (by omega) (by omega) hlast
    refine ⟨m₃, ?_, fun i => ?_⟩
    · simp only [hm₁, hm₂, hm₃, Option.bind_eq_bind, Option.bind_some]
    · rw [hbits₃, hbits₂, hbits₁, hbyte _ (Nat.mod_lt i (by decide))]
      split_ifs <;> first | rfl | omega

end

end TaskLunev.BinArrayFill
