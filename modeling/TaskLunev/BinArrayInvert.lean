import TaskLunev.BinArrayFill
import TaskLunev.BinArrayRange
import Mathlib.Algebra.Group.Even
import Mathlib.Algebra.Ring.Parity
import Mathlib.Tactic.Linarith

/-!
# Inverting a range of bits

The words between the first and the last one are inverted whole. The first and
the last one are replaced by what the mask leaves of their inverse, so their
bits beside the range become zero. The length that the word loop computes for
the last mask is wrong by a multiple of 128 and gives the right mask after all.
The assignment `*buf++ = ~*buf` is taken as compilers take it, with both sides
at the old position.
-/
namespace TaskLunev.BinArrayInvert
open ByteMemory BinArrayModel BinArrayFill BinArrayRange

/-- Bit `i` lies in the first or in the last word of the range. -/
def InEdge (begin count i : ℕ) : Prop := i / 64 = begin / 64 ∨ i / 64 = (begin + count - 1) / 64

instance (begin count i : ℕ) : Decidable (InEdge begin count i) :=
  inferInstanceAs (Decidable (_ ∨ _))

/-! ## Words -/

section
variable {n : ℕ} {m : Memory n}

/-- A word under a mask: the bits of the mask are inverted, the others cleared. -/
theorem invertMasked_spec {w lo hi : ℕ} (hw : 8 * w + 8 ≤ n) {mask : BitVec 64}
    (hmask : ∀ j < 64, mask.getLsbD j = decide (lo ≤ j ∧ j < hi)) :
    ∃ m', updateWord m w (fun q => ~~~(q &&& mask) &&& mask) = some m' ∧
      ∀ i, bit m' i = if i / 64 = w then
        (if 64 * w + lo ≤ i ∧ i < 64 * w + hi then !bit m i else false) else bit m i := by
  obtain ⟨q, m', hm', hq, hbits⟩ :=
    updateWord_spec (m := m) hw fun q => ~~~(q &&& mask) &&& mask
  refine ⟨m', hm', fun i => ?_⟩
  rw [hbits]
  by_cases hin : i / 64 = w
  · have hj : i - 64 * w < 64 := by omega
    have hbit : q.getLsbD (i - 64 * w) = bit m i := by
      rw [hq _ hj, Nat.add_sub_cancel' (by omega)]
    rw [if_pos (by omega), if_pos hin, BitVec.getLsbD_and, BitVec.getLsbD_not, BitVec.getLsbD_and,
      hmask _ hj, hbit, decide_eq_true hj]
    by_cases hrange : 64 * w + lo ≤ i ∧ i < 64 * w + hi
    · rw [if_pos hrange, decide_eq_true (by omega)]
      simp
    · rw [if_neg hrange, decide_eq_false (by omega)]
      simp
  · rw [if_neg (by omega), if_neg hin]

theorem invertWords_spec (k : ℕ) {w : ℕ} (hw : 8 * (w + k) ≤ n) :
    ∃ m', invertWords m w k = some m' ∧
      ∀ i, bit m' i = if w ≤ i / 64 ∧ i / 64 < w + k then !bit m i else bit m i := by
  induction k generalizing m w with
  | zero => exact ⟨m, rfl, fun i => by rw [if_neg (by omega)]⟩
  | succ k ih =>
      obtain ⟨q, mid, hmid, hq, hbits⟩ := updateWord_spec (m := m) (w := w) (by omega) fun q => ~~~q
      obtain ⟨m', hm', hrest⟩ := ih (m := mid) (w := w + 1) (by omega)
      refine ⟨m', ?_, fun i => ?_⟩
      · simp only [invertWords, hmid, Option.bind_eq_bind, Option.bind_some, hm']
      · rw [hrest, hbits]
        by_cases hin : i / 64 = w
        · have hj : i - 64 * w < 64 := by omega
          rw [if_neg (by omega), if_pos (by omega), if_pos (by omega), BitVec.getLsbD_not,
            decide_eq_true hj, hq _ hj, Nat.add_sub_cancel' (by omega), Bool.true_and]
        · have hedge : ¬ (64 * w ≤ i ∧ i < 64 * w + 64) := by omega
          simp only [if_neg hedge]
          congr 1
          exact propext (by omega)

/-! ## Ranges -/

/-- What the word loop takes from the length does not change the mask. -/
theorem lastMask_eq {rest k : ℕ} (hlo : 64 * k < rest) (hhi : rest ≤ 64 * k + 64) :
    baGetMaskLastQWord ((rest : ℤ) - 64 * k * k) = baGetMaskLastQWord (rest - 64 * k : ℕ) := by
  obtain ⟨t, ht⟩ : Even (k * (k - 1)) := Nat.even_mul_pred_self k
  have hprod : (64 : ℤ) * k * k = 64 * k + 128 * t := by
    cases k with
    | zero =>
        have : t = 0 := by simpa using ht.symm
        simp [this]
    | succ k =>
        have hcast : ((k : ℤ) + 1) * k = t + t := by exact_mod_cast ht
        push_cast
        linarith
  obtain ⟨l, hl⟩ : ∃ l, l = rest - 64 * k := ⟨_, rfl⟩
  have hlen : (rest : ℤ) - 64 * k * k = l - 128 * t := by
    rw [hprod]
    omega
  rw [hlen, ← hl, baGetMaskLastQWord, baGetMaskLastQWord]
  congr 2
  unfold toUInt8
  omega

theorem invertRange_spec {begin len words : ℕ} (hpos : 0 < len) (hwords : n = 8 * words)
    (hlen : begin + len ≤ 64 * words) :
    ∃ m', invertRange m begin len = some m' ∧
      ∀ i, bit m' i = if begin ≤ i ∧ i < begin + len then !bit m i
        else if InEdge begin len i then false else bit m i := by
  have hdiv := Nat.div_add_mod begin 64
  have hmod := Nat.mod_lt begin (show 0 < 64 by decide)
  obtain ⟨w, hw⟩ : ∃ w, w = begin / 64 := ⟨_, rfl⟩
  obtain ⟨r, hr⟩ : ∃ r, r = begin % 64 := ⟨_, rfl⟩
  unfold invertRange
  simp only [InEdge, ← hw, ← hr]
  by_cases hshort : r + len ≤ 64
  · simp only [if_pos hshort]
    obtain ⟨m', hm', hbits⟩ := invertMasked_spec (m := m) (w := w) (by omega)
      fun j hj => baGetMaskFirtsQWord_bit hpos hshort hj
    refine ⟨m', hm', fun i => ?_⟩
    rw [hbits]
    split_ifs <;> first | rfl | omega
  · -- the masks of the first and of the last word, and the words between
    obtain ⟨rest, hrest⟩ : ∃ rest, rest = len - (64 - r) := ⟨_, rfl⟩
    obtain ⟨k, hk, hlo, hhi⟩ := exists_wholeWords (show 0 < rest by omega)
    have hlast : ∀ j < 64, (baGetMaskLastQWord ((rest : ℤ) - 64 * k * k)).getLsbD j =
        decide (0 ≤ j ∧ j < rest - 64 * k) := by
      rw [lastMask_eq hlo hhi]
      exact lastMask_bit hlo hhi
    obtain ⟨m₁, hm₁, hbits₁⟩ :=
      invertMasked_spec (m := m) (w := w) (by omega) (firstMask_bit (r := r) (by omega))
    obtain ⟨m₂, hm₂, hbits₂⟩ := invertWords_spec (m := m₁) k (w := w + 1) (by omega)
    obtain ⟨m₃, hm₃, hbits₃⟩ := invertMasked_spec (m := m₂) (w := w + 1 + k) (by omega) hlast
    refine ⟨m₃, ?_, fun i => ?_⟩
    · simp only [if_neg hshort, ← hrest, hk, Nat.add_sub_cancel, hm₁, hm₂, hm₃,
        Option.bind_eq_bind, Option.bind_some]
    · have hend : (begin + len - 1) / 64 = w + 1 + k := by omega
      rw [hbits₃, hbits₂, hbits₁, hend]
      by_cases hin : begin ≤ i ∧ i < begin + len
      · rw [if_pos hin]
        by_cases hlastWord : i / 64 = w + 1 + k
        · rw [if_pos hlastWord, if_pos (by omega), if_neg (by omega), if_neg (by omega)]
        · rw [if_neg hlastWord]
          by_cases hfirstWord : i / 64 = w
          · rw [if_neg (by omega), if_pos hfirstWord, if_pos (by omega)]
          · rw [if_pos (by omega), if_neg hfirstWord]
      · -- beside the range no bit lies in a word between
        have hbetween : ¬ (w + 1 ≤ i / 64 ∧ i / 64 < w + 1 + k) := by omega
        rw [if_neg hin, if_neg hbetween]
        by_cases hlastWord : i / 64 = w + 1 + k
        · rw [if_pos hlastWord, if_neg (by omega), if_pos (.inr hlastWord)]
        · rw [if_neg hlastWord]
          by_cases hfirstWord : i / 64 = w
          · rw [if_pos hfirstWord, if_neg (by omega), if_pos (.inl hfirstWord)]
          · rw [if_neg hfirstWord, if_neg (not_or.mpr ⟨hfirstWord, hlastWord⟩)]

end

/-! ## Arrays -/

/-- The call returns 0, inverts the range and leaves the other bits of the
array, and a second call brings every bit back. -/
def Inverts (arr : BinArray) (begin : ℕ) (len : ℤ) (count : ℕ) : Prop :=
  ∃ arr', baInvert (some arr) begin len = some ⟨0, none, some arr'⟩ ∧
    arr'.numBits = arr.numBits ∧
    (∀ i < arr.numBits, arr'.bit i =
      if begin ≤ i ∧ i < begin + count then !arr.bit i else arr.bit i) ∧
    ∃ arr'', baInvert (some arr') begin len = some ⟨0, none, some arr''⟩ ∧
      arr''.numBits = arr.numBits ∧ ∀ i < arr.numBits, arr''.bit i = arr.bit i

/-- The array has only zeros beside the range in its first and last word. -/
def ZeroBeside (arr : BinArray) (begin count : ℕ) : Prop :=
  ∀ i < arr.numBits, InEdge begin count i → ¬ (begin ≤ i ∧ i < begin + count) → arr.bit i = false

section
variable {arr : BinArray} {begin count : ℕ} {len : ℤ}

theorem baInvert_spec (h : Covers arr begin len count) :
    ∃ buf, baInvert (some arr) begin len = some ⟨0, none, some { arr with buf }⟩ ∧
      ∀ i, bit buf i = if begin ≤ i ∧ i < begin + count then !arr.bit i
        else if InEdge begin count i then false else arr.bit i := by
  obtain ⟨buf, hbuf, hbits⟩ := invertRange_spec (m := arr.buf) h.pos rfl h.words
  refine ⟨buf, ?_, hbits⟩
  simp only [baInvert, onRange, h.check, hbuf, Option.map_some]

/-- Beside the range a bit survives exactly when it was zero or is in no edge
word. -/
theorem invert_keeps_iff {buf : Memory (8 * baGetSizeArrayIn8Byte arr.numBits)}
    (hbits : ∀ i, bit buf i = if begin ≤ i ∧ i < begin + count then !arr.bit i
      else if InEdge begin count i then false else arr.bit i) :
    (∀ i < arr.numBits, bit buf i =
      if begin ≤ i ∧ i < begin + count then !arr.bit i else arr.bit i) ↔
      ZeroBeside arr begin count := by
  constructor
  · intro hall i hi hedge hout
    have hkept := hall i hi
    rw [hbits, if_neg hout, if_neg hout, if_pos hedge] at hkept
    exact hkept.symm
  · intro hzero i hi
    rw [hbits]
    by_cases hin : begin ≤ i ∧ i < begin + count
    · rw [if_pos hin, if_pos hin]
    · rw [if_neg hin, if_neg hin]
      by_cases hedge : InEdge begin count i
      · rw [if_pos hedge, hzero i hi hedge hin]
      · rw [if_neg hedge]

/-- On a range that is not empty and lies in the array, `baInvert` inverts the
range and nothing else, and is its own inverse, exactly when the array has only
zeros beside the range in the range's first and last word. -/
theorem inverts_iff (h : Covers arr begin len count) :
    Inverts arr begin len count ↔ ZeroBeside arr begin count := by
  obtain ⟨buf, hbuf, hbits⟩ := baInvert_spec h
  constructor
  · rintro ⟨arr', harr', -, hall, -⟩
    rw [hbuf] at harr'
    cases harr'
    exact (invert_keeps_iff hbits).mp hall
  · intro hzero
    have hall := (invert_keeps_iff hbits).mpr hzero
    have h' : Covers { arr with buf } begin len count := ⟨h.len_eq, h.pos, h.inside⟩
    obtain ⟨buf', hbuf', hbits'⟩ := baInvert_spec h'
    have hzero' : ZeroBeside { arr with buf } begin count := by
      intro i hi hedge hout
      change bit buf i = false
      rw [hall i hi, if_neg hout, hzero i hi hedge hout]
    have hall' := (invert_keeps_iff hbits').mpr hzero'
    refine ⟨_, hbuf, rfl, hall, _, hbuf', rfl, fun i hi => ?_⟩
    change bit buf' i = arr.bit i
    rw [hall' i hi]
    change (if _ then !bit buf i else bit buf i) = _
    rw [hall i hi]
    split_ifs
    · rw [Bool.not_not]
    · rfl

end

/-- An array of 130 bits of which one is set. -/
def oneOf130 (k : ℕ) : BinArray :=
  ⟨130, fun b => if b.val = k / 8 then baGetMaskBitFromByte (k % 8) else 0,
    by decide, by decide⟩

theorem oneOf130_beside : ZeroBeside (oneOf130 100) 60 70 := by
  have hlow : ∀ i < 60, (oneOf130 100).bit i = false := by decide +kernel
  intro i hi _ hout
  have hlen : i < 130 := hi
  exact hlow i (by omega)

/-- The bits from 60 to 129, with bit 100 set. -/
theorem inverts_tail : Covers (oneOf130 100) 60 (-1) 70 ∧ ZeroBeside (oneOf130 100) 60 70 ∧
    (Inverts (oneOf130 100) 60 (-1) 70 ↔ ZeroBeside (oneOf130 100) 60 70) :=
  ⟨⟨.inr ⟨rfl, rfl⟩, by decide, by decide⟩, oneOf130_beside,
    inverts_iff ⟨.inr ⟨rfl, rfl⟩, by decide, by decide⟩⟩

/-- Inverting bits 5 and 6 clears bit 3. -/
theorem invert_clears_beside : Covers (oneOf130 3) 5 2 2 ∧
    ((baInvert (some (oneOf130 3)) 5 2).bind Reply.arr).map (BinArray.bit · 3) = some false ∧
    ¬ Inverts (oneOf130 3) 5 2 2 := by
  have hcleared : ((baInvert (some (oneOf130 3)) 5 2).bind Reply.arr).map (BinArray.bit · 3) =
      some false := by decide +kernel
  refine ⟨⟨.inl rfl, by decide, by decide⟩, hcleared, ?_⟩
  rintro ⟨arr', harr', -, hall, -⟩
  have hkept : arr'.bit 3 = true := (hall 3 (by decide)).trans (by decide +kernel)
  rw [harr', Option.bind_some, Option.map_some, hkept] at hcleared
  cases hcleared

end TaskLunev.BinArrayInvert
