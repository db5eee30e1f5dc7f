import TaskLunev.BinArrayInvert
import TaskLunev.BinArraySubArray

/-!
# Inverting in place and into a copy

`baInvert` over the whole array masks its last word, `baGetInvert` ends with
single bytes. The two leave different padding and the same bits of the array.
Over the whole array no bit lies beside the range, so nothing is cleared.
-/
namespace TaskLunev.BinArrayGetInvert
open ByteMemory BinArrayModel BinArrayRange BinArrayInvert BinArraySubArray

section
variable {n k : ℕ}

/-- The loop complements the bits of its blocks and writes no others. -/
theorem invertBlocks_spec (size : ℕ) (src : Memory k) (left : ℕ) (dst : Memory n) (off : ℕ)
    (hdst : off + size * left ≤ n) (hsrc : off + size * left ≤ k) :
    ∃ dst', invertBlocks size src left dst off = some dst' ∧
      ∀ i, bit dst' i = if 8 * off ≤ i ∧ i < 8 * (off + size * left) then !bit src i
        else bit dst i := by
  induction left generalizing dst off with
  | zero => exact ⟨dst, rfl, fun i => by rw [if_neg (by omega)]⟩
  | succ left ih =>
      rw [Nat.mul_succ] at hdst hsrc ⊢
      obtain ⟨block, hblock⟩ : ∃ block, load size src off = some block := load_of_le (by omega)
      obtain ⟨mid, hmid⟩ := store_of_le dst (show off + size ≤ n by omega) (~~~block)
      obtain ⟨dst', hdst', hrest⟩ := ih mid (off + size) (by omega) (by omega)
      refine ⟨dst', ?_, fun i => ?_⟩
      · simp only [invertBlocks, hblock, hmid, Option.bind_eq_bind, Option.bind_some, hdst']
      · rw [hrest, bit_store hmid]
        by_cases hin : 8 * off ≤ i ∧ i < 8 * (off + size)
        · have hj : i - 8 * off < 8 * size := by omega
          rw [if_neg (by omega), if_pos hin, if_pos (by omega), BitVec.getLsbD_not,
            decide_eq_true hj, Bool.true_and, load_bit hblock hj, Nat.add_sub_cancel' hin.1]
        · rw [if_neg hin]
          congr 1
          exact propext (by omega)

/-- The words and the bytes behind them reach the last bit. -/
theorem copyInverted_spec (dst : Memory n) (src : Memory k) {numBits : ℕ}
    (hdst : 8 * baGetSizeArrayIn8Byte numBits ≤ n) (hsrc : 8 * baGetSizeArrayIn8Byte numBits ≤ k) :
    ∃ dst', copyInverted dst src numBits = some dst' ∧
      ∀ i < numBits, bit dst' i = !bit src i := by
  have hbytes := baBits2Bytes_bounds (numBits % 64)
  have hwords := baGetSizeArrayIn8Byte_bounds numBits
  obtain ⟨mid, hmid, hfront⟩ := invertBlocks_spec 8 src (numBits / 64) dst 0 (by omega)
    (by omega)
  obtain ⟨dst', hdst', hback⟩ := invertBlocks_spec 1 src (baBits2Bytes (numBits % 64)) mid
    (8 * (numBits / 64)) (by omega) (by omega)
  refine ⟨dst', ?_, fun i hi => ?_⟩
  · simp only [copyInverted, hmid, Option.bind_eq_bind, Option.bind_some, hdst']
  · rw [hback, hfront]
    split_ifs
    · rfl
    · rfl
    · omega

end

/-! ## The two inversions -/

/-- What an inversion of all bits of `arr` leaves. -/
def Negates (arr inv : BinArray) : Prop :=
  inv.numBits = arr.numBits ∧ ∀ j < arr.numBits, inv.bit j = !arr.bit j

theorem Negates.twice {arr inv arr' : BinArray} (h : Negates arr inv) (h' : Negates inv arr') :
    arr'.numBits = arr.numBits ∧ ∀ j < arr.numBits, arr'.bit j = arr.bit j := by
  refine ⟨h'.1.trans h.1, fun j hj => ?_⟩
  rw [h'.2 j (h.1 ▸ hj), h.2 j hj, Bool.not_not]

theorem baInvert_whole (arr : BinArray) : ∃ arr',
    baInvert (some arr) 0 (-1) = some ⟨0, none, some arr'⟩ ∧ Negates arr arr' := by
  obtain ⟨buf, hbuf, hbits⟩ := baInvert_spec (covers_whole arr)
  refine ⟨_, hbuf, rfl, fun j hj => ?_⟩
  change bit buf j = _
  rw [hbits, if_pos (by omega)]

/-- A creation of at least one bit fails only in the allocator. -/
theorem baCreate_errno (grant : ℕ → Bool) {n : ℕ} (hn : 0 < n) : (baCreate grant n).1 = none := by
  unfold baCreate
  split_ifs with hzero
  · omega
  · rfl
  · rfl
  · rfl

/-- The call answers with an array exactly when the allocator serves it. -/
theorem baGetInvert_spec (grant : ℕ → Bool) (arr : BinArray) : ∃ inv,
    baGetInvert grant (some arr) = some (none, inv) ∧
      (inv.isSome ↔ (baCreate grant arr.numBits).2.isSome) ∧
      ∀ copy, inv = some copy → Negates arr copy := by
  have herrno := baCreate_errno grant arr.numBits_pos
  cases hcreate : baCreate grant arr.numBits with
  | mk errno created =>
      rw [hcreate] at herrno
      simp only at herrno
      cases created with
      | none =>
          have hrefused : baGetInvert grant (some arr) = some (none, none) := by
            simp only [baGetInvert, baCheckPtr_some, hcreate, herrno]
          exact ⟨none, hrefused, Iff.rfl, nofun⟩
      | some clone =>
          have hnum : clone.numBits = arr.numBits :=
            baCreate_numBits (show (baCreate grant arr.numBits).2 = some clone by rw [hcreate])
          obtain ⟨buf, hbuf, hbits⟩ :=
            copyInverted_spec clone.buf arr.buf (by rw [hnum]) le_rfl
          refine ⟨some { clone with buf }, ?_, Iff.rfl, fun copy hcopy => ?_⟩
          · simp only [baGetInvert, baCheckPtr_some, hcreate, herrno, hbuf, Option.map_some]
          · cases hcopy
            exact ⟨hnum, hbits⟩

/-- Over the whole array `baInvert` negates every bit, `baGetInvert` computes
the same bits whenever it gets its memory, and a second `baInvert` restores
the array. -/
theorem invert_whole_agrees (arr : BinArray) : ∃ arr',
    baInvert (some arr) 0 (-1) = some ⟨0, none, some arr'⟩ ∧ arr'.numBits = arr.numBits ∧
    (∀ j < arr.numBits, arr'.bit j = !arr.bit j) ∧
    (∀ grant, ∃ inv, baGetInvert grant (some arr) = some (none, inv) ∧
      (inv.isSome ↔ (baCreate grant arr.numBits).2.isSome) ∧
      ∀ copy, inv = some copy → copy.numBits = arr.numBits ∧
        ∀ j < arr.numBits, arr'.bit j = copy.bit j) ∧
    ∃ arr'', baInvert (some arr') 0 (-1) = some ⟨0, none, some arr''⟩ ∧
      arr''.numBits = arr.numBits ∧ ∀ j < arr.numBits, arr''.bit j = arr.bit j := by
  obtain ⟨arr', harr', hneg⟩ := baInvert_whole arr
  obtain ⟨arr'', harr'', hneg'⟩ := baInvert_whole arr'
  refine ⟨arr', harr', hneg.1, hneg.2, fun grant => ?_, arr'', harr'', hneg.twice hneg'⟩
  obtain ⟨inv, hinv, hserved, hcopy⟩ := baGetInvert_spec grant arr
  refine ⟨inv, hinv, hserved, fun copy h => ⟨(hcopy copy h).1, fun j hj => ?_⟩⟩
  rw [hneg.2 j hj, (hcopy copy h).2 j hj]

end TaskLunev.BinArrayGetInvert
