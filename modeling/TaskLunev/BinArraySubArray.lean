import TaskLunev.BinArrayRange
import TaskLunev.BinArrayVector

/-!
# Copying a range of bits

A range that does not start at a byte is copied by loads that are shifted right
and stored one byte wider than the bits that are good; the next store begins
where the good bits end. The bits come out right wherever the accesses stay
inside. They do unless the copy has a whole number of the long strides and its
range ends one byte further in the source: then the last store and the last
load may lie behind the buffers.
-/
namespace TaskLunev.BinArraySubArray
open ByteMemory BinArrayModel BinArrayRange

theorem baBits2Bytes_bounds (numBits : ℕ) :
    numBits ≤ 8 * baBits2Bytes numBits ∧ 8 * baBits2Bytes numBits < numBits + 8 := by
  unfold baBits2Bytes
  split_ifs <;> omega

section
variable {n k : ℕ}

/-- The first `limit` bits are those of the source from bit `start` on. -/
def Copied (dst : Memory n) (src : Memory k) (start limit : ℕ) : Prop :=
  ∀ j < limit, bit dst j = bit src (start + j)

variable {dst : Memory n} {src : Memory k} {start : ℕ}

/-- A store behind the good bits of which the first `good` are those that come
next. -/
theorem Copied.stored {w sub good : ℕ} (h : Copied dst src start (8 * sub)) (hin : sub + w ≤ n)
    {v : BitVec (8 * w)} (hgood : good ≤ 8 * w)
    (hv : ∀ j < good, v.getLsbD j = bit src (start + (8 * sub + j))) :
    ∃ dst', store w dst sub v = some dst' ∧ Copied dst' src start (8 * sub + good) := by
  obtain ⟨dst', hstore⟩ := store_of_le dst hin v
  refine ⟨dst', hstore, fun j hj => ?_⟩
  rw [bit_store hstore]
  by_cases hlt : j < 8 * sub
  · rw [if_neg (by omega), h j hlt]
  · rw [if_pos (by omega), hv _ (by omega), Nat.add_sub_cancel' (by omega)]

theorem load_shifted_bit {w off j r : ℕ} {v : BitVec (8 * w)} (h : load w src off = some v)
    (hj : r + j < 8 * w) : (v >>> r).getLsbD j = bit src (8 * off + r + j) := by
  rw [BitVec.getLsbD_ushiftRight, load_bit h hj, Nat.add_assoc]

/-! ## The loops -/

/-- Both copy loops: loads and stores of `w + 1` bytes with a stride of `w`. -/
def copyShifted (w : ℕ) (src : Memory k) (rshift : ℕ) : ℕ → Memory n → ℕ → ℕ → Option (Memory n)
  | 0, dst, _, _ => some dst
  | left + 1, dst, sub, buf => do
      let v ← load (w + 1) src buf
      let dst ← store (w + 1) dst sub (v >>> rshift)
      copyShifted w src rshift left dst (sub + w) (buf + w)

theorem copyShifted56_eq (src : Memory k) (rshift left : ℕ) (dst : Memory n) (sub buf : ℕ) :
    copyShifted56 src rshift left dst sub buf = copyShifted 7 src rshift left dst sub buf := by
  induction left generalizing dst sub buf with
  | zero => rfl
  | succ left ih =>
      simp only [copyShifted56, copyShifted, ih]

theorem copyShifted8_eq (src : Memory k) (rshift left : ℕ) (dst : Memory n) (sub buf : ℕ) :
    copyShifted8 src rshift left dst sub buf = copyShifted 1 src rshift left dst sub buf := by
  induction left generalizing dst sub buf with
  | zero => rfl
  | succ left ih =>
      simp only [copyShifted8, copyShifted, ih]

/-- Passes that stay inside bring `w` good bytes each. -/
theorem copyShifted_spec {w b r : ℕ} (hr : r < 8) (left : ℕ) {sub : ℕ}
    (h : Copied dst src (8 * b + r) (8 * sub))
    (hin : left = 0 ∨ (sub + w * left + 1 ≤ n ∧ b + sub + w * left + 1 ≤ k)) :
    ∃ dst', copyShifted w src r left dst sub (b + sub) = some dst' ∧
      Copied dst' src (8 * b + r) (8 * (sub + w * left)) := by
  induction left generalizing dst sub with
  | zero => exact ⟨dst, rfl, h⟩
  | succ left ih =>
      have hwidth : w * (left + 1) = w * left + w := Nat.mul_succ w left
      obtain ⟨v, hv⟩ : ∃ v, load (w + 1) src (b + sub) = some v := load_of_le (by omega)
      have hbits : ∀ j < 8 * w, (v >>> r).getLsbD j = bit src (8 * b + r + (8 * sub + j)) := by
        intro j hj
        rw [load_shifted_bit hv (by omega)]
        congr 1
        omega
      obtain ⟨mid, hmid, hcopied⟩ := h.stored (w := w + 1) (by omega) (by omega) hbits
      have hnext : Copied mid src (8 * b + r) (8 * (sub + w)) := by
        rwa [Nat.mul_add]
      obtain ⟨dst', hdst', hall⟩ := ih hnext (by
        by_cases hleft : left = 0
        · exact .inl hleft
        · exact .inr ⟨by omega, by omega⟩)
      refine ⟨dst', ?_, ?_⟩
      · simp only [copyShifted, hv, hmid, Option.bind_eq_bind, Option.bind_some]
        rw [Nat.add_assoc, hdst']
      · rw [hwidth, Nat.add_comm (w * left), ← Nat.add_assoc]
        exact hall

/-! ## The whole copy -/

/-- The long strides end where the copy does, and the range ends in one more
byte of the source. -/
def Spills (begin len : ℕ) : Prop :=
  begin % 8 ≠ 0 ∧ 8 ≤ baBits2Bytes len ∧ baBits2Bytes len % 7 = 0 ∧
    baBits2Bytes (len + begin % 8) ≠ baBits2Bytes len

/-- The last byte of the copy where the range ends in a byte more of the
source. -/
theorem Copied.last_pair {b r sub : ℕ} (hr : r < 8) (h : Copied dst src (8 * b + r) (8 * sub))
    (hin : sub + 1 ≤ n) (hsrc : b + sub + 2 ≤ k) :
    ∃ pair : BitVec 16, load 2 src (b + sub) = some pair ∧
      ∃ dst', store 1 dst sub ((pair >>> r).setWidth 8) = some dst' ∧
        Copied dst' src (8 * b + r) (8 * sub + 8) := by
  obtain ⟨pair, hpair⟩ : ∃ pair : BitVec 16, load 2 src (b + sub) = some pair := load_of_le hsrc
  refine ⟨pair, hpair, h.stored hin (by omega) fun j hj => ?_⟩
  have hbit : (pair >>> r).getLsbD j = bit src (8 * (b + sub) + r + j) :=
    load_shifted_bit (w := 2) hpair (by omega)
  rw [BitVec.getLsbD_setWidth, decide_eq_true hj, Bool.true_and, hbit]
  congr 1
  omega

/-- The last byte of the copy where the range ends in the byte with the same
number. -/
theorem Copied.last_byte {b r sub : ℕ} (hr : r < 8) (h : Copied dst src (8 * b + r) (8 * sub))
    (hin : sub + 1 ≤ n) (hsrc : b + sub + 1 ≤ k) :
    ∃ byte : BitVec 8, load 1 src (b + sub) = some byte ∧
      ∃ dst', store 1 dst sub (byte >>> r) = some dst' ∧
        Copied dst' src (8 * b + r) (8 * sub + (8 - r)) := by
  obtain ⟨byte, hbyte⟩ : ∃ byte : BitVec 8, load 1 src (b + sub) = some byte := load_of_le hsrc
  refine ⟨byte, hbyte, h.stored hin (by omega) fun j hj => ?_⟩
  have hbit : (byte >>> r).getLsbD j = bit src (8 * (b + sub) + r + j) :=
    load_shifted_bit (w := 1) hbyte (by omega)
  rw [hbit]
  congr 1
  omega

/-- The bits are right wherever the two buffers have room for the range, and
for one byte more when the strides spill. -/
theorem copySubBits_spec (dst : Memory n) (src : Memory k) {begin len : ℕ} (hpos : 0 < len)
    (hdst : baBits2Bytes len ≤ n) (hsrc : baBits2Bytes (begin + len) ≤ k)
    (hspare : Spills begin len → baBits2Bytes len < n ∧ baBits2Bytes (begin + len) < k) :
    ∃ dst', copySubBits dst src begin len = some dst' ∧ Copied dst' src begin len := by
  have hbytes := baBits2Bytes_bounds len
  have hend := baBits2Bytes_bounds (begin + len)
  have hover := baBits2Bytes_bounds (len + begin % 8)
  unfold Spills at hspare
  unfold copySubBits
  by_cases haligned : begin % 8 = 0
  · simp only [if_pos haligned]
    obtain ⟨dst', hdst'⟩ : ∃ dst', copy dst src (begin / 8) (baBits2Bytes len) = some dst' :=
      ⟨_, dif_pos ⟨hdst, by omega⟩⟩
    refine ⟨dst', hdst', fun j hj => ?_⟩
    rw [bit_copy hdst' (by omega), show 8 * (begin / 8) + j = begin + j by omega]
  · simp only [if_neg haligned, copyShifted56_eq, copyShifted8_eq]
    obtain ⟨b, hb⟩ : ∃ b, b = begin / 8 := ⟨_, rfl⟩
    obtain ⟨r, hr⟩ : ∃ r, r = begin % 8 := ⟨_, rfl⟩
    have hstart : 8 * b + r = begin := by omega
    rw [← hr] at haligned hspare hover ⊢
    rw [← hb]
    generalize hnum : (if baBits2Bytes len < 8 then 0 else
      (baBits2Bytes (len + r) - 1) / 7) = numU56
    have hlong : 7 * numU56 ≤ baBits2Bytes (len + r) - 1 ∧ (numU56 ≠ 0 → 8 ≤ baBits2Bytes len) := by
      rw [← hnum]
      split_ifs <;> omega
    -- the long strides, which only reach the end of the copy when they spill
    have hreach : 7 * numU56 < baBits2Bytes len ∨
        (7 * numU56 = baBits2Bytes len ∧ baBits2Bytes len < n ∧ baBits2Bytes (begin + len) < k ∧
          baBits2Bytes (len + r) ≠ baBits2Bytes len) := by
      by_cases hlt : 7 * numU56 < baBits2Bytes len
      · exact .inl hlt
      · have hroom := hspare ⟨haligned, by omega, by omega, by omega⟩
        exact .inr ⟨by omega, hroom.1, hroom.2, by omega⟩
    have hnone : Copied dst src (8 * b + r) (8 * 0) := fun j hj => absurd hj (by omega)
    obtain ⟨dst₁, hdst₁, hcopied₁⟩ := copyShifted_spec (w := 7) (b := b) (by omega) numU56 hnone
      (by omega)
    rw [Nat.zero_add] at hcopied₁
    simp only [Nat.add_zero] at hdst₁
    by_cases hstate : baBits2Bytes (len + r) ≠ baBits2Bytes len
    · simp only [if_pos hstate, hdst₁, Option.bind_eq_bind, Option.bind_some]
      generalize hnum8 : baBits2Bytes (len + r) - 7 * numU56 - 1 - 1 = numU8
      obtain ⟨dst₂, hdst₂, hcopied₂⟩ := copyShifted_spec (w := 1) (by omega) numU8 hcopied₁
        (by omega)
      rw [Nat.one_mul] at hcopied₂
      obtain ⟨pair, hpair, dst₃, hdst₃, hcopied₃⟩ := hcopied₂.last_pair (by omega) (by omega)
        (by omega)
      refine ⟨dst₃, ?_, fun j hj => ?_⟩
      · simp only [hdst₂, hpair, Option.bind_some]
        exact hdst₃
      · rw [hcopied₃ j (by omega), hstart]
    · simp only [if_neg hstate, hdst₁, Option.bind_eq_bind, Option.bind_some]
      generalize hnum8 : baBits2Bytes (len + r) - 7 * numU56 - 1 - 0 = numU8
      obtain ⟨dst₂, hdst₂, hcopied₂⟩ := copyShifted_spec (w := 1) (by omega) numU8 hcopied₁
        (by omega)
      rw [Nat.one_mul] at hcopied₂
      obtain ⟨byte, hbyte, dst₃, hdst₃, hcopied₃⟩ := hcopied₂.last_byte (by omega) (by omega)
        (by omega)
      refine ⟨dst₃, ?_, fun j hj => ?_⟩
      · simp only [hdst₂, hbyte, Option.bind_some]
        exact hdst₃
      · rw [hcopied₃ j (by omega), hstart]

/-- A copy that spills reads and writes one byte behind the range and behind
the copy. -/
theorem copySubBits_outside (dst : Memory n) (src : Memory k) {begin len : ℕ}
    (hspills : Spills begin len)
    (hout : n ≤ baBits2Bytes len ∨ k ≤ baBits2Bytes (begin + len)) :
    copySubBits dst src begin len = none := by
  have hbytes := baBits2Bytes_bounds len
  have hend := baBits2Bytes_bounds (begin + len)
  have hover := baBits2Bytes_bounds (len + begin % 8)
  obtain ⟨hshift, hlong, hseven, hstate⟩ := hspills
  have hnum : (if baBits2Bytes len < 8 then 0 else (baBits2Bytes (len + begin % 8) - 1) / 7) =
      baBits2Bytes len / 7 := by
    rw [if_neg (by omega)]
    congr 1
    omega
  have hreach : 7 * (baBits2Bytes len / 7) = baBits2Bytes len := by omega
  have hnone : baBits2Bytes (len + begin % 8) - baBits2Bytes len - 1 - 1 = 0 := by omega
  unfold copySubBits
  simp only [if_neg hshift, if_pos hstate, hnum, hreach, hnone, copyShifted8, Nat.add_zero]
  cases copyShifted56 src (begin % 8) (baBits2Bytes len / 7) dst 0 (begin / 8) with
  | none => rfl
  | some mid =>
      simp only [Option.bind_eq_bind, Option.bind_some]
      cases hload : load 2 src (begin / 8 + baBits2Bytes len) with
      | none => rfl
      | some pair =>
          have hin : begin / 8 + baBits2Bytes len + 2 ≤ k := load_isSome.mp (by rw [hload]; rfl)
          exact if_neg (by omega)

end

/-! ## Sub-arrays -/

/-- The long strides spill, and the byte behind the copy or the one behind the
range is outside its buffer. -/
def Overruns (arr : BinArray) (begin count : ℕ) : Prop :=
  Spills begin count ∧ (baBits2Bytes count % 8 = 0 ∨
    baBits2Bytes (begin + count) = 8 * baGetSizeArrayIn8Byte arr.numBits)

section
variable {grant : ℕ → Bool} {arr : BinArray} {begin count : ℕ} {len : ℤ}

theorem baCreate_numBits {clone : BinArray} (h : (baCreate grant count).2 = some clone) :
    clone.numBits = count := (BinArrayVector.baCreate_represents h).numBits

/-- With the clone at hand the call is the copy into its buffer. -/
theorem baGetSubArray_eq (h : Covers arr begin len count) {clone : BinArray}
    (hclone : (baCreate grant count).2 = some clone) :
    baGetSubArray grant (some arr) begin len =
      (copySubBits clone.buf arr.buf begin count).map fun buf => some { clone with buf } := by
  simp only [baGetSubArray, h.check, hclone]

/-- The bytes of a copy and of its range lie in the buffers, all of them or all
but those behind them. -/
theorem baBits2Bytes_le_words (count : ℕ) :
    baBits2Bytes count ≤ 8 * baGetSizeArrayIn8Byte count ∧
      (8 * baGetSizeArrayIn8Byte count ≤ baBits2Bytes count ↔ baBits2Bytes count % 8 = 0) := by
  have hbytes := baBits2Bytes_bounds count
  have hwords := baGetSizeArrayIn8Byte_bounds count
  omega

theorem Covers.bytes (h : Covers arr begin len count) :
    baBits2Bytes (begin + count) ≤ 8 * baGetSizeArrayIn8Byte arr.numBits := by
  have hbytes := baBits2Bytes_bounds (begin + count)
  have hwords := h.words
  omega

/-- Where the copy does not overrun, the call answers with an array of the
right length and bits. -/
theorem subArray_of_not_overruns (h : Covers arr begin len count) {clone : BinArray}
    (hclone : (baCreate grant count).2 = some clone) (hover : ¬ Overruns arr begin count) :
    ∃ sub, baGetSubArray grant (some arr) begin len = some (some sub) ∧ sub.numBits = count ∧
      ∀ i < count, sub.bit i = arr.bit (begin + i) := by
  have hnum := baCreate_numBits hclone
  have hcopy := baBits2Bytes_le_words count
  have hrange := Covers.bytes h
  have hspare : Spills begin count → baBits2Bytes count < 8 * baGetSizeArrayIn8Byte clone.numBits ∧
      baBits2Bytes (begin + count) < 8 * baGetSizeArrayIn8Byte arr.numBits := by
    intro hspills
    have hboth := not_or.mp fun hout => hover ⟨hspills, hout⟩
    rw [hnum]
    omega
  obtain ⟨buf, hbuf, hbits⟩ := copySubBits_spec clone.buf arr.buf h.pos (by rw [hnum]; exact hcopy.1)
    hrange hspare
  refine ⟨{ clone with buf }, ?_, hnum, hbits⟩
  rw [baGetSubArray_eq h hclone, hbuf, Option.map_some]

theorem overruns_outside (h : Covers arr begin len count) {clone : BinArray}
    (hclone : (baCreate grant count).2 = some clone) (hover : Overruns arr begin count) :
    baGetSubArray grant (some arr) begin len = none := by
  have hnum := baCreate_numBits hclone
  have hcopy := baBits2Bytes_le_words count
  rw [baGetSubArray_eq h hclone, copySubBits_outside _ _ hover.1 (by
    cases hover.2 with
    | inl hfull => exact .inl (by rw [hnum]; exact hcopy.2.mpr hfull)
    | inr hend => exact .inr hend.ge), Option.map_none]

/-- An array of which every second bit is set. -/
def alternating512 : BinArray := ⟨512, fun _ => 0x55, by decide, by decide⟩

/-- When its allocation succeeds, the call answers with an array of `count` bits
that are those of the range exactly when the copy does not overrun. -/
theorem subArray_iff (h : Covers arr begin len count) (hserved : (baCreate grant count).2.isSome) :
    (∃ sub, baGetSubArray grant (some arr) begin len = some (some sub) ∧ sub.numBits = count ∧
      ∀ i < count, sub.bit i = arr.bit (begin + i)) ↔ ¬ Overruns arr begin count := by
  obtain ⟨clone, hclone⟩ := Option.isSome_iff_exists.mp hserved
  constructor
  · rintro ⟨sub, hsub, -⟩ hover
    rw [overruns_outside h hclone hover] at hsub
    cases hsub
  · exact subArray_of_not_overruns h hclone

/-- A hundred bits from bit 3 on. -/
theorem subArray_hundred :
    (baCreate (fun _ => true) 100).2.isSome ∧ Covers alternating512 3 100 100 ∧
      ((∃ sub, baGetSubArray (fun _ => true) (some alternating512) 3 100 =
          some (some sub) ∧ sub.numBits = 100 ∧
          ∀ i < 100, sub.bit i = alternating512.bit (3 + i)) ↔
        ¬ Overruns alternating512 3 100) :=
  ⟨rfl, ⟨.inl rfl, by decide, by decide⟩,
    subArray_iff ⟨.inl rfl, by decide, by decide⟩ rfl⟩

theorem fullBytes_outside : Covers alternating512 1 448 448 ∧
    baGetSubArray (fun _ => true) (some alternating512) 1 448 = none := by
  have hcovers : Covers alternating512 1 448 448 := ⟨.inl rfl, by decide, by decide⟩
  refine ⟨hcovers, ?_⟩
  exact overruns_outside hcovers (show (baCreate (fun _ => true) 448).2 = some _ from rfl)
    ⟨⟨by decide, by decide, by decide, by decide⟩, .inl (by decide)⟩

/-- Fifty-six bytes from bit 1 on fill their buffer, and the call writes a byte
behind it. -/
theorem subArray_overruns :
    Covers alternating512 1 448 448 ∧ (baCreate (fun _ => true) 448).2.isSome ∧
      ¬ ∃ sub, baGetSubArray (fun _ => true) (some alternating512) 1 448 =
          some (some sub) ∧ sub.numBits = 448 ∧
          ∀ i < 448, sub.bit i = alternating512.bit (1 + i) := by
  obtain ⟨hcovers, hnone⟩ := fullBytes_outside
  refine ⟨hcovers, rfl, ?_⟩
  rintro ⟨sub, hsub, -⟩
  rw [hnone] at hsub
  cases hsub

/-- The call touches no byte outside the two buffers exactly when it gets no
new buffer or its copy does not overrun. -/
theorem subArray_inside_iff (grant : ℕ → Bool) (h : Covers arr begin len count) :
    (baGetSubArray grant (some arr) begin len).isSome ↔
      (baCreate grant count).2 = none ∨ ¬ Overruns arr begin count := by
  cases hclone : (baCreate grant count).2 with
  | none =>
      simp only [baGetSubArray, h.check, hclone, Option.isSome_some, true_or]
  | some clone =>
      simp only [reduceCtorEq, false_or]
      constructor
      · intro hsome hover
        rw [overruns_outside h hclone hover] at hsome
        cases hsome
      · intro hover
        obtain ⟨sub, hsub, -⟩ := subArray_of_not_overruns h hclone hover
        rw [hsub]
        rfl

theorem subArray_inside_hundred :
    Covers alternating512 3 100 100 ∧
      ((baGetSubArray (fun _ => true) (some alternating512) 3 100).isSome ↔
        (baCreate (fun _ => true) 100).2 = none ∨
          ¬ Overruns alternating512 3 100) :=
  ⟨⟨.inl rfl, by decide, by decide⟩,
    subArray_inside_iff (fun _ => true) ⟨.inl rfl, by decide, by decide⟩⟩

/-- The last byte read for 14 bytes from bit 393 on lies behind the array, the
last one written for 56 bytes from bit 1 on behind the copy. -/
theorem subArray_not_inside :
    (Covers alternating512 393 112 112 ∧
      (baGetSubArray (fun _ => true) (some alternating512) 393 112).isSome = false) ∧
    Covers alternating512 1 448 448 ∧
      (baGetSubArray (fun _ => true) (some alternating512) 1 448).isSome = false := by
  have hread : Covers alternating512 393 112 112 := ⟨.inl rfl, by decide, by decide⟩
  obtain ⟨hwrite, hnone⟩ := fullBytes_outside
  refine ⟨⟨hread, ?_⟩, hwrite, ?_⟩
  · rw [overruns_outside hread (show (baCreate (fun _ => true) 112).2 = some _ from rfl)
      ⟨⟨by decide, by decide, by decide, by decide⟩, .inr (by decide)⟩]
    rfl
  · rw [hnone]
    rfl

end

end TaskLunev.BinArraySubArray
