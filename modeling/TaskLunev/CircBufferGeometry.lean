import TaskLunev.CircBufferModel

/-!
# The regions of a circular buffer

Where the stored and the free bytes of a buffer are, whatever its reader is,
and what the four functions say about them. The writer's pointer and length
and the size are always right. The reader's pointer is wrong once the contents
go round, and the free length once they end exactly at the end of the buffer
and do not start at its beginning.
-/
namespace TaskLunev.CircBufferGeometry
open CircBufferModel

/-- The reader is inside the buffer and the contents fit. -/
structure WellFormed (c : CircBuffer) : Prop where
  reader_lt : c.mReader < c.mCapacity
  size_nonneg : 0 ≤ c.mSize
  size_le : c.mSize ≤ c.mCapacity

/-- A stored byte is at the offset. -/
def Occupied (c : CircBuffer) (off : ℕ) : Prop :=
  ∃ j < c.mSize.toNat, (c.mReader + j) % c.mCapacity = off

/-- The free bytes from `off` on, up to the first stored byte or the end of the
buffer, are `len`. -/
structure FreeRun (c : CircBuffer) (off len : ℕ) : Prop where
  inside : off + len ≤ c.mCapacity
  free : ∀ i, off ≤ i → i < off + len → ¬ Occupied c i
  maximal : off + len < c.mCapacity → Occupied c (off + len)

/-- The offset behind the stored bytes, going round at the end. -/
def behind (c : CircBuffer) : ℕ := (c.mReader + c.mSize.toNat) % c.mCapacity

/-- The four functions say the same of the stored and the free bytes. -/
structure Agree (c : CircBuffer) : Prop where
  reader : circBufferGetReader c = ((c.mReader : ℤ), min c.mSize (c.mCapacity - c.mReader))
  size : circBufferGetSize c = min c.mSize (c.mCapacity - c.mReader)
  writer : ∃ len : ℕ, FreeRun c (behind c) len ∧
    circBufferGetWriter c = ((behind c : ℤ), (len : ℤ)) ∧ circBufferGetEmpty c = len

section
variable {c : CircBuffer}

/-- The contents are one run of bytes, or one up to the end of the buffer and
one from its beginning on. -/
theorem WellFormed.occupied_iff (h : WellFormed c) {off : ℕ} (hoff : off < c.mCapacity) :
    Occupied c off ↔ (c.mReader ≤ off ∧ (off : ℤ) < c.mReader + c.mSize) ∨
      (off : ℤ) + c.mCapacity < c.mReader + c.mSize := by
  obtain ⟨hreader, hlo, hhi⟩ := h
  constructor
  · rintro ⟨j, hj, hmod⟩
    by_cases hround : c.mReader + j < c.mCapacity
    · rw [Nat.mod_eq_of_lt hround] at hmod
      omega
    · rw [Nat.mod_eq_sub_mod (by omega), Nat.mod_eq_of_lt (by omega)] at hmod
      omega
  · intro hin
    cases hin with
    | inl hfront =>
        refine ⟨off - c.mReader, by omega, ?_⟩
        rw [Nat.add_sub_cancel' hfront.1, Nat.mod_eq_of_lt hoff]
    | inr hround =>
        refine ⟨off + c.mCapacity - c.mReader, by omega, ?_⟩
        rw [Nat.add_sub_cancel' (by omega), Nat.add_mod_right, Nat.mod_eq_of_lt hoff]

theorem WellFormed.behind_eq (h : WellFormed c) :
    (behind c : ℤ) = if c.mReader + c.mSize < c.mCapacity then c.mReader + c.mSize
      else c.mReader + c.mSize - c.mCapacity := by
  obtain ⟨hreader, hlo, hhi⟩ := h
  unfold behind
  by_cases hround : c.mReader + c.mSize.toNat < c.mCapacity
  · rw [Nat.mod_eq_of_lt hround, if_pos (by omega)]
    omega
  · rw [Nat.mod_eq_sub_mod (by omega), Nat.mod_eq_of_lt (by omega), if_neg (by omega)]
    omega

/-- The free bytes end at the end of the buffer, or at the reader. -/
theorem WellFormed.freeRun (h : WellFormed c) {len : ℕ}
    (hlen : (len : ℤ) = if c.mReader + c.mSize < c.mCapacity then
      c.mCapacity - (c.mReader + c.mSize) else c.mCapacity - c.mSize) :
    FreeRun c (behind c) len := by
  have hbehind := h.behind_eq
  have hreader := h.reader_lt
  have hlo := h.size_nonneg
  have hhi := h.size_le
  by_cases hround : c.mReader + c.mSize < c.mCapacity
  · rw [if_pos hround] at hbehind hlen
    constructor
    · omega
    · intro i hi hend
      rw [h.occupied_iff (by omega)]
      omega
    · intro hmore
      omega
  · rw [if_neg hround] at hbehind hlen
    constructor
    · omega
    · intro i hi hend
      rw [h.occupied_iff (by omega)]
      omega
    · intro hmore
      rw [h.occupied_iff hmore]
      omega

theorem FreeRun.unique {off len len' : ℕ} (h : FreeRun c off len) (h' : FreeRun c off len') :
    len = len' := by
  by_contra hne
  cases Nat.lt_or_gt_of_ne hne with
  | inl hlt =>
      have hin := h'.inside
      exact h'.free (off + len) (by omega) (by omega) (h.maximal (by omega))
  | inr hgt =>
      have hin := h.inside
      exact h.free (off + len') (by omega) (by omega) (h'.maximal (by omega))

/-! ## The four functions -/

theorem WellFormed.getSize (h : WellFormed c) :
    circBufferGetSize c = min c.mSize (c.mCapacity - c.mReader) := by
  have hreader := h.reader_lt
  unfold circBufferGetSize CircBuffer.writer
  split_ifs with hend
  · omega
  · omega

/-- The writer's region is the free one behind the contents, in every state. -/
theorem WellFormed.getWriter (h : WellFormed c) : ∃ len : ℕ, FreeRun c (behind c) len ∧
    circBufferGetWriter c = ((behind c : ℤ), (len : ℤ)) := by
  have hbehind := h.behind_eq
  have hreader := h.reader_lt
  have hlo := h.size_nonneg
  have hhi := h.size_le
  obtain ⟨len, hlen⟩ : ∃ len : ℕ, (len : ℤ) = if c.mReader + c.mSize < c.mCapacity then
      c.mCapacity - (c.mReader + c.mSize) else c.mCapacity - c.mSize :=
    Int.eq_ofNat_of_zero_le (by split_ifs <;> omega) |>.imp fun _ hlen => hlen.symm
  refine ⟨len, h.freeRun hlen, ?_⟩
  unfold circBufferGetWriter CircBuffer.writer
  rw [hbehind, hlen]
  split_ifs with hlt hend hzero
  · rfl
  · rw [Prod.mk.injEq]
    omega
  · rw [Prod.mk.injEq]
    omega
  · rfl

theorem WellFormed.getReader_iff (h : WellFormed c) :
    circBufferGetReader c = ((c.mReader : ℤ), min c.mSize (c.mCapacity - c.mReader)) ↔
      c.mReader + c.mSize ≤ c.mCapacity := by
  have hreader := h.reader_lt
  have hhi := h.size_le
  unfold circBufferGetReader CircBuffer.writer
  split_ifs with hend
  · rw [Prod.mk.injEq]
    omega
  · rw [Prod.mk.injEq]
    omega

theorem WellFormed.getEmpty_iff (h : WellFormed c) :
    circBufferGetEmpty c = (circBufferGetWriter c).2 ↔
      c.mReader = 0 ∨ c.mReader + c.mSize ≠ c.mCapacity := by
  have hhi := h.size_le
  unfold circBufferGetEmpty circBufferGetWriter CircBuffer.writer
  by_cases hle : c.mReader + c.mSize ≤ c.mCapacity
  · rw [if_pos hle]
    by_cases hlt : c.mReader + c.mSize < c.mCapacity
    · rw [if_pos hlt]
      exact iff_of_true rfl (by omega)
    · have hend : c.mReader + c.mSize = c.mCapacity := by omega
      rw [if_neg hlt, if_pos hend]
      by_cases hzero : c.mReader ≠ 0
      · rw [if_pos hzero]
        simp only
        omega
      · rw [if_neg hzero]
        simp only
        omega
  · rw [if_neg hle, if_neg (by omega), if_neg (by omega)]
    exact iff_of_true rfl (by omega)

/-- In a well-formed state the four functions agree with the stored and free
bytes and with each other exactly when the contents end before the end of the
buffer or start at its beginning. -/
theorem agree_iff (h : WellFormed c) :
    Agree c ↔ c.mReader = 0 ∨ c.mReader + c.mSize < c.mCapacity := by
  have hhi := h.size_le
  obtain ⟨len, hrun, hwriter⟩ := h.getWriter
  have hempty := h.getEmpty_iff
  rw [hwriter] at hempty
  constructor
  · intro hagree
    have hreader := h.getReader_iff.mp hagree.reader
    obtain ⟨len', hrun', -, hempty'⟩ := hagree.writer
    rw [hrun'.unique hrun] at hempty'
    have hend := hempty.mp hempty'
    omega
  · intro hcase
    exact
      { reader := h.getReader_iff.mpr (by omega)
        size := h.getSize
        writer := ⟨len, hrun, hwriter, hempty.mpr (by omega)⟩ }

end

/-- A buffer of four zero bytes. -/
def ofFour (mReader : ℕ) (mSize : ℤ) : CircBuffer := ⟨4, mSize, fun _ => 0, mReader, by decide⟩

/-- Two bytes from offset 1 on. -/
theorem agree_two : WellFormed (ofFour 1 2) ∧
    (Agree (ofFour 1 2) ↔ (ofFour 1 2).mReader = 0 ∨
      (ofFour 1 2).mReader + (ofFour 1 2).mSize < (ofFour 1 2).mCapacity) :=
  ⟨⟨by decide, by decide, by decide⟩, agree_iff ⟨by decide, by decide, by decide⟩⟩

/-- Contents that end at the end of the buffer hide the free byte in front of
them, and those that go round are not where the reader's pointer is. -/
theorem regions_disagree :
    (WellFormed (ofFour 1 3) ∧ circBufferGetEmpty (ofFour 1 3) = 0 ∧
      circBufferGetWriter (ofFour 1 3) = (0, 1) ∧ ¬ Agree (ofFour 1 3)) ∧
    WellFormed (ofFour 2 3) ∧ circBufferGetReader (ofFour 2 3) = (0, 1) ∧
      circBufferGetSize (ofFour 2 3) = 2 ∧ ¬ Agree (ofFour 2 3) := by
  constructor
  · refine ⟨⟨by decide, by decide, by decide⟩, by decide, by decide, ?_⟩
    intro h
    obtain ⟨len, -, hwriter, hempty⟩ := h.writer
    have hlen : (circBufferGetWriter (ofFour 1 3)).2 = circBufferGetEmpty (ofFour 1 3) := by
      rw [hwriter, hempty]
    exact absurd hlen (by decide)
  · refine ⟨⟨by decide, by decide, by decide⟩, by decide, by decide, ?_⟩
    intro h
    exact absurd h.reader (by decide)

end TaskLunev.CircBufferGeometry
