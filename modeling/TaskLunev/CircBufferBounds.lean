import TaskLunev.CircBufferOrder

/-!
# Bounds of the circular buffer

Whatever sizes callers announce within the lengths the getters returned, the
contents fit, both regions stay inside the buffer and the free one never meets
a stored byte.
-/
namespace TaskLunev.CircBufferBounds
open CircBufferModel CircBufferOrder TransitionRuns

/-- The argument of a `CircBufferChangeSize` after a producer or a consumer
that kept to the length it was given. -/
def Permitted (c : CircBuffer) (value : ℤ) : Prop :=
  (0 ≤ value ∧ value ≤ (circBufferGetWriter c).2) ∨ (value ≤ 0 ∧ -value ≤ (circBufferGetReader c).2)

def Change (c : CircBuffer) (value : ℤ) (d : CircBuffer) : Prop :=
  Permitted c value ∧ circBufferChangeSize c value = d

/-- The region of a getter's pointer and length lies inside the buffer. -/
def Inside (c : CircBuffer) (region : ℤ × ℤ) : Prop :=
  0 ≤ region.1 ∧ 0 ≤ region.2 ∧ region.1 + region.2 ≤ c.mCapacity

/-- What holds of a buffer between two calls. -/
structure Bounded (c : CircBuffer) : Prop where
  size_nonneg : 0 ≤ c.mSize
  size_le : c.mSize ≤ c.mCapacity
  writer_inside : Inside c (circBufferGetWriter c)
  reader_inside : Inside c (circBufferGetReader c)
  /-- The stored byte `j` is at `(mReader + j) % mCapacity`. -/
  disjoint : ∀ j < c.mSize.toNat, ¬ ((circBufferGetWriter c).1 ≤ ((c.mReader + j) % c.mCapacity : ℕ) ∧
    ((c.mReader + j) % c.mCapacity : ℕ) < (circBufferGetWriter c).1 + (circBufferGetWriter c).2)
  full_iff : (circBufferGetWriter c).2 = 0 ↔ c.mSize = c.mCapacity
  empty_iff : (circBufferGetReader c).2 = 0 ↔ c.mSize = 0

theorem bounded_of_atStart {c : CircBuffer} (h : AtStart c) : Bounded c := by
  have hlo := h.size_nonneg
  have hhi := h.size_le
  have hwriter := h.getWriter
  have hreader := h.getReader
  exact
    { size_nonneg := hlo
      size_le := hhi
      writer_inside := by
        rw [hwriter]
        unfold Inside
        split_ifs <;> simp only <;> omega
      reader_inside := by
        rw [hreader]
        exact ⟨Int.le_refl 0, hlo, by omega⟩
      disjoint := by
        intro j hj
        have hmod : (c.mReader + j) % c.mCapacity = j := by
          rw [h.reader, Nat.zero_add, Nat.mod_eq_of_lt (by omega)]
        rw [hwriter, hmod]
        split_ifs <;> simp only <;> omega
      full_iff := by
        rw [hwriter]
        simp only
        omega
      empty_iff := by rw [hreader] }

theorem Change.atStart {c d : CircBuffer} {value : ℤ} (h : AtStart c) (hc : Change c value d) :
    AtStart d := by
  have hlo := h.size_nonneg
  have hhi := h.size_le
  obtain ⟨hp, rfl⟩ := hc
  rw [Permitted, h.getWriter, h.getReader] at hp
  simp only at hp
  exact (h.changeSize value (by omega) (by omega)).2

/-- A buffer stays within its bounds in every run of permitted changes. -/
theorem bounded_run {grant : ℕ → Bool} {given : Bool} {capacity : ℤ} {c : CircBuffer}
    (hinit : (circBufferInitialize grant given capacity).2 = some c)
    {trace : List (ℤ × CircBuffer)} (hrun : Path Change c trace) :
    Bounded c ∧ ∀ p ∈ trace, Bounded p.2 := by
  have hstart := AtStart.of_initialize hinit
  have hinv : ∀ p ∈ trace, AtStart p.2 :=
    hrun.invariant (fun _ _ _ hs hst => hst.atStart hs) hstart
  exact ⟨bounded_of_atStart hstart, fun p hp => bounded_of_atStart (hinv p hp)⟩

/-- A buffer of four bytes filled, and three bytes taken. -/
theorem bounded_run_four : ∃ c t u, (circBufferInitialize (fun _ => true) true 4).2 = some c ∧
    t.mSize = 4 ∧ u.mSize = 1 ∧ Bounded c ∧ ∀ p ∈ [((4 : ℤ), t), (-3, u)], Bounded p.2 :=
  ⟨_, circBufferChangeSize _ 4, circBufferChangeSize (circBufferChangeSize _ 4) (-3), rfl, rfl, rfl,
    bounded_run (show (circBufferInitialize (fun _ => true) true 4).2 = some _ from rfl)
      (.cons ⟨.inl (by decide), rfl⟩ (.cons ⟨.inr (by decide), rfl⟩ .nil))⟩

end TaskLunev.CircBufferBounds
