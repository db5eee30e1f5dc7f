import TaskLunev.CircBufferModel
import TaskLunev.FifoLedger
import TaskLunev.TransitionRuns

/-!
# Order in the circular buffer

Producers and consumers take turns on a fresh buffer. Whatever they do, the
reader stays at the start of the buffer: a consumer that takes only a part
lowers the size and leaves the bytes it took in front. A run is therefore in
order exactly when every consumer finds the stored bytes repeating with the
number of bytes it takes as period, as is the case when it takes all of them.
-/
namespace TaskLunev.CircBufferOrder
open ByteMemory CircBufferModel FifoLedger TransitionRuns

inductive Op where
  | produce (bytes : List Byte)
  | consume (k : ℕ)
  deriving DecidableEq, Repr

structure Session where
  circ : CircBuffer
  ledger : Ledger Byte

namespace Session

def start (c : CircBuffer) : Session := ⟨c, .empty⟩

/-- The copy of a producer or consumer to or from the pointer it was given,
then the change of size; `none` when the copy leaves the buffer. -/
def run (s : Session) : Op → Option Session
  | .produce bytes => do
      let off ← (circBufferGetWriter s.circ).1.toNat?
      let mBuf ← writeBytes s.circ.mBuf off bytes
      return ⟨circBufferChangeSize { s.circ with mBuf } bytes.length, s.ledger.produce bytes⟩
  | .consume k => do
      let off ← (circBufferGetReader s.circ).1.toNat?
      let bytes ← readBytes s.circ.mBuf off k
      return ⟨circBufferChangeSize s.circ (-k), s.ledger.consume bytes⟩

/-- Bytes consumed, then the bytes stored, are the bytes produced. -/
def InOrder (s : Session) : Prop := s.ledger.Balanced s.circ.stored

end Session

namespace Op

/-- A step moves at most as many bytes as the getter returned. -/
def Permitted (op : Op) (c : CircBuffer) : Prop :=
  match op with
  | produce bytes => bytes.length ≤ (circBufferGetWriter c).2
  | consume k => k ≤ (circBufferGetReader c).2

/-- The stored bytes repeat with the number of bytes taken as period. A step
that takes none or all of them meets this. -/
def Repeats (op : Op) (c : CircBuffer) : Prop :=
  match op with
  | produce _ => True
  | consume k => c.stored.take (c.mSize.toNat - k) = c.stored.drop k

theorem repeats_none (c : CircBuffer) : (consume 0).Repeats c := by
  change c.stored.take (c.mSize.toNat - 0) = c.stored.drop 0
  rw [Nat.sub_zero, List.drop_zero]
  exact List.take_of_length_le (by simp [CircBuffer.stored])

theorem repeats_all (c : CircBuffer) : (consume c.mSize.toNat).Repeats c := by
  change c.stored.take (c.mSize.toNat - c.mSize.toNat) = c.stored.drop c.mSize.toNat
  rw [Nat.sub_self, List.take_zero, List.drop_of_length_le (by simp [CircBuffer.stored])]

end Op

def Step (s : Session) (op : Op) (t : Session) : Prop :=
  op.Permitted s.circ ∧ s.run op = some t

/-! ## What every run keeps -/

/-- The reader is at the start and the contents fit. -/
structure AtStart (c : CircBuffer) : Prop where
  reader : c.mReader = 0
  size_nonneg : 0 ≤ c.mSize
  size_le : c.mSize ≤ c.mCapacity

namespace AtStart
variable {c : CircBuffer}

theorem of_initialize {grant : ℕ → Bool} {given : Bool} {capacity : ℤ}
    (h : (circBufferInitialize grant given capacity).2 = some c) : AtStart c := by
  unfold circBufferInitialize at h
  split_ifs at h
  cases h
  exact ⟨rfl, Int.le_refl 0, Int.natCast_nonneg _⟩

theorem stored_of_initialize {grant : ℕ → Bool} {given : Bool} {capacity : ℤ}
    (h : (circBufferInitialize grant given capacity).2 = some c) : c.stored = [] := by
  unfold circBufferInitialize at h
  split_ifs at h
  cases h
  rfl

theorem writer_eq (h : AtStart c) : c.writer = c.mSize := by
  simp [CircBuffer.writer, h.reader]

theorem getReader (h : AtStart c) : circBufferGetReader c = (0, c.mSize) := by
  unfold circBufferGetReader
  rw [h.writer_eq, if_pos h.size_le, h.reader]
  rfl

/-- The free bytes follow the stored ones; a full buffer offers none. -/
theorem getWriter (h : AtStart c) :
    circBufferGetWriter c = (if c.mSize < c.mCapacity then c.mSize else 0, c.mCapacity - c.mSize) := by
  have := h.size_le
  unfold circBufferGetWriter
  rw [h.writer_eq, h.reader]
  split_ifs with hlt heq hne
  · rfl
  · exact (hne rfl).elim
  · rw [heq, sub_self]
  · omega

theorem stored_eq (h : AtStart c) : c.stored = slice c.mBuf 0 c.mSize.toNat := by
  have hle := h.size_le
  unfold CircBuffer.stored slice
  rw [List.range_eq_range', h.reader]
  apply List.map_congr_left
  intro j hj
  rw [List.mem_range'_1] at hj
  rw [Nat.zero_add, Nat.mod_eq_of_lt (by omega)]

/-- A change of size moves nothing: the contents never end at the end of the
buffer after a shrink. -/
theorem changeSize (h : AtStart c) (value : ℤ) (hlo : 0 ≤ c.mSize + value)
    (hhi : c.mSize + value ≤ c.mCapacity) :
    circBufferChangeSize c value = { c with mSize := c.mSize + value } ∧
      AtStart (circBufferChangeSize c value) := by
  have heq : circBufferChangeSize c value = { c with mSize := c.mSize + value } := by
    have := h.size_le
    simp only [circBufferChangeSize, CircBuffer.writer, h.reader]
    split_ifs with hneg hend
    · omega
    · rfl
    · rfl
  rw [heq]
  exact ⟨rfl, h.reader, hlo, hhi⟩

end AtStart

variable {s t : Session}

/-- Where a permitted copy to the writer goes: behind the contents, or nowhere
at all when the buffer is full. -/
theorem AtStart.writer_offset {c : CircBuffer} (h : AtStart c) {k : ℕ}
    (hk : k ≤ (circBufferGetWriter c).2) :
    ∃ off : ℕ, (circBufferGetWriter c).1.toNat? = some off ∧ off + k ≤ c.mCapacity ∧
      (off = c.mSize.toNat ∨ off = 0 ∧ k = 0) := by
  have hlo := h.size_nonneg
  have hhi := h.size_le
  rw [h.getWriter] at hk ⊢
  split_ifs with hlt
  · exact ⟨c.mSize.toNat, Int.mem_toNat?.mpr (by omega), by omega, .inl rfl⟩
  · exact ⟨0, rfl, by omega, .inr ⟨rfl, by omega⟩⟩

theorem produce_spec (h : AtStart s.circ) {bytes : List Byte}
    (hp : (Op.produce bytes).Permitted s.circ) :
    ∃ t, s.run (.produce bytes) = some t ∧ AtStart t.circ ∧
      t.circ.stored = s.circ.stored ++ bytes ∧ t.ledger = s.ledger.produce bytes := by
  have hlo : 0 ≤ s.circ.mSize := h.size_nonneg
  have hfits : s.circ.mSize + bytes.length ≤ s.circ.mCapacity := by
    have := hp
    simp only [Op.Permitted, h.getWriter] at this
    omega
  obtain ⟨off, hoff, hin, hat⟩ := h.writer_offset hp
  obtain ⟨mBuf, hw⟩ : ∃ mBuf, writeBytes s.circ.mBuf off bytes = some mBuf := ⟨_, if_pos hin⟩
  have hwritten : AtStart { s.circ with mBuf } := ⟨h.reader, h.size_nonneg, h.size_le⟩
  obtain ⟨hsize, hstart⟩ := hwritten.changeSize bytes.length
    (show 0 ≤ s.circ.mSize + bytes.length by omega) hfits
  refine ⟨⟨circBufferChangeSize { s.circ with mBuf } bytes.length, s.ledger.produce bytes⟩, ?_,
    hstart, ?_, rfl⟩
  · simp only [Session.run, hoff, hw, Option.bind_eq_bind, Option.bind_some, Option.pure_def]
  · rw [hstart.stored_eq, hsize, h.stored_eq]
    have hsum : (s.circ.mSize + bytes.length).toNat = s.circ.mSize.toNat + bytes.length := by omega
    change slice mBuf 0 (s.circ.mSize + bytes.length).toNat = slice s.circ.mBuf 0 s.circ.mSize.toNat ++ bytes
    rw [hsum, slice_add, slice_writeBytes_disjoint hw (by omega)]
    rcases hat with rfl | ⟨rfl, hnone⟩
    · rw [Nat.zero_add, slice_writeBytes_self hw]
    · rw [hnone, slice_zero, List.length_eq_zero_iff.mp hnone]

theorem consume_spec (h : AtStart s.circ) {k : ℕ} (hp : (Op.consume k).Permitted s.circ) :
    ∃ t, s.run (.consume k) = some t ∧ AtStart t.circ ∧
      t.circ.stored = s.circ.stored.take (s.circ.mSize.toNat - k) ∧
      t.ledger = s.ledger.consume (s.circ.stored.take k) := by
  have hhi : s.circ.mSize ≤ s.circ.mCapacity := h.size_le
  have hk : k ≤ s.circ.mSize := by
    have := hp
    simpa only [Op.Permitted, h.getReader] using this
  obtain ⟨hsize, hstart⟩ := h.changeSize (-k) (by omega) (by omega)
  have hread : readBytes s.circ.mBuf 0 k = some (slice s.circ.mBuf 0 k) := if_pos (by omega)
  have htaken : slice s.circ.mBuf 0 k = s.circ.stored.take k := by
    rw [h.stored_eq, slice_take _ _ (by omega)]
  refine ⟨⟨circBufferChangeSize s.circ (-k), s.ledger.consume (slice s.circ.mBuf 0 k)⟩, ?_, hstart, ?_, ?_⟩
  · have hoff : (circBufferGetReader s.circ).1.toNat? = some 0 := by rw [h.getReader]; rfl
    simp only [Session.run, hoff, hread, Option.bind_eq_bind, Option.bind_some, Option.pure_def]
  · rw [hstart.stored_eq, hsize, h.stored_eq, slice_take _ _ (by omega)]
    change slice s.circ.mBuf 0 (s.circ.mSize + -k).toNat = _
    congr 1
    omega
  · rw [htaken]

theorem permitted_step (h : AtStart s.circ) {op : Op} (hp : op.Permitted s.circ) :
    ∃ t, Step s op t := by
  cases op with
  | produce bytes =>
      obtain ⟨t, ht, -⟩ := produce_spec h hp
      exact ⟨t, hp, ht⟩
  | consume k =>
      obtain ⟨t, ht, -⟩ := consume_spec h hp
      exact ⟨t, hp, ht⟩

theorem Step.atStart {op : Op} (hs : AtStart s.circ) (h : Step s op t) : AtStart t.circ := by
  obtain ⟨hp, hrun⟩ := h
  cases op with
  | produce bytes =>
      obtain ⟨u, hu, hstart, -⟩ := produce_spec hs hp
      cases hu.symm.trans hrun
      exact hstart
  | consume k =>
      obtain ⟨u, hu, hstart, -⟩ := consume_spec hs hp
      cases hu.symm.trans hrun
      exact hstart

/-- One step keeps the order exactly when the bytes it finds repeat. -/
theorem Step.inOrder_iff {op : Op} (hs : AtStart s.circ) (ho : s.InOrder) (h : Step s op t) :
    t.InOrder ↔ op.Repeats s.circ := by
  obtain ⟨hp, hrun⟩ := h
  cases op with
  | produce bytes =>
      obtain ⟨u, hu, -, hstored, hledger⟩ := produce_spec hs hp
      cases hu.symm.trans hrun
      unfold Session.InOrder
      rw [hstored, hledger]
      exact iff_of_true (ho.produce bytes) trivial
  | consume k =>
      obtain ⟨u, hu, -, hstored, hledger⟩ := consume_spec hs hp
      cases hu.symm.trans hrun
      unfold Session.InOrder Op.Repeats
      rw [hstored, hledger, ho.consume_iff]
      conv_lhs => rhs; rw [← List.take_append_drop k s.circ.stored]
      exact List.append_right_inj _

/-- From a fresh buffer on, the states of a run are all in order exactly when
all its steps find repeating bytes, and no permitted step leaves the buffer. -/
theorem inOrder_run_iff {grant : ℕ → Bool} {given : Bool} {capacity : ℤ} {c : CircBuffer}
    (hinit : (circBufferInitialize grant given capacity).2 = some c)
    {trace : List (Op × Session)} (hrun : Path Step (.start c) trace) :
    ((∀ p ∈ trace, p.2.InOrder) ↔ ∀ m ∈ moves (.start c) trace, m.2.Repeats m.1.circ) ∧
      ∀ op : Op, op.Permitted (final (.start c) trace).circ →
        ∃ t, Step (final (.start c) trace) op t := by
  have hstart : AtStart (Session.start c).circ := AtStart.of_initialize hinit
  have horder : (Session.start c).InOrder := by
    unfold Session.InOrder
    rw [show (Session.start c).circ.stored = [] from AtStart.stored_of_initialize hinit]
    exact Ledger.balanced_empty
  have hkeep : ∀ s op t, AtStart s.circ → Step s op t → AtStart t.circ :=
    fun _ _ _ hs hst => hst.atStart hs
  constructor
  · exact hrun.states_iff_moves hkeep (fun _ _ _ hs ho hst => hst.inOrder_iff hs ho) hstart horder
  · exact fun op hp => permitted_step (hrun.final_invariant hkeep hstart) hp

/-- Three bytes put into four, then all three taken. -/
theorem inOrder_run_three : ∃ c t u,
    (circBufferInitialize (fun _ => true) true 4).2 = some c ∧
    ((∀ p ∈ [(Op.produce [1, 2, 3], t), (Op.consume 3, u)], p.2.InOrder) ↔
      ∀ m ∈ moves (.start c) [(Op.produce [1, 2, 3], t), (Op.consume 3, u)],
        m.2.Repeats m.1.circ) ∧
    ∀ op : Op, op.Permitted u.circ → ∃ v, Step u op v :=
  ⟨_, _, _, rfl, inOrder_run_iff (show (circBufferInitialize (fun _ => true) true 4).2 = some _ from rfl)
    (.cons ⟨by unfold Op.Permitted; decide, rfl⟩ (.cons ⟨by unfold Op.Permitted; decide, rfl⟩ .nil))⟩

/-- Three bytes put in and one taken: the byte taken is still the first one
stored, and the last one is gone. -/
theorem partial_take_repeats : ∃ c t u,
    (circBufferInitialize (fun _ => true) true 4).2 = some c ∧
    Path Step (.start c) [(Op.produce [1, 2, 3], t), (Op.consume 1, u)] ∧
    u.ledger = ⟨[1, 2, 3], [1]⟩ ∧ u.circ.stored = [1, 2] ∧ ¬ u.InOrder :=
  ⟨_, _, _, rfl, .cons ⟨by unfold Op.Permitted; decide, rfl⟩
    (.cons ⟨by unfold Op.Permitted; decide, rfl⟩ .nil), rfl, rfl, by
      unfold Session.InOrder Ledger.Balanced; decide⟩

end TaskLunev.CircBufferOrder
