import TaskLunev.BitStream
import TaskLunev.SignalModel
import TaskLunev.TransitionRuns

/-!
# No bit is lost, doubled or reordered

At any time at most one of these is true: a bit is pending for the reader, the
reader has taken a bit and not yet confirmed it, a confirmation is pending for
the writer. None of them is while the writer is free to send. Therefore the
bits stored, the bits in the byte in work, the bit under way and the bits the
writer still has are always the bits of the file.
-/
namespace TaskLunev.SignalRelay
open ByteMemory BitStream SignalModel TransitionRuns

/-! ## The token -/

/-- The reader has taken a bit and not confirmed it. -/
def holds (r : Reader) : Bool := (r.pc = .testing && !r.sigChild) || r.pc = .confirming

/-- How many bits and confirmations are under way. -/
def tokens (s : State) : ℕ :=
  (s.reader.pending .usr1).toNat + (s.reader.pending .usr2).toNat + (holds s.reader).toNat +
    (s.writer.pending .usr1).toNat

/-- The writer has a confirmation for every bit it has sent. -/
def Confirmed (w : Writer) : Prop :=
  w.pc = .reading ∨ w.pc = .sending ∨ (w.pc = .testing ∧ w.timeConfReaderOver = false) ∨ w.Returned 0

theorem tokens_eq_zero {s : State} : tokens s = 0 ↔
    s.reader.pending .usr1 = false ∧ s.reader.pending .usr2 = false ∧ holds s.reader = false ∧
      s.writer.pending .usr1 = false := by
  simp only [tokens, Nat.add_eq_zero_iff, Bool.toNat_eq_zero, and_assoc]

structure OneToken (s : State) : Prop where
  atMost : tokens s ≤ 1
  none : Confirmed s.writer → tokens s = 0

section
variable {s : State}

/-- Only one of the two bits can be pending. -/
theorem OneToken.usr2 (h : OneToken s) (hp : s.reader.pending .usr1 = true) :
    s.reader.pending .usr2 = false := by
  have hle := h.atMost
  simp only [tokens, hp, Bool.toNat_true] at hle
  rw [← Bool.toNat_eq_zero]
  omega

theorem OneToken.usr1 (h : OneToken s) (hp : s.reader.pending .usr2 = true) :
    s.reader.pending .usr1 = false := by
  have hle := h.atMost
  simp only [tokens, hp, Bool.toNat_true] at hle
  rw [← Bool.toNat_eq_zero]
  omega

/-- No bit is pending while the reader has one. -/
theorem OneToken.pending (h : OneToken s) (hholds : holds s.reader = true) :
    s.reader.pending .usr1 = false ∧ s.reader.pending .usr2 = false := by
  have hle := h.atMost
  simp only [tokens, hholds, Bool.toNat_true] at hle
  constructor
  · rw [← Bool.toNat_eq_zero]
    omega
  · rw [← Bool.toNat_eq_zero]
    omega

/-- A reader that has a bit keeps the writer waiting. -/
theorem OneToken.unconfirmed (h : OneToken s) (hholds : holds s.reader = true) :
    ¬ Confirmed s.writer := fun hw => by
  obtain ⟨-, -, hnone, -⟩ := tokens_eq_zero.mp (h.none hw)
  rw [hholds] at hnone
  cases hnone

end

/-! ## The stream -/

/-- The bits of the byte in work that the reader has. -/
def got (r : Reader) : List Bool := lowBits r.buf (if r.pc = .confirming then r.i + 1 else r.i)

/-- The bits sent and not yet put into the byte. -/
def inFlight (r : Reader) : List Bool :=
  (if r.pending .usr1 then [false] else []) ++ (if r.pending .usr2 then [true] else []) ++
    if r.pc = .testing ∧ r.sigChild = false then [r.curBit] else []

theorem not_testing {r : Reader} (h : holds r = false) : ¬ (r.pc = .testing ∧ r.sigChild = false) := by
  intro ⟨hpc, hchild⟩
  simp [holds, hpc, hchild] at h

theorem inFlight_nil {r : Reader} (h1 : r.pending .usr1 = false) (h2 : r.pending .usr2 = false)
    (hr : holds r = false) : inFlight r = [] := by
  simp [inFlight, h1, h2, not_testing hr]

/-- What a writer that goes on has to send, and what one that returns `0` has
left: nothing. -/
def Left (w : Writer) (rest : List Bool) : Prop :=
  match w.pc with
  | .reading => rest = bits w.unread
  | .sending => ∃ b buf, w.buf = b :: buf ∧ w.i < 8 ∧
      rest = lowBits b (8 - w.i) ++ bits buf ++ bits w.unread
  | .suspended | .testing => ∃ b buf, w.buf = b :: buf ∧ w.i < 8 ∧
      rest = lowBits b (7 - w.i) ++ bits buf ++ bits w.unread
  | .returned code => code = 0 → rest = []
  | .exited code => code = some 0 → rest = []

/-- The byte in work has only the bits received. -/
structure ByteInWork (r : Reader) : Prop where
  count : if r.pc = .storing then r.i = 8 else r.i < 8
  above : ∀ j, (if r.pc = .confirming then r.i + 1 else r.i) ≤ j → r.buf.getLsbD j = false
  child : r.sigChild = true → r.pc = .testing ∨ r.pc = .returned

/-- The reader learns of the death where it waits, and does not go on from there. -/
theorem ByteInWork.alive {r : Reader} (h : ByteInWork r) (htesting : r.pc ≠ .testing)
    (hreturned : r.pc ≠ .returned) : r.sigChild = false := by
  rw [← Bool.not_eq_true]
  intro hchild
  cases h.child hchild with
  | inl hpc => exact htesting hpc
  | inr hpc => exact hreturned hpc

/-- A writer that waits has shifted the byte in work. -/
theorem left_waiting {w : Writer} {rest : List Bool} (hpc : w.pc = .suspended ∨ w.pc = .testing) :
    Left w rest ↔ ∃ b buf, w.buf = b :: buf ∧ w.i < 8 ∧
      rest = lowBits b (7 - w.i) ++ bits buf ++ bits w.unread := by
  cases hpc with
  | inl hpc => simp only [Left, hpc]
  | inr hpc => simp only [Left, hpc]

structure Inv (file : List Byte) (s : State) : Prop where
  token : OneToken s
  byte : ByteInWork s.reader
  stream : ∃ rest, bits s.reader.out ++ got s.reader ++ inFlight s.reader ++ rest = bits file ∧
    Left s.writer rest

theorem inv_start (file : List Byte) : Inv file (.start file) where
  token := ⟨Nat.zero_le 1, fun _ => rfl⟩
  byte := ⟨Nat.succ_pos 7, fun j _ => by simp [State.start], fun h => nomatch h⟩
  stream := ⟨bits file, rfl, rfl⟩

/-! ## The writer's steps -/

section
variable {file : List Byte} {s t : State}

/-- A step of the writer that sends nothing: its token and what it has left
are all that changes. -/
theorem Inv.writer {w : Writer} (h : Inv file s) (hp : w.pending .usr1 = s.writer.pending .usr1)
    (hc : Confirmed w → Confirmed s.writer) (hl : ∀ rest, Left s.writer rest → Left w rest) :
    Inv file { s with writer := w } := by
  have htokens : tokens { s with writer := w } = tokens s := by simp only [tokens, hp]
  obtain ⟨rest, hstream, hrest⟩ := h.stream
  exact
    { token := ⟨htokens ▸ h.token.atMost, fun hw => htokens ▸ h.token.none (hc hw)⟩
      byte := h.byte
      stream := ⟨rest, hstream, hl rest hrest⟩ }

theorem Inv.read {curSize : ℕ} {w : Writer} (h : Inv file s) (ht : s.writer.read curSize = some w) :
    Inv file { s with writer := w } := by
  unfold Writer.read at ht
  split at ht
  next hread =>
    obtain ⟨hpc, -, hlen, hend⟩ := hread
    split at ht
    next hzero =>
      cases ht
      refine h.writer rfl (fun _ => .inl hpc) fun rest hrest _ => ?_
      simp only [Left, hpc, hend hzero] at hrest
      exact hrest
    next hpos =>
      cases ht
      refine h.writer rfl (fun _ => .inl hpc) fun rest hrest => ?_
      simp only [Left, hpc] at hrest
      cases hunread : s.writer.unread with
      | nil => simp [hunread] at hlen; exact absurd hlen hpos
      | cons b unread =>
          obtain ⟨k, rfl⟩ := Nat.exists_eq_succ_of_ne_zero hpos
          refine ⟨b, unread.take k, rfl, Nat.succ_pos 7, ?_⟩
          rw [hrest, hunread, bits_cons, List.append_assoc, ← bits_append, List.drop_succ_cons,
            List.take_append_drop]
          rfl
  next => cases ht

theorem Inv.readFails {w : Writer} (h : Inv file s) (ht : s.writer.readFails = some w) :
    Inv file { s with writer := w } := by
  unfold Writer.readFails at ht
  split at ht
  next hpc =>
    cases ht
    exact h.writer rfl (fun _ => .inl hpc) fun _ _ hcode => absurd hcode (by decide)
  next => cases ht

theorem Inv.writerTests {w : Writer} (h : Inv file s) (ht : s.writer.test = some w) :
    Inv file { s with writer := w } := by
  unfold Writer.test at ht
  split at ht
  next hpc =>
    cases hover : s.writer.timeConfReaderOver with
    | true =>
        rw [hover] at ht
        cases ht
        refine h.writer rfl (fun hw => ?_) fun _ _ hcode => absurd hcode (by decide)
        simp [Confirmed, Writer.Returned] at hw
    | false =>
        have hconf : Confirmed s.writer := .inr (.inr (.inl ⟨hpc, hover⟩))
        rw [hover] at ht
        simp only [Bool.false_eq_true, if_false] at ht
        split at ht
        next hi =>
          cases ht
          refine h.writer rfl (fun _ => hconf) fun rest hrest => ?_
          obtain ⟨b, buf, hbuf, -, hrest⟩ := (left_waiting (.inr hpc)).mp hrest
          exact ⟨b, buf, hbuf, hi, by rw [hrest, show 8 - (s.writer.i + 1) = 7 - s.writer.i by omega]⟩
        next hi =>
          cases ht
          refine h.writer rfl (fun _ => hconf) fun rest hrest => ?_
          obtain ⟨b, buf, hbuf, hlt, hrest⟩ := (left_waiting (.inr hpc)).mp hrest
          have hseven : 7 - s.writer.i = 0 := by omega
          rw [hseven, lowBits_zero, List.nil_append] at hrest
          cases buf with
          | nil => simpa [Left, hbuf] using hrest
          | cons c buf =>
              simp only [Left, hbuf, List.tail_cons, reduceCtorEq, if_false]
              exact ⟨c, buf, rfl, by decide, by rw [hrest, bits_cons]⟩
  next => cases ht

theorem Inv.writerTakes {sig : Signal} {w : Writer} (h : Inv file s)
    (ht : s.writer.take sig = some w) : Inv file { s with writer := w } := by
  unfold Writer.take at ht
  split at ht
  next hpend =>
    obtain ⟨hpc, hpend⟩ := hpend
    cases sig with
    | usr1 =>
        cases ht
        have htokens : tokens s = 1 := by
          have hle := h.token.atMost
          unfold tokens at hle ⊢
          rw [hpend] at hle ⊢
          simp only [Bool.toNat_true] at hle ⊢
          omega
        have hzero : tokens { s with writer := { s.writer with
            pc := .testing, pending := s.writer.pending.clear .usr1 } } = 0 := by
          unfold tokens at htokens ⊢
          rw [hpend] at htokens
          simp only [Pending.clear, Function.update_self, Bool.toNat_true, Bool.toNat_false] at htokens ⊢
          omega
        obtain ⟨rest, hstream, hrest⟩ := h.stream
        exact ⟨⟨by rw [hzero]; decide, fun _ => hzero⟩, h.byte, rest, hstream,
          (left_waiting (.inl hpc)).mp hrest⟩
    | alrm =>
        cases ht
        refine h.writer ?_ (fun hw => ?_) fun rest hrest => (left_waiting (.inl hpc)).mp hrest
        · simp [Pending.clear]
        · simp [Confirmed, Writer.Returned] at hw
    | usr2 => cases ht
    | chld => cases ht
  next => cases ht

/-- The bit sent is the first one the writer has left. -/
theorem Inv.send {sig : Signal} {w : Writer} (h : Inv file s) (ht : s.writer.send = some (sig, w)) :
    Inv file { writer := w, reader := s.reader.raise sig } := by
  unfold Writer.send at ht
  split at ht
  next b buf hpc hbuf =>
    obtain ⟨hu1, hu2, hholds, hw⟩ := tokens_eq_zero.mp (h.token.none (.inr (.inl hpc)))
    obtain ⟨rest, hstream, hrest⟩ := h.stream
    have hleft : s.writer.i < 8 ∧
        rest = lowBits b (8 - s.writer.i) ++ bits buf ++ bits s.writer.unread := by
      simpa [Left, hpc, hbuf] using hrest
    obtain ⟨hi, rfl⟩ := hleft
    rw [inFlight_nil hu1 hu2 hholds,
      show 8 - s.writer.i = (7 - s.writer.i) + 1 by omega, lowBits_shift b (by omega)] at hstream
    have hsent : ∀ sig, sig = (if b.getLsbD 0 then Signal.usr2 else Signal.usr1) →
        inFlight (s.reader.raise sig) = [b.getLsbD 0] ∧
          tokens { s with reader := s.reader.raise sig } = 1 := by
      rintro sig rfl
      have hnot := not_testing hholds
      cases b.getLsbD 0 <;>
        simp_all [inFlight, tokens, Reader.raise, Pending.raise, holds]
    cases ht
    obtain ⟨hbit, htok⟩ := hsent _ rfl
    refine ⟨⟨htok.le, fun hw => ?_⟩, ⟨h.byte.count, h.byte.above, h.byte.child⟩, _, ?_, _, buf, rfl, hi, rfl⟩
    · simp [Confirmed, Writer.Returned] at hw
    · rw [← hstream, hbit]
      simp [got, Reader.raise]
  next => cases ht

theorem Inv.alarm (h : Inv file s) : Inv file { s with writer := s.writer.raise .alrm } :=
  h.writer (by simp [Writer.raise, Pending.raise]) (fun hw => hw) fun _ hrest => hrest

/-- A death is announced by a signal that carries no bit. -/
theorem Inv.exit {w : Writer} (h : Inv file s) (ht : s.writer.exit = some w) :
    Inv file { writer := w, reader := s.reader.raise .chld } := by
  have hkeep : w.pending = s.writer.pending ∧ (Confirmed w → Confirmed s.writer) ∧
      ∀ rest, Left s.writer rest → Left w rest := by
    unfold Writer.exit at ht
    split at ht
    next => cases ht
    next code hpc =>
      cases ht
      refine ⟨rfl, fun hw => ?_, fun rest hrest hcode => ?_⟩
      · simp only [Confirmed, Writer.Returned, reduceCtorEq, false_and, false_or,
          WriterPc.exited.injEq, Option.some.injEq] at hw
        exact .inr (.inr (.inr (.inl (by rw [hpc, hw]))))
      · simp only [Left, hpc] at hrest
        exact hrest (Option.some.inj hcode)
    next =>
      cases ht
      refine ⟨rfl, fun hw => ?_, fun _ _ hcode => nomatch hcode⟩
      simp [Confirmed, Writer.Returned] at hw
  obtain ⟨hp, hc, hl⟩ := hkeep
  have hw := h.writer (by rw [hp]) hc hl
  have hflight : inFlight (s.reader.raise .chld) = inFlight s.reader := rfl
  have htok : tokens { writer := w, reader := s.reader.raise .chld } =
      tokens { s with writer := w } := rfl
  obtain ⟨rest, hstream, hrest⟩ := hw.stream
  exact
    { token := ⟨htok ▸ hw.token.atMost, fun hconf => htok ▸ hw.token.none hconf⟩
      byte := ⟨h.byte.count, h.byte.above, h.byte.child⟩
      stream := ⟨rest, by rw [hflight]; exact hstream, hrest⟩ }

/-! ## The reader's steps -/

/-- A step of the reader that keeps the stream and the number of tokens. -/
theorem Inv.reader {r : Reader} (h : Inv file s) (htok : tokens { s with reader := r } = tokens s)
    (hbyte : ByteInWork r)
    (hstream : bits r.out ++ got r ++ inFlight r =
      bits s.reader.out ++ got s.reader ++ inFlight s.reader) :
    Inv file { s with reader := r } := by
  obtain ⟨rest, hrest⟩ := h.stream
  exact
    { token := ⟨htok ▸ h.token.atMost, fun hw => htok ▸ h.token.none hw⟩
      byte := hbyte
      stream := ⟨rest, by rw [hstream]; exact hrest.1, hrest.2⟩ }

theorem Inv.readerTakes {sig : Signal} {r : Reader} (h : Inv file s)
    (ht : s.reader.take sig = some r) : Inv file { s with reader := r } := by
  unfold Reader.take at ht
  split at ht
  next hpend =>
    obtain ⟨hpc, hpend⟩ := hpend
    have hchild : s.reader.sigChild = false := h.byte.alive (by simp [hpc]) (by simp [hpc])
    have hcount := h.byte.count
    have habove := h.byte.above
    simp only [hpc, reduceCtorEq, if_false] at hcount habove
    -- a signal that carries a bit is the only token, and the bit stays in flight
    cases sig with
    | usr1 =>
        cases ht
        have hu2 := h.token.usr2 hpend
        refine h.reader ?_ ⟨hcount, habove, fun _ => .inl rfl⟩ ?_
        · simp [tokens, Pending.clear, holds, hpc, hchild, hpend, hu2]
        · simp [got, inFlight, hpc, hchild, hpend, hu2, Pending.clear]
    | usr2 =>
        cases ht
        have hu1 := h.token.usr1 hpend
        refine h.reader ?_ ⟨hcount, habove, fun _ => .inl rfl⟩ ?_
        · simp [tokens, Pending.clear, holds, hpc, hchild, hpend, hu1]
        · simp [got, inFlight, hpc, hchild, hpend, hu1, Pending.clear]
    | chld =>
        cases ht
        refine h.reader ?_ ⟨hcount, habove, fun _ => .inl rfl⟩ ?_
        · simp [tokens, Pending.clear, holds, hpc]
        · simp [got, inFlight, hpc, Pending.clear]
    | alrm => cases ht
  next => cases ht

theorem Inv.readerTests {r : Reader} (h : Inv file s) (ht : s.reader.test = some r) :
    Inv file { s with reader := r } := by
  unfold Reader.test at ht
  split at ht
  next hpc =>
    have hcount := h.byte.count
    have habove := h.byte.above
    simp only [hpc, reduceCtorEq, if_false] at hcount habove
    cases hchild : s.reader.sigChild with
    | true =>
        rw [hchild] at ht
        cases ht
        refine h.reader ?_ ⟨hcount, habove, fun _ => .inr rfl⟩ ?_
        · simp [tokens, holds, hpc, hchild]
        · simp [got, inFlight, hpc, hchild]
    | false =>
        rw [hchild] at ht
        cases ht
        have hnone := h.token.pending (by simp [holds, hpc, hchild])
        refine h.reader ?_ ⟨hcount, ?_, fun hc => ?_⟩ ?_
        · simp [tokens, holds, hpc, hchild]
        · exact fun j hj => getLsbD_or_above s.reader.buf s.reader.curBit habove j hj
        · simp at hc
        · simp [got, inFlight, hpc, hchild, hnone.1, hnone.2,
            lowBits_or s.reader.buf s.reader.curBit hcount habove]
  next => cases ht

theorem Inv.confirm {r : Reader} (h : Inv file s) (ht : s.reader.confirm = some r) :
    Inv file { writer := s.writer.raise .usr1, reader := r } := by
  unfold Reader.confirm at ht
  split at ht
  next hpc =>
    cases ht
    have hcount := h.byte.count
    have habove := h.byte.above
    simp only [hpc, reduceCtorEq, if_false, if_true] at hcount habove
    have hholds : holds s.reader = true := by simp [holds, hpc]
    have hnone := h.token.pending hholds
    have hchild := h.byte.alive (by simp [hpc]) (by simp [hpc])
    obtain ⟨rest, hstream, hrest⟩ := h.stream
    have hpc' : ∀ pc : ReaderPc, pc = (if s.reader.i + 1 < 8 then .suspended else .storing) →
        pc ≠ .testing ∧ pc ≠ .confirming := by
      rintro pc rfl
      split <;> decide
    obtain ⟨hntest, hnconf⟩ := hpc' _ rfl
    refine ⟨⟨?_, fun hw => ?_⟩, ⟨?_, ?_, ?_⟩, rest, ?_, hrest⟩
    · simp [tokens, holds, hntest, hnconf, hnone.1, hnone.2, Writer.raise, Pending.raise]
    · exact absurd hw (h.token.unconfirmed hholds)
    · by_cases hi : s.reader.i + 1 < 8
      · simp [hi]
      · simp [hi]
        omega
    · simpa [hnconf] using habove
    · intro hc
      exact absurd (hchild.symm.trans hc) (by decide)
    · rw [← hstream]
      simp [got, inFlight, hpc, hntest, hnconf, hnone.1, hnone.2]
  next => cases ht

theorem Inv.store {r : Reader} (h : Inv file s) (ht : s.reader.store = some r) :
    Inv file { s with reader := r } := by
  unfold Reader.store at ht
  split at ht
  next hpc =>
    cases ht
    have hcount := h.byte.count
    simp only [hpc, if_true] at hcount
    have hchild := h.byte.alive (by simp [hpc]) (by simp [hpc])
    refine h.reader ?_ ⟨Nat.succ_pos 7, fun j _ => by simp, fun hc => ?_⟩ ?_
    · simp [tokens, holds, hpc]
    · exact absurd (hchild.symm.trans hc) (by decide)
    · simp [got, inFlight, hpc, hcount]
  next => cases ht

/-- Every event, wherever it comes, keeps the bits of the file together. -/
theorem Inv.next {e : Event} (h : Inv file s) (ht : s.next e = some t) : Inv file t := by
  cases e with
  | alarm =>
      cases ht
      exact h.alarm
  | send =>
      obtain ⟨⟨sig, w⟩, hw, rfl⟩ := Option.map_eq_some_iff.mp ht
      exact h.send hw
  | read curSize =>
      obtain ⟨w, hw, rfl⟩ := Option.map_eq_some_iff.mp ht
      exact h.read hw
  | readFails =>
      obtain ⟨w, hw, rfl⟩ := Option.map_eq_some_iff.mp ht
      exact h.readFails hw
  | writerTakes sig =>
      obtain ⟨w, hw, rfl⟩ := Option.map_eq_some_iff.mp ht
      exact h.writerTakes hw
  | writerTests =>
      obtain ⟨w, hw, rfl⟩ := Option.map_eq_some_iff.mp ht
      exact h.writerTests hw
  | exit =>
      obtain ⟨w, hw, rfl⟩ := Option.map_eq_some_iff.mp ht
      exact h.exit hw
  | readerTakes sig =>
      obtain ⟨r, hr, rfl⟩ := Option.map_eq_some_iff.mp ht
      exact h.readerTakes hr
  | readerTests =>
      obtain ⟨r, hr, rfl⟩ := Option.map_eq_some_iff.mp ht
      exact h.readerTests hr
  | confirm =>
      obtain ⟨r, hr, rfl⟩ := Option.map_eq_some_iff.mp ht
      exact h.confirm hr
  | store =>
      obtain ⟨r, hr, rfl⟩ := Option.map_eq_some_iff.mp ht
      exact h.store hr

/-! ## Runs -/

theorem Inv.out_begins (h : Inv file s) : s.reader.out <+: file := by
  obtain ⟨rest, hstream, -⟩ := h.stream
  refine prefix_of_bits (by decide) ⟨got s.reader ++ inFlight s.reader ++ rest, ?_⟩
  rw [← hstream]
  simp only [List.append_assoc]

/-- The reader does not return inside a byte of a writer that sent all. -/
theorem Inv.whole (h : Inv file s) (hw : s.writer.Returned 0) (hr : s.reader.pc = .returned) :
    s.reader.out = file := by
  obtain ⟨hu1, hu2, hholds, -⟩ := tokens_eq_zero.mp (h.token.none (.inr (.inr (.inr hw))))
  obtain ⟨rest, hstream, hrest⟩ := h.stream
  have hrest : rest = [] := by
    obtain hpc | hpc := hw <;> simpa [Left, hpc] using hrest
  rw [inFlight_nil hu1 hu2 hholds, hrest, List.append_nil, List.append_nil] at hstream
  have hcount := h.byte.count
  have hlen := congrArg List.length hstream
  simp only [hr, reduceCtorEq, if_false] at hcount
  rw [List.length_append, length_bits, length_bits, got, length_lowBits, hr] at hlen
  simp only [reduceCtorEq, if_false] at hlen
  have hzero : s.reader.i = 0 := by omega
  rw [got, hr] at hstream
  simp only [reduceCtorEq, if_false, hzero, lowBits_zero, List.append_nil] at hstream
  exact bits_injective (by decide) hstream

end

/-- Whatever signals come when, the reader has written a prefix of the file,
and all of it when both have returned and the writer's answer is `0`. -/
theorem signal_run (file : List Byte) {trace : List (Event × State)}
    (hrun : Path (fun s e t => s.next e = some t) (.start file) trace) :
    ∀ m ∈ trace, m.2.reader.out <+: file ∧
      (m.2.writer.Returned 0 → m.2.reader.pc = .returned → m.2.reader.out = file) := by
  have hinv : ∀ m ∈ trace, Inv file m.2 :=
    hrun.invariant (fun _ _ _ hs ht => hs.next ht) (inv_start file)
  exact fun m hm => ⟨(hinv m hm).out_begins, (hinv m hm).whole⟩

/-- One bit and its confirmation. -/
def exchange (sig : Signal) : List Event :=
  [.send, .readerTakes sig, .readerTests, .confirm, .writerTakes .usr1, .writerTests]

/-- The byte `1`; the writer has ended before the reader stores it. -/
def oneByte : List Event :=
  .read 1 :: exchange .usr2 ++ (List.replicate 7 (exchange .usr1)).flatten ++
    [.read 0, .exit, .store, .readerTakes .chld, .readerTests]

theorem signal_run_oneByte :
    (final (.start [1]) (walk State.next (.start [1]) oneByte)).reader.pc = .returned ∧
      (final (.start [1]) (walk State.next (.start [1]) oneByte)).writer.pc = .exited (some 0) ∧
      ∀ m ∈ walk State.next (.start [1]) oneByte, m.2.reader.out <+: [1] ∧
        (m.2.writer.Returned 0 → m.2.reader.pc = .returned → m.2.reader.out = [1]) :=
  ⟨by decide, by decide, signal_run [1] (path_walk _ _ _)⟩

end TaskLunev.SignalRelay
