import TaskLunev.CompletedRuns
import TaskLunev.SignalRelay

/-!
# No exchange of signals hangs

As long as the writer waits there is one bit or one confirmation under way, and
a reader that has not returned learns of the writer's end. So whatever alarms
come, whatever `read` fails and whoever kills the writer, the two take a bounded
number of steps and both end; undisturbed, they end with the whole file written.
-/
namespace TaskLunev.SignalCompletion
open ByteMemory BitStream SignalModel SignalRelay TransitionRuns CompletedRuns

def Step (s : State) (e : Event) (t : State) : Prop := s.next e = some t

/-! ## What an event can do -/

inductive Move (s : State) : Event → State → Prop
  | chunk (size : ℕ) : s.writer.pc = .reading → 0 < size → size ≤ s.writer.unread.length →
      Move s (.read size) { s with writer :=
        { s.writer with
          pc := .sending
          unread := s.writer.unread.drop size
          buf := s.writer.unread.take size
          i := 0 } }
  | endOfFile : s.writer.pc = .reading →
      Move s (.read 0) { s with writer := { s.writer with pc := .returned 0 } }
  | readFails : s.writer.pc = .reading →
      Move s .readFails { s with writer := { s.writer with pc := .returned (-1) } }
  | send (b : Byte) (rest : List Byte) (bit : Bool) : s.writer.pc = .sending →
      s.writer.buf = b :: rest →
      Move s .send
        { writer := { s.writer with pc := .suspended, buf := b.sshiftRight 1 :: rest }
          reader := s.reader.raise (if bit then .usr2 else .usr1) }
  | confirmed : s.writer.pc = .suspended → s.writer.pending .usr1 = true →
      Move s (.writerTakes .usr1) { s with writer :=
        { s.writer with pc := .testing, pending := s.writer.pending.clear .usr1 } }
  | alarmed : s.writer.pc = .suspended → s.writer.pending .alrm = true →
      Move s (.writerTakes .alrm) { s with writer :=
        { s.writer with
          pc := .testing
          pending := s.writer.pending.clear .alrm
          timeConfReaderOver := true } }
  | gaveUp : s.writer.pc = .testing → s.writer.timeConfReaderOver = true →
      Move s .writerTests { s with writer := { s.writer with pc := .returned (-1) } }
  | nextBit : s.writer.pc = .testing → s.writer.i + 1 < 8 →
      Move s .writerTests { s with writer := { s.writer with pc := .sending, i := s.writer.i + 1 } }
  | nextByte : s.writer.pc = .testing → ¬ s.writer.i + 1 < 8 →
      Move s .writerTests { s with writer :=
        { s.writer with
          pc := if s.writer.buf.tail = [] then .reading else .sending
          buf := s.writer.buf.tail
          i := 0 } }
  | alarm : Move s .alarm { s with writer := s.writer.raise .alrm }
  | exit (code : Option ℤ) : (∀ code, s.writer.pc ≠ .exited code) →
      (∀ result, s.writer.pc = .returned result → code = some result) →
      Move s .exit
        { writer := { s.writer with pc := .exited code }, reader := s.reader.raise .chld }
  | takesBit (bit : Bool) : s.reader.pc = .suspended →
      s.reader.pending (if bit then .usr2 else .usr1) = true →
      Move s (.readerTakes (if bit then .usr2 else .usr1)) { s with reader :=
        { s.reader with
          pc := .testing
          pending := s.reader.pending.clear (if bit then .usr2 else .usr1)
          curBit := bit } }
  | takesChild : s.reader.pc = .suspended → s.reader.pending .chld = true →
      Move s (.readerTakes .chld) { s with reader :=
        { s.reader with
          pc := .testing
          pending := s.reader.pending.clear .chld
          sigChild := true } }
  | learns : s.reader.pc = .testing → s.reader.sigChild = true →
      Move s .readerTests { s with reader := { s.reader with pc := .returned } }
  | joins (buf : Byte) : s.reader.pc = .testing → s.reader.sigChild = false →
      Move s .readerTests { s with reader := { s.reader with pc := .confirming, buf := buf } }
  | confirm : s.reader.pc = .confirming →
      Move s .confirm
        { writer := s.writer.raise .usr1
          reader :=
            { s.reader with
              pc := if s.reader.i + 1 < 8 then .suspended else .storing
              i := s.reader.i + 1 } }
  | store : s.reader.pc = .storing →
      Move s .store { s with reader :=
        { s.reader with
          pc := .suspended
          out := s.reader.out ++ [s.reader.buf]
          buf := 0
          i := 0 } }

section
variable {s t : State}

theorem move_read {size : ℕ} {w : Writer} (ht : s.writer.read size = some w) :
    Move s (.read size) { s with writer := w } := by
  unfold Writer.read at ht
  split at ht
  next hread =>
    obtain ⟨hpc, -, hlen, -⟩ := hread
    by_cases hzero : size = 0
    · subst hzero
      cases ht
      exact .endOfFile hpc
    · rw [if_neg hzero] at ht
      cases ht
      exact .chunk size hpc (Nat.pos_of_ne_zero hzero) hlen
  next => cases ht

theorem move_send {sig : Signal} {w : Writer} (ht : s.writer.send = some (sig, w)) :
    Move s .send { writer := w, reader := s.reader.raise sig } := by
  unfold Writer.send at ht
  split at ht
  next b rest hpc hbuf =>
    cases ht
    exact .send b rest (b.getLsbD 0) hpc hbuf
  next => cases ht

theorem move_writerTakes {sig : Signal} {w : Writer} (ht : s.writer.take sig = some w) :
    Move s (.writerTakes sig) { s with writer := w } := by
  unfold Writer.take at ht
  split at ht
  next hpend =>
    cases sig with
    | usr1 =>
        cases ht
        exact .confirmed hpend.1 hpend.2
    | alrm =>
        cases ht
        exact .alarmed hpend.1 hpend.2
    | usr2 => cases ht
    | chld => cases ht
  next => cases ht

theorem move_writerTests {w : Writer} (ht : s.writer.test = some w) :
    Move s .writerTests { s with writer := w } := by
  unfold Writer.test at ht
  split at ht
  next hpc =>
    split at ht
    next hover =>
      cases ht
      exact .gaveUp hpc hover
    next =>
      split at ht
      next hi =>
        cases ht
        exact .nextBit hpc hi
      next hi =>
        cases ht
        exact .nextByte hpc hi
  next => cases ht

theorem move_exit {w : Writer} (ht : s.writer.exit = some w) :
    Move s .exit { writer := w, reader := s.reader.raise .chld } := by
  unfold Writer.exit at ht
  split at ht
  next => cases ht
  next code hpc =>
    cases ht
    exact .exit (some code) (by simp [hpc]) fun result hresult => by simpa [hpc] using hresult
  next hexited hreturned =>
    cases ht
    exact .exit none hexited fun result hresult => absurd hresult (hreturned result)

theorem move_readerTakes {sig : Signal} {r : Reader} (ht : s.reader.take sig = some r) :
    Move s (.readerTakes sig) { s with reader := r } := by
  unfold Reader.take at ht
  split at ht
  next hpend =>
    cases sig with
    | usr1 =>
        cases ht
        exact .takesBit false hpend.1 hpend.2
    | usr2 =>
        cases ht
        exact .takesBit true hpend.1 hpend.2
    | chld =>
        cases ht
        exact .takesChild hpend.1 hpend.2
    | alrm => cases ht
  next => cases ht

theorem move_readerTests {r : Reader} (ht : s.reader.test = some r) :
    Move s .readerTests { s with reader := r } := by
  unfold Reader.test at ht
  split at ht
  next hpc =>
    by_cases hchild : s.reader.sigChild = true
    · rw [if_pos hchild] at ht
      cases ht
      exact .learns hpc hchild
    · rw [if_neg hchild] at ht
      cases ht
      exact .joins _ hpc (Bool.eq_false_of_not_eq_true hchild)
  next => cases ht

theorem move_of_next {e : Event} (ht : s.next e = some t) : Move s e t := by
  cases e with
  | alarm =>
      cases ht
      exact .alarm
  | send =>
      obtain ⟨⟨sig, w⟩, hw, rfl⟩ := Option.map_eq_some_iff.mp ht
      exact move_send hw
  | read curSize =>
      obtain ⟨w, hw, rfl⟩ := Option.map_eq_some_iff.mp ht
      exact move_read hw
  | readFails =>
      obtain ⟨w, hw, rfl⟩ := Option.map_eq_some_iff.mp ht
      unfold Writer.readFails at hw
      split at hw
      next hpc =>
        cases hw
        exact .readFails hpc
      next => cases hw
  | writerTakes sig =>
      obtain ⟨w, hw, rfl⟩ := Option.map_eq_some_iff.mp ht
      exact move_writerTakes hw
  | writerTests =>
      obtain ⟨w, hw, rfl⟩ := Option.map_eq_some_iff.mp ht
      exact move_writerTests hw
  | exit =>
      obtain ⟨w, hw, rfl⟩ := Option.map_eq_some_iff.mp ht
      exact move_exit hw
  | readerTakes sig =>
      obtain ⟨r, hr, rfl⟩ := Option.map_eq_some_iff.mp ht
      exact move_readerTakes hr
  | readerTests =>
      obtain ⟨r, hr, rfl⟩ := Option.map_eq_some_iff.mp ht
      exact move_readerTests hr
  | confirm =>
      obtain ⟨r, hr, rfl⟩ := Option.map_eq_some_iff.mp ht
      unfold Reader.confirm at hr
      split at hr
      next hpc =>
        cases hr
        exact .confirm hpc
      next => cases hr
  | store =>
      obtain ⟨r, hr, rfl⟩ := Option.map_eq_some_iff.mp ht
      unfold Reader.store at hr
      split at hr
      next hpc =>
        cases hr
        exact .store hpc
      next => cases hr

/-! ## The steps left -/

/-- The bits of the buffer from the one in work on. -/
def bitsLeft (w : Writer) : ℕ := 8 * w.buf.length - w.i

def writerRank (w : Writer) : ℕ :=
  match w.pc with
  | .reading => 65 * w.unread.length + 7
  | .sending => 8 * bitsLeft w + 65 * w.unread.length + 7
  | .suspended => 8 * (bitsLeft w - 1) + 65 * w.unread.length + 9
  | .testing => 8 * (bitsLeft w - 1) + 65 * w.unread.length + 8
  | .returned _ => 6
  | .exited _ => 0

def readerRank (r : Reader) : ℕ :=
  match r.pc with
  | .testing => 4
  | .confirming => 3
  | .storing => 1
  | .suspended => 0
  | .returned => 0

/-- A signal pending for the reader is worth its handling and what follows. -/
def rank (s : State) : ℕ :=
  writerRank s.writer + readerRank s.reader + (s.writer.pending .usr1).toNat +
    5 * ((s.reader.pending .usr1).toNat + (s.reader.pending .usr2).toNat +
      (s.reader.pending .chld).toNat)

/-- An alarm may come at any time. -/
def active : Event → Bool
  | .alarm => false
  | _ => true

@[simp] theorem readerRank_raise (r : Reader) (sig : Signal) :
    readerRank (r.raise sig) = readerRank r := rfl

@[simp] theorem writerRank_raise (w : Writer) (sig : Signal) :
    writerRank (w.raise sig) = writerRank w := rfl

@[simp] theorem reader_pending (r : Reader) (sig : Signal) :
    (r.raise sig).pending = Function.update r.pending sig true := rfl

@[simp] theorem writer_pending (w : Writer) (sig : Signal) :
    (w.raise sig).pending = Function.update w.pending sig true := rfl

/-- A signal is pending once, however often it is sent. -/
theorem pending_raise (r : Reader) (bit : Bool) :
    ((r.raise (if bit then .usr2 else .usr1)).pending .usr1).toNat +
        ((r.raise (if bit then .usr2 else .usr1)).pending .usr2).toNat ≤
      (r.pending .usr1).toNat + (r.pending .usr2).toNat + 1 := by
  cases bit with
  | false =>
      simp
      omega
  | true => simp [Nat.add_assoc]

theorem pending_clear {r : Reader} {bit : Bool}
    (h : r.pending (if bit then .usr2 else .usr1) = true) :
    ((r.pending.clear (if bit then .usr2 else .usr1)) .usr1).toNat +
        ((r.pending.clear (if bit then .usr2 else .usr1)) .usr2).toNat + 1 =
      (r.pending .usr1).toNat + (r.pending .usr2).toNat := by
  cases bit with
  | false =>
      simp only [Bool.false_eq_true, if_false] at h ⊢
      simp [Pending.clear, h, Nat.add_comm]
  | true =>
      simp only [if_true] at h ⊢
      simp [Pending.clear, h]

variable {file : List Byte}

/-- A writer inside a byte has that byte in its buffer. -/
theorem inside_byte (h : Inv file s)
    (hpc : s.writer.pc = .sending ∨ s.writer.pc = .suspended ∨ s.writer.pc = .testing) :
    s.writer.i < 8 ∧ ∃ b buf, s.writer.buf = b :: buf := by
  obtain ⟨rest, -, hrest⟩ := h.stream
  rcases hpc with hpc | hpc
  · simp only [Left, hpc] at hrest
    obtain ⟨b, buf, hbuf, hi, -⟩ := hrest
    exact ⟨hi, b, buf, hbuf⟩
  · obtain ⟨b, buf, hbuf, hi, -⟩ := (left_waiting hpc).mp hrest
    exact ⟨hi, b, buf, hbuf⟩

theorem six_le_writerRank {w : Writer} (h : ∀ code, w.pc ≠ .exited code) : 6 ≤ writerRank w := by
  unfold writerRank
  cases hw : w.pc with
  | exited code => exact absurd hw (h code)
  | _ =>
      simp only
      omega

/-- Every event but an alarm lowers the rank, and an alarm leaves it. -/
theorem rank_move {e : Event} (h : Inv file s) (hmove : Move s e t) :
    rank t + (if active e then 1 else 0) ≤ rank s := by
  cases hmove with
  | chunk size hpc hpos hlen =>
      simp only [rank, writerRank, hpc, active, bitsLeft, List.length_take, List.length_drop,
        min_eq_left hlen, if_true]
      omega
  | endOfFile hpc =>
      simp only [rank, writerRank, hpc, active, if_true]
      omega
  | readFails hpc =>
      simp only [rank, writerRank, hpc, active, if_true]
      omega
  | send b rest bit hpc hbuf =>
      have hi := (inside_byte h (.inl hpc)).1
      have hraise := pending_raise s.reader bit
      have hchld : (s.reader.raise (if bit then .usr2 else .usr1)).pending .chld =
          s.reader.pending .chld := by
        cases bit <;> simp
      simp only [rank, readerRank_raise, hchld, writerRank, hpc, bitsLeft, hbuf, List.length_cons,
        active, if_true]
      omega
  | confirmed hpc hpend =>
      simp only [rank, writerRank, hpc, active, hpend, bitsLeft, Pending.clear,
        Function.update_self, Bool.toNat_true, Bool.toNat_false, if_true]
      omega
  | alarmed hpc _ =>
      have hne : Signal.usr1 ≠ .alrm := by decide
      simp only [rank, writerRank, hpc, active, bitsLeft, Pending.clear,
        Function.update_of_ne hne, if_true]
      omega
  | gaveUp hpc _ =>
      simp only [rank, writerRank, hpc, active, if_true]
      omega
  | nextBit hpc hi =>
      simp only [rank, writerRank, hpc, active, bitsLeft, if_true]
      omega
  | nextByte hpc hi =>
      obtain ⟨hlt, b, buf, hbuf⟩ := inside_byte h (.inr (.inr hpc))
      by_cases hnil : buf = []
      · simp only [rank, writerRank, hpc, active, hbuf, List.tail_cons, hnil, if_true]
        omega
      · simp only [rank, writerRank, hpc, active, bitsLeft, hbuf, List.tail_cons, hnil,
          List.length_cons, if_true, if_false]
        omega
  | alarm =>
      have hne : Signal.usr1 ≠ .alrm := by decide
      simp only [rank, writerRank_raise, writer_pending, Function.update_of_ne hne, active,
        Bool.false_eq_true, if_false, Nat.add_zero, le_refl]
  | exit code hpc _ =>
      have hwriter := six_le_writerRank hpc
      have hexited : writerRank { s.writer with pc := .exited code } = 0 := rfl
      have husr1 : Signal.usr1 ≠ .chld := by decide
      have husr2 : Signal.usr2 ≠ .chld := by decide
      simp only [rank, hexited, readerRank_raise, reader_pending, Function.update_of_ne husr1,
        Function.update_of_ne husr2, Function.update_self, Bool.toNat_true, active, if_true]
      omega
  | takesBit bit hpc hpend =>
      have hclear := pending_clear hpend
      have hchld : s.reader.pending.clear (if bit then .usr2 else .usr1) .chld =
          s.reader.pending .chld := by
        cases bit <;> simp [Pending.clear]
      simp only [rank, readerRank, hpc, hchld, active, if_true]
      omega
  | takesChild hpc hpend =>
      have husr1 : Signal.usr1 ≠ .chld := by decide
      have husr2 : Signal.usr2 ≠ .chld := by decide
      simp only [rank, readerRank, hpc, hpend, active, Pending.clear, Function.update_of_ne husr1,
        Function.update_of_ne husr2, Function.update_self, Bool.toNat_true, Bool.toNat_false,
        if_true]
      omega
  | learns hpc _ =>
      simp only [rank, readerRank, hpc, active, if_true]
      omega
  | joins buf hpc _ =>
      simp only [rank, readerRank, hpc, active, if_true]
      omega
  | confirm hpc =>
      by_cases hi : s.reader.i + 1 < 8
      · simp only [rank, readerRank, hpc, hi, writerRank_raise, writer_pending,
          Function.update_self, Bool.toNat_true, active, if_true]
        omega
      · simp only [rank, readerRank, hpc, hi, writerRank_raise, writer_pending,
          Function.update_self, Bool.toNat_true, active, if_true, if_false]
        omega
  | store hpc =>
      simp only [rank, readerRank, hpc, active, if_true]
      omega

/-! ## Nobody waits for ever -/

/-- A writer that waits has a bit or a confirmation under way, and the reader
knows of the writer's end or has it pending. -/
structure Alert (s : State) : Prop where
  waiting : s.writer.pc = .suspended → tokens s = 1
  told : (s.reader.pending .chld = true ∨ s.reader.sigChild = true) ↔
    ∃ code, s.writer.pc = .exited code
  returned : s.reader.pc = .returned → s.reader.sigChild = true

theorem alert_start (file : List Byte) : Alert (.start file) where
  waiting h := by simp [State.start] at h
  told := by simp [State.start]
  returned h := by simp [State.start] at h

/-- A step of a writer that is there afterwards and does not wait. -/
theorem Alert.writer {w : Writer} (h : Alert s) (hbefore : ∀ code, s.writer.pc ≠ .exited code)
    (hafter : ∀ code, w.pc ≠ .exited code) (hpc : w.pc ≠ .suspended) :
    Alert { s with writer := w } where
  waiting hw := absurd hw hpc
  told := by
    rw [h.told]
    exact iff_of_false (fun ⟨code, hc⟩ => hbefore code hc) (fun ⟨code, hc⟩ => hafter code hc)
  returned := h.returned

/-- A step of the reader that keeps the number of tokens and what it knows. -/
theorem Alert.reader {r : Reader} (h : Alert s) (htok : tokens { s with reader := r } = tokens s)
    (htold : (r.pending .chld = true ∨ r.sigChild = true) ↔
      (s.reader.pending .chld = true ∨ s.reader.sigChild = true))
    (hreturned : r.pc = .returned → r.sigChild = true) : Alert { s with reader := r } where
  waiting hw := htok.trans (h.waiting hw)
  told := htold.trans h.told
  returned := hreturned

theorem tokens_send (h : Inv file s) (hpc : s.writer.pc = .sending) (bit : Bool) {w : Writer}
    (hw : w.pending = s.writer.pending) :
    tokens { writer := w, reader := s.reader.raise (if bit then .usr2 else .usr1) } = 1 := by
  obtain ⟨hu1, hu2, hholds, hconf⟩ := tokens_eq_zero.mp (h.token.none (.inr (.inl hpc)))
  have hsame : ∀ sig, holds (s.reader.raise sig) = holds s.reader := fun _ => rfl
  cases bit with
  | false => simp [tokens, hsame, hw, hu2, hholds, hconf]
  | true => simp [tokens, hsame, hw, hu1, hholds, hconf]

theorem tokens_takesBit (h : Inv file s) {bit : Bool} (hpc : s.reader.pc = .suspended)
    (hpend : s.reader.pending (if bit then .usr2 else .usr1) = true) :
    tokens { s with reader :=
      { s.reader with
        pc := .testing
        pending := s.reader.pending.clear (if bit then .usr2 else .usr1)
        curBit := bit } } = tokens s := by
  have hchild : s.reader.sigChild = false := h.byte.alive (by simp [hpc]) (by simp [hpc])
  have hclear := pending_clear hpend
  have hbefore : holds s.reader = false := by simp [holds, hpc]
  have hafter : holds { s.reader with
      pc := .testing
      pending := s.reader.pending.clear (if bit then .usr2 else .usr1)
      curBit := bit } = true := by simp [holds, hchild]
  simp only [tokens, hbefore, hafter, Bool.toNat_true, Bool.toNat_false]
  omega

theorem tokens_confirm (h : Inv file s) (hpc : s.reader.pc = .confirming) :
    tokens
      { writer := s.writer.raise .usr1
        reader :=
          { s.reader with
            pc := if s.reader.i + 1 < 8 then .suspended else .storing
            i := s.reader.i + 1 } } = 1 := by
  have hholds : holds s.reader = true := by simp [holds, hpc]
  obtain ⟨hu1, hu2⟩ := h.token.pending hholds
  by_cases hi : s.reader.i + 1 < 8
  · simp [tokens, holds, hi, hu1, hu2]
  · simp [tokens, holds, hi, hu1, hu2]

theorem Alert.move {e : Event} (h : Inv file s) (ha : Alert s) (hmove : Move s e t) : Alert t := by
  cases hmove with
  | chunk size hpc _ _ => exact ha.writer (by simp [hpc]) (by simp) (by simp)
  | endOfFile hpc => exact ha.writer (by simp [hpc]) (by simp) (by simp)
  | readFails hpc => exact ha.writer (by simp [hpc]) (by simp) (by simp)
  | send b rest bit hpc hbuf =>
      have htold := ha.told
      have hnot : ¬ ∃ code, s.writer.pc = .exited code := by simp [hpc]
      refine ⟨fun _ => tokens_send h hpc bit rfl, ?_, ha.returned⟩
      have hchld : (s.reader.raise (if bit then .usr2 else .usr1)).pending .chld =
          s.reader.pending .chld := by
        cases bit <;> simp
      rw [hchld]
      exact htold.trans (iff_of_false hnot (by simp))
  | confirmed hpc _ => exact ha.writer (by simp [hpc]) (by simp) (by simp)
  | alarmed hpc _ => exact ha.writer (by simp [hpc]) (by simp) (by simp)
  | gaveUp hpc _ => exact ha.writer (by simp [hpc]) (by simp) (by simp)
  | nextBit hpc _ => exact ha.writer (by simp [hpc]) (by simp) (by simp)
  | nextByte hpc _ =>
      by_cases hnil : s.writer.buf.tail = []
      · exact ha.writer (by simp [hpc]) (by simp [hnil]) (by simp [hnil])
      · exact ha.writer (by simp [hpc]) (by simp [hnil]) (by simp [hnil])
  | alarm =>
      have htok : tokens { s with writer := s.writer.raise .alrm } = tokens s := by simp [tokens]
      exact ⟨fun hw => htok.trans (ha.waiting hw), ha.told, ha.returned⟩
  | exit code hpc _ =>
      refine ⟨fun hw => by simp at hw, ?_, ha.returned⟩
      exact iff_of_true (.inl (by simp)) ⟨code, rfl⟩
  | takesBit bit hpc hpend =>
      refine ha.reader (tokens_takesBit h hpc hpend) ?_ (by simp)
      cases bit <;> simp [Pending.clear]
  | takesChild hpc hpend =>
      refine ha.reader (by simp [tokens, holds, hpc, Pending.clear]) ?_ (by simp)
      exact iff_of_true (.inr rfl) (.inl hpend)
  | learns hpc hchild =>
      exact ha.reader (by simp [tokens, holds, hpc, hchild]) Iff.rfl fun _ => hchild
  | joins buf hpc hchild =>
      exact ha.reader (by simp [tokens, holds, hpc, hchild]) Iff.rfl (by simp)
  | confirm hpc =>
      refine ⟨fun _ => tokens_confirm h hpc, ha.told, fun hr => ?_⟩
      by_cases hi : s.reader.i + 1 < 8
      · simp [hi] at hr
      · simp [hi] at hr
  | store hpc => exact ha.reader (by simp [tokens, holds, hpc]) Iff.rfl (by simp)

/-- An event that is not the end of a process killed. -/
def Unkilled (s : State) (e : Event) (t : State) : Prop :=
  Step s e t ∧ (e = .exit → ∃ code, s.writer.pc = .returned code)

/-- Nothing is done to the processes: no alarm, no failing `read`, no kill. -/
def Quiet (s : State) (e : Event) (t : State) : Prop :=
  Unkilled s e t ∧ e ≠ .alarm ∧ e ≠ .readFails

theorem read_isSome (hpc : s.writer.pc = .reading) :
    (s.next (.read (min SIZE_BUF s.writer.unread.length))).isSome := by
  have hend : min SIZE_BUF s.writer.unread.length = 0 → s.writer.unread = [] := fun hzero => by
    rw [SIZE_BUF] at hzero
    exact List.length_eq_zero_iff.mp (by omega)
  have hguard : s.writer.pc = .reading ∧ min SIZE_BUF s.writer.unread.length ≤ SIZE_BUF ∧
      min SIZE_BUF s.writer.unread.length ≤ s.writer.unread.length ∧
      (min SIZE_BUF s.writer.unread.length = 0 → s.writer.unread = []) :=
    ⟨hpc, min_le_left .., min_le_right .., hend⟩
  rw [State.next, Writer.read, if_pos hguard, Option.isSome_map]
  split_ifs <;> rfl

/-- A writer that waits is answered, by itself or by the reader. -/
theorem step_of_waiting (ha : Alert s) (hpc : s.writer.pc = .suspended) :
    ∃ e, e ≠ .alarm ∧ e ≠ .readFails ∧ e ≠ .exit ∧ (s.next e).isSome := by
  have htok := ha.waiting hpc
  have hnot : ∀ code, s.writer.pc ≠ .exited code := by simp [hpc]
  cases hr : s.reader.pc with
  | testing =>
      refine ⟨.readerTests, by simp, by simp, by simp, ?_⟩
      by_cases hchild : s.reader.sigChild = true <;> simp [State.next, Reader.test, hr, hchild]
  | confirming =>
      exact ⟨.confirm, by simp, by simp, by simp, by simp [State.next, Reader.confirm, hr]⟩
  | storing => exact ⟨.store, by simp, by simp, by simp, by simp [State.next, Reader.store, hr]⟩
  | returned =>
      obtain ⟨code, hcode⟩ := ha.told.mp (.inr (ha.returned hr))
      exact absurd hcode (hnot code)
  | suspended =>
      have hholds : holds s.reader = false := by simp [holds, hr]
      by_cases hw : s.writer.pending .usr1 = true
      · exact ⟨.writerTakes .usr1, by simp, by simp, by simp,
          by simp [State.next, Writer.take, hpc, hw]⟩
      · by_cases hu1 : s.reader.pending .usr1 = true
        · exact ⟨.readerTakes .usr1, by simp, by simp, by simp,
            by simp [State.next, Reader.take, hr, hu1]⟩
        · have hu2 : s.reader.pending .usr2 = true := by
            by_contra hu2
            simp [tokens, hholds, hw, hu1, hu2] at htok
          exact ⟨.readerTakes .usr2, by simp, by simp, by simp,
            by simp [State.next, Reader.take, hr, hu2]⟩

/-- Left to themselves the two come to rest only at their ends. -/
theorem ended_of_atRest (h : Inv file s) (ha : Alert s)
    (hrest : ∀ e t, ¬ Quiet s e t) :
    (∃ code, s.writer.pc = .exited code) ∧ s.reader.pc = .returned := by
  have hnone : ∀ e, e ≠ .alarm → e ≠ .readFails → e ≠ .exit → s.next e = none := fun e h1 h2 h3 =>
    Option.eq_none_iff_forall_ne_some.mpr fun t ht =>
      hrest e t ⟨⟨ht, fun he => absurd he h3⟩, h1, h2⟩
  have hexited : ∃ code, s.writer.pc = .exited code := by
    cases hpc : s.writer.pc with
    | exited code => exact ⟨code, rfl⟩
    | returned code =>
        have hexit : Step s .exit { writer := { s.writer with pc := .exited (some code) }
                                    reader := s.reader.raise .chld } := by
          simp [Step, State.next, Writer.exit, hpc]
        exact absurd ⟨⟨hexit, fun _ => ⟨code, hpc⟩⟩, by simp, by simp⟩ (hrest .exit _)
    | reading =>
        have hsome := read_isSome hpc
        rw [hnone _ (by simp) (by simp) (by simp)] at hsome
        cases hsome
    | sending =>
        obtain ⟨-, b, buf, hbuf⟩ := inside_byte h (.inl hpc)
        have hstop := hnone .send (by simp) (by simp) (by simp)
        simp [State.next, Writer.send, hpc, hbuf] at hstop
    | testing =>
        have hstop := hnone .writerTests (by simp) (by simp) (by simp)
        simp only [State.next, Writer.test, hpc, if_true, Option.map_eq_none_iff] at hstop
        split_ifs at hstop
    | suspended =>
        obtain ⟨e, h1, h2, h3, hsome⟩ := step_of_waiting ha hpc
        rw [hnone e h1 h2 h3] at hsome
        cases hsome
  refine ⟨hexited, ?_⟩
  have htold := ha.told.mpr hexited
  cases hr : s.reader.pc with
  | returned => rfl
  | testing =>
      have hstop := hnone .readerTests (by simp) (by simp) (by simp)
      by_cases hchild : s.reader.sigChild = true <;>
        simp [State.next, Reader.test, hr, hchild] at hstop
  | confirming =>
      have hstop := hnone .confirm (by simp) (by simp) (by simp)
      simp [State.next, Reader.confirm, hr] at hstop
  | storing =>
      have hstop := hnone .store (by simp) (by simp) (by simp)
      simp [State.next, Reader.store, hr] at hstop
  | suspended =>
      have halive := h.byte.alive (by simp [hr]) (by simp [hr])
      have hpend := htold.resolve_right (by simp [halive])
      have hstop := hnone (.readerTakes .chld) (by simp) (by simp) (by simp)
      simp [State.next, Reader.take, hr, hpend] at hstop

/-! ## Undisturbed -/

/-- No alarm is near, and the answer is `0` if there is one. -/
structure Undisturbed (s : State) : Prop where
  pending : s.writer.pending .alrm = false
  timeConf : s.writer.timeConfReaderOver = false
  returned : ∀ code, s.writer.pc = .returned code → code = 0
  exited : ∀ code, s.writer.pc = .exited code → code = some 0

theorem Undisturbed.move {e : Event} (h : Undisturbed s) (hmove : Move s e t)
    (hexit : e = .exit → ∃ code, s.writer.pc = .returned code) (halarm : e ≠ .alarm)
    (hreads : e ≠ .readFails) : Undisturbed t := by
  have hpending := h.pending
  have hover := h.timeConf
  cases hmove with
  | chunk size hpc _ _ => exact ⟨hpending, hover, by simp, by simp⟩
  | endOfFile hpc => exact ⟨hpending, hover, by simp [eq_comm], by simp⟩
  | readFails hpc => exact absurd rfl hreads
  | send b rest bit hpc hbuf => exact ⟨hpending, hover, by simp, by simp⟩
  | confirmed hpc _ => exact ⟨by simpa [Pending.clear] using hpending, hover, by simp, by simp⟩
  | alarmed hpc hpend => exact absurd (hpend.symm.trans hpending) (by simp)
  | gaveUp hpc htime => exact absurd (htime.symm.trans hover) (by simp)
  | nextBit hpc _ => exact ⟨hpending, hover, by simp, by simp⟩
  | nextByte hpc _ =>
      by_cases hnil : s.writer.buf.tail = []
      · exact ⟨hpending, hover, by simp [hnil], by simp [hnil]⟩
      · exact ⟨hpending, hover, by simp [hnil], by simp [hnil]⟩
  | alarm => exact absurd rfl halarm
  | exit code hpc hcode =>
      obtain ⟨result, hresult⟩ := hexit rfl
      rw [h.returned result hresult] at hresult
      refine ⟨hpending, hover, by simp, fun code' hcode' => ?_⟩
      rw [← WriterPc.exited.inj hcode', hcode 0 hresult]
  | takesBit bit hpc hpend => exact ⟨hpending, hover, h.returned, h.exited⟩
  | takesChild hpc hpend => exact ⟨hpending, hover, h.returned, h.exited⟩
  | learns hpc hchild => exact ⟨hpending, hover, h.returned, h.exited⟩
  | joins buf hpc hchild => exact ⟨hpending, hover, h.returned, h.exited⟩
  | confirm hpc => exact ⟨by simpa using hpending, hover, h.returned, h.exited⟩
  | store hpc => exact ⟨hpending, hover, h.returned, h.exited⟩

end

/-! ## Every order of the steps -/

/-- `none` is a kill, wherever the writer is. -/
def AnyStep (s : State) : Option Event → State → Prop
  | some e => Unkilled s e
  | none => Step s .exit

/-- What the processes do themselves, and must not be waited for in vain. -/
def own : Option Event → Bool
  | some .alarm => false
  | some .readFails => false
  | some _ => true
  | none => false

/-- Both are gone, and an answer of `0` stands for the whole file. -/
structure Ended (file : List Byte) (s : State) : Prop where
  writer : ∃ code, s.writer.pc = .exited code ∧ (code = some 0 → s.reader.out = file)
  reader : s.reader.pc = .returned
  out : s.reader.out <+: file

structure Sent (file : List Byte) (s : State) : Prop where
  writer : s.writer.pc = .exited (some 0)
  reader : s.reader.pc = .returned
  out : s.reader.out = file

theorem next_of_anyStep {s t : State} {e : Option Event} (h : AnyStep s e t) :
    s.next (e.getD .exit) = some t := by
  cases e with
  | none => exact h
  | some e => exact h.1

theorem rank_start (file : List Byte) : rank (.start file) = 65 * file.length + 7 := rfl

theorem ranked_any (file : List Byte) :
    Ranked AnyStep own (fun s => Inv file s ∧ Alert s) rank (Ended file) where
  keeps _ _ _ h ht :=
    ⟨h.1.next (next_of_anyStep ht), h.2.move h.1 (move_of_next (next_of_anyStep ht))⟩
  lowers s e t h ht := by
    have hlow := rank_move h.1 (move_of_next (next_of_anyStep ht))
    cases e with
    | none =>
        rw [if_neg (by simp [own])]
        omega
    | some e =>
        by_cases hown : own (some e) = true
        · have hactive : active e = true := by
            cases e <;> simp_all [own, active]
          simp only [Option.getD_some, hactive, if_true] at hlow
          rw [if_pos hown]
          exact hlow
        · rw [if_neg hown]
          omega
  goal s h hrest := by
    obtain ⟨⟨code, hcode⟩, hreader⟩ := ended_of_atRest h.1 h.2 fun e t hquiet =>
      hrest (some e) t (by cases e <;> simp_all [own, Quiet]) hquiet.1
    exact ⟨⟨code, hcode, fun hzero => h.1.whole (.inr (hzero ▸ hcode)) hreader⟩, hreader,
      h.1.out_begins⟩

theorem ranked_quiet (file : List Byte) :
    Ranked Quiet (fun _ => true) (fun s => Inv file s ∧ Alert s ∧ Undisturbed s) rank
      (Sent file) where
  keeps _ _ _ h ht :=
    ⟨h.1.next ht.1.1, h.2.1.move h.1 (move_of_next ht.1.1),
      h.2.2.move (move_of_next ht.1.1) ht.1.2 ht.2.1 ht.2.2⟩
  lowers _ e _ h ht := by
    have hlow := rank_move h.1 (move_of_next ht.1.1)
    have hactive : active e = true := by
      cases e <;> simp_all [active, Quiet]
    rwa [if_pos hactive] at hlow
  goal s h hrest := by
    obtain ⟨⟨code, hcode⟩, hreader⟩ := ended_of_atRest h.1 h.2.1 fun e t => hrest e t rfl
    rw [h.2.2.exited code hcode] at hcode
    exact ⟨hcode, hreader, h.1.whole (.inr hcode) hreader⟩

/-- Whatever alarms, failing reads and kills come in between, the two take at
most 65 steps of their own for each byte and seven more, and then both are
gone; undisturbed, they leave the whole file behind. -/
theorem signals_complete (file : List Byte) :
    Completes AnyStep own (.start file) (65 * file.length + 7) (Ended file) ∧
      Completes Quiet (fun _ => true) (.start file) (65 * file.length + 7) (Sent file) := by
  have hinv := inv_start file
  have halert := alert_start file
  have hundisturbed : Undisturbed (.start file) :=
    ⟨rfl, rfl, fun code h => by simp [State.start] at h, fun code h => by simp [State.start] at h⟩
  exact ⟨(ranked_any file).completes ⟨hinv, halert⟩,
    (ranked_quiet file).completes ⟨hinv, halert, hundisturbed⟩⟩

end TaskLunev.SignalCompletion
