import TaskLunev.IntegralModel
import TaskLunev.TransitionRuns

/-!
# A message in pieces

`writen` writes a message with as many calls of `write` as it takes, and `readn`
reads it with as many calls of `read`. Each call moves any part of what is left,
or fails. The socket between them is a reliable stream: what is read are the
bytes written, in order. Sender and receiver move in any order, and split the
message in unrelated ways.
-/
namespace TaskLunev.HpcNetBytes
open IntegralModel TransitionRuns

/-- An integer converted to `size_t`. -/
def toSize (x : ℤ) : ℕ := (x % 2 ^ 64).toNat

/-- A loop is about to call `write` or `read` for `len` bytes from `off` on in
its buffer, or its function is back. -/
inductive Pc where
  | calling (off len : ℕ)
  | returned (code : ℤ)
  deriving DecidableEq, Repr

/-- The start of `writen` and `readn`. -/
def enter (fd : ℤ) (null : Bool) (len : ℕ) : Pc :=
  if fd < 0 ∨ null = true then .returned (-1) else .calling 0 len

/-- The rest of the loop body when the call gave this result. -/
def afterCall (off len : ℕ) (num : ℤ) : Pc :=
  let num := toInt num
  if num = -1 ∨ num = 0 then .returned (-1)
  else
    let left := toSize (len - num)
    if left ≠ 0 then .calling (off + num).toNat left else .returned 0

/-- `flight` is what was written and not read yet, `buffer` the memory of the
receiver. -/
structure State (β : Type*) where
  sender : Pc
  flight : List β
  receiver : Pc
  buffer : List β

/-- A call with its result. -/
inductive Event where
  | write (num : ℤ)
  | read (num : ℤ)
  deriving DecidableEq, Repr

section
variable {β : Type*}

def overwrite (buffer : List β) (off : ℕ) (bytes : List β) : List β :=
  buffer.take off ++ bytes ++ buffer.drop (off + bytes.length)

/-- Both functions on sockets `fdw` and `fdr`, with a buffer for the message. -/
def start (message buffer : List β) (fdw fdr : ℤ) (nullw nullr : Bool) : State β where
  sender := enter fdw nullw message.length
  flight := []
  receiver := enter fdr nullr message.length
  buffer := buffer

inductive Step (message : List β) : State β → Event → State β → Prop
  | write {s : State β} {off len k : ℕ} (at_ : s.sender = .calling off len)
      (pos : 0 < k) (le : k ≤ len) :
      Step message s (.write k) { s with
        sender := afterCall off len k
        flight := s.flight ++ (message.drop off).take k }
  | writeFails {s : State β} {off len : ℕ} {num : ℤ} (at_ : s.sender = .calling off len)
      (fails : num = 0 ∨ num = -1) :
      Step message s (.write num) { s with sender := afterCall off len num }
  | read {s : State β} {off len k : ℕ} (at_ : s.receiver = .calling off len)
      (pos : 0 < k) (le : k ≤ len) (there : k ≤ s.flight.length) :
      Step message s (.read k) { s with
        receiver := afterCall off len k
        flight := s.flight.drop k
        buffer := overwrite s.buffer off (s.flight.take k) }
  | readFails {s : State β} {off len : ℕ} {num : ℤ} (at_ : s.receiver = .calling off len)
      (fails : num = 0 ∨ num = -1) :
      Step message s (.read num) { s with receiver := afterCall off len num }

/-! ## The loop body -/

theorem afterCall_fails {off len : ℕ} {num : ℤ} (h : num = 0 ∨ num = -1) :
    afterCall off len num = .returned (-1) := by
  have hint : toInt num = num := toInt_of_range (by omega) (by omega)
  unfold afterCall
  rw [hint]
  exact if_pos h.symm

theorem afterCall_moves {off len k : ℕ} (hpos : 0 < k) (hle : k ≤ len) (hlen : len < 2 ^ 31) :
    afterCall off len k = if len - k ≠ 0 then .calling (off + k) (len - k) else .returned 0 := by
  have hint : toInt k = k := toInt_of_lt (by omega) (by omega)
  have hleft : toSize (len - k) = len - k := by
    unfold toSize
    omega
  have hoff : ((off : ℤ) + k).toNat = off + k := by omega
  unfold afterCall
  simp only [hint, hleft, hoff]
  exact if_neg (by omega)

/-! ## Where the bytes are -/

/-- So many bytes are done, and the loop is at the next one. -/
def At (n : ℕ) (pc : Pc) (done : ℕ) : Prop :=
  match pc with
  | .calling off len => off = done ∧ off + len = n ∧ 0 < len
  | .returned code => code = 0 → done = n

theorem at_enter {n : ℕ} (hpos : 0 < n) (fd : ℤ) (null : Bool) : At n (enter fd null n) 0 := by
  unfold enter
  split_ifs
  · intro h
    cases h
  · exact ⟨rfl, Nat.zero_add n, hpos⟩

theorem At.fails {n off len done : ℕ} {num : ℤ} (h : num = 0 ∨ num = -1) :
    At n (afterCall off len num) done := by
  rw [afterCall_fails h]
  intro hcode
  cases hcode

theorem At.moves {n off len done k : ℕ} (h : At n (.calling off len) done) (hn : n < 2 ^ 31)
    (hpos : 0 < k) (hle : k ≤ len) : At n (afterCall off len k) (done + k) := by
  obtain ⟨hoff, hlen, -⟩ := h
  rw [afterCall_moves hpos hle (by omega)]
  split_ifs with hleft
  · exact ⟨by omega, by omega, by omega⟩
  · intro _
    omega

/-- The first `sent` bytes of the message were written, the first `got` of these
are in the buffer, and the others are on the way. -/
structure Books (message : List β) (s : State β) (sent got : ℕ) : Prop where
  sender : At message.length s.sender sent
  receiver : At message.length s.receiver got
  got_le : got ≤ sent
  sent_le : sent ≤ message.length
  flight : s.flight = (message.take sent).drop got
  buffer : s.buffer.take got = message.take got
  length : s.buffer.length = message.length

variable {message : List β} {s t : State β} {sent got : ℕ}

theorem Books.write (h : Books message s sent got) (hn : message.length < 2 ^ 31)
    {off len k : ℕ} (hat : s.sender = .calling off len) (hpos : 0 < k) (hle : k ≤ len) :
    Books message { s with
      sender := afterCall off len k
      flight := s.flight ++ (message.drop off).take k } (sent + k) got := by
  have hsender := h.sender
  rw [hat] at hsender
  obtain ⟨hoff, hlen, -⟩ := hsender
  have hgot := h.got_le
  have hflight : s.flight ++ (message.drop off).take k = (message.take (sent + k)).drop got := by
    rw [h.flight, List.take_add, hoff, List.drop_append_of_le_length]
    rw [List.length_take]
    omega
  exact {
    sender := At.moves (hat ▸ h.sender) hn hpos hle
    receiver := h.receiver
    got_le := by omega
    sent_le := by omega
    flight := hflight
    buffer := h.buffer
    length := h.length }

theorem Books.read (h : Books message s sent got) (hn : message.length < 2 ^ 31)
    {off len k : ℕ} (hat : s.receiver = .calling off len) (hpos : 0 < k) (hle : k ≤ len)
    (hthere : k ≤ s.flight.length) :
    Books message { s with
      receiver := afterCall off len k
      flight := s.flight.drop k
      buffer := overwrite s.buffer off (s.flight.take k) } sent (got + k) := by
  have hreceiver := h.receiver
  rw [hat] at hreceiver
  obtain ⟨hoff, hlen, -⟩ := hreceiver
  have hsent := h.sent_le
  have hlength := h.length
  have hcount : s.flight.length = sent - got := by
    rw [h.flight, List.length_drop, List.length_take]
    omega
  have hchunk : (s.flight.take k).length = k := List.length_take_of_le hthere
  have hfilled : s.buffer.take off ++ s.flight.take k = message.take (got + k) := by
    have hsplit : (message.take sent).take (got + k) =
        (message.take sent).take got ++ ((message.take sent).drop got).take k := List.take_add
    rw [List.take_take, List.take_take, Nat.min_eq_left (by omega),
      Nat.min_eq_left (by omega)] at hsplit
    rw [hsplit, hoff, h.buffer, h.flight]
  have hfront : (s.buffer.take off ++ s.flight.take k).length = got + k := by
    rw [hfilled, List.length_take]
    omega
  exact {
    sender := h.sender
    receiver := At.moves (hat ▸ h.receiver) hn hpos hle
    got_le := by omega
    sent_le := hsent
    flight := by rw [h.flight, List.drop_drop]
    buffer := by
      rw [overwrite, ← hfilled]
      exact List.take_left' hfront
    length := by
      rw [overwrite, List.length_append, hfront, List.length_drop, hchunk]
      omega }

theorem Books.step (h : Books message s sent got) (hn : message.length < 2 ^ 31) {e : Event}
    (hstep : Step message s e t) : ∃ sent got, Books message t sent got := by
  cases hstep with
  | write hat hpos hle => exact ⟨_, _, h.write hn hat hpos hle⟩
  | writeFails hat hfails => exact ⟨sent, got, { h with sender := At.fails hfails }⟩
  | read hat hpos hle hthere => exact ⟨_, _, h.read hn hat hpos hle hthere⟩
  | readFails hat hfails => exact ⟨sent, got, { h with receiver := At.fails hfails }⟩

theorem books_start {buffer : List β} (hpos : 0 < message.length)
    (hlength : buffer.length = message.length) (fdw fdr : ℤ) (nullw nullr : Bool) :
    Books message (start message buffer fdw fdr nullw nullr) 0 0 where
  sender := at_enter hpos fdw nullw
  receiver := at_enter hpos fdr nullr
  got_le := le_rfl
  sent_le := Nat.zero_le _
  flight := rfl
  buffer := rfl
  length := hlength

/-! ## Failed calls -/

/-- A function that is back makes no more calls. -/
theorem Step.sender_returned {e : Event} {code : ℤ} (h : s.sender = .returned code)
    (hstep : Step message s e t) : t.sender = .returned code := by
  cases hstep with
  | write hat => cases h.symm.trans hat
  | writeFails hat => cases h.symm.trans hat
  | read => exact h
  | readFails => exact h

theorem Step.receiver_returned {e : Event} {code : ℤ} (h : s.receiver = .returned code)
    (hstep : Step message s e t) : t.receiver = .returned code := by
  cases hstep with
  | write => exact h
  | writeFails => exact h
  | read hat => cases h.symm.trans hat
  | readFails hat => cases h.symm.trans hat

theorem Step.write_fails {num : ℤ} (h : num = 0 ∨ num = -1)
    (hstep : Step message s (.write num) t) : t.sender = .returned (-1) := by
  cases hstep with
  | write _ hpos => omega
  | writeFails => exact afterCall_fails h

theorem Step.read_fails {num : ℤ} (h : num = 0 ∨ num = -1)
    (hstep : Step message s (.read num) t) : t.receiver = .returned (-1) := by
  cases hstep with
  | read _ hpos => omega
  | readFails => exact afterCall_fails h

/-- What one event brings about for good holds at the end of a run with it. -/
theorem final_of_event {P : State β → Prop} {e : Event}
    (hevent : ∀ s t, Step message s e t → P t)
    (hkeeps : ∀ s e t, P s → Step message s e t → P t) {trace : List (Event × State β)}
    (hrun : Path (Step message) s trace) (he : e ∈ trace.map Prod.fst) : P (final s trace) := by
  induction hrun with
  | nil => cases he
  | cons hstep hrest ih =>
      rw [List.map_cons, List.mem_cons] at he
      cases he with
      | inl he =>
          subst he
          exact hrest.final_invariant hkeeps (hevent _ _ hstep)
      | inr he => exact ih he

/-! ## Whole runs -/

theorem books_of_run {buffer : List β} (hpos : 0 < message.length)
    (hn : message.length < 2 ^ 31) (hlength : buffer.length = message.length)
    {fdw fdr : ℤ} {nullw nullr : Bool} {trace : List (Event × State β)}
    (hrun : Path (Step message) (start message buffer fdw fdr nullw nullr) trace) :
    ∃ sent got, Books message (final (start message buffer fdw fdr nullw nullr) trace) sent got := by
  have hkeeps : ∀ s e t, (∃ sent got, Books message s sent got) → Step message s e t →
      ∃ sent got, Books message t sent got := fun _ _ _ ⟨_, _, h⟩ hstep => h.step hn hstep
  exact hrun.final_invariant hkeeps ⟨0, 0, books_start hpos hlength fdw fdr nullw nullr⟩

/-- What is to hold in the state `s` that these events led to. -/
structure Correct (message : List β) (events : List Event) (s : State β) : Prop where
  arrived : s.sender = .returned 0 → s.receiver = .returned 0 → s.buffer = message
  write_inside : ∀ off len, s.sender = .calling off len → off + len ≤ message.length
  read_inside : ∀ off len, s.receiver = .calling off len → off + len ≤ message.length
  write_failed : ∀ num, num = 0 ∨ num = -1 → .write num ∈ events → s.sender = .returned (-1)
  read_failed : ∀ num, num = 0 ∨ num = -1 → .read num ∈ events → s.receiver = .returned (-1)

theorem At.inside {n off len done : ℕ} {pc : Pc} (h : At n pc done)
    (hpc : pc = .calling off len) : off + len ≤ n := by
  rw [hpc] at h
  exact h.2.1.le

/-- In every state of every run: when both functions came back with 0 the buffer
holds the message, the next call asks for bytes of the message only, and a
function one of whose calls gave 0 or -1 is back with -1. -/
theorem message_arrives (message buffer : List β) (hpos : 1 ≤ message.length)
    (hmax : message.length ≤ 2 ^ 31 - 1) (hlength : buffer.length = message.length)
    (fdw fdr : ℤ) (nullw nullr : Bool) (trace : List (Event × State β))
    (hrun : Path (Step message) (start message buffer fdw fdr nullw nullr) trace) :
    Correct message (trace.map Prod.fst)
      (final (start message buffer fdw fdr nullw nullr) trace) := by
  obtain ⟨sent, got, hbooks⟩ := books_of_run hpos (by omega) hlength hrun
  constructor
  · intro hsender hreceiver
    have hgot := hbooks.receiver
    rw [hreceiver] at hgot
    have hbuffer := hbooks.buffer
    rw [hgot rfl, List.take_length, ← hbooks.length, List.take_length] at hbuffer
    exact hbuffer
  · exact fun off len hat => At.inside hbooks.sender hat
  · exact fun off len hat => At.inside hbooks.receiver hat
  · exact fun num hnum hmem => final_of_event (fun _ _ hstep => hstep.write_fails hnum)
      (fun _ _ _ h hstep => hstep.sender_returned h) hrun hmem
  · exact fun num hnum hmem => final_of_event (fun _ _ hstep => hstep.read_fails hnum)
      (fun _ _ _ h hstep => hstep.receiver_returned h) hrun hmem

end

/-- Three bytes, written as two and one, read as one and two. -/
theorem message_arrives_three :
    Correct [7, 8, 9] [.write (2 : ℕ), .read (1 : ℕ), .write (1 : ℕ), .read (2 : ℕ)]
      ⟨afterCall 2 1 (1 : ℕ), [], afterCall 1 2 (2 : ℕ), [7, 8, 9]⟩ := by
  have hsent : afterCall 0 3 (2 : ℕ) = .calling 2 1 :=
    afterCall_moves (by decide) (by decide) (by decide)
  have hgot : afterCall 0 3 (1 : ℕ) = .calling 1 2 :=
    afterCall_moves (by decide) (by decide) (by decide)
  exact message_arrives [7, 8, 9] [0, 0, 0] (by decide) (by decide) rfl 4 5 false false
    [(.write (2 : ℕ), ⟨afterCall 0 3 (2 : ℕ), [7, 8], .calling 0 3, [0, 0, 0]⟩),
      (.read (1 : ℕ), ⟨afterCall 0 3 (2 : ℕ), [8], afterCall 0 3 (1 : ℕ), [7, 0, 0]⟩),
      (.write (1 : ℕ), ⟨afterCall 2 1 (1 : ℕ), [8, 9], afterCall 0 3 (1 : ℕ), [7, 0, 0]⟩),
      (.read (2 : ℕ), ⟨afterCall 2 1 (1 : ℕ), [], afterCall 1 2 (2 : ℕ), [7, 8, 9]⟩)]
    (.cons (.write rfl (by decide) (by decide)) <|
      .cons (.read rfl (by decide) (by decide) (by decide)) <|
      .cons (.write hsent (by decide) (by decide)) <|
      .cons (.read hgot (by decide) (by decide) (by decide)) .nil)

end TaskLunev.HpcNetBytes
