import TaskLunev.ConnCompletion
import TaskLunev.TransferCompletion

/-!
# Readers and writers together

Any number of processes of both kinds on one connection segment. Each goes
through the connection phase and then transfers: a reader on its own personal
memory, a writer on the one whose identifier it has read. A step is one of the
connection phase or one of the transfer, on the parts that the process can see.
As in the two phases, no call fails by itself and nothing times out.

A process exits when its function has returned, and the kernel then adds what it
owes the connection semaphores. A writer of an empty file can return before its
reader has set these semaphores anew, and its exit would take back the `W_READED`
that the reader waits for. Such a writer is left to exit later.
-/
namespace TaskLunev.SemShmModel
open ByteMemory TransferModel

/-- `persShm_t` with the semaphores it names. -/
structure PersShm where
  sem : Sem → ℕ
  removed : Bool
  currSizeData : ℕ
  buf : Memory SIZE_BUF

/-- Behind `InitPersSem`. -/
def PersShm.init : PersShm := ⟨values, false, 0, fun _ => 0⟩

/-- A writer's file and its place in the transfer. -/
structure Sender where
  unread : List Byte
  pc : WriterPc

/-- What a reader has written, and its place in the transfer. -/
structure Receiver where
  out : List Byte
  pc : ReaderPc

/-- A transfer is a personal memory with a sender and a receiver. -/
def transfer (shm : PersShm) (sender : Sender) (receiver : Receiver) : TransferModel.State :=
  ⟨shm.sem, shm.removed, shm.currSizeData, shm.buf, sender.unread, receiver.out, sender.pc,
    receiver.pc⟩

def persShmOf (s : TransferModel.State) : PersShm := ⟨s.sem, s.removed, s.currSizeData, s.buf⟩

def senderOf (s : TransferModel.State) : Sender := ⟨s.unread, s.writer⟩

def receiverOf (s : TransferModel.State) : Receiver := ⟨s.out, s.reader⟩

/-- The personal memories are told apart by their identifiers. -/
structure State (ι : Type*) where
  conn : ConnModel.State ι
  persShm : ℤ → PersShm
  sender : ι → Sender
  receiver : ι → Receiver
  exited : ι → Bool

inductive Event (ι : Type*) where
  | conn (p : ι)
  | transfer (p : ι) (event : TransferModel.Event)
  | exit (p : ι)
  deriving DecidableEq, Repr

namespace State
variable {ι : Type*} [DecidableEq ι]

def start (role : ι → ConnModel.Role) (readerShmID : ℤ) (file : ι → List Byte) : State ι where
  conn := .start role readerShmID
  persShm _ := .init
  sender p := ⟨file p, .pEmpty⟩
  receiver _ := ⟨[], .pFull⟩
  exited _ := false

/-- `readerShmID` of a writer, as its log has it. -/
def attached (s : State ι) (w : ι) : Option ℤ :=
  (s.conn.reads.find? fun e => decide (e.1 = w)).map Prod.snd

/-- The memory on which a process transfers, when it is through the connection
phase and the step is one of its function. -/
def place (persShmID : ι → ℤ) (s : State ι) (p : ι) : TransferModel.Event → Option ℤ
  | .reader => if s.conn.pc p = .reader .done then some (persShmID p) else none
  | .writer | .read _ => if s.conn.pc p = .writer .done then s.attached p else none

def act (persShmID : ι → ℤ) (s : State ι) (p : ι) (event : TransferModel.Event) :
    Option (State ι) :=
  (s.place persShmID p event).bind fun id =>
    ((transfer (s.persShm id) (s.sender p) (s.receiver p)).next event).map fun t =>
      { s with
        persShm := Function.update s.persShm id (persShmOf t)
        sender := Function.update s.sender p (senderOf t)
        receiver := Function.update s.receiver p (receiverOf t) }

/-- The function of the process has returned. -/
def hasReturned (s : State ι) (p : ι) : Bool :=
  match s.conn.pc p, (s.receiver p).pc, (s.sender p).pc with
  | .reader .done, .returned _, _ => true
  | .writer .done, _, .returned _ => true
  | _, _, _ => false

def exit (s : State ι) (p : ι) : Option (State ι) :=
  if s.hasReturned p = true ∧ s.exited p = false then
    some { s with
      conn := { s.conn with sem := s.conn.sem.exit p }
      exited := Function.update s.exited p true }
  else none

def next (persShmID : ι → ℤ) (s : State ι) : Event ι → Option (State ι)
  | .conn p => (s.conn.exec persShmID p).map fun conn => { s with conn }
  | .transfer p event => s.act persShmID p event
  | .exit p => s.exit p

end State

/-- The exit of a process that had no bytes to send leaves the semaphores as they
are. -/
def Event.Late {ι : Type*} (file : ι → List Byte) (s : State ι) : Event ι → Prop
  | .exit p => file p = [] → s.conn.sem.adj p = 0
  | _ => True

def Step {ι : Type*} [DecidableEq ι] (persShmID : ι → ℤ) (file : ι → List Byte) (s : State ι)
    (e : Event ι) (t : State ι) : Prop :=
  e.Late file s ∧ s.next persShmID e = some t

/-! ## One party's step -/

section
variable {shm : PersShm} {sender : Sender} {receiver : Receiver} {t : TransferModel.State}
  {event : TransferModel.Event}

/-- An operation on a semaphore that goes through. -/
theorem Ptime_cases {s : TransferModel.State} {k : Sem}
    {failed go : TransferModel.State → TransferModel.State} (h : s.Ptime k failed go = some t) :
    s.removed = true ∧ t = failed s ∨ s.removed = false ∧ 0 < s.sem k ∧
      t = go { s with sem := Function.update s.sem k (s.sem k - 1) } := by
  unfold TransferModel.State.Ptime at h
  split at h
  next hremoved => exact .inl ⟨hremoved, (Option.some.inj h).symm⟩
  next hremoved =>
    split at h
    next hval => exact .inr ⟨Bool.eq_false_of_not_eq_true hremoved, hval, (Option.some.inj h).symm⟩
    next => cases h

theorem Vtime_cases {s : TransferModel.State} {k : Sem}
    {failed go : TransferModel.State → TransferModel.State} (h : s.Vtime k failed go = some t) :
    s.removed = true ∧ t = failed s ∨ s.removed = false ∧
      t = go { s with sem := Function.update s.sem k (s.sem k + 1) } := by
  unfold TransferModel.State.Vtime at h
  split at h
  next hremoved => exact .inl ⟨hremoved, (Option.some.inj h).symm⟩
  next hremoved =>
    exact .inr ⟨Bool.eq_false_of_not_eq_true hremoved, (Option.some.inj h).symm⟩

/-- A writer's step is the same whoever receives. -/
theorem next_sender (hevent : event ≠ .reader)
    (ht : (transfer shm sender receiver).next event = some t) :
    receiverOf t = receiver ∧ ∀ receiver', (transfer shm sender receiver').next event =
      some (transfer (persShmOf t) (senderOf t) receiver') := by
  cases event with
  | reader => exact absurd rfl hevent
  | read size =>
      have hread : (transfer shm sender receiver).readFile size = some t := ht
      obtain ⟨hw, hsize, hlen, hend, buf, hbuf, rfl⟩ := TransferSafety.readFile_spec hread
      refine ⟨rfl, fun receiver' => ?_⟩
      have hguard : (transfer shm sender receiver').writer = .reading ∧ size ≤ SIZE_BUF ∧
          size ≤ (transfer shm sender receiver').unread.length ∧
          (size = 0 → (transfer shm sender receiver').unread = []) := ⟨hw, hsize, hlen, hend⟩
      exact (if_pos hguard).trans (congrArg (Option.map _) hbuf)
  | writer =>
      obtain ⟨unread, pc⟩ := sender
      cases pc with
      | reading => cases ht
      | returned code => cases ht
      | pEmpty =>
          have hP : (transfer shm ⟨unread, .pEmpty⟩ receiver).Ptime .empty _ _ = some t := ht
          rcases Ptime_cases hP with ⟨hremoved, rfl⟩ | ⟨hpresent, hval, rfl⟩
          · exact ⟨rfl, fun _ => if_pos hremoved⟩
          · exact ⟨rfl, fun _ => (if_neg (Bool.eq_false_iff.mp hpresent)).trans (if_pos hval)⟩
      | vFull =>
          have hV : (transfer shm ⟨unread, .vFull⟩ receiver).Vtime .full _ _ = some t := ht
          rcases Vtime_cases hV with ⟨hremoved, rfl⟩ | ⟨hpresent, rfl⟩
          · exact ⟨rfl, fun _ => if_pos hremoved⟩
          · exact ⟨rfl, fun _ => if_neg (Bool.eq_false_iff.mp hpresent)⟩
      | storing size => cases ht; exact ⟨rfl, fun _ => rfl⟩
      | testing => cases ht; exact ⟨rfl, fun _ => rfl⟩
      | detaching => cases ht; exact ⟨rfl, fun _ => rfl⟩

/-- A reader's step is the same whoever sends. -/
theorem next_receiver (ht : (transfer shm sender receiver).next .reader = some t) :
    senderOf t = sender ∧ ∀ sender', (transfer shm sender' receiver).next .reader =
      some (transfer (persShmOf t) sender' (receiverOf t)) := by
  obtain ⟨out, pc⟩ := receiver
  cases pc with
  | returned code => cases ht
  | pFull =>
      have hP : (transfer shm sender ⟨out, .pFull⟩).Ptime .full _ _ = some t := ht
      rcases Ptime_cases hP with ⟨hremoved, rfl⟩ | ⟨hpresent, hval, rfl⟩
      · exact ⟨rfl, fun _ => if_pos hremoved⟩
      · exact ⟨rfl, fun _ => (if_neg (Bool.eq_false_iff.mp hpresent)).trans (if_pos hval)⟩
  | vEmpty =>
      have hV : (transfer shm sender ⟨out, .vEmpty⟩).Vtime .empty _ _ = some t := ht
      rcases Vtime_cases hV with ⟨hremoved, rfl⟩ | ⟨hpresent, rfl⟩
      · exact ⟨rfl, fun _ => if_pos hremoved⟩
      · exact ⟨rfl, fun _ => if_neg (Bool.eq_false_iff.mp hpresent)⟩
  | writing =>
      have hwrite : (readBytes shm.buf 0 shm.currSizeData).map _ = some t := ht
      obtain ⟨bytes, hbytes, rfl⟩ := Option.map_eq_some_iff.mp hwrite
      exact ⟨rfl, fun sender' => congrArg (Option.map _) hbytes⟩
  | testing => cases ht; exact ⟨rfl, fun _ => rfl⟩
  | removing => cases ht; exact ⟨rfl, fun _ => rfl⟩
  | detaching => cases ht; exact ⟨rfl, fun _ => rfl⟩
  | removingShm => cases ht; exact ⟨rfl, fun _ => rfl⟩

end

end TaskLunev.SemShmModel
