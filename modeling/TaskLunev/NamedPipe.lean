import Mathlib.Data.Finset.Insert
import Mathlib.Data.Finset.Erase
import Mathlib.Tactic.Common

/-!
# Named pipes

A named pipe holds what was written and not yet read, in order, as long as some
process has it open. Who has it open for reading and for writing is part of its
state, and so is how often it was opened: an open that waits for the other side
and a poll for a hang-up both ask whether somebody has come since.
-/
namespace TaskLunev.NamedPipe

structure Fifo (ι α : Type*) where
  buf : List α
  readers : Finset ι
  writers : Finset ι
  readerOpens : ℕ
  writerOpens : ℕ
  deriving DecidableEq

namespace Fifo
variable {ι α : Type*}

def empty : Fifo ι α := ⟨[], ∅, ∅, 0, 0⟩

/-- Some process has it open. -/
def Held (f : Fifo ι α) : Prop := f.readers.Nonempty ∨ f.writers.Nonempty

instance (f : Fifo ι α) : Decidable f.Held := inferInstanceAs (Decidable (_ ∨ _))

/-- What nobody has open loses its contents. -/
def settle (f : Fifo ι α) : Fifo ι α := if f.Held then f else { f with buf := [] }

section
variable [DecidableEq ι]

def openRead (f : Fifo ι α) (p : ι) : Fifo ι α :=
  { f with readers := insert p f.readers, readerOpens := f.readerOpens + 1 }

def openWrite (f : Fifo ι α) (p : ι) : Fifo ι α :=
  { f with writers := insert p f.writers, writerOpens := f.writerOpens + 1 }

def closeRead (f : Fifo ι α) (p : ι) : Fifo ι α :=
  settle { f with readers := f.readers.erase p }

def closeWrite (f : Fifo ι α) (p : ι) : Fifo ι α :=
  settle { f with writers := f.writers.erase p }

end

/-- A write of all the items; `none` when nobody reads. -/
def write (f : Fifo ι α) (items : List α) : Option (Fifo ι α) :=
  if f.readers.Nonempty then some { f with buf := f.buf ++ items } else none

/-- A read of up to `n` items: it waits while the pipe is empty and has
writers, and returns no items when it is empty and has none. -/
def read (f : Fifo ι α) (n : ℕ) : Option (List α × Fifo ι α) :=
  if f.buf ≠ [] then some (f.buf.take n, { f with buf := f.buf.drop n })
  else if f.writers.Nonempty then none
  else some ([], f)

/-- What a poll for reading reports, with the number of opens for writing there
had been when the reader opened the pipe. -/
def Ready (f : Fifo ι α) (seen : ℕ) : Prop :=
  f.buf ≠ [] ∨ ¬ f.writers.Nonempty ∧ f.writerOpens ≠ seen

instance [DecidableEq α] (f : Fifo ι α) (seen : ℕ) : Decidable (f.Ready seen) :=
  inferInstanceAs (Decidable (_ ∨ _))

/-! ## What the operations leave -/

@[simp] theorem settle_readers (f : Fifo ι α) : f.settle.readers = f.readers := by
  unfold settle
  split_ifs <;> rfl

@[simp] theorem settle_writers (f : Fifo ι α) : f.settle.writers = f.writers := by
  unfold settle
  split_ifs <;> rfl

@[simp] theorem settle_writerOpens (f : Fifo ι α) : f.settle.writerOpens = f.writerOpens := by
  unfold settle
  split_ifs <;> rfl

theorem settle_buf (f : Fifo ι α) : f.settle.buf = f.buf ∨ f.settle.buf = [] := by
  unfold settle
  split_ifs
  · exact .inl rfl
  · exact .inr rfl

theorem settle_of_held {f : Fifo ι α} (h : f.Held) : f.settle = f := if_pos h

theorem settle_buf_of_held {f : Fifo ι α} (h : f.settle.Held) : f.settle.buf = f.buf := by
  unfold Held at h
  rw [settle_readers, settle_writers] at h
  rw [settle_of_held h]

section
variable [DecidableEq ι] {f g : Fifo ι α} {p q : ι}

@[simp] theorem closeRead_readers : (f.closeRead p).readers = f.readers.erase p :=
  settle_readers _

@[simp] theorem closeRead_writers : (f.closeRead p).writers = f.writers := settle_writers _

@[simp] theorem closeRead_writerOpens : (f.closeRead p).writerOpens = f.writerOpens :=
  settle_writerOpens _

@[simp] theorem closeWrite_readers : (f.closeWrite p).readers = f.readers := settle_readers _

@[simp] theorem closeWrite_writers : (f.closeWrite p).writers = f.writers.erase p :=
  settle_writers _

@[simp] theorem closeWrite_writerOpens : (f.closeWrite p).writerOpens = f.writerOpens :=
  settle_writerOpens _

theorem closeRead_buf : (f.closeRead p).buf = f.buf ∨ (f.closeRead p).buf = [] := settle_buf _

theorem closeWrite_buf : (f.closeWrite p).buf = f.buf ∨ (f.closeWrite p).buf = [] := settle_buf _

/-- A close writes nothing. -/
theorem closeRead_buf_nil (h : f.buf = []) : (f.closeRead p).buf = [] :=
  closeRead_buf.elim (fun hkept => hkept.trans h) id

theorem closeWrite_buf_nil (h : f.buf = []) : (f.closeWrite p).buf = [] :=
  closeWrite_buf.elim (fun hkept => hkept.trans h) id

theorem closeRead_buf_of_held (h : (f.closeRead p).Held) : (f.closeRead p).buf = f.buf :=
  settle_buf_of_held h

theorem closeWrite_buf_of_held (h : (f.closeWrite p).Held) : (f.closeWrite p).buf = f.buf :=
  settle_buf_of_held h

/-- A reader keeps the contents when a writer goes. -/
theorem closeWrite_buf_of_reader (h : f.readers.Nonempty) : (f.closeWrite p).buf = f.buf :=
  closeWrite_buf_of_held (.inl (by rwa [closeWrite_readers]))

end

variable {f g : Fifo ι α} {items : List α} {n : ℕ}

theorem write_eq_some (h : f.write items = some g) :
    f.readers.Nonempty ∧ g = { f with buf := f.buf ++ items } := by
  unfold write at h
  split_ifs at h with hreaders
  exact ⟨hreaders, (Option.some.inj h).symm⟩

/-- A read takes the first items, and all it asks for if they are there. -/
theorem read_eq_some (h : f.read n = some (items, g)) :
    items = f.buf.take n ∧ g = { f with buf := f.buf.drop n } ∧
      (f.buf = [] → f.writers = ∅) := by
  unfold read at h
  split_ifs at h with hbuf hwriters
  · cases h
    exact ⟨rfl, rfl, fun hempty => absurd hempty hbuf⟩
  · cases h
    rw [not_not] at hbuf
    refine ⟨by rw [hbuf, List.take_nil], ?_, fun _ => Finset.not_nonempty_iff_eq_empty.mp hwriters⟩
    rw [hbuf, List.drop_nil, ← hbuf]

end Fifo
end TaskLunev.NamedPipe
