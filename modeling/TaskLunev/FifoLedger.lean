import Mathlib.Tactic.Common

/-!
# What went into a queue and what came out

The ledger of a queue is everything put in and everything taken out, each in
order. It is balanced by a stored sequence when what came out followed by what
is stored is what went in: nothing lost, doubled or out of order.
-/
namespace TaskLunev.FifoLedger

structure Ledger (α : Type*) where
  produced : List α
  consumed : List α
  deriving DecidableEq, Repr

namespace Ledger
variable {α : Type*}

def empty : Ledger α := ⟨[], []⟩

def produce (l : Ledger α) (items : List α) : Ledger α := { l with produced := l.produced ++ items }

def consume (l : Ledger α) (items : List α) : Ledger α := { l with consumed := l.consumed ++ items }

def Balanced (l : Ledger α) (stored : List α) : Prop := l.consumed ++ stored = l.produced

theorem balanced_empty : (empty : Ledger α).Balanced [] := rfl

theorem Balanced.produce {l : Ledger α} {stored : List α} (h : l.Balanced stored)
    (items : List α) : (l.produce items).Balanced (stored ++ items) := by
  unfold Balanced Ledger.produce at *
  rw [← List.append_assoc, h]

/-- Taking `items` out keeps the balance exactly when they were stored in front
of what is left. -/
theorem Balanced.consume_iff {l : Ledger α} {stored : List α} (h : l.Balanced stored)
    {items left : List α} : (l.consume items).Balanced left ↔ items ++ left = stored := by
  unfold Balanced Ledger.consume at *
  rw [← h, List.append_assoc]
  exact List.append_right_inj _

end Ledger
end TaskLunev.FifoLedger
