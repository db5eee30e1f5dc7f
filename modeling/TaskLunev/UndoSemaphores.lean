import Mathlib.Algebra.Order.BigOperators.Group.Finset
import Mathlib.Algebra.Ring.Int.Defs
import Mathlib.Data.Int.Notation
import Mathlib.Tactic.Common

/-!
# Semaphores with undo

A set of System V semaphores that any number of processes work on with
`SEM_UNDO`. Each process has an adjustment for every semaphore, the negated
sum of its operations, which the kernel adds when the process exits; a value
that would become negative is left at zero. Setting the whole set clears all
adjustments. As long as no value is cut off at zero, the values and the
adjustments of the processes at work add up to the values last set.
-/
namespace TaskLunev.UndoSemaphores

structure SemSet (κ ι : Type*) where
  val : κ → ℕ
  adj : ι → κ → ℤ

namespace SemSet

variable {κ ι : Type*}

/-- `SETALL` -/
def setAll (v : κ → ℕ) : SemSet κ ι := ⟨v, fun _ _ => 0⟩

/-- No value is cut off at zero when the process exits. -/
def Undoable (s : SemSet κ ι) (p : ι) : Prop := ∀ k, 0 ≤ s.val k + s.adj p k

instance [Fintype κ] (s : SemSet κ ι) (p : ι) : Decidable (s.Undoable p) :=
  inferInstanceAs (Decidable (∀ k, 0 ≤ s.val k + s.adj p k))

/-- Only the processes in `A` have adjustments, and with them the values are
back at `v`. -/
structure Owed (v : κ → ℕ) (A : Finset ι) (s : SemSet κ ι) : Prop where
  rest : ∀ p ∉ A, s.adj p = 0
  total : ∀ k, s.val k + ∑ p ∈ A, s.adj p k = v k

variable {s t : SemSet κ ι} {p q : ι} {k : κ} {d : ℤ} {v : κ → ℕ} {A : Finset ι}

theorem Owed.setAll (v : κ → ℕ) : Owed v ∅ (setAll v : SemSet κ ι) :=
  ⟨fun _ _ => rfl, by simp [SemSet.setAll]⟩

/-- When no process owes a semaphore anything, its value is at most the one
last set. -/
theorem Owed.val_le (h : Owed v A s) (hk : ∀ p ∈ A, 0 ≤ s.adj p k) : s.val k ≤ v k := by
  have hs := h.total k
  have hsum := Finset.sum_nonneg hk
  omega

/-! ## Exits -/

section
variable [DecidableEq ι]

/-- What the kernel does when a process exits. -/
def exit (s : SemSet κ ι) (p : ι) : SemSet κ ι where
  val k := (s.val k + s.adj p k).toNat
  adj := Function.update s.adj p 0

@[simp] theorem adj_exit_self : (s.exit p).adj p = 0 := Function.update_self _ _ _

theorem adj_exit_of_ne (hq : q ≠ p) : (s.exit p).adj q = s.adj q := Function.update_of_ne hq _ _

/-- Who owes nothing exits without a trace. -/
theorem exit_eq (h : s.adj p = 0) : s.exit p = s := by
  unfold exit
  simp only [h, Pi.zero_apply, add_zero, Int.toNat_natCast]
  congr 1
  rw [← h, Function.update_eq_self]

theorem val_exit (h : s.Undoable p) (j : κ) : ((s.exit p).val j : ℤ) = s.val j + s.adj p j :=
  Int.toNat_of_nonneg (h j)

/-- An exit that cuts nothing off settles the process's adjustments. -/
theorem Owed.exit (h : Owed v A s) (hp : s.Undoable p) : Owed v (A.erase p) (s.exit p) where
  rest q hq := by
    by_cases hqp : q = p
    · rw [hqp, adj_exit_self]
    · rw [adj_exit_of_ne hqp]
      exact h.rest q fun hA => hq (Finset.mem_erase.mpr ⟨hqp, hA⟩)
  total j := by
    have hs := h.total j
    have hrest : ∑ q ∈ A.erase p, (s.exit p).adj q j = ∑ q ∈ A.erase p, s.adj q j :=
      Finset.sum_congr rfl fun q hq => by rw [adj_exit_of_ne (Finset.ne_of_mem_erase hq)]
    rw [hrest, val_exit hp]
    by_cases hA : p ∈ A
    · rw [← Finset.add_sum_erase _ _ hA] at hs
      omega
    · rw [Finset.erase_eq_of_notMem hA, h.rest p hA, Pi.zero_apply, add_zero]
      exact hs

/-- Processes without adjustments may be counted or not. -/
theorem Owed.sum_insert (h : Owed v A s) (p : ι) (k : κ) :
    ∑ q ∈ insert p A, s.adj q k = ∑ q ∈ A, s.adj q k := by
  by_cases hp : p ∈ A
  · rw [Finset.insert_eq_of_mem hp]
  · rw [Finset.sum_insert hp, h.rest p hp, Pi.zero_apply, zero_add]

end

/-! ## Operations -/

variable [DecidableEq κ] [DecidableEq ι]

/-- One operation of `semop` on one semaphore, blocked while the value would
become negative. -/
def semop (s : SemSet κ ι) (p : ι) (k : κ) (d : ℤ) : Option (SemSet κ ι) :=
  if 0 ≤ s.val k + d then
    some
      { val := Function.update s.val k (s.val k + d).toNat
        adj := Function.update s.adj p (Function.update (s.adj p) k (s.adj p k - d)) }
  else none

theorem semop_eq_some (h : s.semop p k d = some t) :
    0 ≤ s.val k + d ∧ t.val = Function.update s.val k (s.val k + d).toNat ∧
      t.adj = Function.update s.adj p (Function.update (s.adj p) k (s.adj p k - d)) := by
  unfold semop at h
  split at h
  next hd =>
    cases h
    exact ⟨hd, rfl, rfl⟩
  next => exact nomatch h

theorem adj_semop_self (h : s.semop p k d = some t) :
    t.adj p = Function.update (s.adj p) k (s.adj p k - d) := by
  rw [(semop_eq_some h).2.2, Function.update_self]

theorem adj_semop_of_ne (h : s.semop p k d = some t) (hq : q ≠ p) : t.adj q = s.adj q := by
  rw [(semop_eq_some h).2.2, Function.update_of_ne hq]

/-- An operation moves its amount from the adjustment to the value. -/
theorem val_semop (h : s.semop p k d = some t) (j : κ) :
    (t.val j : ℤ) = s.val j + (s.adj p j - t.adj p j) := by
  obtain ⟨hd, hval, -⟩ := semop_eq_some h
  rw [adj_semop_self h, hval]
  by_cases hj : j = k
  · subst hj
    simp only [Function.update_self]
    omega
  · simp only [Function.update_of_ne hj]
    omega

theorem Owed.semop (h : Owed v A s) (ht : s.semop p k d = some t) : Owed v (insert p A) t where
  rest q hq := by
    rw [Finset.mem_insert, not_or] at hq
    rw [adj_semop_of_ne ht hq.1, h.rest q hq.2]
  total j := by
    have hs := h.total j
    rw [← h.sum_insert p, ← Finset.add_sum_erase _ _ (Finset.mem_insert_self p A)] at hs
    have hrest : ∑ q ∈ (insert p A).erase p, t.adj q j = ∑ q ∈ (insert p A).erase p, s.adj q j :=
      Finset.sum_congr rfl fun q hq => by rw [adj_semop_of_ne ht (Finset.ne_of_mem_erase hq)]
    rw [← Finset.add_sum_erase _ _ (Finset.mem_insert_self p A), hrest, val_semop ht]
    omega

end SemSet

end TaskLunev.UndoSemaphores
