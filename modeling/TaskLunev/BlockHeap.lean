import Mathlib.Data.Nat.Notation
import Mathlib.Tactic.Common

/-!
# Blocks on a heap

A heap gives the contents of every block allocated so far, nothing for one that
has been freed. Addresses are not used again. A block is freed once: freeing it
another time fails. What is live stays so while other blocks come and go.
-/
namespace TaskLunev.BlockHeap

abbrev Heap (β : Type*) := List (Option β)

variable {β : Type*} {heap heap' : Heap β} {a x : ℕ} {b : β}

/-- What the block at an address holds, if it is live. -/
def load (heap : Heap β) (a : ℕ) : Option β := heap[a]?.join

def store (heap : Heap β) (a : ℕ) (b : β) : Heap β := heap.set a (some b)

/-- The address of the new block, and the heap with it. -/
def allocate (heap : Heap β) (b : β) : ℕ × Heap β := (heap.length, heap ++ [some b])

/-- `none` when the block is not live. -/
def free (heap : Heap β) (a : ℕ) : Option (Heap β) :=
  if (load heap a).isSome then some (heap.set a none) else none

def Live (heap : Heap β) (a : ℕ) : Prop := (load heap a).isSome = true

/-- No block has been freed on the way from one heap to the other. -/
def Keeps (heap heap' : Heap β) : Prop := ∀ a, Live heap a → Live heap' a

theorem Live.lt_length (h : Live heap a) : a < heap.length := by
  by_contra hlt
  rw [Live, load, List.getElem?_eq_none (by omega)] at h
  cases h

theorem load_allocate_self : load (allocate heap b).2 (allocate heap b).1 = some b := by
  simp [load, allocate]

theorem load_allocate_of_lt (h : a < heap.length) : load (allocate heap b).2 a = load heap a := by
  simp only [load, allocate, List.getElem?_append_left h]

theorem load_allocate_of_ne (h : a ≠ heap.length) : load (allocate heap b).2 a = load heap a := by
  rcases Nat.lt_or_gt_of_ne h with hlt | hgt
  · exact load_allocate_of_lt hlt
  · have hold : heap[a]? = none := List.getElem?_eq_none (by omega)
    have hnew : (allocate heap b).2[a]? = none := List.getElem?_eq_none (by simp [allocate]; omega)
    simp only [load, hold, hnew]

theorem load_store_self (h : Live heap a) : load (store heap a b) a = some b := by
  simp [load, store, List.getElem?_set_self h.lt_length]

theorem load_store_of_ne (h : x ≠ a) : load (store heap x b) a = load heap a := by
  simp only [load, store, List.getElem?_set_ne h]

theorem free_of_live (h : Live heap a) : free heap a = some (heap.set a none) := if_pos h

theorem free_of_not_live (h : ¬ Live heap a) : free heap a = none := if_neg h

theorem not_live_of_free (h : free heap a = some heap') : ¬ Live heap' a := by
  unfold free at h
  split_ifs at h with hlive
  cases h
  simp [Live, load, List.getElem?_set_self (Live.lt_length hlive)]

theorem load_free_of_ne (h : free heap a = some heap') (hne : x ≠ a) :
    load heap' x = load heap x := by
  unfold free at h
  split_ifs at h
  cases h
  simp only [load, List.getElem?_set_ne (Ne.symm hne)]

namespace Keeps

theorem refl (heap : Heap β) : Keeps heap heap := fun _ h => h

theorem trans {heap'' : Heap β} (h : Keeps heap heap') (h' : Keeps heap' heap'') :
    Keeps heap heap'' := fun a ha => h' a (h a ha)

theorem allocate : Keeps heap (allocate heap b).2 := fun a ha => by
  rw [Live, load_allocate_of_lt ha.lt_length]
  exact ha

theorem store : Keeps heap (store heap x b) := fun a ha => by
  by_cases hx : x = a
  · rw [Live, hx, load_store_self ha, Option.isSome_some]
  · rw [Live, load_store_of_ne hx]
    exact ha

/-- A block that was not there before may be freed. -/
theorem free {heap'' : Heap β} (h : Keeps heap heap') (hx : ¬ Live heap x)
    (hfree : free heap' x = some heap'') : Keeps heap heap'' := fun a ha => by
  have hne : a ≠ x := by
    intro he
    subst he
    exact hx ha
  rw [Live, load_free_of_ne hfree hne]
  exact h a ha

end Keeps

theorem live_allocate : Live (allocate heap b).2 (allocate heap b).1 := by
  rw [Live, load_allocate_self, Option.isSome_some]

theorem not_live_allocated : ¬ Live heap (allocate heap b).1 := fun h =>
  absurd h.lt_length (Nat.lt_irrefl _)

theorem load_of_not_live (h : ¬ Live heap a) : load heap a = none :=
  Option.not_isSome_iff_eq_none.mp h

/-- A new block that is given back leaves every other one as it was. -/
theorem exists_free_allocate (heap : Heap β) (b : β) :
    ∃ heap', free (allocate heap b).2 (allocate heap b).1 = some heap' ∧
      ∀ a, load heap' a = load heap a := by
  have hfree := free_of_live (live_allocate : Live (allocate heap b).2 _)
  refine ⟨_, hfree, fun a => ?_⟩
  by_cases hne : a = (allocate heap b).1
  · rw [hne, load_of_not_live (not_live_of_free hfree), load_of_not_live not_live_allocated]
  · rw [load_free_of_ne hfree hne, load_allocate_of_ne hne]

end TaskLunev.BlockHeap
