import Mathlib.Data.Finset.Card
import Mathlib.Tactic.Common

/-!
# The descriptors of a process

The open descriptors of a process in two parts: those it had before some call
and those the call has opened since. A pipe takes the lowest two numbers that
are free. Closing a number that is not open does nothing.
-/
namespace TaskLunev.DescriptorTable

/-- The least number that is not in the set. -/
def lowest (s : Finset ℕ) : ℕ := ((List.range (s.card + 1)).find? (· ∉ s)).getD 0

theorem lowest_notMem (s : Finset ℕ) : lowest s ∉ s := by
  obtain ⟨k, hk, hks⟩ : ∃ k ∈ Finset.range (s.card + 1), k ∉ s :=
    Finset.exists_mem_notMem_of_card_lt_card (by simp)
  have hfound : ((List.range (s.card + 1)).find? (· ∉ s)).isSome := by
    rw [List.find?_isSome]
    exact ⟨k, by simpa using hk, by simpa using hks⟩
  obtain ⟨l, hl⟩ := Option.isSome_iff_exists.mp hfound
  have hls := List.find?_some hl
  rw [lowest, hl, Option.getD_some]
  simpa using hls

structure Descriptors where
  inherited : Finset ℕ
  own : Finset ℕ
  disjoint : Disjoint inherited own

namespace Descriptors

/-- A process about to make the call. -/
def before (inherited : Finset ℕ) : Descriptors := ⟨inherited, ∅, Finset.disjoint_empty_right _⟩

def opened (d : Descriptors) : Finset ℕ := d.inherited ∪ d.own

def add (d : Descriptors) (fd : ℕ) (h : fd ∉ d.opened) : Descriptors where
  inherited := d.inherited
  own := insert fd d.own
  disjoint := Finset.disjoint_insert_right.mpr
    ⟨fun hin => h (Finset.mem_union_left _ hin), d.disjoint⟩

/-- `open`, `dup` and each end of a pipe take the lowest free number. -/
def acquire (d : Descriptors) : ℕ × Descriptors :=
  (lowest d.opened, d.add _ (lowest_notMem d.opened))

/-- The read end and the write end of a new pipe. -/
def pipe (d : Descriptors) : (ℕ × ℕ) × Descriptors :=
  let (readEnd, d) := d.acquire
  let (writeEnd, d) := d.acquire
  ((readEnd, writeEnd), d)

def close (d : Descriptors) (fd : ℕ) : Descriptors where
  inherited := d.inherited.erase fd
  own := d.own.erase fd
  disjoint := d.disjoint.mono (Finset.erase_subset ..) (Finset.erase_subset ..)

/-- Nothing the call opened is left, and nothing else was closed. -/
structure Restored (s : Finset ℕ) (d : Descriptors) : Prop where
  own : d.own = ∅
  inherited : d.inherited = s

theorem Restored.opened {s : Finset ℕ} {d : Descriptors} (h : Restored s d) : d.opened = s := by
  rw [Descriptors.opened, h.own, h.inherited, Finset.union_empty]

variable {d : Descriptors} {fd : ℕ}

theorem notMem_inherited (h : fd ∈ d.own) : fd ∉ d.inherited := fun hin =>
  Finset.disjoint_left.mp d.disjoint hin h

@[simp] theorem before_own (s : Finset ℕ) : (before s).own = ∅ := rfl

@[simp] theorem before_inherited (s : Finset ℕ) : (before s).inherited = s := rfl

@[simp] theorem close_own : (d.close fd).own = d.own.erase fd := rfl

@[simp] theorem close_inherited : (d.close fd).inherited = d.inherited.erase fd := rfl

/-- A descriptor of the call's own leaves the others alone when it is closed. -/
theorem erase_inherited (h : fd ∈ d.own) : d.inherited.erase fd = d.inherited :=
  Finset.erase_eq_of_notMem (notMem_inherited h)

theorem ext_parts {d' : Descriptors} (hinherited : d.inherited = d'.inherited)
    (hown : d.own = d'.own) : d = d' := by
  cases d
  cases d'
  simp_all only

/-- Closing what was opened last undoes that. -/
theorem close_acquire (d : Descriptors) : d.acquire.2.close d.acquire.1 = d := by
  have hfresh := lowest_notMem d.opened
  apply ext_parts
  · exact Finset.erase_eq_of_notMem fun h => hfresh (Finset.mem_union_left _ h)
  · exact Finset.erase_insert fun h => hfresh (Finset.mem_union_right _ h)

theorem close_of_notMem (h : fd ∉ d.opened) : d.close fd = d :=
  ext_parts (Finset.erase_eq_of_notMem fun hin => h (Finset.mem_union_left _ hin))
    (Finset.erase_eq_of_notMem fun hin => h (Finset.mem_union_right _ hin))

theorem close_comm (d : Descriptors) (a b : ℕ) : (d.close a).close b = (d.close b).close a :=
  ext_parts Finset.erase_right_comm Finset.erase_right_comm

/-- What a new pipe does to the table. -/
structure Opens (d : Descriptors) (ends : ℕ × ℕ) (d' : Descriptors) : Prop where
  inherited : d'.inherited = d.inherited
  own : d'.own = insert ends.2 (insert ends.1 d.own)
  read_fresh : ends.1 ∉ d.own
  write_fresh : ends.2 ∉ insert ends.1 d.own

section
variable {d' : Descriptors} {ends : ℕ × ℕ}

theorem Opens.read_mem (h : Opens d ends d') : ends.1 ∈ d'.own := by
  rw [h.own]
  exact Finset.mem_insert_of_mem (Finset.mem_insert_self _ _)

theorem Opens.write_mem (h : Opens d ends d') : ends.2 ∈ d'.own := by
  rw [h.own]
  exact Finset.mem_insert_self _ _

theorem Opens.mono (h : Opens d ends d') : d.own ⊆ d'.own := by
  rw [h.own]
  exact (Finset.subset_insert _ _).trans (Finset.subset_insert _ _)

theorem Opens.mem_own (h : Opens d ends d') {x : ℕ} :
    x ∈ d'.own ↔ x = ends.2 ∨ x = ends.1 ∨ x ∈ d.own := by
  rw [h.own, Finset.mem_insert, Finset.mem_insert]

/-- The ends of a new pipe are no descriptor the call had before. -/
theorem Opens.ne_of_mem (h : Opens d ends d') {x : ℕ} (hx : x ∈ d.own) :
    x ≠ ends.1 ∧ x ≠ ends.2 :=
  ⟨fun he => h.read_fresh (he ▸ hx),
    fun he => h.write_fresh (he ▸ Finset.mem_insert_of_mem hx)⟩

theorem Opens.ne (h : Opens d ends d') : ends.2 ≠ ends.1 := fun he =>
  h.write_fresh (he ▸ Finset.mem_insert_self _ _)

end

theorem pipe_opens (d : Descriptors) : Opens d d.pipe.1 d.pipe.2 where
  inherited := rfl
  own := rfl
  read_fresh h := lowest_notMem d.opened (Finset.mem_union_right _ h)
  write_fresh h := lowest_notMem d.acquire.2.opened (Finset.mem_union_right _ h)

end Descriptors

end TaskLunev.DescriptorTable
