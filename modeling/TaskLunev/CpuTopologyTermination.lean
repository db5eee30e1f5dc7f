import TaskLunev.CpuTopologyRounds

/-!
# When the sorting loop ends

A pass of the inner loop takes an entry only when its core id is above the
starting value -1, and at least one as long as there is any. Entries with a
negative core id are never taken, so with one of them the outer loop goes on
for ever: every further pass is carried out and changes nothing.
-/
namespace TaskLunev.CpuTopologyTermination
open CpuTopologyModel CpuTopologyRounds SortedRounds

/-- `k` passes of the outer loop's body. -/
def afterPasses {n : ℕ} : ℕ → SortVars n → List LogicCpu → Option (SortVars n × List LogicCpu)
  | 0, s, copy => some (s, copy)
  | k + 1, s, copy => do
      let (s, copy) ← innerLoop copy { s with min := -1 }
      afterPasses k s copy

section
variable {n : ℕ}

/-- A pass keeps the number of entries that are written or still to be taken,
and takes one if it can. -/
theorem innerLoop_counts {s : SortVars n} {copy : List LogicCpu}
    (hroom : s.i + (unmarked copy).length ≤ n) : ∃ t copy',
    innerLoop copy { s with min := -1 } = some (t, copy') ∧
      t.i + (unmarked copy').length = s.i + (unmarked copy).length ∧
      (unmarked copy ≠ [] → s.i < t.i) := by
  have hlength := (splitRound_perm LogicCpu.coreId (-1) (unmarked copy)).length_eq
  rw [List.length_append] at hlength
  obtain ⟨t, copy', hrun, hi, -, hleft⟩ :=
    innerLoop_round copy { s with min := -1 } le_rfl (by simp only; omega)
  simp only at hi hleft
  refine ⟨t, copy', hrun, ?_, fun hne => ?_⟩
  · rw [hleft]
    omega
  · have htaken := splitRound_taken_pos hne (unmarked_nonneg copy)
    omega

/-- With fewer takeable entries than the array has, no number of passes fills
it, and every pass is carried out. -/
theorem afterPasses_short {s : SortVars n} {copy : List LogicCpu}
    (hshort : s.i + (unmarked copy).length < n) (k : ℕ) :
    (∃ t copy', afterPasses k s copy = some (t, copy') ∧ t.i < n) ∧
      outerLoop k s.logicCpus copy s.i = none := by
  induction k generalizing s copy with
  | zero => exact ⟨⟨s, copy, rfl, by omega⟩, by rw [outerLoop, if_pos (by omega)]⟩
  | succ k ih =>
      obtain ⟨t, copy', hrun, hcount, -⟩ := innerLoop_counts hshort.le
      have hshort' : t.i + (unmarked copy').length < n := by omega
      obtain ⟨hruns, hnone⟩ := ih hshort'
      constructor
      · simp only [afterPasses, hrun, Option.bind_eq_bind, Option.bind_some]
        exact hruns
      · simp only [outerLoop, if_pos (show s.i < n by omega), hrun, Option.bind_eq_bind,
          Option.bind_some, hnone]

/-- With as many as there are entries to fill, one pass for each is enough. -/
theorem outerLoop_full {s : SortVars n} {copy : List LogicCpu}
    (hfull : s.i + (unmarked copy).length = n) {k : ℕ} (hk : (unmarked copy).length ≤ k) :
    ∃ filled, outerLoop k s.logicCpus copy s.i = some filled := by
  induction k generalizing s copy with
  | zero => exact ⟨s.logicCpus, by rw [outerLoop, if_neg (by omega)]⟩
  | succ k ih =>
      by_cases hi : s.i < n
      · have hne : unmarked copy ≠ [] := List.ne_nil_of_length_pos (by omega)
        obtain ⟨t, copy', hrun, hcount, htaken⟩ := innerLoop_counts hfull.le
        have hmore := htaken hne
        have hfull' : t.i + (unmarked copy').length = n := by omega
        obtain ⟨filled, hfilled⟩ := ih hfull' (by omega)
        refine ⟨filled, ?_⟩
        simp only [outerLoop, if_pos hi, hrun, Option.bind_eq_bind, Option.bind_some, hfilled]
      · exact ⟨s.logicCpus, by rw [outerLoop, if_neg hi]⟩

/-- Fewer entries can be taken than there are exactly when a core id is
negative. -/
theorem unmarked_short_iff (cpus : Vector LogicCpu n) :
    (unmarked cpus.toList).length < n ↔ ∃ cpu ∈ cpus.toList, cpu.coreId < 0 := by
  have hlength : cpus.toList.length = n := Vector.length_toList
  have hle : (unmarked cpus.toList).length ≤ cpus.toList.length := List.length_filter_le _ _
  have hall : (unmarked cpus.toList).length = cpus.toList.length ↔
      ∀ cpu ∈ cpus.toList, 0 ≤ cpu.coreId := by
    rw [unmarked, List.length_filter_eq_length_iff]
    exact forall₂_congr fun cpu _ => decide_eq_true_iff
  rw [show (unmarked cpus.toList).length < n ↔
    ¬ (unmarked cpus.toList).length = cpus.toList.length by omega, hall]
  push Not
  rfl

/-- With a negative core id every number of passes is carried out, and an entry
is still to be filled. -/
theorem afterPasses_endless {cpus : Vector LogicCpu n}
    (hneg : ∃ cpu ∈ cpus.toList, cpu.coreId < 0) (k : ℕ) :
    (∃ t copy, afterPasses k ⟨cpus, 0, -1⟩ cpus.toList = some (t, copy) ∧ t.i < n) ∧
      outerLoop k cpus cpus.toList 0 = none := by
  have hshort := (unmarked_short_iff cpus).mpr hneg
  exact afterPasses_short (s := ⟨cpus, 0, -1⟩) (by simpa using hshort) k

/-- The outer loop ends exactly when no core id is negative. -/
theorem outerLoop_ends_iff (cpus : Vector LogicCpu n) :
    (∃ passes filled, outerLoop passes cpus cpus.toList 0 = some filled) ↔
      ∀ cpu ∈ cpus.toList, 0 ≤ cpu.coreId := by
  have hnot := not_congr (unmarked_short_iff cpus)
  push Not at hnot
  constructor
  · rintro ⟨passes, filled, hfilled⟩
    by_contra hneg
    push Not at hneg
    rw [(afterPasses_endless hneg passes).2] at hfilled
    cases hfilled
  · intro hall
    have hle : (unmarked cpus.toList).length ≤ n :=
      (List.length_filter_le _ _).trans_eq Vector.length_toList
    have hfull := le_antisymm hle (hnot.mpr hall)
    exact ⟨_, outerLoop_full (s := ⟨cpus, 0, -1⟩) (by simpa using hfull) le_rfl⟩

end

/-- On a topology with a CPU the call comes back exactly when no core id is
negative. With a negative one the outer loop does every number of passes, and
there is still an entry to fill after them. -/
theorem sort_terminates_iff {qsort : QSort}
    (hperm : ∀ n (cpus : Vector LogicCpu n), (qsort n cmpCoreId cpus).toList.Perm cpus.toList)
    {n : ℕ} (hpos : 1 ≤ n) (logicCpus : Vector LogicCpu n) :
    ((∃ passes reply,
        cputopSortUniqSetsCoreId qsort passes (some ⟨n, some logicCpus⟩) = some reply) ↔
      ∀ cpu ∈ logicCpus.toList, 0 ≤ cpu.coreId) ∧
    ((∃ cpu ∈ logicCpus.toList, cpu.coreId < 0) → ∀ k, ∃ t copy,
      afterPasses k ⟨qsort n cmpCoreId logicCpus, 0, -1⟩ (qsort n cmpCoreId logicCpus).toList =
        some (t, copy) ∧ t.i < n) := by
  have hmem (cpu : LogicCpu) := (hperm n logicCpus).mem_iff (a := cpu)
  simp only [← hmem]
  refine ⟨?_, fun hneg k => (afterPasses_endless hneg k).1⟩
  rw [← outerLoop_ends_iff]
  apply exists_congr
  intro passes
  rw [cputopSortUniqSetsCoreId_eq qsort passes hpos, ← Option.isSome_iff_exists,
    ← Option.isSome_iff_exists, Option.isSome_map]

theorem sort_terminates_one_unknown :
    ((∃ passes reply, cputopSortUniqSetsCoreId sortCpus passes
        (some ⟨2, some #v[⟨0, 0⟩, ⟨1, -1⟩]⟩) = some reply) ↔
      ∀ cpu ∈ #v[(⟨0, 0⟩ : LogicCpu), ⟨1, -1⟩].toList, 0 ≤ cpu.coreId) ∧
    ((∃ cpu ∈ #v[(⟨0, 0⟩ : LogicCpu), ⟨1, -1⟩].toList, cpu.coreId < 0) → ∀ k, ∃ t copy,
      afterPasses k ⟨sortCpus 2 cmpCoreId #v[⟨0, 0⟩, ⟨1, -1⟩], 0, -1⟩
          (sortCpus 2 cmpCoreId #v[⟨0, 0⟩, ⟨1, -1⟩]).toList =
        some (t, copy) ∧ t.i < 2) :=
  sort_terminates_iff sortCpus_sorts.perm (by decide) #v[⟨0, 0⟩, ⟨1, -1⟩]

/-- A CPU whose core is not known, which the kernel reports as -1: no number of
passes is enough. -/
theorem unknown_core_endless :
    (∀ passes, cputopSortUniqSetsCoreId sortCpus passes
        (some ⟨1, some #v[⟨0, -1⟩]⟩) = none) ∧
      ∀ k, ∃ t copy, afterPasses k ⟨sortCpus 1 cmpCoreId #v[⟨0, -1⟩], 0, -1⟩
        (sortCpus 1 cmpCoreId #v[⟨0, -1⟩]).toList = some (t, copy) ∧ t.i < 1 := by
  have hneg : ∃ cpu ∈ (sortCpus 1 cmpCoreId #v[⟨0, -1⟩]).toList, cpu.coreId < 0 :=
    ⟨⟨0, -1⟩, (sortCpus_sorts.perm 1 #v[⟨0, -1⟩]).mem_iff.mpr (List.mem_singleton.mpr rfl),
      by decide⟩
  constructor
  · intro passes
    rw [cputopSortUniqSetsCoreId_eq sortCpus passes (le_refl 1), (afterPasses_endless hneg passes).2,
      Option.map_none]
  · exact fun k => (afterPasses_endless hneg k).1

end TaskLunev.CpuTopologyTermination
