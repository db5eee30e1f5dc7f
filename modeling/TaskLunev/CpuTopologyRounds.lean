import TaskLunev.CpuTopologyModel
import TaskLunev.SortedRounds
import Mathlib.Data.List.Sort

/-!
# The order of the CPUs

The entries of the copy that are not marked are a sorted list, and one pass of
the inner loop is one round over it. Every pass of the outer loop takes at
least one entry, so the passes are at most the entries, and an entry is written
for each one taken, so the array is filled and nothing is written behind it.
-/
namespace TaskLunev.CpuTopologyRounds
open SortedRounds CpuTopologyModel

/-- What `qsort` promises of `_cmpCoreId`: a permutation in which no earlier
entry compares greater than a later one. -/
structure SortsByCoreId (qsort : QSort) : Prop where
  perm : ∀ n (cpus : Vector LogicCpu n), (qsort n cmpCoreId cpus).toList.Perm cpus.toList
  ordered : ∀ n (cpus : Vector LogicCpu n), (qsort n cmpCoreId cpus).toList.Pairwise
    fun first second => ¬ 0 < cmpCoreId first second

/-- The entries of the copy that no round has taken. -/
def unmarked (copy : List LogicCpu) : List LogicCpu := copy.filter fun cpu => 0 ≤ cpu.coreId

theorem unmarked_cons {cpu : LogicCpu} (h : 0 ≤ cpu.coreId) (rest : List LogicCpu) :
    unmarked (cpu :: rest) = cpu :: unmarked rest := by
  simp only [unmarked, List.filter_cons, h, decide_true, if_true]

theorem unmarked_cons_neg {cpu : LogicCpu} (h : ¬ 0 ≤ cpu.coreId) (rest : List LogicCpu) :
    unmarked (cpu :: rest) = unmarked rest := by
  simp only [unmarked, List.filter_cons, h, decide_false, Bool.false_eq_true, if_false]

theorem unmarked_nonneg (copy : List LogicCpu) : ∀ cpu ∈ unmarked copy, -1 < cpu.coreId := by
  intro cpu hcpu
  have hlive := of_decide_eq_true (List.mem_filter.mp hcpu).2
  omega

/-- The entries of the array that are written. -/
def SortVars.written {n : ℕ} (s : SortVars n) : List LogicCpu := s.logicCpus.toList.take s.i

theorem written_set {n : ℕ} (s : SortVars n) (cpu : LogicCpu) (min : ℤ) (h : s.i < n) :
    SortVars.written ⟨s.logicCpus.set s.i cpu h, s.i + 1, min⟩ = SortVars.written s ++ [cpu] := by
  have hlen : s.i < s.logicCpus.toList.length := by simpa using h
  unfold SortVars.written
  rw [Vector.toList_set, List.take_succ_eq_append_getElem (by simpa using hlen),
    List.take_set_of_le (le_refl _)]
  simp

theorem innerLoop_take {n : ℕ} {cpu : LogicCpu} {rest copy' : List LogicCpu} {s t : SortVars n}
    (htake : s.min < cpu.coreId) (hi : s.i < n)
    (hrun : innerLoop rest ⟨s.logicCpus.set s.i cpu hi, s.i + 1, cpu.coreId⟩ = some (t, copy')) :
    innerLoop (cpu :: rest) s = some (t, { cpu with coreId := -2 } :: copy') := by
  simp only [innerLoop, gt_iff_lt, htake, if_true, dif_pos hi, hrun, Option.bind_eq_bind,
    Option.bind_some, Option.pure_def]

theorem innerLoop_leave {n : ℕ} {cpu : LogicCpu} {rest copy' : List LogicCpu} {s t : SortVars n}
    (hleave : ¬ s.min < cpu.coreId) (hrun : innerLoop rest s = some (t, copy')) :
    innerLoop (cpu :: rest) s = some (t, cpu :: copy') := by
  simp only [innerLoop, gt_iff_lt, hleave, if_false, hrun, Option.bind_eq_bind,
    Option.bind_some, Option.pure_def]

/-- A pass with room for what it takes is a round over the unmarked entries. -/
theorem innerLoop_round {n : ℕ} (copy : List LogicCpu) (s : SortVars n) (hmin : -1 ≤ s.min)
    (hroom : s.i + (splitRound LogicCpu.coreId s.min (unmarked copy)).1.length ≤ n) :
    ∃ t copy', innerLoop copy s = some (t, copy') ∧
      t.i = s.i + (splitRound LogicCpu.coreId s.min (unmarked copy)).1.length ∧
      SortVars.written t =
        SortVars.written s ++ (splitRound LogicCpu.coreId s.min (unmarked copy)).1 ∧
      unmarked copy' = (splitRound LogicCpu.coreId s.min (unmarked copy)).2 := by
  induction copy generalizing s with
  | nil => exact ⟨s, [], rfl, rfl, (List.append_nil _).symm, rfl⟩
  | cons cpu rest ih =>
      by_cases htake : s.min < cpu.coreId
      · have hlive : 0 ≤ cpu.coreId := by omega
        have hmark : ¬ 0 ≤ ({ cpu with coreId := -2 } : LogicCpu).coreId := by
          change ¬ (0 : ℤ) ≤ -2
          decide
        rw [unmarked_cons hlive, splitRound_take htake, List.length_cons] at hroom ⊢
        have hi : s.i < n := by omega
        obtain ⟨t, copy', hrun, hcount, hwritten, hleft⟩ :=
          ih ⟨s.logicCpus.set s.i cpu hi, s.i + 1, cpu.coreId⟩
            (show -1 ≤ cpu.coreId by omega) (show s.i + 1 +
              (splitRound LogicCpu.coreId cpu.coreId (unmarked rest)).1.length ≤ n by omega)
        simp only at hcount hwritten hleft
        refine ⟨t, _, innerLoop_take htake hi hrun, by omega, ?_, ?_⟩
        · rw [hwritten, written_set, List.append_assoc, List.singleton_append]
        · rw [unmarked_cons_neg hmark, hleft]
      · by_cases hlive : 0 ≤ cpu.coreId
        · rw [unmarked_cons hlive, splitRound_leave htake] at hroom ⊢
          obtain ⟨t, copy', hrun, hcount, hwritten, hleft⟩ := ih s hmin hroom
          refine ⟨t, _, innerLoop_leave htake hrun, hcount, hwritten, ?_⟩
          rw [unmarked_cons hlive, hleft]
        · rw [unmarked_cons_neg hlive] at hroom ⊢
          obtain ⟨t, copy', hrun, hcount, hwritten, hleft⟩ := ih s hmin hroom
          refine ⟨t, _, innerLoop_leave htake hrun, hcount, hwritten, ?_⟩
          rw [unmarked_cons_neg hlive, hleft]

/-- The outer loop fills the array with the rounds of the unmarked entries. -/
theorem outerLoop_rounds {n : ℕ} (logicCpus : Vector LogicCpu n) (copy : List LogicCpu) (i : ℕ)
    (hcount : i + (unmarked copy).length = n)
    (hsorted : (unmarked copy).Pairwise fun x y => x.coreId ≤ y.coreId) :
    ∃ filled : Vector LogicCpu n, ∃ rounds : List (List LogicCpu),
      (∀ passes, (unmarked copy).length ≤ passes →
        outerLoop passes logicCpus copy i = some filled) ∧
      filled.toList = logicCpus.toList.take i ++ rounds.flatten ∧
      Rounds LogicCpu.coreId (unmarked copy) rounds := by
  induction hlen : (unmarked copy).length using Nat.strongRecOn generalizing logicCpus copy i with
  | _ len ih =>
      rcases Nat.eq_zero_or_pos len with hzero | hpos
      · have hend : ¬ i < n := by omega
        have hnone : unmarked copy = [] := List.eq_nil_of_length_eq_zero (hlen.trans hzero)
        refine ⟨logicCpus, [], fun passes _ => ?_, ?_, hnone ▸ Rounds.nil⟩
        · cases passes <;> simp only [outerLoop, if_neg hend]
        · rw [List.flatten_nil, List.append_nil, List.take_of_length_le (by simp; omega)]
      · have hi : i < n := by omega
        have hperm := splitRound_perm LogicCpu.coreId (-1) (unmarked copy)
        have htotal := hperm.length_eq
        have hne : unmarked copy ≠ [] := List.ne_nil_of_length_pos (hlen ▸ hpos)
        have htaken := splitRound_taken_pos hne (unmarked_nonneg copy)
        rw [List.length_append] at htotal
        obtain ⟨t, copy', hrun, ht, hwritten, hleft⟩ :=
          innerLoop_round copy ⟨logicCpus, i, -1⟩ (le_refl _) (by simp only; omega)
        simp only at ht hwritten hleft
        have hsorted' := hsorted.sublist (splitRound_left_sublist LogicCpu.coreId (-1) (unmarked copy))
        rw [← hleft] at hsorted' htotal
        obtain ⟨filled, rounds, hloop, hfilled, hrounds⟩ :=
          ih _ (by omega) t.logicCpus copy' t.i (by omega) hsorted' rfl
        refine ⟨filled, _ :: rounds, fun passes hpasses => ?_, ?_,
          Rounds.cons hsorted (unmarked_nonneg copy) (hleft ▸ hrounds)⟩
        · cases passes with
          | zero => omega
          | succ passes =>
              simp only [outerLoop, if_pos hi, hrun, Option.bind_eq_bind, Option.bind_some]
              exact hloop passes (by omega)
        · rw [hfilled, List.flatten_cons, ← List.append_assoc]
          congr 1

theorem cmpCoreId_greater_iff (first second : LogicCpu) :
    0 < cmpCoreId first second ↔ second.coreId < first.coreId := by
  unfold cmpCoreId
  split_ifs <;> omega

theorem SortsByCoreId.sorted {qsort : QSort} (hqsort : SortsByCoreId qsort) {n : ℕ}
    (logicCpus : Vector LogicCpu n) :
    (qsort n cmpCoreId logicCpus).toList.Pairwise fun x y => x.coreId ≤ y.coreId := by
  apply (hqsort.ordered n logicCpus).imp
  intro first second hnot
  rw [cmpCoreId_greater_iff] at hnot
  exact not_lt.mp hnot

/-- Nothing is marked before the first pass. -/
theorem SortsByCoreId.unmarked_eq {qsort : QSort} (hqsort : SortsByCoreId qsort) {n : ℕ}
    {logicCpus : Vector LogicCpu n} (hcore : ∀ cpu ∈ logicCpus.toList, 0 ≤ cpu.coreId) :
    unmarked (qsort n cmpCoreId logicCpus).toList = (qsort n cmpCoreId logicCpus).toList := by
  apply List.filter_eq_self.mpr
  intro cpu hcpu
  exact decide_eq_true (hcore cpu ((hqsort.perm n logicCpus).mem_iff.mp hcpu))

/-- The loops over the sorted entries leave the rounds of the CPUs. -/
theorem sortLoops_rounds {qsort : QSort} (hqsort : SortsByCoreId qsort) {n : ℕ}
    (logicCpus : Vector LogicCpu n) (hcore : ∀ cpu ∈ logicCpus.toList, 0 ≤ cpu.coreId) :
    ∃ filled : Vector LogicCpu n, ∃ rounds : List (List LogicCpu),
      (∀ passes, n ≤ passes → outerLoop passes (qsort n cmpCoreId logicCpus)
        (qsort n cmpCoreId logicCpus).toList 0 = some filled) ∧
      filled.toList = rounds.flatten ∧ Rounds LogicCpu.coreId logicCpus.toList rounds := by
  have hall := hqsort.unmarked_eq hcore
  have hlength : (qsort n cmpCoreId logicCpus).toList.length = n := Vector.length_toList
  obtain ⟨filled, rounds, hloop, hfilled, hrounds⟩ :=
    outerLoop_rounds (qsort n cmpCoreId logicCpus) (qsort n cmpCoreId logicCpus).toList 0
      (by rw [hall, hlength, Nat.zero_add]) (by rw [hall]; exact hqsort.sorted logicCpus)
  rw [hall] at hloop hrounds
  exact ⟨filled, rounds, fun passes hpasses => hloop passes (hlength.trans_le hpasses), hfilled,
    hrounds.of_perm (hqsort.perm n logicCpus)⟩

/-- A topology with a CPU passes the check, so the call answers where its outer
loop does. -/
theorem cputopSortUniqSetsCoreId_eq (qsort : QSort) {n : ℕ} (passes : ℕ) (hpos : 1 ≤ n)
    (logicCpus : Vector LogicCpu n) :
    cputopSortUniqSetsCoreId qsort passes (some ⟨n, some logicCpus⟩) =
      (outerLoop passes (qsort n cmpCoreId logicCpus) (qsort n cmpCoreId logicCpus).toList 0).map
        fun filled => ⟨0, none, some ⟨n, some filled⟩⟩ := by
  have hverified : cputopVerifier ⟨n, some logicCpus⟩ = true := by
    simp [cputopVerifier, Nat.lt_of_succ_le hpos]
  simp only [cputopSortUniqSetsCoreId, hverified, Bool.true_eq_false, if_false,
    Option.map_eq_bind, Option.bind_eq_bind, Option.pure_def, Function.comp_def]

/-- On a topology with a CPU and no negative core the call returns 0 after at
most one pass for each CPU, and what it leaves are the rounds of the CPUs. -/
theorem sortUniqSets_rounds {qsort : QSort} (hqsort : SortsByCoreId qsort) {n : ℕ} (hpos : 1 ≤ n)
    (logicCpus : Vector LogicCpu n) (hcore : ∀ cpu ∈ logicCpus.toList, 0 ≤ cpu.coreId) :
    ∃ filled : Vector LogicCpu n, ∃ rounds : List (List LogicCpu),
      (∀ passes, n ≤ passes →
        cputopSortUniqSetsCoreId qsort passes (some ⟨n, some logicCpus⟩) =
          some ⟨0, none, some ⟨n, some filled⟩⟩) ∧
      filled.toList = rounds.flatten ∧ Rounds LogicCpu.coreId logicCpus.toList rounds := by
  obtain ⟨filled, rounds, hloop, hfilled, hrounds⟩ := sortLoops_rounds hqsort logicCpus hcore
  refine ⟨filled, rounds, fun passes hpasses => ?_, hfilled, hrounds⟩
  rw [cputopSortUniqSetsCoreId_eq qsort passes hpos, hloop passes hpasses, Option.map_some]

def notGreater (cmp : LogicCpu → LogicCpu → ℤ) (first second : LogicCpu) : Bool :=
  !decide (0 < cmp first second)

theorem notGreater_iff (first second : LogicCpu) :
    notGreater cmpCoreId first second = true ↔ first.coreId ≤ second.coreId := by
  unfold notGreater
  rw [Bool.not_eq_true', decide_eq_false_iff_not, cmpCoreId_greater_iff, not_lt]

/-- A merge sort for the comparison it is given. -/
def sortCpus : QSort := fun _ cmp cpus =>
  ⟨(cpus.toList.mergeSort (notGreater cmp)).toArray, by simp⟩

theorem sortCpus_sorts : SortsByCoreId sortCpus := by
  constructor
  · intro n cpus
    exact List.mergeSort_perm _ _
  · intro n cpus
    have hsorted : (cpus.toList.mergeSort (notGreater cmpCoreId)).Pairwise
        fun first second => notGreater cmpCoreId first second = true := by
      apply List.pairwise_mergeSort
      · intro first second third h h'
        rw [notGreater_iff] at h h' ⊢
        omega
      · intro first second
        rw [Bool.or_eq_true, notGreater_iff, notGreater_iff]
        omega
    apply hsorted.imp
    intro first second h
    rw [cmpCoreId_greater_iff, not_lt]
    exact (notGreater_iff first second).mp h

theorem sortUniqSets_rounds_two_cores :
    ∃ filled : Vector LogicCpu 4, ∃ rounds : List (List LogicCpu),
      (∀ passes, 4 ≤ passes →
        cputopSortUniqSetsCoreId sortCpus passes
            (some ⟨4, some #v[⟨0, 0⟩, ⟨1, 0⟩, ⟨2, 1⟩, ⟨3, 1⟩]⟩) =
          some ⟨0, none, some ⟨4, some filled⟩⟩) ∧
      filled.toList = rounds.flatten ∧
        Rounds LogicCpu.coreId #v[⟨0, 0⟩, ⟨1, 0⟩, ⟨2, 1⟩, ⟨3, 1⟩].toList rounds :=
  sortUniqSets_rounds sortCpus_sorts (by decide) _ (by decide)

end TaskLunev.CpuTopologyRounds
