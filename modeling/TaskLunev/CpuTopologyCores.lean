import TaskLunev.CpuTopologyModel
import Mathlib.Algebra.BigOperators.Fin
import Mathlib.Data.Finset.Image
import Mathlib.Data.Fintype.Basic

/-!
# Counting cores by marks

The marks left by the loop are the core ids of the CPUs, so their number is that
of the different cores. A core id is a number of the hardware, and nothing keeps
it below the number of CPUs that are online: a machine without hyperthreads
whose cores are numbered with gaps has one that is not.
-/
namespace TaskLunev.CpuTopologyCores
open CpuTopologyModel

section
variable {n : ℕ} {cpus : List LogicCpu} {mask : Fin n → ℕ}

/-- The core ids are indices of the mark array. -/
def IdsFit (n : ℕ) (cpus : List LogicCpu) : Prop := ∀ cpu ∈ cpus, 0 ≤ cpu.coreId ∧ cpu.coreId < n

/-- The loop sets the marks at the core ids and no others. -/
theorem markCores_eq (hfit : IdsFit n cpus) : markCores cpus mask =
    some fun i : Fin n => if (i : ℤ) ∈ cpus.map LogicCpu.coreId then 1 else mask i := by
  induction cpus generalizing mask with
  | nil => simp [markCores]
  | cons cpu rest ih =>
      obtain ⟨hcpu, hrest⟩ := List.forall_mem_cons.mp hfit
      have hin : 0 ≤ cpu.coreId ∧ cpu.coreId.toNat < n := by omega
      rw [markCores, dif_pos hin, ih hrest, Option.some.injEq]
      funext i
      rw [List.map_cons]
      by_cases hi : (i : ℤ) ∈ rest.map LogicCpu.coreId
      · rw [if_pos hi, if_pos (List.mem_cons_of_mem _ hi)]
      · rw [if_neg hi]
        by_cases hhere : i = ⟨cpu.coreId.toNat, hin.2⟩
        · have hid : (i : ℤ) = cpu.coreId := by
            rw [hhere]
            exact Int.toNat_of_nonneg hin.1
          rw [if_pos (hid ▸ List.mem_cons_self), hhere, Function.update_self]
        · have hid : (i : ℤ) ≠ cpu.coreId := fun he => hhere (Fin.ext (by simp only; omega))
          rw [Function.update_of_ne hhere, if_neg (List.not_mem_cons_of_ne_of_not_mem hid hi)]

theorem markCores_none (hfit : ¬ IdsFit n cpus) : markCores cpus mask = none := by
  induction cpus generalizing mask with
  | nil => exact absurd (List.forall_mem_nil _) hfit
  | cons cpu rest ih =>
      unfold markCores
      split_ifs with hin
      · apply ih
        intro hrest
        exact hfit (List.forall_mem_cons.mpr ⟨by omega, hrest⟩)
      · rfl

/-- As many marks are set as there are different cores. -/
theorem sum_marks (hfit : IdsFit n cpus) :
    ((List.finRange n).map fun i : Fin n =>
      if (i : ℤ) ∈ cpus.map LogicCpu.coreId then 1 else 0).sum =
      (cpus.map LogicCpu.coreId).toFinset.card := by
  have himage : (Finset.univ.filter fun i : Fin n => (i : ℤ) ∈ cpus.map LogicCpu.coreId).image
      (fun i : Fin n => (i : ℤ)) = (cpus.map LogicCpu.coreId).toFinset := by
    ext id
    simp only [Finset.mem_image, Finset.mem_filter, Finset.mem_univ, true_and, List.mem_toFinset]
    constructor
    · intro h
      rcases h with ⟨i, hi, rfl⟩
      exact hi
    · intro hid
      obtain ⟨cpu, hcpu, rfl⟩ := List.mem_map.mp hid
      have hin := hfit cpu hcpu
      exact ⟨⟨cpu.coreId.toNat, by omega⟩, by simpa [hin.1] using hid, by simp [hin.1]⟩
  have hinj : Function.Injective fun i : Fin n => (i : ℤ) := fun i j h => Fin.ext (by simpa using h)
  rw [← himage, Finset.card_image_of_injective _ hinj, Finset.card_filter, Fin.sum_univ_def]

/-- On a topology with a CPU the call stays inside its mark array and returns
the number of different cores exactly when every core id is below the number of
CPUs. -/
theorem numCores_iff (hpos : 1 ≤ n) (logicCpus : Vector LogicCpu n) :
    (cputopGetNumCoreCPU (some ⟨n, some logicCpus⟩)).map Reply.ret =
        some ((logicCpus.toList.map LogicCpu.coreId).toFinset.card : ℤ) ↔
      ∀ cpu ∈ logicCpus.toList, 0 ≤ cpu.coreId ∧ cpu.coreId < n := by
  have hverified : cputopVerifier ⟨n, some logicCpus⟩ = true := by
    simp [cputopVerifier, Nat.lt_of_succ_le hpos]
  simp only [cputopGetNumCoreCPU, hverified, Bool.true_eq_false, if_false]
  by_cases hfit : IdsFit n logicCpus.toList
  · rw [markCores_eq hfit]
    refine iff_of_true ?_ hfit
    simp only [Option.bind_eq_bind, Option.bind_some, Option.pure_def, Option.map_some,
      sum_marks hfit]
  · rw [markCores_none hfit]
    exact iff_of_false (by simp) hfit

end

/-- Two cores of two threads each. -/
theorem numCores_two :
    (cputopGetNumCoreCPU (some ⟨4, some #v[⟨0, 0⟩, ⟨1, 1⟩, ⟨2, 0⟩, ⟨3, 1⟩]⟩)).map Reply.ret =
        some ((#v[(⟨0, 0⟩ : LogicCpu), ⟨1, 1⟩, ⟨2, 0⟩, ⟨3, 1⟩].toList.map
          LogicCpu.coreId).toFinset.card : ℤ) ↔
      ∀ cpu ∈ #v[(⟨0, 0⟩ : LogicCpu), ⟨1, 1⟩, ⟨2, 0⟩, ⟨3, 1⟩].toList,
        0 ≤ cpu.coreId ∧ cpu.coreId < 4 :=
  numCores_iff (by decide) _

/-- Two CPUs online, on the cores 0 and 4. -/
theorem numCores_gap : cputopGetNumCoreCPU (some ⟨2, some #v[⟨0, 0⟩, ⟨1, 4⟩]⟩) = none := by
  decide +kernel

end TaskLunev.CpuTopologyCores
