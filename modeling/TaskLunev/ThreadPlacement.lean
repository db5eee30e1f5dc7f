import TaskLunev.CpuTopologyRounds
import TaskLunev.RoundRobin

/-!
# Where the threads run

The part of `hpc.c` that chooses a CPU for every thread, on a topology that was
sorted before. Threads are dealt out round the sorted CPUs. As the first round
of the sorted CPUs has one CPU of each core, few threads run on different
cores. A `cpu_set_t` has places for the CPU numbers below 1024 only, and
`CPU_SET` of another number leaves it as it is: a thread dealt to such a CPU has
an empty set. The calls on thread attributes succeed.
-/
namespace TaskLunev.ThreadPlacement
open SortedRounds RoundRobin CpuTopologyModel CpuTopologyRounds

def CPU_SETSIZE : ℕ := 1024

/-- `cpu_set_t` -/
abbrev CpuSet := Finset (Fin CPU_SETSIZE)

/-- `CPU_ZERO` and `CPU_SET`. As a `size_t` a negative number is too large. -/
def cpuSet (id : ℤ) : CpuSet :=
  if h : 0 ≤ id ∧ id < CPU_SETSIZE then {⟨id.toNat, by omega⟩} else ∅

/-- The set allows the CPU with this number. -/
def Allows (set : CpuSet) (id : ℤ) : Prop := ∃ place ∈ set, (place : ℤ) = id

instance (set : CpuSet) (id : ℤ) : Decidable (Allows set id) :=
  inferInstanceAs (Decidable (∃ place ∈ set, (place : ℤ) = id))

theorem allows_cpuSet {id other : ℤ} :
    Allows (cpuSet id) other ↔ id = other ∧ 0 ≤ id ∧ id < CPU_SETSIZE := by
  unfold Allows cpuSet
  split_ifs with h
  · simp [Int.toNat_of_nonneg h.1, h]
  · simp [h]

def cputopGetNumLogicCPU : Option CpuTopology → ℤ
  | none => -1
  | some cputop => cputop.numLogicCpu

/-- `none` when it reads through a null pointer. -/
def cputopGetLogicCpuId (cputop : Option CpuTopology) (numLogicCpu : ℕ) : Option ℤ :=
  match cputop with
  | none => some (-1)
  | some cputop =>
      if h : numLogicCpu < cputop.numLogicCpu then
        cputop.logicCpus.map fun logicCpus => (logicCpus.get ⟨numLogicCpu, h⟩).id
      else some (-1)

/-- The loop of `_distributeAttrThreads`, with `left` threads to go: the value
returned and the CPU sets of the threads. `none` when it divides by zero. -/
def distributeFrom (cputop : Option CpuTopology) (numLogicCpu : ℕ) :
    ℕ → ℕ → Option (ℤ × List CpuSet)
  | 0, _ => some (0, [])
  | left + 1, numThread =>
      if numLogicCpu = 0 then none
      else do
        let logicCpuId ← cputopGetLogicCpuId cputop (numThread % numLogicCpu)
        if logicCpuId = -1 then return (-1, [])
        else
          let (state, rest) ← distributeFrom cputop numLogicCpu left (numThread + 1)
          return (state, cpuSet logicCpuId :: rest)

/-- `_distributeAttrThreads` -/
def distributeAttrThreads (numThreads : ℕ) (cputop : Option CpuTopology) :
    Option (ℤ × List CpuSet) :=
  let numLogicCpu := cputopGetNumLogicCPU cputop
  if numLogicCpu = -1 then some (-1, [])
  else distributeFrom cputop numLogicCpu.toNat numThreads 0

/-- The CPU sets that `_integral_linear` gives its threads, the dummy threads
last. -/
def integralLinearAttrs (numThreads : ℕ) (cputop : Option CpuTopology) :
    Option (ℤ × List CpuSet) :=
  let numLogicCpu := cputopGetNumLogicCPU cputop
  let numDummy := if numThreads < numLogicCpu then (numLogicCpu - numThreads).toNat else 0
  distributeAttrThreads (numThreads + numDummy) cputop

/-! ## What is asked of a placement -/

/-- How many threads run on a CPU. -/
def pinned (attrs : List CpuSet) (cpu : LogicCpu) : ℕ := attrs.countP fun set => Allows set cpu.id

/-- The set allows one CPU of the list and no other. -/
def Single (cpus : List LogicCpu) (set : CpuSet) : Prop :=
  ∃ cpu ∈ cpus, ∀ id, Allows set id ↔ cpu.id = id

/-- Any two threads run on different cores. -/
def OnDifferentCores (cpus : List LogicCpu) (attrs : List CpuSet) : Prop :=
  attrs.Pairwise fun set set' => ∀ cpu ∈ cpus, ∀ cpu' ∈ cpus,
    Allows set cpu.id → Allows set' cpu'.id → cpu.coreId ≠ cpu'.coreId

/-- The number of distinct core ids. -/
def numCores (cpus : List LogicCpu) : ℕ := (cpus.map LogicCpu.coreId).dedup.length

/-- Every CPU is listed once, under a number. -/
structure Listed (cpus : List LogicCpu) : Prop where
  nodup : (cpus.map LogicCpu.id).Nodup
  nonneg : ∀ cpu ∈ cpus, 0 ≤ cpu.id

/-- Every CPU has a place in a `cpu_set_t`. -/
def Placeable (cpus : List LogicCpu) : Prop := ∀ cpu ∈ cpus, cpu.id < CPU_SETSIZE

instance (cpus : List LogicCpu) : Decidable (Placeable cpus) :=
  inferInstanceAs (Decidable (∀ cpu ∈ cpus, _))

/-- What `_integral` and `_integral_linear` make of `numThreads` threads. -/
structure Spread (cpus : List LogicCpu) (cputop : Option CpuTopology) (numThreads : ℕ) : Prop where
  even : ∃ attrs, distributeAttrThreads numThreads cputop = some (0, attrs) ∧
    attrs.length = numThreads ∧ (∀ set ∈ attrs, Single cpus set) ∧
    (∀ cpu ∈ cpus, ∀ cpu' ∈ cpus, pinned attrs cpu ≤ pinned attrs cpu' + 1) ∧
    (numThreads ≤ numCores cpus → OnDifferentCores cpus attrs)
  linear : ∃ attrs, integralLinearAttrs numThreads cputop = some (0, attrs) ∧
    (numThreads < cpus.length → ∀ cpu ∈ cpus, pinned attrs cpu = 1) ∧
    (numThreads ≤ numCores cpus → OnDifferentCores cpus (attrs.take numThreads))

/-! ## The threads are dealt out in turn -/

/-- The CPU sets of threads on these CPUs. -/
def setsOf (cpus : List LogicCpu) : List CpuSet := cpus.map fun cpu => cpuSet cpu.id

section
variable {cpus : List LogicCpu}

theorem Listed.id_inj (h : Listed cpus) {cpu cpu' : LogicCpu} (hcpu : cpu ∈ cpus)
    (hcpu' : cpu' ∈ cpus) (hid : cpu.id = cpu'.id) : cpu = cpu' :=
  List.inj_on_of_nodup_map h.nodup hcpu hcpu' hid

theorem Listed.perm {cpus' : List LogicCpu} (h : Listed cpus) (hperm : cpus'.Perm cpus) :
    Listed cpus' where
  nodup := (hperm.map LogicCpu.id).nodup_iff.mpr h.nodup
  nonneg cpu hcpu := h.nonneg cpu (hperm.mem_iff.mp hcpu)

theorem Listed.allows_iff (h : Listed cpus) (hplaces : Placeable cpus) {cpu : LogicCpu}
    (hcpu : cpu ∈ cpus) (id : ℤ) : Allows (cpuSet cpu.id) id ↔ cpu.id = id := by
  rw [allows_cpuSet, and_iff_left ⟨h.nonneg cpu hcpu, hplaces cpu hcpu⟩]

/-- Where there is no place for a CPU it gets no thread. -/
theorem pinned_eq_zero {cpu : LogicCpu} (hlarge : CPU_SETSIZE ≤ cpu.id) (attrs : List CpuSet) :
    pinned attrs cpu = 0 := by
  rw [pinned, List.countP_eq_zero]
  intro set _ hallows
  obtain ⟨place, -, hid⟩ := of_decide_eq_true hallows
  have hlt := place.isLt
  omega

theorem not_single_of_large {id : ℤ} (hlarge : CPU_SETSIZE ≤ id) : ¬ Single cpus (cpuSet id) := by
  rintro ⟨cpu, -, hsingle⟩
  have hallows := (hsingle cpu.id).mpr rfl
  have hlt := (allows_cpuSet.mp hallows).2.2
  omega

/-- A CPU has the threads that were dealt to it. -/
theorem pinned_setsOf (h : Listed cpus) (hplaces : Placeable cpus) {dealt : List LogicCpu}
    (hdealt : ∀ x ∈ dealt, x ∈ cpus) {cpu : LogicCpu} (hcpu : cpu ∈ cpus) :
    pinned (setsOf dealt) cpu = dealt.count cpu := by
  rw [pinned, setsOf, List.countP_map, List.count]
  apply List.countP_congr
  intro x hx
  simp only [Function.comp_apply, h.allows_iff hplaces (hdealt x hx), decide_eq_true_eq, beq_iff_eq]
  constructor
  · exact h.id_inj (hdealt x hx) hcpu
  · intro hx
    rw [hx]

/-- CPUs in the order of their cores are on different cores. -/
theorem onDifferentCores_setsOf (h : Listed cpus) (hplaces : Placeable cpus)
    {dealt : List LogicCpu} (hdealt : ∀ x ∈ dealt, x ∈ cpus)
    (hcores : dealt.Pairwise fun x y => x.coreId < y.coreId) :
    OnDifferentCores cpus (setsOf dealt) := by
  rw [OnDifferentCores, setsOf, List.pairwise_map]
  apply hcores.imp_of_mem
  intro x y hx hy hlt cpu hcpu cpu' hcpu' hid hid'
  rw [h.allows_iff hplaces (hdealt x hx)] at hid
  rw [h.allows_iff hplaces (hdealt y hy)] at hid'
  rw [← h.id_inj (hdealt x hx) hcpu hid, ← h.id_inj (hdealt y hy) hcpu' hid']
  exact hlt.ne

end

section
variable {n : ℕ} {sorted : Vector LogicCpu n}

theorem distributeFrom_eq (hpos : 0 < n) (hid : ∀ cpu ∈ sorted.toList, 0 ≤ cpu.id)
    (left numThread : ℕ) :
    distributeFrom (some ⟨n, some sorted⟩) n left numThread = some (0,
      (List.range' numThread left).map fun t =>
        cpuSet (sorted.get ⟨t % n, Nat.mod_lt t hpos⟩).id) := by
  induction left generalizing numThread with
  | zero => rfl
  | succ left ih =>
      have hlt : numThread % n < n := Nat.mod_lt numThread hpos
      have hnonneg : 0 ≤ (sorted.get ⟨numThread % n, hlt⟩).id := hid _ (by simp [Vector.get])
      have hvalid : (sorted.get ⟨numThread % n, hlt⟩).id ≠ -1 := by omega
      simp only [distributeFrom, if_neg hpos.ne', cputopGetLogicCpuId, dif_pos hlt, Option.map_some,
        Option.bind_eq_bind, Option.bind_some, if_neg hvalid, ih, Option.pure_def, List.range'_succ,
        List.map_cons]

theorem distributeAttrThreads_eq (hpos : 0 < sorted.toList.length)
    (hid : ∀ cpu ∈ sorted.toList, 0 ≤ cpu.id) (numThreads : ℕ) :
    distributeAttrThreads numThreads (some ⟨n, some sorted⟩) =
      some (0, setsOf (deal sorted.toList hpos numThreads)) := by
  have hn : 0 < n := by rwa [Vector.length_toList] at hpos
  have hnum : cputopGetNumLogicCPU (some ⟨n, some sorted⟩) = n := rfl
  have hsucc : (n : ℤ) ≠ -1 := by omega
  rw [distributeAttrThreads, hnum]
  simp only [if_neg hsucc, Int.toNat_natCast, distributeFrom_eq hn hid, setsOf, deal, List.map_map,
    List.range_eq_range', Option.some.injEq, Prod.mk.injEq, true_and]
  apply List.map_congr_left
  intro t _
  simp [Vector.get]

theorem integralLinearAttrs_eq (hpos : 0 < sorted.toList.length)
    (hid : ∀ cpu ∈ sorted.toList, 0 ≤ cpu.id) (numThreads : ℕ) :
    integralLinearAttrs numThreads (some ⟨n, some sorted⟩) =
      some (0, setsOf (deal sorted.toList hpos (max numThreads n))) := by
  have hnum : cputopGetNumLogicCPU (some ⟨n, some sorted⟩) = n := rfl
  have htotal : numThreads + (if (numThreads : ℤ) < n then ((n : ℤ) - numThreads).toNat else 0) =
      max numThreads n := by
    split_ifs <;> omega
  rw [integralLinearAttrs, hnum]
  simp only [htotal]
  exact distributeAttrThreads_eq hpos hid _

end

/-! ## Every thread count -/

section
variable {cpus : List LogicCpu} {n : ℕ} {sorted : Vector LogicCpu n}

theorem Listed.nodup_self (h : Listed cpus) : cpus.Nodup := h.nodup.of_map _

/-- No more threads than cores are dealt to CPUs of increasing cores. -/
theorem deal_increasing {rounds : List (List LogicCpu)}
    (hrounds : Rounds LogicCpu.coreId cpus rounds) (hsorted : sorted.toList = rounds.flatten)
    (hpos : 0 < sorted.toList.length) {count : ℕ} (hcount : count ≤ numCores cpus) :
    (deal sorted.toList hpos count).Pairwise fun x y => x.coreId < y.coreId := by
  have hle : numCores cpus ≤ sorted.toList.length := by
    rw [hsorted, hrounds.perm.length_eq, ← List.length_map (f := LogicCpu.coreId)]
    exact (List.dedup_sublist _).length_le
  have hfront := hrounds.increasing_front
  rw [← hsorted] at hfront
  rw [deal_eq_take (hcount.trans hle), ← Nat.min_eq_left hcount, ← List.take_take]
  exact hfront.sublist (List.take_sublist _ _)

/-- A sorted topology spreads any number of threads when every CPU has a place. -/
theorem spread_of_rounds (hlisted : Listed cpus) (hplaces : Placeable cpus)
    (hpos : 0 < cpus.length) {rounds : List (List LogicCpu)} (hrounds : Rounds LogicCpu.coreId cpus rounds)
    (hsorted : sorted.toList = rounds.flatten) (numThreads : ℕ) :
    Spread cpus (some ⟨n, some sorted⟩) numThreads := by
  have hperm : sorted.toList.Perm cpus := hsorted ▸ hrounds.perm
  have hsorted_listed := hlisted.perm hperm
  have hne : 0 < sorted.toList.length := hperm.length_eq ▸ hpos
  have hlen : cpus.length = n := by rw [← hperm.length_eq, Vector.length_toList]
  have hdealt : ∀ count, ∀ x ∈ deal sorted.toList hne count, x ∈ cpus := fun count x hx =>
    hperm.mem_iff.mp (mem_of_mem_deal hx)
  have hcores : ∀ count ≤ numCores cpus,
      OnDifferentCores cpus (setsOf (deal sorted.toList hne count)) := fun count hcount =>
    onDifferentCores_setsOf hlisted hplaces (hdealt count) (deal_increasing hrounds hsorted hne hcount)
  constructor
  · refine ⟨_, distributeAttrThreads_eq hne hsorted_listed.nonneg numThreads, ?_, ?_, ?_, ?_⟩
    · rw [setsOf, List.length_map, length_deal]
    · intro set hset
      obtain ⟨cpu, hcpu, rfl⟩ := List.mem_map.mp hset
      have hmem := hdealt numThreads cpu hcpu
      exact ⟨cpu, hmem, hlisted.allows_iff hplaces hmem⟩
    · intro cpu hcpu cpu' hcpu'
      rw [pinned_setsOf hlisted hplaces (hdealt numThreads) hcpu,
        pinned_setsOf hlisted hplaces (hdealt numThreads) hcpu']
      exact count_deal_le hsorted_listed.nodup_self (hperm.mem_iff.mpr hcpu)
        (hperm.mem_iff.mpr hcpu')
    · exact hcores numThreads
  · refine ⟨_, integralLinearAttrs_eq hne hsorted_listed.nonneg numThreads, ?_, ?_⟩
    · intro hfew cpu hcpu
      have hmax : max numThreads n = sorted.toList.length := by
        rw [Vector.length_toList]
        omega
      rw [pinned_setsOf hlisted hplaces (hdealt _) hcpu, hmax]
      exact count_deal_all hsorted_listed.nodup_self (hperm.mem_iff.mpr hcpu)
    · intro hcount
      rw [setsOf, ← List.map_take, take_deal (le_max_left _ _)]
      exact hcores numThreads hcount

/-- Spread threads mean that every CPU has a place: with fewer threads than CPUs
each one is to get a real or a dummy thread, and otherwise a real one. -/
theorem placeable_of_spread (hlisted : Listed cpus) (hperm : sorted.toList.Perm cpus)
    (hpos : 0 < sorted.toList.length) {numThreads : ℕ}
    (hspread : Spread cpus (some ⟨n, some sorted⟩) numThreads) : Placeable cpus := by
  intro cpu hcpu
  by_contra hplace
  have hlarge : CPU_SETSIZE ≤ cpu.id := Int.not_lt.mp hplace
  by_cases hfew : numThreads < cpus.length
  · obtain ⟨attrs, -, heach, -⟩ := hspread.linear
    have hone := heach hfew cpu hcpu
    rw [pinned_eq_zero hlarge] at hone
    cases hone
  · obtain ⟨attrs, hattrs, -, hsingle, -⟩ := hspread.even
    rw [distributeAttrThreads_eq hpos (hlisted.perm hperm).nonneg] at hattrs
    obtain rfl := (Prod.mk.inj (Option.some.inj hattrs)).2
    have hall : deal sorted.toList hpos sorted.toList.length = sorted.toList := by
      rw [deal_eq_take le_rfl, List.take_length]
    have hdealt : cpu ∈ deal sorted.toList hpos numThreads := by
      have hle : sorted.toList.length ≤ numThreads := by
        rw [hperm.length_eq]
        omega
      apply List.mem_of_mem_take (i := sorted.toList.length)
      rw [take_deal hle, hall]
      exact hperm.mem_iff.mpr hcpu
    exact not_single_of_large hlarge (hsingle _ (List.mem_map_of_mem hdealt))

end

/-- On a topology that was sorted a number of threads is spread, so that the loads
of any two CPUs differ by at most one, real and dummy threads together take
each CPU once, and no more threads than cores are on different cores, exactly
when every CPU has a place in a `cpu_set_t`. -/
theorem sorted_spreads_iff {qsort : QSort} (hqsort : SortsByCoreId qsort) {n : ℕ} (hpos : 1 ≤ n)
    (logicCpus : Vector LogicCpu n) (hlisted : Listed logicCpus.toList)
    (hcore : ∀ cpu ∈ logicCpus.toList, 0 ≤ cpu.coreId) :
    ∃ sorted : Option CpuTopology,
      (∀ passes, n ≤ passes → cputopSortUniqSetsCoreId qsort passes (some ⟨n, some logicCpus⟩) =
        some ⟨0, none, sorted⟩) ∧
      ∀ numThreads, 1 ≤ numThreads →
        (Spread logicCpus.toList sorted numThreads ↔ Placeable logicCpus.toList) := by
  obtain ⟨filled, rounds, hloop, hfilled, hrounds⟩ := sortLoops_rounds hqsort logicCpus hcore
  refine ⟨some ⟨n, some filled⟩, fun passes hpasses => ?_, fun numThreads _ => ⟨?_, ?_⟩⟩
  · rw [cputopSortUniqSetsCoreId_eq qsort passes hpos, hloop passes hpasses, Option.map_some]
  · exact placeable_of_spread hlisted (hfilled ▸ hrounds.perm) (by rw [Vector.length_toList]; omega)
  · intro hplaces
    exact spread_of_rounds hlisted hplaces (by rw [Vector.length_toList]; omega) hrounds hfilled
      numThreads

/-- Two CPUs, one of which has no place: of four threads two are pinned to the
other one, and none to it. -/
theorem unplaced_cpu_idle :
    let cpus : CpuTopology := ⟨2, some #v[⟨0, 0⟩, ⟨1024, 1⟩]⟩
    let attrs := [cpuSet 0, cpuSet 1024, cpuSet 0, cpuSet 1024]
    cputopSortUniqSetsCoreId sortCpus 2 (some cpus) = some ⟨0, none, some cpus⟩ ∧
      distributeAttrThreads 4 (some cpus) = some (0, attrs) ∧
      pinned attrs ⟨0, 0⟩ = 2 ∧ pinned attrs ⟨1024, 1⟩ = 0 := by
  have hsort : sortCpus 2 cmpCoreId #v[⟨0, 0⟩, ⟨1024, 1⟩] = #v[⟨0, 0⟩, ⟨1024, 1⟩] := by
    apply Vector.toList_inj.mp
    exact List.mergeSort_of_pairwise (by decide)
  refine ⟨?_, rfl, ?_, ?_⟩
  · rw [cputopSortUniqSetsCoreId_eq sortCpus 2 (by decide), hsort]
    rfl
  · simp [pinned, allows_cpuSet, CPU_SETSIZE]
  · simp [pinned, allows_cpuSet, CPU_SETSIZE]

/-- Four CPUs on two cores. -/
theorem sorted_spreads_two_cores : ∃ sorted : Option CpuTopology,
    (∀ passes, 4 ≤ passes → cputopSortUniqSetsCoreId sortCpus passes
        (some ⟨4, some #v[⟨0, 0⟩, ⟨1, 0⟩, ⟨2, 1⟩, ⟨3, 1⟩]⟩) = some ⟨0, none, sorted⟩) ∧
      ∀ numThreads, 1 ≤ numThreads →
        (Spread #v[⟨0, 0⟩, ⟨1, 0⟩, ⟨2, 1⟩, ⟨3, 1⟩].toList sorted numThreads ↔
          Placeable #v[⟨0, 0⟩, ⟨1, 0⟩, ⟨2, 1⟩, ⟨3, 1⟩].toList) :=
  sorted_spreads_iff sortCpus_sorts (by decide) _ ⟨by decide, by decide⟩ (by decide)

end TaskLunev.ThreadPlacement
