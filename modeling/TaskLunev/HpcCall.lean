import TaskLunev.CpuOnlineList
import TaskLunev.HpcCallTopology
import TaskLunev.IntegralVariants

/-!
# What a whole call comes to

On a machine whose kernel lists its CPUs the call ends without a fault whatever
the system answers. It returns a number exactly when every file is read and
every array is there. The number is then the integral for as many CPUs as are
listed, and the threads are spread over the cores. What was on the heap is as it
was. A call that returns a number leaves its three arrays for the threads there,
another call the buffer of a file that was opened and not read, if there was one,
and nothing else.
-/
namespace TaskLunev.HpcCall
open BlockHeap HeapOverlay CStrings SortedRounds CpuTopologyModel CpuTopologyRounds
  CpuTopologyInitModel CpuTopologyFill CpuOnlineList ThreadPlacement IntegralModel IntegralVariants
  HpcCallModel HpcCallTopology

/-- Every file is read and every allocation gives memory. -/
def Succeeds (calloc : Bool) (answers : Answers) (numCpus : ℕ) : Prop :=
  calloc = true ∧ (∃ text, answers.online = .text text) ∧ answers.calloc = true ∧
    firstFailure answers.core numCpus 0 = none

/-- The first file that is not read is one that was opened. -/
def LosesBuffer (calloc : Bool) (answers : Answers) (numCpus : ℕ) : Prop :=
  calloc = true ∧ (answers.online = .readFails ∨ (∃ text, answers.online = .text text) ∧
    answers.calloc = true ∧ firstFailure answers.core numCpus 0 = some .readFails)

/-- The CPUs of a set, in order, with the cores from the files. -/
def listedCpus (S : Finset ℕ) (core : ℕ → FileRead) : List LogicCpu :=
  withCores core 0 (entries (S.sort.map fun n : ℕ => (n : ℤ)))

/-- The CPU sets of real and dummy threads: one CPU each, all CPUs alike, and no
more real threads than cores on different cores. -/
structure WellPlaced (cpus : List LogicCpu) (numThreads : ℕ) (attrs : List CpuSet) : Prop where
  count : attrs.length = max numThreads cpus.length
  single : ∀ set ∈ attrs, Single cpus set
  even : ∀ cpu ∈ cpus, ∀ cpu' ∈ cpus, pinned attrs cpu ≤ pinned attrs cpu' + 1
  each : numThreads < cpus.length → ∀ cpu ∈ cpus, pinned attrs cpu = 1
  cores : numThreads ≤ numCores cpus → OnDifferentCores cpus (attrs.take numThreads)

/-! ## Giving back -/

section
variable {old heap : Heap Block} {left : List Block} {object num a : ℕ} {b : Block}
  {value : Double} {attrs : List CpuSet}

theorem ended_object (h : Beside old left (Function.update nothing object (some b)) heap) :
    ∃ heap', ended value attrs ⟨heap, some ⟨object, num, none⟩⟩ =
        .ok (some ⟨value, attrs, heap'⟩) ∧ Leaves old left heap' := by
  obtain ⟨heap', hfree, hleft⟩ := h.freed rfl
  refine ⟨heap', ?_, hleft.leaves⟩
  simp only [ended, cputopDestroy, freeArray, freeBlock_of_free hfree, bind, Except.bind]
  rfl

theorem ended_array {c : Block} (ha : Function.update nothing object (some b) a = none)
    (h : Beside old left
      (Function.update (Function.update nothing object (some b)) a (some c)) heap) :
    ∃ heap', ended value attrs ⟨heap, some ⟨object, num, some a⟩⟩ =
        .ok (some ⟨value, attrs, heap'⟩) ∧ Leaves old left heap' := by
  obtain ⟨heap₁, hfree₁, hleft₁⟩ := h.freed ha
  obtain ⟨heap', hfree, hleft⟩ := hleft₁.freed rfl
  refine ⟨heap', ?_, hleft.leaves⟩
  simp only [ended, cputopDestroy, freeArray, freeBlock_of_free hfree₁, freeBlock_of_free hfree,
    bind, Except.bind]
  rfl

/-- The arrays for the threads are made beside the rest. -/
theorem beside_threads {own : ℕ → Option Block} (h : Overlay old own heap) (num : ℕ) :
    Beside old (List.replicate 3 (.threads num)) own
      (callocThreads num (callocThreads num (callocThreads num heap))) := by
  have hnone : Beside old [] own heap := h
  exact ((hnone.allocate (.threads num)).allocate (.threads num)).allocate (.threads num)

end

/-! ## Initialising -/

section
variable {old heap : Heap Block} {own : ℕ → Option Block} {object num : ℕ} {answers : Answers}
  {text : List Char}

theorem init_unread (h : Overlay old own heap) (honline : ∀ text, answers.online ≠ .text text) :
    ∃ heap', cputopInit answers ⟨heap, some ⟨object, num, none⟩⟩ =
        .ok (-1, ⟨heap', some ⟨object, num, none⟩⟩) ∧
      Beside old (lost answers.online) own heap' := by
  obtain ⟨heap', hlogic, hleft⟩ :=
    initLogic_unread ⟨object, num, none⟩ h honline
  refine ⟨heap', ?_, hleft⟩
  simp only [cputopInit, freeArray, hlogic, bind, Except.bind]
  rfl

theorem init_refused (h : Overlay old own heap) (honline : answers.online = .text text)
    (hcalloc : answers.calloc = false) :
    ∃ heap', cputopInit answers ⟨heap, some ⟨object, num, none⟩⟩ =
        .ok (-1, ⟨heap', some ⟨object, num, none⟩⟩) ∧ Overlay old own heap' := by
  obtain ⟨heap', hlogic, hover⟩ :=
    initLogic_refused ⟨object, num, none⟩ h honline hcalloc
  refine ⟨heap', ?_, hover⟩
  simp only [cputopInit, freeArray, hlogic, bind, Except.bind]
  rfl

/-- The array is there, with its cores or without. -/
theorem init_filled (h : Overlay old own heap) (honline : answers.online = .text text)
    (hcalloc : answers.calloc = true) (hne : tokens ',' text ≠ [])
    (hfits : Fits 0 (tokens ',' text)) {ids : List ℤ}
    (hids : (tokens ',' text).flatMap tokenIds = ids) :
    ∃ address, own address = none ∧
      match firstFailure answers.core ids.length 0 with
      | none => ∃ heap', cputopInit answers ⟨heap, some ⟨object, num, none⟩⟩ =
            .ok (0, ⟨heap', some ⟨object, ids.length, some address⟩⟩) ∧
          Overlay old (Function.update own address
            (some (.cpus (withCores answers.core 0 (entries ids))))) heap'
      | some answer => ∃ cpus heap', cputopInit answers ⟨heap, some ⟨object, num, none⟩⟩ =
            .ok (-1, ⟨heap', some ⟨object, ids.length, some address⟩⟩) ∧
          Beside old (lost answer) (Function.update own address (some (.cpus cpus))) heap' := by
  obtain ⟨heap₁, address, hlogic, haddress, hover⟩ :=
    initLogic_filled ⟨object, num, none⟩ h honline hcalloc hne hfits
  rw [hids] at hlogic hover
  have hcores := fillCores_over answers.core [] (entries ids) hover
    (Function.update_self _ _ _)
  rw [length_entries, List.length_nil] at hcores
  refine ⟨address, haddress, ?_⟩
  cases hfirst : firstFailure answers.core ids.length 0 with
  | none =>
      rw [hfirst] at hcores
      obtain ⟨heap', hfill, hrest⟩ := hcores
      rw [Function.update_idem] at hrest
      refine ⟨heap', ?_, hrest⟩
      simp only [cputopInit, freeArray, hlogic, cputopFillCoreCPU, hfill, bind, Except.bind]
      rfl
  | some answer =>
      rw [hfirst] at hcores
      obtain ⟨cpus, heap', hfill, hleft⟩ := hcores
      rw [Function.update_idem] at hleft
      refine ⟨cpus, heap', ?_, hleft⟩
      simp only [cputopInit, freeArray, hlogic, cputopFillCoreCPU, hfill, bind, Except.bind]
      rfl

end

/-! ## Sorting and placing -/

section
variable {old heap : Heap Block} {own : ℕ → Option Block} {qsort : QSort} {passes n : ℕ}
  {object address : ℕ} {cpus : List LogicCpu}

/-- The array is sorted where it stands. -/
theorem sortObject_sorted (hqsort : SortsByCoreId qsort) (hpos : 0 < cpus.length)
    (hlen : cpus.length = n) (hcore : ∀ cpu ∈ cpus, 0 ≤ cpu.coreId) (hpasses : n ≤ passes)
    (h : Overlay old (Function.update own address (some (.cpus cpus))) heap) :
    ∃ sorted : Vector LogicCpu n, ∃ rounds heap',
      sortObject qsort passes ⟨heap, some ⟨object, n, some address⟩⟩ =
        .ok (some (0, some ⟨n, some sorted⟩, ⟨heap', some ⟨object, n, some address⟩⟩)) ∧
      sorted.toList = rounds.flatten ∧ Rounds LogicCpu.coreId cpus rounds ∧
      Overlay old (Function.update own address (some (.cpus sorted.toList))) heap' := by
  subst hlen
  obtain ⟨sorted, rounds, hsort, hsorted, hrounds⟩ :=
    sortUniqSets_rounds hqsort hpos ⟨cpus.toArray, by simp⟩ (by simpa using hcore)
  have hstored := h.store (Function.update_self _ _ _) (.cpus sorted.toList)
  rw [Function.update_idem] at hstored
  have hload : loadCpus heap (some address) = .ok (address, cpus) := by
    rw [loadCpus, h.load_own (Function.update_self _ _ _)]
  refine ⟨sorted, rounds, _, ?_, hsorted, by simpa using hrounds, hstored⟩
  simp only [sortObject, hpos.ne', reduceCtorEq, or_self, if_false, hload, bind, Except.bind,
    dite_true, hsort passes hpasses, Option.bind_some, Option.map_some]
  rfl

variable {sorted : Vector LogicCpu n} {rounds : List (List LogicCpu)} {numThreads : ℕ}

/-- All threads of a call are dealt out at once. -/
theorem attrs_wellPlaced (numThreads : ℕ) (hlisted : Listed cpus) (hplaces : Placeable cpus)
    (hpos : 0 < cpus.length) (hrounds : Rounds LogicCpu.coreId cpus rounds)
    (hsorted : sorted.toList = rounds.flatten) :
    ∃ attrs, distributeAttrThreads (max numThreads n) (some ⟨n, some sorted⟩) = some (0, attrs) ∧
      WellPlaced cpus numThreads attrs := by
  have hlen : cpus.length = n := by
    rw [← hrounds.perm.length_eq, ← hsorted, Vector.length_toList]
  obtain ⟨attrs, hattrs, hcount, hsingle, heven, -⟩ :=
    (spread_of_rounds hlisted hplaces hpos hrounds hsorted (max numThreads n)).even
  obtain ⟨attrs', hlinear, heach, hcores⟩ :=
    (spread_of_rounds hlisted hplaces hpos hrounds hsorted numThreads).linear
  have htotal : numThreads + (if (numThreads : ℤ) < n then ((n : ℤ) - numThreads).toNat else 0) =
      max numThreads n := by
    split_ifs <;> omega
  have hsame : integralLinearAttrs numThreads (some ⟨n, some sorted⟩) =
      distributeAttrThreads (max numThreads n) (some ⟨n, some sorted⟩) := by
    rw [← htotal]
    rfl
  rw [hsame, hattrs, Option.some.injEq, Prod.mk.injEq] at hlinear
  obtain rfl := hlinear.2
  exact ⟨attrs, hattrs, ⟨by rw [hcount, hlen], hsingle, heven, heach, hcores⟩⟩

variable {a b eps : ℚ} (func : ℚ → ℚ)

/-- The loops end, whatever the limits. -/
theorem integralLinear_ends (heps : 0 < eps) (hpos : 0 < numThreads) (hn : n < 2 ^ 31) :
    ∃ value enough, ∀ fuel, enough ≤ fuel →
      integralLinear fuel a b func eps numThreads n = some value := by
  by_cases hab : a = b
  · subst hab
    exact ⟨0, 0, fun fuel _ => integralLinear_self fuel a func eps (by exact_mod_cast hpos) n⟩
  · obtain ⟨enough, hpasses⟩ := integralLinear_eq func hab heps hpos
      (show (n : ℤ) < 2 ^ 31 by exact_mod_cast hn)
    exact ⟨_, enough, fun fuel hfuel => (hpasses fuel).trans (if_pos hfuel)⟩

theorem integralLinearOn_placed (hlisted : Listed cpus) (hplaces : Placeable cpus)
    (hcpus : 0 < cpus.length) (hrounds : Rounds LogicCpu.coreId cpus rounds)
    (hsorted : sorted.toList = rounds.flatten) (heps : 0 < eps) (hpos : 0 < numThreads)
    (hlt : numThreads < 2 ^ 31) (hn : n < 2 ^ 31) :
    ∃ value attrs enough, Computes n ⟨a, b, some func, eps, numThreads⟩ (some value) ∧
      WellPlaced cpus numThreads attrs ∧
      ∀ fuel, enough ≤ fuel → ∀ heap, ∃ heap',
        integralLinearOn fuel ⟨a, b, some func, eps, numThreads⟩ func (some ⟨n, some sorted⟩) heap =
            some (some value, attrs, heap') ∧
          ∀ old own, Overlay old own heap →
            Beside old (List.replicate 3 (.threads (max numThreads n))) own heap' := by
  obtain ⟨attrs, hattrs, hplaced⟩ := attrs_wellPlaced numThreads hlisted hplaces hcpus
    hrounds hsorted
  obtain ⟨value, enough, hvalue⟩ := integralLinear_ends (a := a) (b := b) func heps hpos hn
  have hint : toInt numThreads = numThreads := toInt_of_lt (Int.natCast_nonneg _) (by
    exact_mod_cast hlt)
  have hvalid : verifierIntArg ⟨a, b, some func, eps, numThreads⟩ = true := by
    simp [verifierIntArg, hpos, heps.ne']
  have hnum : cputopGetNumLogicCPU (some ⟨n, some sorted⟩) = n := rfl
  have htotal : toUnsigned ((numThreads : ℤ) +
      if (numThreads : ℤ) < n then toInt ((n : ℤ) - numThreads) else 0) = max numThreads n := by
    split_ifs with hdummy
    · rw [toInt_of_lt (by omega) (by omega), add_sub_cancel, max_eq_right (by omega)]
      unfold toUnsigned
      omega
    · rw [add_zero, max_eq_left (by omega)]
      unfold toUnsigned
      omega
  refine ⟨value, attrs, enough, ⟨enough, ?_⟩, hplaced, fun fuel hfuel heap =>
    ⟨_, ?_, fun _ _ hover => beside_threads hover (max numThreads n)⟩⟩
  · rw [hpcIntegral, if_pos hvalid]
    simp only [hint, hvalue enough le_rfl, Option.map_some]
  · simp only [integralLinearOn, hnum, hint, htotal, hattrs, Option.bind_some, ne_eq,
      not_true_eq_false, if_false, hvalue fuel hfuel, Option.map_some]

end

/-! ## The CPUs that are listed -/

section
variable {core : ℕ → FileRead} {S : Finset ℕ}

theorem map_id_withCores (core : ℕ → FileRead) (cpus : List LogicCpu) (i : ℕ) :
    (withCores core i cpus).map LogicCpu.id = cpus.map LogicCpu.id := by
  induction cpus generalizing i with
  | nil => rfl
  | cons cpu rest ih => rw [withCores, List.map_cons, List.map_cons, ih]

theorem withCores_nonneg (hcore : ∀ i text, core i = .text text → 0 ≤ atoi text)
    (cpus : List LogicCpu) (i : ℕ) : ∀ cpu ∈ withCores core i cpus, 0 ≤ cpu.coreId := by
  induction cpus generalizing i with
  | nil => exact fun cpu hcpu => nomatch hcpu
  | cons cpu rest ih =>
      rw [withCores, List.forall_mem_cons]
      refine ⟨?_, ih (i + 1)⟩
      cases hfile : core i with
      | text s => exact hcore i s hfile
      | _ => exact le_rfl

theorem map_id_listedCpus (S : Finset ℕ) (core : ℕ → FileRead) :
    (listedCpus S core).map LogicCpu.id = S.sort.map fun n : ℕ => (n : ℤ) := by
  rw [listedCpus, map_id_withCores, entries, List.map_map]
  exact List.map_id _

theorem length_listedCpus (S : Finset ℕ) (core : ℕ → FileRead) :
    (listedCpus S core).length = S.card := by
  rw [← List.length_map (f := LogicCpu.id), map_id_listedCpus, List.length_map, Finset.length_sort]

theorem listed_listedCpus (S : Finset ℕ) (core : ℕ → FileRead) : Listed (listedCpus S core) where
  nodup := by
    rw [map_id_listedCpus]
    exact (Finset.sort_nodup S _).map Nat.cast_injective
  nonneg cpu hcpu := by
    have hmem := List.mem_map_of_mem (f := LogicCpu.id) hcpu
    rw [map_id_listedCpus] at hmem
    obtain ⟨n, -, hn⟩ := List.mem_map.mp hmem
    rw [← hn]
    exact Int.natCast_nonneg n

theorem placeable_listedCpus (core : ℕ → FileRead) (hset : ∀ n ∈ S, n < 1024) :
    Placeable (listedCpus S core) := by
  intro cpu hcpu
  have hmem := List.mem_map_of_mem (f := LogicCpu.id) hcpu
  rw [map_id_listedCpus] at hmem
  obtain ⟨n, hn, hid⟩ := List.mem_map.mp hmem
  have hlt := hset n (Finset.mem_sort _ |>.mp hn)
  rw [← hid]
  exact_mod_cast hlt

/-- The list is read in full. -/
theorem kernelList_read (hne : S.Nonempty) (hcard : S.card ≤ 256) (hset : ∀ n ∈ S, n < 1024) :
    tokens ',' (kernelList S) ≠ [] ∧ Fits 0 (tokens ',' (kernelList S)) ∧
      (tokens ',' (kernelList S)).flatMap tokenIds = S.sort.map fun n : ℕ => (n : ℤ) := by
  obtain ⟨hids, hfits⟩ := kernelList_tokens hne fun n hn => (hset n hn).trans (by norm_num)
  refine ⟨?_, hfits.mpr ⟨fun h => absurd (hset _ h.1) (by norm_num), hcard⟩, hids⟩
  intro hnil
  have hlen := congrArg List.length hids
  rw [hnil, List.length_map, Finset.length_sort] at hlen
  exact hne.card_pos.ne hlen

end

/-! ## The call -/

/-- How a call on a machine with the CPUs of `S` is to end. -/
structure Right (calloc : Bool) (answers : Answers) (S : Finset ℕ) (arg : HpcIntArg)
    (heap : Heap Block) (e : Ended) : Prop where
  number : e.value ≠ none ↔ Succeeds calloc answers S.card
  computed : Succeeds calloc answers S.card → Computes S.card arg e.value ∧
    WellPlaced (listedCpus S answers.core) arg.numThreads e.attrs
  unplaced : ¬ Succeeds calloc answers S.card → e.attrs = []
  kept : ∀ x, Live heap x → load e.heap x = load heap x
  arrays : Succeeds calloc answers S.card →
    Leaves heap (List.replicate 3 (.threads (max arg.numThreads S.card))) e.heap
  buffer : LosesBuffer calloc answers S.card → Leaves heap [.text []] e.heap
  tidy : ¬ Succeeds calloc answers S.card → ¬ LosesBuffer calloc answers S.card →
    Leaves heap [] e.heap

section
variable {calloc : Bool} {answers : Answers} {S : Finset ℕ} {arg : HpcIntArg}
  {heap heap' : Heap Block} {answer : FileRead} {qsort : QSort} {passes fuel : ℕ} {w w' : World}
  {e : Ended} {func : ℚ → ℚ} {cputop : Option CpuTopology} {value : Double} {attrs : List CpuSet}

/-- A call that fails. -/
theorem right_of_lost (hleft : Leaves heap (lost answer) heap')
    (hfails : ¬ Succeeds calloc answers S.card)
    (hloses : LosesBuffer calloc answers S.card ↔ answer = .readFails) :
    Right calloc answers S arg heap ⟨none, [], heap'⟩ where
  number := iff_of_false (fun hne => hne rfl) hfails
  computed h := absurd h hfails
  unplaced _ := rfl
  kept _ := hleft.load_old
  arrays h := absurd h hfails
  buffer h := by
    rw [hloses.mp h] at hleft
    exact hleft
  tidy _ h := by
    have hnone : lost answer = [] := by
      cases answer with
      | readFails => exact absurd (hloses.mpr rfl) h
      | _ => rfl
    rwa [hnone] at hleft

/-- A call that comes to its integral. -/
theorem right_of_placed
    (hleft : Leaves heap (List.replicate 3 (.threads (max arg.numThreads S.card))) heap')
    (hworks : Succeeds calloc answers S.card) (hvalue : Computes S.card arg value)
    (hnumber : value ≠ none)
    (hplaced : WellPlaced (listedCpus S answers.core) arg.numThreads attrs) :
    Right calloc answers S arg heap ⟨value, attrs, heap'⟩ where
  number := iff_of_true hnumber hworks
  computed _ := ⟨hvalue, hplaced⟩
  unplaced h := absurd hworks h
  kept _ := hleft.load_old
  arrays _ := hleft
  buffer := by
    obtain ⟨-, ⟨text, htext⟩, -, hfirst⟩ := hworks
    rintro ⟨-, hunread | ⟨-, -, hsome⟩⟩
    · rw [htext] at hunread
      cases hunread
    · rw [hfirst] at hsome
      cases hsome
  tidy h := absurd hworks h

theorem call_failed (hvalid : verifierIntArg arg = true) (hfunc : arg.func = some func)
    (hinit : cputopInit answers (cputopCreate true heap) = .ok (-1, w))
    (hended : ended none [] w = .ok (some e)) :
    hpcIntegralCall qsort passes fuel true answers arg heap = .ok (some e) := by
  have hmade : (cputopCreate true heap).cputop ≠ none := Option.some_ne_none _
  simp only [hpcIntegralCall, hvalid, hfunc, if_neg hmade, hinit, bind, Except.bind, if_true]
  exact hended

theorem call_sorted (hvalid : verifierIntArg arg = true) (hfunc : arg.func = some func)
    (hinit : cputopInit answers (cputopCreate true heap) = .ok (0, w))
    (hsort : sortObject qsort passes w = .ok (some (0, cputop, w')))
    (hint : integralLinearOn fuel arg func cputop w'.heap = some (value, attrs, heap'))
    (hended : ended value attrs { w' with heap := heap' } = .ok (some e)) :
    hpcIntegralCall qsort passes fuel true answers arg heap = .ok (some e) := by
  have hmade : (cputopCreate true heap).cputop ≠ none := Option.some_ne_none _
  have hzero : ¬ (0 : ℤ) = -1 := by decide
  simp only [hpcIntegralCall, hvalid, hfunc, if_neg hmade, hinit, bind, Except.bind,
    if_neg hzero, hsort, hint]
  exact hended

end

/-- On a machine with the CPUs of `S`, of which the kernel lists the numbers and
the cores, a call ends right whatever the system answers. There are at most 256
CPUs, and their numbers have a place in a `cpu_set_t`. -/
theorem call_ends_right {qsort : QSort} (hqsort : SortsByCoreId qsort) {S : Finset ℕ}
    (hne : S.Nonempty) (hcard : S.card ≤ 256) (hset : ∀ n ∈ S, n < 1024) {passes : ℕ}
    (hpasses : S.card ≤ passes) (calloc : Bool) {answers : Answers}
    (honline : ∀ text, answers.online = .text text → text = kernelList S)
    (hcore : ∀ i text, answers.core i = .text text → 0 ≤ atoi text) (a b : ℚ) (func : ℚ → ℚ)
    {eps : ℚ} (heps : 0 < eps) {numThreads : ℕ} (hpos : 0 < numThreads)
    (hlt : numThreads < 2 ^ 31) (heap : Heap Block) :
    ∃ enough, ∀ fuel, enough ≤ fuel → ∃ e,
      hpcIntegralCall qsort passes fuel calloc answers ⟨a, b, some func, eps, numThreads⟩ heap =
        .ok (some e) ∧
      Right calloc answers S ⟨a, b, some func, eps, numThreads⟩ heap e := by
  have hvalid : verifierIntArg ⟨a, b, some func, eps, numThreads⟩ = true := by
    simp [verifierIntArg, hpos, heps.ne']
  have hopen : FileRead.openFails ≠ .readFails := by decide
  cases calloc with
  | false =>
      have hfails : ∀ {p : Prop}, ¬ (false = true ∧ p) := fun h => Bool.false_ne_true h.1
      have hleft : Beside heap (lost .openFails) nothing heap := Overlay.refl heap
      refine ⟨0, fun fuel _ => ⟨⟨none, [], heap⟩, ?_,
        right_of_lost hleft.leaves hfails (iff_of_false hfails hopen)⟩⟩
      simp only [hpcIntegralCall, hvalid]
      rfl
  | true =>
      obtain ⟨hobject, hover⟩ := (Overlay.refl heap).allocate Block.object
      by_cases hread : ∃ text, answers.online = .text text
      · obtain ⟨text, htext⟩ := hread
        obtain rfl := honline text htext
        obtain ⟨htokens, hfits, hids⟩ := kernelList_read hne hcard hset
        cases hcalloc : answers.calloc with
        | false =>
            obtain ⟨heap₁, hinit, hover₁⟩ :=
              init_refused hover htext hcalloc
            have hleft₁ : Beside heap (lost .openFails) _ heap₁ := hover₁
            obtain ⟨heap', hended, hleft⟩ := ended_object hleft₁
            refine ⟨0, fun fuel _ => ⟨_, call_failed hvalid rfl hinit hended,
              right_of_lost hleft ?_ (iff_of_false ?_ hopen)⟩⟩
            · rintro ⟨-, -, harray, -⟩
              rw [hcalloc] at harray
              cases harray
            · rintro ⟨-, hunread | ⟨-, harray, -⟩⟩
              · rw [htext] at hunread
                cases hunread
              · rw [hcalloc] at harray
                cases harray
        | true =>
            obtain ⟨address, haddress, hinit⟩ :=
              init_filled hover htext hcalloc htokens hfits hids
            have hcount : (S.sort.map fun n : ℕ => (n : ℤ)).length = S.card := by
              rw [List.length_map, Finset.length_sort]
            rw [hcount] at hinit
            cases hfirst : firstFailure answers.core S.card 0 with
            | none =>
                rw [hfirst] at hinit
                obtain ⟨heap₁, hinit, hover₁⟩ := hinit
                have hlen := length_listedCpus S answers.core
                have hcpus : 0 < (listedCpus S answers.core).length := hlen ▸ hne.card_pos
                obtain ⟨sorted, rounds, heap₂, hsort, hsorted, hrounds, hover₂⟩ :=
                  sortObject_sorted hqsort hcpus hlen
                    (withCores_nonneg hcore _ _) hpasses hover₁
                obtain ⟨value, attrs, enough, hvalue, hplaced, hint⟩ :=
                  integralLinearOn_placed (a := a) (b := b) func
                    (listed_listedCpus S answers.core) (placeable_listedCpus answers.core hset)
                    hcpus hrounds hsorted heps hpos hlt
                    (by omega)
                refine ⟨enough, fun fuel hfuel => ?_⟩
                obtain ⟨heap₃, hint, hthreads⟩ := hint fuel hfuel heap₂
                obtain ⟨heap', hended, hleft⟩ := ended_array haddress (hthreads _ _ hover₂)
                exact ⟨_, call_sorted hvalid rfl hinit hsort hint hended, right_of_placed hleft
                  ⟨rfl, ⟨_, htext⟩, hcalloc, hfirst⟩ hvalue (Option.some_ne_none _) hplaced⟩
            | some answer =>
                rw [hfirst] at hinit
                obtain ⟨cpus, heap₁, hinit, hleft₁⟩ := hinit
                obtain ⟨heap', hended, hleft⟩ := ended_array haddress hleft₁
                refine ⟨0, fun fuel _ => ⟨_, call_failed hvalid rfl hinit hended,
                  right_of_lost hleft ?_ ⟨?_, ?_⟩⟩⟩
                · rintro ⟨-, -, -, hnone⟩
                  rw [hfirst] at hnone
                  cases hnone
                · rintro ⟨-, hunread | ⟨-, -, hsome⟩⟩
                  · rw [htext] at hunread
                    cases hunread
                  · exact Option.some.inj (hfirst.symm.trans hsome)
                · rintro rfl
                  exact ⟨rfl, .inr ⟨⟨_, htext⟩, hcalloc, hfirst⟩⟩
      · have hunread : ∀ text, answers.online ≠ .text text := fun text htext => hread ⟨text, htext⟩
        obtain ⟨heap₁, hinit, hleft₁⟩ := init_unread hover hunread
        obtain ⟨heap', hended, hleft⟩ := ended_object hleft₁
        refine ⟨0, fun fuel _ => ⟨_, call_failed hvalid rfl hinit hended,
          right_of_lost hleft (fun h => hread h.2.1) ⟨?_, fun h => ⟨rfl, .inl h⟩⟩⟩⟩
        rintro ⟨-, honline | ⟨htext, -⟩⟩
        · exact honline
        · exact absurd htext hread

/-- Four CPUs of one core, and an array that is moved. -/
def oneCore : Answers :=
  ⟨.text (kernelList {0, 1, 2, 3}), true, .moved, fun _ => .text ['0', '\n']⟩

theorem call_ends_right_one_core : ∃ enough, ∀ fuel, enough ≤ fuel → ∃ e,
    hpcIntegralCall sortCpus 4 fuel true oneCore ⟨3, 1, some fun x => x * x, 1 / 4, 2⟩ [] =
        .ok (some e) ∧
      Right true oneCore {0, 1, 2, 3} ⟨3, 1, some fun x => x * x, 1 / 4, 2⟩ [] e :=
  call_ends_right sortCpus_sorts (by decide) (by decide) (by decide) (by decide) true
    (fun _ h => (FileRead.text.inj h).symm)
    (fun _ _ h => by rw [← FileRead.text.inj h]; decide) 3 1 (fun x => x * x) (by norm_num)
    (by decide) (by norm_num) []

end TaskLunev.HpcCall
