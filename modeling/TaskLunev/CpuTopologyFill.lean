import TaskLunev.CpuTopologyInitModel
import TaskLunev.ExceptRules

/-!
# What the array of CPUs is filled with

Every token stands for some numbers, and filling the array writes the numbers of
all tokens one behind the other. It ends without a fault exactly when they are
no more than the array has entries and no range counts past the largest `int`.
-/
namespace TaskLunev.CpuTopologyFill
open BlockHeap CStrings CpuTopologyModel CpuTopologyInitModel ExceptRules

/-- The numbers that the loop over a range writes, the first one in any case. -/
def intRange (cur maxLogicCpu : ℤ) : List ℤ :=
  (List.range (max 1 (maxLogicCpu - cur + 1).toNat)).map fun k : ℕ => cur + k

theorem intRange_cons (cur maxLogicCpu : ℤ) : intRange cur maxLogicCpu =
    cur :: if cur + 1 ≤ maxLogicCpu then intRange (cur + 1) maxLogicCpu else [] := by
  unfold intRange
  split_ifs with h
  · have hcount : max 1 (maxLogicCpu - cur + 1).toNat =
        max 1 (maxLogicCpu - (cur + 1) + 1).toNat + 1 := by omega
    rw [hcount, List.range_succ_eq_map, List.map_cons, List.map_map]
    congr 1
    · simp
    · apply List.map_congr_left
      intro k _
      simp only [Function.comp_apply]
      omega
  · have hcount : max 1 (maxLogicCpu - cur + 1).toNat = 1 := by omega
    simp [hcount]

theorem intRange_ne_nil {cur maxLogicCpu : ℤ} : intRange cur maxLogicCpu ≠ [] := by
  rw [intRange_cons]
  exact List.cons_ne_nil _ _

/-- The entries of an array that was zeroed, with these numbers. -/
def entries (ids : List ℤ) : List LogicCpu := ids.map fun id => ⟨id, 0⟩

theorem length_entries {ids : List ℤ} : (entries ids).length = ids.length := List.length_map _

theorem entries_append {ids more : List ℤ} : entries (ids ++ more) = entries ids ++ entries more :=
  List.map_append

section
variable {cpus filled : List LogicCpu}

theorem pushCpu_eq_ok {id : ℤ} : pushCpu cpus id = .ok filled ↔
    cpus.length + 1 ≤ LOGIC_CPU_MAX ∧ filled = cpus ++ entries [id] := by
  unfold pushCpu
  split_ifs with h
  · rw [Except.ok.injEq, eq_comm]
    exact ⟨fun he => ⟨h, he⟩, fun he => he.2⟩
  · exact ⟨fun he => (nomatch he), fun he => absurd he.1 h⟩

theorem fillRange_eq_ok {maxLogicCpu cur : ℤ} {passes : ℕ} (hmax : maxLogicCpu ≤ INT_MAX)
    (hcur : cur ≤ INT_MAX) (hpasses : LOGIC_CPU_MAX < passes + cpus.length) :
    fillRange maxLogicCpu passes cur cpus = .ok filled ↔
      (cur ≠ INT_MAX ∧ maxLogicCpu ≠ INT_MAX) ∧
        cpus.length + (intRange cur maxLogicCpu).length ≤ LOGIC_CPU_MAX ∧
        filled = cpus ++ entries (intRange cur maxLogicCpu) := by
  induction passes generalizing cur cpus with
  | zero =>
      have hlong : ¬ cpus.length + (intRange cur maxLogicCpu).length ≤ LOGIC_CPU_MAX := by omega
      exact ⟨fun h => (nomatch h), fun h => absurd h.2.1 hlong⟩
  | succ passes ih =>
      have hlen : (cpus ++ entries [cur]).length = cpus.length + 1 := by
        rw [List.length_append, length_entries, List.length_singleton]
      rw [fillRange, bind_eq_ok, intRange_cons]
      simp only [pushCpu_eq_ok, and_assoc, exists_and_left, exists_eq_left]
      by_cases hlast : cur = INT_MAX
      · -- counting past it is undefined
        simp [hlast]
      · rw [if_neg hlast]
        split_ifs with hmore
        · have hsplit : cpus ++ entries (cur :: intRange (cur + 1) maxLogicCpu) =
              cpus ++ entries [cur] ++ entries (intRange (cur + 1) maxLogicCpu) := by
            rw [List.append_assoc, ← entries_append, List.singleton_append]
          rw [hsplit, List.length_cons, ih (by omega) (by omega), hlen]
          have hcur : cur + 1 ≠ INT_MAX ∨ maxLogicCpu = INT_MAX := by omega
          constructor
          · intro h
            rcases h with ⟨-, ⟨-, hne⟩, hroom, hfilled⟩
            exact ⟨hlast, hne, by omega, hfilled⟩
          · intro h
            rcases h with ⟨-, hne, hroom, hfilled⟩
            exact ⟨by omega, ⟨hcur.resolve_right hne, hne⟩, by omega, hfilled⟩
        · rw [List.length_singleton]
          constructor
          · intro h
            rcases h with ⟨hroom, hfilled⟩
            exact ⟨hlast, by omega, hroom, (Except.ok.inj hfilled).symm⟩
          · intro h
            rcases h with ⟨-, -, hroom, rfl⟩
            exact ⟨hroom, rfl⟩

end

/-! ## Tokens -/

/-- The numbers a token stands for. -/
def tokenIds (token : List Char) : List ℤ :=
  match strchr token '-' with
  | none => [atoi token]
  | some posDelim => intRange (atoi token) (atoi (posDelim.drop 1))

/-- No number of a range is the largest `int`, past which the loop would count. -/
def Countable (token : List Char) : Prop :=
  ∀ posDelim ∈ strchr token '-', atoi token ≠ INT_MAX ∧ atoi (posDelim.drop 1) ≠ INT_MAX

theorem tokenIds_ne_nil {token : List Char} : tokenIds token ≠ [] := by
  unfold tokenIds
  split
  · exact List.cons_ne_nil _ _
  · exact intRange_ne_nil

theorem atoi_le (s : List Char) : atoi s ≤ INT_MAX := by
  have hlt : Int.bmod (strtol s) (2 ^ 32) < ((2 ^ 32 : ℕ) + 1) / 2 := Int.bmod_lt (by decide)
  unfold atoi INT_MAX
  omega

section
variable {cpus filled : List LogicCpu}

theorem fillToken_eq_ok {token : List Char} : fillToken token cpus = .ok filled ↔
    Countable token ∧ cpus.length + (tokenIds token).length ≤ LOGIC_CPU_MAX ∧
      filled = cpus ++ entries (tokenIds token) := by
  unfold fillToken Countable tokenIds
  cases strchr token '-' with
  | none => simp only [pushCpu_eq_ok, Option.mem_def, reduceCtorEq, false_implies, implies_true,
      true_and, List.length_singleton]
  | some posDelim =>
      simp only [Option.mem_def, Option.some.injEq, forall_eq']
      exact fillRange_eq_ok (atoi_le _) (atoi_le _) (by omega)

/-- All numbers of the tokens find a place behind so many entries. -/
structure Fits (written : ℕ) (tokens : List (List Char)) : Prop where
  countable : ∀ token ∈ tokens, Countable token
  room : written + (tokens.flatMap tokenIds).length ≤ LOGIC_CPU_MAX

theorem fits_cons {token : List Char} {tokens : List (List Char)} {written : ℕ} :
    Fits written (token :: tokens) ↔ Countable token ∧
      written + (tokenIds token).length ≤ LOGIC_CPU_MAX ∧
      Fits (written + (tokenIds token).length) tokens := by
  constructor
  · intro h
    rcases h with ⟨hcount, hroom⟩
    rw [List.forall_mem_cons] at hcount
    rw [List.flatMap_cons, List.length_append] at hroom
    exact ⟨hcount.1, by omega, hcount.2, by omega⟩
  · intro h
    rcases h with ⟨hcount, -, hrest, hroom⟩
    refine ⟨List.forall_mem_cons.mpr ⟨hcount, hrest⟩, ?_⟩
    rw [List.flatMap_cons, List.length_append]
    omega

theorem fillTokens_eq_ok {tokens : List (List Char)} (hcpus : cpus.length ≤ LOGIC_CPU_MAX) :
    fillTokens tokens cpus = .ok filled ↔
      Fits cpus.length tokens ∧ filled = cpus ++ entries (tokens.flatMap tokenIds) := by
  induction tokens generalizing cpus with
  | nil =>
      have hfits : Fits cpus.length [] := ⟨fun _ h => (nomatch h), hcpus⟩
      rw [fillTokens, Except.ok.injEq, eq_comm, List.flatMap_nil, entries, List.map_nil,
        List.append_nil]
      exact (and_iff_right hfits).symm
  | cons token tokens ih =>
      have hlen : (cpus ++ entries (tokenIds token)).length =
          cpus.length + (tokenIds token).length := by rw [List.length_append, length_entries]
      rw [fillTokens, bind_eq_ok, fits_cons, List.flatMap_cons, entries_append, ← List.append_assoc]
      simp only [fillToken_eq_ok, and_assoc, exists_and_left, exists_eq_left]
      constructor
      · intro h
        rcases h with ⟨hcount, hroom, hrest⟩
        rw [ih (by omega), hlen] at hrest
        exact ⟨hcount, hroom, hrest⟩
      · intro h
        rcases h with ⟨hcount, hroom, hrest⟩
        rw [ih (by omega), hlen]
        exact ⟨hcount, hroom, hrest⟩

end

/-- The array that was just allocated, filled with the numbers of all tokens. -/
theorem fill_eq_ok {tokens : List (List Char)} {filled : List LogicCpu} :
    fillTokens tokens [] = .ok filled ↔
      Fits 0 tokens ∧ filled = entries (tokens.flatMap tokenIds) := by
  rw [fillTokens_eq_ok (Nat.zero_le _), List.length_nil, List.nil_append]

/-! ## The call -/

/-- The block an array is in after a call, none of those of the heap before. An
array without entries is gone. -/
structure Placed (old heap : Heap Block) (address : ℕ) (cpus : List LogicCpu) : Prop where
  keeps : Keeps old heap
  fresh : ¬ Live old address
  contents : cpus ≠ [] → load heap address = some (.cpus cpus)
  gone : cpus = [] → ¬ Live heap address

section
variable {old heap : Heap Block} {address : ℕ} {cpus : List LogicCpu}

theorem realloc_placed (answer : Realloc) (hkeeps : Keeps old heap) (hfresh : ¬ Live old address)
    (hload : load heap address = some (.cpus cpus)) :
    ∃ temp heap', realloc answer heap address cpus = .ok (temp, heap') ∧
      Placed old heap' (temp.getD address) cpus := by
  have hlive : Live heap address := by rw [Live, hload, Option.isSome_some]
  unfold realloc
  split_ifs with hnil
  · have hfree := free_of_live hlive
    refine ⟨none, heap.set address none, ?_, ?_⟩
    · simp only [freeBlock, hfree]
      rfl
    · exact {
        keeps := hkeeps.free hfresh hfree
        fresh := hfresh
        contents := fun hne => absurd hnil hne
        gone := fun _ => not_live_of_free hfree }
  · cases answer with
    | fails => exact ⟨none, heap, rfl, hkeeps, hfresh, fun _ => hload, fun h => absurd h hnil⟩
    | inPlace =>
        exact ⟨some address, heap, rfl, hkeeps, hfresh, fun _ => hload, fun h => absurd h hnil⟩
    | moved =>
        have hold := Keeps.allocate address hlive (b := .cpus cpus)
        have hfree := free_of_live hold
        have hne : (allocate heap (.cpus cpus)).1 ≠ address := fun he =>
          absurd hlive.lt_length (he ▸ Nat.lt_irrefl heap.length)
        refine ⟨some (allocate heap (.cpus cpus)).1,
          (allocate heap (.cpus cpus)).2.set address none, ?_, ?_⟩
        · simp only [freeBlock, hfree]
          rfl
        · exact {
            keeps := (hkeeps.trans Keeps.allocate).free hfresh hfree
            fresh := fun h => not_live_allocated (hkeeps _ h)
            contents := fun _ => by
              rw [Option.getD_some, load_free_of_ne hfree hne, load_allocate_self]
            gone := fun h => absurd h hnil }

end

section
variable {calloc : Bool} {strOnline : List Char} {heap : Heap Block} {cputop : Cputop}

theorem fillLogicCPU_refused (answer : Realloc) (h : calloc = false) :
    cputopFillLogicCPU calloc answer strOnline heap cputop =
      .ok (-1, heap, { cputop with logicCpus := none }) := if_pos h

/-- With an array, the call ends well when the numbers fit. -/
theorem fillLogicCPU_placed (answer : Realloc) (hcalloc : calloc = true)
    (hfits : Fits 0 (tokens ',' strOnline)) :
    ∃ heap' address, cputopFillLogicCPU calloc answer strOnline heap cputop = .ok (0, heap',
        { cputop with
          numLogicCpu := ((tokens ',' strOnline).flatMap tokenIds).length
          logicCpus := some address }) ∧
      Placed heap heap' address (entries ((tokens ',' strOnline).flatMap tokenIds)) := by
  have hfill := fill_eq_ok.mpr ⟨hfits, rfl⟩
  obtain ⟨temp, heap', hrealloc, hplaced⟩ := realloc_placed answer
    (Keeps.allocate.trans Keeps.store) not_live_allocated
    (load_store_self (live_allocate : Live (allocate heap (.cpus [])).2 _))
  refine ⟨heap', _, ?_, hplaced⟩
  rw [cputopFillLogicCPU, if_neg (by rw [hcalloc]; exact Bool.noConfusion)]
  simp only [hfill, bind, Except.bind, hrealloc, length_entries]
  rfl

theorem fillLogicCPU_eq_ok {answer : Realloc} {outcome : ℤ × Heap Block × Cputop}
    (h : cputopFillLogicCPU calloc answer strOnline heap cputop = .ok outcome)
    (hcalloc : calloc = true) : Fits 0 (tokens ',' strOnline) := by
  rw [cputopFillLogicCPU, if_neg (by rw [hcalloc]; exact Bool.noConfusion)] at h
  simp only [bind_eq_ok] at h
  obtain ⟨cpus, hfill, -⟩ := h
  exact (fill_eq_ok.mp hfill).1

end

end TaskLunev.CpuTopologyFill
