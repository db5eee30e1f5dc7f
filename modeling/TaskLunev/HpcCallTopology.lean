import TaskLunev.CpuTopologyFill
import TaskLunev.HeapOverlay
import TaskLunev.HpcCallModel

/-!
# What the topology of a call takes and gives back

The functions of the topology as operations on the blocks of the call. Reading
the files leaves an array with the CPUs and their cores, or says which file
could not be read; of the ways in which that can go wrong only one leaves a
block behind, the buffer of a file that was opened and not read.
-/
namespace TaskLunev.HpcCallTopology
open BlockHeap HeapOverlay CStrings CpuTopologyModel CpuTopologyInitModel CpuTopologyFill
  HpcCallModel

variable {old heap : Heap Block} {own : ℕ → Option Block} {answers : Answers}
  {address a : ℕ} {text : List Char} {b : Block}

theorem freeBlock_of_free {heap' : Heap Block} (h : free heap a = some heap') :
    freeBlock heap a = .ok heap' := by
  rw [freeBlock, h]

/-- The buffer that a failed read leaves. -/
def lost : FileRead → List Block
  | .readFails => [.text []]
  | _ => []

/-! ## Files -/

theorem read_text (h : Overlay old own heap) (s : List Char) :
    ∃ buf heap', readCpuTopologyFile heap (.text s) = (some (buf, s), heap') ∧
      own buf = none ∧ Overlay old (Function.update own buf (some (.text s))) heap' := by
  obtain ⟨hfresh, hover⟩ := h.allocate (.text s)
  exact ⟨_, _, rfl, hfresh, hover⟩

theorem read_fails {answer : FileRead} (h : Overlay old own heap)
    (hanswer : ∀ s, answer ≠ .text s) :
    ∃ heap', readCpuTopologyFile heap answer = (none, heap') ∧
      Beside old (lost answer) own heap' := by
  cases answer with
  | text s => exact absurd rfl (hanswer s)
  | readFails =>
      obtain ⟨hfresh, hover⟩ := h.allocate (.text [])
      exact ⟨_, rfl, _, hfresh, hover⟩
  | openFails => exact ⟨_, rfl, h⟩
  | fstatFails => exact ⟨_, rfl, h⟩
  | callocFails => exact ⟨_, rfl, h⟩

/-! ## The list of CPUs -/

theorem realloc_over (answer : Realloc) {cpus : List LogicCpu} (hcpus : cpus ≠ [])
    (h : Overlay old (Function.update own a (some (.cpus cpus))) heap) (ha : own a = none) :
    ∃ temp heap', realloc answer heap a cpus = .ok (temp, heap') ∧ own (temp.getD a) = none ∧
      Overlay old (Function.update own (temp.getD a) (some (.cpus cpus))) heap' := by
  unfold realloc
  rw [if_neg hcpus]
  cases answer with
  | fails => exact ⟨none, heap, rfl, ha, h⟩
  | inPlace => exact ⟨some a, heap, rfl, ha, h⟩
  | moved =>
      obtain ⟨hfresh, hover⟩ := h.allocate (.cpus cpus)
      have hne : a ≠ (allocate heap (.cpus cpus)).1 := by
        intro he
        rw [← he, Function.update_self] at hfresh
        cases hfresh
      rw [Function.update_of_ne hne.symm] at hfresh
      obtain ⟨heap', hfree, hrest⟩ := hover.free_under ha hne
      refine ⟨some (allocate heap (.cpus cpus)).1, heap', ?_, hfresh, hrest⟩
      simp only [freeBlock_of_free hfree]
      rfl

theorem entries_ne_nil {tokens : List (List Char)} (h : tokens ≠ []) :
    entries (tokens.flatMap tokenIds) ≠ [] := by
  intro hnil
  obtain ⟨token, htoken⟩ := List.exists_mem_of_ne_nil _ h
  exact tokenIds_ne_nil (List.flatMap_eq_nil_iff.mp (List.map_eq_nil_iff.mp hnil) token htoken)

theorem fill_over (answer : Realloc) (cputop : Cputop) (h : Overlay old own heap)
    (hne : tokens ',' text ≠ []) (hfits : Fits 0 (tokens ',' text)) :
    ∃ heap' address, cputopFillLogicCPU true answer text heap cputop = .ok (0, heap',
        { cputop with
          numLogicCpu := ((tokens ',' text).flatMap tokenIds).length
          logicCpus := some address }) ∧
      own address = none ∧ Overlay old (Function.update own address
        (some (.cpus (entries ((tokens ',' text).flatMap tokenIds))))) heap' := by
  have hfill := fill_eq_ok.mpr ⟨hfits, rfl⟩
  obtain ⟨hfresh, hover⟩ := h.allocate (.cpus [])
  have hstored := hover.store (Function.update_self _ _ _)
    (.cpus (entries ((tokens ',' text).flatMap tokenIds)))
  rw [Function.update_idem] at hstored
  obtain ⟨temp, heap', hrealloc, hown, hrest⟩ :=
    realloc_over answer (entries_ne_nil hne) hstored hfresh
  refine ⟨heap', _, ?_, hown, hrest⟩
  simp only [cputopFillLogicCPU, Bool.true_eq_false, if_false, hfill, bind, Except.bind, hrealloc,
    length_entries]
  rfl

theorem initLogic_filled (cputop : Cputop) (h : Overlay old own heap)
    (honline : answers.online = .text text) (hcalloc : answers.calloc = true)
    (hne : tokens ',' text ≠ []) (hfits : Fits 0 (tokens ',' text)) :
    ∃ heap' address, cputopInitLogicCPU answers heap cputop = .ok (0, heap',
        { cputop with
          numLogicCpu := ((tokens ',' text).flatMap tokenIds).length
          logicCpus := some address }) ∧
      own address = none ∧ Overlay old (Function.update own address
        (some (.cpus (entries ((tokens ',' text).flatMap tokenIds))))) heap' := by
  obtain ⟨buf, heap₁, hread, hbuf, hover₁⟩ := read_text h text
  obtain ⟨heap₂, address, hfill, haddress, hover₂⟩ :=
    fill_over answers.realloc cputop hover₁ hne hfits
  have hapart : buf ≠ address := by
    intro he
    rw [← he, Function.update_self] at haddress
    cases haddress
  rw [Function.update_of_ne hapart.symm] at haddress
  obtain ⟨heap', hfree, hrest⟩ := hover₂.free_under hbuf hapart
  refine ⟨heap', address, ?_, haddress, hrest⟩
  rw [cputopInitLogicCPU, honline, hread, hcalloc]
  simp only [hfill, bind, Except.bind, freeBlock_of_free hfree]
  rfl

theorem initLogic_refused (cputop : Cputop) (h : Overlay old own heap)
    (honline : answers.online = .text text) (hcalloc : answers.calloc = false) :
    ∃ heap', cputopInitLogicCPU answers heap cputop =
        .ok (-1, heap', { cputop with logicCpus := none }) ∧ Overlay old own heap' := by
  obtain ⟨buf, heap₁, hread, hbuf, hover₁⟩ := read_text h text
  obtain ⟨heap', hfree, hrest⟩ := hover₁.free_last hbuf
  refine ⟨heap', ?_, hrest⟩
  rw [cputopInitLogicCPU, honline, hread, hcalloc]
  simp only [cputopFillLogicCPU, if_true, bind, Except.bind, freeBlock_of_free hfree]
  rfl

theorem initLogic_unread (cputop : Cputop) (h : Overlay old own heap)
    (honline : ∀ text, answers.online ≠ .text text) :
    ∃ heap', cputopInitLogicCPU answers heap cputop = .ok (-1, heap', cputop) ∧
      Beside old (lost answers.online) own heap' := by
  obtain ⟨heap', hread, hleft⟩ := read_fails h honline
  exact ⟨heap', by rw [cputopInitLogicCPU, hread], hleft⟩

/-! ## The cores -/

/-- The first file of a number of them that cannot be read. -/
def firstFailure (core : ℕ → FileRead) : ℕ → ℕ → Option FileRead
  | 0, _ => none
  | left + 1, i =>
      match core i with
      | .text _ => firstFailure core left (i + 1)
      | answer => some answer

/-- The core id in a file. -/
def coreIdOf : FileRead → ℤ
  | .text s => atoi s
  | _ => 0

/-- The entries from place `i` on with their cores. -/
def withCores (core : ℕ → FileRead) : ℕ → List LogicCpu → List LogicCpu
  | _, [] => []
  | i, cpu :: rest => { cpu with coreId := coreIdOf (core i) } :: withCores core (i + 1) rest

theorem fillCores_over (core : ℕ → FileRead) (done todo : List LogicCpu)
    (h : Overlay old own heap) (hown : own address = some (.cpus (done ++ todo))) :
    match firstFailure core todo.length done.length with
    | none => ∃ heap', fillCores core (some address) todo.length done.length heap = .ok (0, heap') ∧
        Overlay old (Function.update own address
          (some (.cpus (done ++ withCores core done.length todo)))) heap'
    | some answer => ∃ cpus heap',
        fillCores core (some address) todo.length done.length heap = .ok (-1, heap') ∧
          Beside old (lost answer) (Function.update own address (some (.cpus cpus))) heap' := by
  induction todo generalizing done heap own with
  | nil =>
      refine ⟨heap, rfl, ?_⟩
      rw [withCores, ← hown, Function.update_eq_self]
      exact h
  | cons cpu rest ih =>
      have hcpu : (done ++ cpu :: rest)[done.length]? = some cpu := by simp
      have hload : loadCpus heap (some address) = .ok (address, done ++ cpu :: rest) := by
        rw [loadCpus, h.load_own hown]
      have hsame : own = Function.update own address (some (.cpus (done ++ cpu :: rest))) := by
        rw [← hown, Function.update_eq_self]
      rw [List.length_cons, firstFailure, fillCores]
      simp only [hload, bind, Except.bind, hcpu]
      cases hfile : core done.length with
      | text s =>
          obtain ⟨buf, heap₁, hread, hbuf, hover₁⟩ := read_text h s
          have hne : buf ≠ address := by
            rintro rfl
            rw [hown] at hbuf
            cases hbuf
          have hstored := hover₁.store (by rw [Function.update_of_ne hne.symm, hown])
            (.cpus ((done ++ cpu :: rest).set done.length { cpu with coreId := atoi s }))
          obtain ⟨heap₂, hfree, hover₂⟩ := hstored.free_under hbuf hne
          have hset : (done ++ cpu :: rest).set done.length { cpu with coreId := atoi s } =
              done ++ [{ cpu with coreId := atoi s }] ++ rest := by
            rw [List.set_append_right _ _ le_rfl, Nat.sub_self, List.set_cons_zero,
              List.append_assoc, List.singleton_append]
          rw [hset] at hover₂
          have hrest := ih (done ++ [{ cpu with coreId := atoi s }]) hover₂
            (Function.update_self _ _ _)
          rw [List.length_append, List.length_singleton] at hrest
          simp only [Function.update_idem] at hrest
          have hcores : done ++ withCores core done.length (cpu :: rest) =
              done ++ [{ cpu with coreId := atoi s }] ++ withCores core (done.length + 1) rest := by
            rw [withCores, hfile, coreIdOf, List.append_assoc, List.singleton_append]
          simp only [hread, freeBlock_of_free hfree, hcores]
          exact hrest
      | _ =>
          have hno : ∀ s, core done.length ≠ .text s := by
            rw [hfile]
            exact fun s hs => nomatch hs
          obtain ⟨heap', hread, hleft⟩ := read_fails h hno
          rw [hfile] at hread hleft
          rw [hsame] at hleft
          simp only [hread]
          exact ⟨_, heap', rfl, hleft⟩

end TaskLunev.HpcCallTopology
