import TaskLunev.CpuTopologyFill
import TaskLunev.TransitionRuns

/-!
# Who frees the array of CPUs

A topology is initialised over and over and destroyed at the end. Every
initialisation frees the array of the one before and leaves the pointer to it
in the object until there is a new array. When the list of the CPUs cannot be
read in between, the next call frees the same block again.
-/
namespace TaskLunev.CpuTopologyOwnership
open BlockHeap CStrings CpuTopologyModel CpuTopologyInitModel CpuTopologyFill TransitionRuns

section
variable {heap : Heap Block} {cputop : Cputop} {answers : Answers} {text : List Char}

theorem freeBlock_of_live {a : ℕ} (h : Live heap a) :
    freeBlock heap a = .ok (heap.set a none) := by
  rw [freeBlock, free_of_live h]

/-! ## The steps of an initialisation -/

theorem initLogicCPU_unread (h : ∀ text, answers.online ≠ .text text) :
    ∃ heap', cputopInitLogicCPU answers heap cputop = .ok (-1, heap', cputop) ∧
      ∀ a < heap.length, load heap' a = load heap a := by
  unfold cputopInitLogicCPU
  cases honline : answers.online with
  | text text => exact absurd honline (h text)
  | readFails => exact ⟨_, rfl, fun a ha => load_allocate_of_lt ha⟩
  | openFails => exact ⟨_, rfl, fun a _ => rfl⟩
  | fstatFails => exact ⟨_, rfl, fun a _ => rfl⟩
  | callocFails => exact ⟨_, rfl, fun a _ => rfl⟩

theorem initLogicCPU_refused (honline : answers.online = .text text)
    (hcalloc : answers.calloc = false) :
    ∃ heap', cputopInitLogicCPU answers heap cputop =
        .ok (-1, heap', { cputop with logicCpus := none }) ∧ Keeps heap heap' := by
  have hfree := free_of_live (live_allocate : Live (allocate heap (.text text)).2 _)
  refine ⟨_, ?_, Keeps.allocate.free not_live_allocated hfree⟩
  simp only [cputopInitLogicCPU, honline, readCpuTopologyFile,
    fillLogicCPU_refused answers.realloc hcalloc, bind, Except.bind,
    freeBlock_of_live live_allocate]
  rfl

theorem initLogicCPU_filled (honline : answers.online = .text text)
    (hcalloc : answers.calloc = true) (hfits : Fits 0 (tokens ',' text)) :
    ∃ heap' address, cputopInitLogicCPU answers heap cputop = .ok (0, heap', { cputop with
          numLogicCpu := ((tokens ',' text).flatMap tokenIds).length
          logicCpus := some address }) ∧
      Placed heap heap' address (entries ((tokens ',' text).flatMap tokenIds)) := by
  obtain ⟨heap', address, hfill, hplaced⟩ : ∃ heap' address,
      cputopFillLogicCPU answers.calloc answers.realloc text (allocate heap (.text text)).2 cputop =
        _ ∧ Placed (allocate heap (.text text)).2 heap' address _ :=
    fillLogicCPU_placed answers.realloc hcalloc hfits
  have hbuf : Live heap' (allocate heap (.text text)).1 := hplaced.keeps _ live_allocate
  have hfree := free_of_live hbuf
  have hne : address ≠ (allocate heap (.text text)).1 := by
    intro he
    subst he
    exact hplaced.fresh live_allocate
  refine ⟨_, address, ?_, {
    keeps := (Keeps.allocate.trans hplaced.keeps).free not_live_allocated hfree
    fresh := fun h => hplaced.fresh (Keeps.allocate _ h)
    contents := fun h => (load_free_of_ne hfree hne).trans (hplaced.contents h)
    gone := fun h hlive => hplaced.gone h ?_ }⟩
  · simp only [cputopInitLogicCPU, honline, readCpuTopologyFile, hfill, bind, Except.bind,
      freeBlock_of_live hbuf]
    rfl
  · rwa [Live, load_free_of_ne hfree hne] at hlive

theorem initLogicCPU_fault (honline : answers.online = .text text)
    (hcalloc : answers.calloc = true) (hfits : ¬ Fits 0 (tokens ',' text)) :
    ∃ f, cputopInitLogicCPU answers heap cputop = .error f := by
  unfold cputopInitLogicCPU
  rw [honline]
  cases hfill : cputopFillLogicCPU answers.calloc answers.realloc text
      (allocate heap (.text text)).2 cputop with
  | ok outcome => exact absurd (fillLogicCPU_eq_ok hfill hcalloc) hfits
  | error f =>
      refine ⟨f, ?_⟩
      simp only [readCpuTopologyFile, hfill, bind, Except.bind]

/-- The loop over the core files ends well on an array that has the entries, and
frees nothing but its buffers. -/
theorem fillCores_ok {core : ℕ → FileRead} {address left i : ℕ} {cpus : List LogicCpu}
    (hload : load heap address = some (.cpus cpus)) (hlen : i + left ≤ cpus.length) :
    ∃ ret heap', fillCores core (some address) left i heap = .ok (ret, heap') ∧
      Keeps heap heap' := by
  induction left generalizing heap i cpus with
  | zero => exact ⟨0, heap, rfl, Keeps.refl heap⟩
  | succ left ih =>
      have hlive : Live heap address := by rw [Live, hload, Option.isSome_some]
      have hcpu : cpus[i]? = some cpus[i] := List.getElem?_eq_getElem (by omega)
      have hread : loadCpus heap (some address) = .ok (address, cpus) := by
        rw [loadCpus, hload]
      rw [fillCores]
      simp only [hread, bind, Except.bind, hcpu]
      cases core i with
      | text s =>
          have hbuf : Live (store (allocate heap (.text s)).2 address
              (.cpus (cpus.set i { cpus[i] with coreId := atoi s })))
              (allocate heap (.text s)).1 := Keeps.store _ live_allocate
          have hfree := free_of_live hbuf
          have hne : address ≠ (allocate heap (.text s)).1 := by
            intro he
            subst he
            exact not_live_allocated hlive
          obtain ⟨ret, heap', hrest, hkeeps⟩ := ih (i := i + 1)
            ((load_free_of_ne hfree hne).trans (load_store_self (Keeps.allocate _ hlive)))
            (by rw [List.length_set]; omega)
          refine ⟨ret, heap', ?_,
            ((Keeps.allocate.trans Keeps.store).free not_live_allocated hfree).trans hkeeps⟩
          simp only [readCpuTopologyFile, freeBlock_of_live hbuf]
          exact hrest
      | readFails => exact ⟨-1, _, rfl, Keeps.allocate⟩
      | openFails => exact ⟨-1, _, rfl, Keeps.refl heap⟩
      | fstatFails => exact ⟨-1, _, rfl, Keeps.refl heap⟩
      | callocFails => exact ⟨-1, _, rfl, Keeps.refl heap⟩

/-- The array freed at the start is gone, all else is as before. -/
theorem freeArray_ok {array : Option ℕ} (hlive : ∀ a ∈ array, Live heap a) :
    ∃ heap', freeArray heap array = .ok heap' ∧ heap'.length = heap.length ∧
      (∀ a ∈ array, ¬ Live heap' a) ∧ ∀ a, a ∉ array → load heap' a = load heap a := by
  cases array with
  | none => exact ⟨heap, rfl, rfl, fun _ h => (nomatch h), fun _ _ => rfl⟩
  | some address =>
      have hfree := free_of_live (hlive address rfl)
      refine ⟨_, freeBlock_of_live (hlive address rfl), List.length_set, ?_, ?_⟩
      · intro a ha
        cases ha
        exact not_live_of_free hfree
      · intro a ha
        exact load_free_of_ne hfree fun he => ha (he ▸ rfl)

theorem freeArray_dangling {a : ℕ} (h : ¬ Live heap a) :
    freeArray heap (some a) = .error .doubleFree := by
  rw [freeArray, freeBlock, free_of_not_live h]

end

/-! ## Runs -/

/-- The object is there, and its array is another block. -/
structure Sound (w : World) (cputop : Cputop) : Prop where
  object : w.cputop = some cputop
  live : Live w.heap cputop.address
  apart : cputop.address ∉ cputop.logicCpus

/-- No block was freed twice, and the array pointer is null or leads to a block. -/
def Good : Except Fault World → Prop
  | .error _ => False
  | .ok w => ∀ cputop ∈ w.cputop, ∀ a ∈ cputop.logicCpus, Live w.heap a

def SoundState (s : Except Fault World) : Prop := ∀ w, s = .ok w → ∃ cputop, Sound w cputop

/-- Where there is an array already the list of CPUs is read, and a list that is
read into an array names a CPU and fits. -/
structure Meets (s : Except Fault World) (answers : Answers) : Prop where
  reads : ∀ w, s = .ok w → ∀ cputop ∈ w.cputop, cputop.logicCpus ≠ none →
    ∃ text, answers.online = .text text
  fills : ∀ text, answers.online = .text text → answers.calloc = true →
    (∃ c ∈ text, c ≠ ',') ∧ Fits 0 (tokens ',' text)

def initStep (s : Except Fault World) (answers : Answers) : Except Fault World := do
  let w ← s
  let (_, w) ← cputopInit answers w
  return w

def destroyStep (s : Except Fault World) : Except Fault World := do
  let w ← s
  let (_, w) ← cputopDestroy w
  return w

section
variable {w : World} {cputop : Cputop} {answers : Answers}

/-- Freeing the array at the start leaves the object alone. -/
theorem Sound.freed (h : Sound w cputop) (hlive : ∀ a ∈ cputop.logicCpus, Live w.heap a) :
    ∃ heap, freeArray w.heap cputop.logicCpus = .ok heap ∧ Live heap cputop.address ∧
      ∀ a ∈ cputop.logicCpus, a < heap.length ∧ ¬ Live heap a := by
  obtain ⟨heap, hfreed, hlength, hgone, hsame⟩ := freeArray_ok hlive
  refine ⟨heap, hfreed, ?_, fun a ha => ⟨?_, hgone a ha⟩⟩
  · rw [Live, hsame _ h.apart]
    exact h.live
  · rw [hlength]
    exact (hlive a ha).lt_length

/-- The initialisation after its array was freed and its list of CPUs refused. -/
theorem initStep_refused {heap heap' : Heap Block} {cputop' : Cputop}
    (hobject : w.cputop = some cputop) (hfreed : freeArray w.heap cputop.logicCpus = .ok heap)
    (hlogic : cputopInitLogicCPU answers heap cputop = .ok (-1, heap', cputop')) :
    initStep (.ok w) answers = .ok ⟨heap', some cputop'⟩ := by
  simp only [initStep, cputopInit, hobject, hfreed, hlogic, bind, Except.bind]
  rfl

theorem initStep_filled {heap heap' heap'' : Heap Block} {cputop' : Cputop} {ret : ℤ}
    (hobject : w.cputop = some cputop) (hfreed : freeArray w.heap cputop.logicCpus = .ok heap)
    (hlogic : cputopInitLogicCPU answers heap cputop = .ok (0, heap', cputop'))
    (hcores : cputopFillCoreCPU answers.core heap' cputop' = .ok (ret, heap'')) :
    initStep (.ok w) answers = .ok ⟨heap'', some cputop'⟩ := by
  simp only [initStep, cputopInit, hobject, hfreed, hlogic, hcores, bind, Except.bind]
  rfl

theorem initStep_fault {heap : Heap Block} {f : Fault}
    (hobject : w.cputop = some cputop) (hfreed : freeArray w.heap cputop.logicCpus = .ok heap)
    (hlogic : cputopInitLogicCPU answers heap cputop = .error f) :
    initStep (.ok w) answers = .error f := by
  simp only [initStep, cputopInit, hobject, hfreed, hlogic, bind, Except.bind]

/-- The call leaves the object behind, with a block for its array exactly when
the answers meet the condition. -/
def Leaves (w : World) (answers : Answers) : Prop :=
  ∃ w' cputop', initStep (.ok w) answers = .ok w' ∧ Sound w' cputop' ∧
    ((∀ a ∈ cputop'.logicCpus, Live w'.heap a) ↔ Meets (.ok w) answers)

section
variable {heap : Heap Block} {text : List Char}

theorem reads_of_text (honline : answers.online = .text text) {s : Except Fault World} :
    ∀ v, s = .ok v → ∀ cputop ∈ v.cputop, cputop.logicCpus ≠ none →
      ∃ text, answers.online = .text text := fun _ _ _ _ _ => ⟨text, honline⟩

theorem leaves_refused (h : Sound w cputop) (hobject : Live heap cputop.address)
    (hfreed : freeArray w.heap cputop.logicCpus = .ok heap)
    (honline : answers.online = .text text) (hcalloc : answers.calloc = false) :
    Leaves w answers := by
  obtain ⟨heap', hlogic, hkeeps⟩ := initLogicCPU_refused honline hcalloc
  refine ⟨_, _, initStep_refused h.object hfreed hlogic,
    ⟨rfl, hkeeps _ hobject, fun ha => (nomatch ha)⟩, ?_⟩
  refine iff_of_true (fun _ ha => (nomatch ha)) ⟨reads_of_text honline, fun _ _ htrue => ?_⟩
  rw [hcalloc] at htrue
  cases htrue

theorem leaves_filled (h : Sound w cputop) (hobject : Live heap cputop.address)
    (hfreed : freeArray w.heap cputop.logicCpus = .ok heap)
    (honline : answers.online = .text text) (hcalloc : answers.calloc = true)
    (hfits : Fits 0 (tokens ',' text)) : Leaves w answers := by
  obtain ⟨heap', address, hlogic, hplaced⟩ := initLogicCPU_filled honline hcalloc hfits
  have hapart : cputop.address ≠ address := by
    intro he
    exact hplaced.fresh (he ▸ hobject)
  by_cases htokens : tokens ',' text = []
  · -- the array shrinks to nothing and is freed, the pointer to it stays
    rw [htokens, List.flatMap_nil] at hlogic hplaced
    refine ⟨_, _, initStep_filled h.object hfreed hlogic rfl,
      ⟨rfl, hplaced.keeps _ hobject, fun ha => hapart (Option.some.inj ha).symm⟩, ?_⟩
    refine iff_of_false (fun hall => hplaced.gone rfl (hall address rfl)) fun hmeets => ?_
    obtain ⟨⟨c, hc, hne⟩, -⟩ := hmeets.fills text honline hcalloc
    exact hne (tokens_eq_nil_iff.mp htokens c hc)
  · have hids : entries ((tokens ',' text).flatMap tokenIds) ≠ [] := by
      intro hnil
      obtain ⟨token, htoken⟩ := List.exists_mem_of_ne_nil _ htokens
      have hnone := List.flatMap_eq_nil_iff.mp (List.map_eq_nil_iff.mp hnil) token htoken
      exact tokenIds_ne_nil hnone
    have hload := hplaced.contents hids
    obtain ⟨ret, heap'', hcores, hkeeps⟩ := fillCores_ok hload (Nat.zero_add _).le
    rw [length_entries] at hcores
    have harray : Live heap'' address := hkeeps _ (by rw [Live, hload, Option.isSome_some])
    refine ⟨_, _, initStep_filled h.object hfreed hlogic hcores,
      ⟨rfl, hkeeps _ (hplaced.keeps _ hobject), fun ha => hapart (Option.some.inj ha).symm⟩, ?_⟩
    refine iff_of_true (fun a ha => Option.some.inj ha ▸ harray)
      ⟨reads_of_text honline, fun other hother _ => ?_⟩
    obtain rfl : text = other := FileRead.text.inj (honline.symm.trans hother)
    refine ⟨?_, hfits⟩
    by_contra hall
    push Not at hall
    exact htokens (tokens_eq_nil_iff.mpr hall)

theorem leaves_unread (h : Sound w cputop) (hlive : ∀ a ∈ cputop.logicCpus, Live w.heap a)
    (honline : ∀ text, answers.online ≠ .text text) : Leaves w answers := by
  obtain ⟨heap, hfreed, hobject, hgone⟩ := h.freed hlive
  obtain ⟨heap', hlogic, hold⟩ := initLogicCPU_unread honline
  refine ⟨_, _, initStep_refused h.object hfreed hlogic, ⟨rfl, ?_, h.apart⟩, ?_⟩
  · rw [Live, hold _ hobject.lt_length]
    exact hobject
  · cases harray : cputop.logicCpus with
    | none =>
        refine iff_of_true (fun _ ha => by cases ha)
          ⟨fun v hv c hc hne => ?_, fun text htext => absurd htext (honline text)⟩
        cases hv
        rw [h.object] at hc
        cases hc
        exact absurd harray hne
    | some a =>
        -- freed at the start, and the pointer still leads there
        rcases hgone a harray with ⟨hlt, hdead⟩
        refine iff_of_false (fun hall => hdead ?_) fun hmeets => ?_
        · have hnow := hall a rfl
          rwa [Live, hold a hlt] at hnow
        · obtain ⟨text, htext⟩ := hmeets.reads w rfl cputop h.object (by simp [harray])
          exact honline text htext

end

/-- What an initialisation does to an object that was in order: it leaves it
behind, or is a fault. -/
theorem initStep_cases (h : Sound w cputop) (hlive : ∀ a ∈ cputop.logicCpus, Live w.heap a) :
    (∃ f, initStep (.ok w) answers = .error f ∧ ¬ Meets (.ok w) answers) ∨ Leaves w answers := by
  by_cases honline : ∃ text, answers.online = .text text
  · obtain ⟨text, honline⟩ := honline
    obtain ⟨heap, hfreed, hobject, -⟩ := h.freed hlive
    cases hcalloc : answers.calloc with
    | false => exact .inr (leaves_refused h hobject hfreed honline hcalloc)
    | true =>
        by_cases hfits : Fits 0 (tokens ',' text)
        · exact .inr (leaves_filled h hobject hfreed honline hcalloc hfits)
        · obtain ⟨f, hlogic⟩ := initLogicCPU_fault honline hcalloc hfits
          refine .inl ⟨f, initStep_fault h.object hfreed hlogic, fun hmeets => ?_⟩
          exact hfits (hmeets.fills text honline hcalloc).2
  · exact .inr (leaves_unread h hlive fun text htext => honline ⟨text, htext⟩)

end

/-- An array that is gone already is freed once more. -/
theorem initStep_dangling {w : World} {cputop : Cputop} {answers : Answers} {a : ℕ}
    (hobject : w.cputop = some cputop) (harray : cputop.logicCpus = some a)
    (hgone : ¬ Live w.heap a) : initStep (.ok w) answers = .error .doubleFree := by
  simp only [initStep, cputopInit, hobject, harray, freeArray_dangling hgone, bind, Except.bind]

theorem initStep_sound {s t : Except Fault World} {answers : Answers} (hs : SoundState s)
    (ht : initStep s answers = t) : SoundState t := by
  subst ht
  cases s with
  | error f => exact fun w h => (nomatch h)
  | ok w =>
      obtain ⟨cputop, h⟩ := hs w rfl
      intro w' hw'
      by_cases hlive : ∀ a ∈ cputop.logicCpus, Live w.heap a
      · cases initStep_cases h hlive with
        | inl hfault =>
            obtain ⟨f, hf, -⟩ := hfault
            rw [hf] at hw'
            cases hw'
        | inr hleaves =>
            obtain ⟨w'', cputop', hstep, hsound, -⟩ := hleaves
            rw [hstep] at hw'
            cases hw'
            exact ⟨cputop', hsound⟩
      · push Not at hlive
        obtain ⟨a, ha, hgone⟩ := hlive
        rw [initStep_dangling h.object ha hgone] at hw'
        cases hw'

theorem initStep_good {s t : Except Fault World} {answers : Answers} (hs : SoundState s)
    (hgood : Good s) (ht : initStep s answers = t) : Good t ↔ Meets s answers := by
  subst ht
  cases s with
  | error f => exact hgood.elim
  | ok w =>
      obtain ⟨cputop, h⟩ := hs w rfl
      cases initStep_cases h (hgood cputop h.object) with
      | inl hfault =>
          obtain ⟨f, hf, hno⟩ := hfault
          rw [hf]
          exact iff_of_false id hno
      | inr hleaves =>
          obtain ⟨w', cputop', hstep, hsound, hiff⟩ := hleaves
          rw [hstep, ← hiff]
          simp only [Good, hsound.object, Option.mem_some_iff, forall_eq']

/-- The destruction frees what is there. -/
theorem destroyStep_good {s : Except Fault World} (hs : SoundState s) (hgood : Good s) :
    Good (destroyStep s) := by
  cases s with
  | error f => exact hgood.elim
  | ok w =>
      obtain ⟨cputop, h⟩ := hs w rfl
      obtain ⟨heap, hfreed, hobject, -⟩ := h.freed (hgood cputop h.object)
      have hdestroy : destroyStep (.ok w) = .ok ⟨heap.set cputop.address none, none⟩ := by
        simp only [destroyStep, cputopDestroy, h.object, hfreed, freeBlock_of_live hobject, bind,
          Except.bind]
        rfl
      rw [hdestroy]
      exact fun c hc => (nomatch hc)

/-- The states after each of the initialisations of a new object. -/
def initRun (heap : Heap Block) (calls : List Answers) : List (Answers × Except Fault World) :=
  walk (fun s answers => some (initStep s answers)) (.ok (cputopCreate true heap)) calls

theorem created_sound (heap : Heap Block) :
    SoundState (.ok (cputopCreate true heap)) ∧ Good (.ok (cputopCreate true heap)) := by
  constructor
  · intro w hw
    cases hw
    exact ⟨_, rfl, live_allocate, fun h => (nomatch h)⟩
  · intro cputop hcputop a ha
    cases hcputop
    cases ha

/-- An object made by `cputopCreate` is initialised any number of times and
destroyed. No block is freed twice, and no call leaves the array pointer at a
freed block, exactly when every initialisation meets the condition. -/
theorem ownership_iff (heap : Heap Block) (calls : List Answers) :
    ((∀ p ∈ initRun heap calls, Good p.2) ∧
        Good (destroyStep (final (.ok (cputopCreate true heap)) (initRun heap calls)))) ↔
      ∀ m ∈ moves (.ok (cputopCreate true heap)) (initRun heap calls), Meets m.1 m.2 := by
  obtain ⟨hsound, hgood⟩ := created_sound heap
  have hpath : Path _ _ (initRun heap calls) := path_walk _ _ calls
  have hinv : ∀ s answers t, SoundState s → some (initStep s answers) = some t → SoundState t :=
    fun s answers t hs ht => initStep_sound hs (Option.some.inj ht)
  have hkeep : ∀ s answers t, SoundState s → Good s → some (initStep s answers) = some t →
      (Good t ↔ Meets s answers) :=
    fun s answers t hs hg ht => initStep_good hs hg (Option.some.inj ht)
  rw [← hpath.states_iff_moves hinv hkeep hsound hgood]
  refine ⟨And.left, fun hall => ⟨hall, ?_⟩⟩
  exact destroyStep_good (hpath.final_invariant hinv hsound) (final_of_forall hgood hall)

/-- The list of CPUs is read once and cannot be opened the second time. -/
theorem freed_twice : destroyStep (final (.ok (cputopCreate true [])) (initRun []
    [⟨.text "0\n".toList, true, .inPlace, fun _ => .text "0\n".toList⟩,
      ⟨.openFails, true, .inPlace, fun _ => .openFails⟩])) = .error .doubleFree := by
  decide +kernel

end TaskLunev.CpuTopologyOwnership
