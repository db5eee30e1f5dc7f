import TaskLunev.CpuTopologyFill
import Mathlib.Data.Finset.Sort

/-!
# The list of the CPUs online

The kernel prints a set of CPUs as a list: numbers and ranges in order, between
commas. What is read back from such a list are the numbers in it. For a list
that came from a set of at most 256 CPUs these are the elements of the set in
order, but a range that ends in the largest `int` is counted past its end. A
list of more CPUs runs out of the array.
-/
namespace TaskLunev.CpuOnlineList
open BlockHeap CStrings CpuTopologyModel CpuTopologyInitModel CpuTopologyFill

/-! ## The text -/

inductive Item where
  | single (n : ℕ)
  | range (a b : ℕ) (h : a ≤ b)

namespace Item

def text : Item → List Char
  | single n => digits n
  | range a b _ => digits a ++ '-' :: digits b

/-- The numbers it is read as. -/
def ids : Item → List ℤ
  | single n => [read n]
  | range a b _ => intRange (read a) (read b)

/-- No number of a range is read as the largest `int`. -/
def Countable : Item → Prop
  | single _ => True
  | range a b _ => read a ≠ INT_MAX ∧ read b ≠ INT_MAX

end Item

def onlineText (items : List Item) (newline : Bool) : List Char :=
  [','].intercalate (items.map Item.text) ++ if newline then ['\n'] else []

/-! ## Reading it back -/

theorem not_digit_of {n : ℕ} {c : Char} (hc : c.isDigit = false) : c ∉ digits n := fun h =>
  absurd (isDigit_of_mem_digits h) (by rw [hc]; exact Bool.false_ne_true)

theorem Item.text_ne_nil (item : Item) : item.text ≠ [] := by
  cases item with
  | single n => exact digits_ne_nil
  | range a b _ => exact List.append_ne_nil_of_left_ne_nil digits_ne_nil _

theorem Item.comma_not_mem (item : Item) : ',' ∉ item.text := by
  have hdigits : ∀ n, ',' ∉ digits n := fun n => not_digit_of (by decide)
  cases item with
  | single n => exact hdigits n
  | range a b _ => simp [Item.text, hdigits]

section
variable {tail : List Char}

/-- An item is read to its end, with or without the end of the line. -/
theorem Item.read_back (item : Item) (htail : ∀ c ∈ tail, c = '\n') :
    tokenIds (item.text ++ tail) = item.ids ∧
      (CpuTopologyFill.Countable (item.text ++ tail) ↔ item.Countable) := by
  have hhead : ∀ c ∈ tail.head?, c.isDigit = false := by
    intro c hc
    rw [htail c (List.mem_of_mem_head? hc)]
    rfl
  have hminus : '-' ∉ tail := fun h => absurd (htail '-' h) (by decide)
  have hdigits : ∀ n, '-' ∉ digits n := fun n => not_digit_of (by decide)
  cases item with
  | single n =>
      have hnone : strchr (digits n ++ tail) '-' = none :=
        strchr_none (by simp [hdigits, hminus])
      simp [tokenIds, CpuTopologyFill.Countable, Item.text, Item.ids, Item.Countable, hnone,
        atoi_digits hhead]
  | range a b _ =>
      have hsome : strchr (digits a ++ '-' :: (digits b ++ tail)) '-' =
          some ('-' :: (digits b ++ tail)) := strchr_append (hdigits a)
      have hfirst : atoi (digits a ++ '-' :: (digits b ++ tail)) = read a :=
        atoi_digits (by simp)
      simp [tokenIds, CpuTopologyFill.Countable, Item.text, Item.ids, Item.Countable, hsome,
        hfirst, atoi_digits hhead]

end

/-- The tokens of a list stand for the numbers of its items. -/
theorem read_items {items : List Item} {parts : List (List Char)} {ending : List Char}
    (hending : ∀ c ∈ ending, c = '\n')
    (h : List.Forall₂ (fun p token => token = p ∨ token = p ++ ending)
      (items.map Item.text) parts) :
    (∀ p ∈ parts, p ≠ [] ∧ ',' ∉ p) ∧ parts.flatMap tokenIds = items.flatMap Item.ids ∧
      ((∀ p ∈ parts, CpuTopologyFill.Countable p) ↔ ∀ item ∈ items, item.Countable) := by
  rw [List.forall₂_map_left_iff] at h
  induction h with
  | nil => simp
  | @cons item part items parts hpart _ ih =>
      have hpart : ∃ tail, (∀ c ∈ tail, c = '\n') ∧ part = item.text ++ tail := by
        cases hpart with
        | inl h => exact ⟨[], List.forall_mem_nil _, by rw [h, List.append_nil]⟩
        | inr h => exact ⟨ending, hending, h⟩
      rcases hpart with ⟨tail, htail, rfl⟩
      rcases item.read_back htail with ⟨hids, hcount⟩
      rcases ih with ⟨hparts, hrest, hcounts⟩
      have hcomma : ',' ∉ item.text ++ tail := by
        rw [List.mem_append, not_or]
        exact ⟨item.comma_not_mem, fun h => absurd (htail ',' h) (by decide)⟩
      have hne : item.text ++ tail ≠ [] := List.append_ne_nil_of_left_ne_nil item.text_ne_nil _
      refine ⟨List.forall_mem_cons.mpr ⟨⟨hne, hcomma⟩, hparts⟩, ?_, ?_⟩
      · rw [List.flatMap_cons, List.flatMap_cons, hids, hrest]
      · rw [List.forall_mem_cons, List.forall_mem_cons, hcount, hcounts]

theorem tokens_onlineText {items : List Item} (hne : items ≠ []) (newline : Bool) :
    (tokens ',' (onlineText items newline)).flatMap tokenIds = items.flatMap Item.ids ∧
      (Fits 0 (tokens ',' (onlineText items newline)) ↔
        (∀ item ∈ items, item.Countable) ∧ (items.flatMap Item.ids).length ≤ LOGIC_CPU_MAX) := by
  have hending : ∀ c ∈ (if newline then ['\n'] else []), c = '\n' := by
    cases newline with
    | false => exact List.forall_mem_nil _
    | true => exact List.forall_mem_singleton.mpr rfl
  obtain ⟨parts, htext, hparts⟩ : ∃ parts, onlineText items newline = [','].intercalate parts ∧ _ :=
    exists_ended (List.map_eq_nil_iff.not.mpr hne) (if newline then ['\n'] else [])
  obtain ⟨hgood, hids, hcount⟩ := read_items hending hparts
  have htokens : tokens ',' (onlineText items newline) = parts := by
    rw [htext]
    exact tokens_join (fun p hp => (hgood p hp).1) fun p hp => (hgood p hp).2
  rw [htokens]
  refine ⟨hids, ?_⟩
  rw [← hids, ← hcount]
  constructor
  · intro h
    exact ⟨h.countable, by simpa using h.room⟩
  · intro h
    exact ⟨h.1, by simpa using h.2⟩

/-- A list without items, the text of which is one token or none. -/
theorem fits_empty (newline : Bool) : Fits 0 (tokens ',' (onlineText [] newline)) := by
  cases newline with
  | false => exact ⟨fun _ h => (nomatch h), Nat.zero_le _⟩
  | true =>
      have htokens : tokens ',' (onlineText [] true) = [['\n']] := by decide
      rw [htokens]
      refine ⟨List.forall_mem_singleton.mpr fun p hp => ?_, by decide⟩
      cases hp

/-- The call stays inside its array and counts no further than an `int` does, or
returns at once, exactly when the list is of at most 256 CPUs with no range
starting or ending in the largest `int`. -/
theorem stays_inside_iff (items : List Item) (newline calloc : Bool) (answer : Realloc)
    (heap : Heap Block) (cputop : Cputop) :
    (∃ outcome, cputopFillLogicCPU calloc answer (onlineText items newline) heap cputop =
        .ok outcome) ↔
      calloc = false ∨ (∀ item ∈ items, item.Countable) ∧
        (items.flatMap Item.ids).length ≤ LOGIC_CPU_MAX := by
  have hfits : Fits 0 (tokens ',' (onlineText items newline)) ↔
      (∀ item ∈ items, item.Countable) ∧ (items.flatMap Item.ids).length ≤ LOGIC_CPU_MAX := by
    by_cases hne : items = []
    · subst hne
      exact iff_of_true (fits_empty newline) (by simp)
    · exact (tokens_onlineText hne newline).2
  rw [← hfits]
  cases calloc with
  | false => exact iff_of_true ⟨_, fillLogicCPU_refused answer rfl⟩ (.inl rfl)
  | true =>
      constructor
      · intro h
        rcases h with ⟨outcome, houtcome⟩
        exact .inr (fillLogicCPU_eq_ok houtcome rfl)
      · intro h
        cases h with
        | inl h => cases h
        | inr h =>
            obtain ⟨_, _, hfill, -⟩ := fillLogicCPU_placed answer rfl h
            exact ⟨_, hfill⟩

/-- The CPUs 0 to 256. -/
theorem outside_257 : cputopFillLogicCPU true .inPlace
    (onlineText [.range 0 256 (by decide)] true) [] ⟨0, 0, none⟩ = .error .outside := by
  decide +kernel

/-! ## The list of a set -/

/-- Consecutive numbers. -/
structure Run where
  first : ℕ
  last : ℕ
  ordered : first ≤ last

def Run.numbers (r : Run) : List ℕ := List.range' r.first (r.last + 1 - r.first)

def Run.item (r : Run) : Item :=
  if r.first = r.last then .single r.first else .range r.first r.last r.ordered

/-- A smaller number goes into the first run if that starts right behind it. -/
def addRun (n : ℕ) : List Run → List Run
  | [] => [⟨n, n, le_rfl⟩]
  | r :: rest =>
      if h : n + 1 = r.first then ⟨n, r.last, by have := r.ordered; omega⟩ :: rest
      else ⟨n, n, le_rfl⟩ :: r :: rest

def runs (numbers : List ℕ) : List Run := numbers.foldr addRun []

/-- What the kernel prints for a set of CPUs. -/
def kernelList (S : Finset ℕ) : List Char := onlineText ((runs S.sort).map Run.item) true

example : onlineText ((runs [0, 1, 2, 5, 7, 8]).map Run.item) true = "0-2,5,7-8\n".toList := by
  decide +kernel

theorem kernelList_toFinset {numbers : List ℕ} (h : numbers.SortedLT) :
    kernelList numbers.toFinset = onlineText ((runs numbers).map Run.item) true := by
  have hsort : numbers.toFinset.sort = numbers :=
    (List.toFinset_sort (· ≤ ·) h.nodup).mpr h.sortedLE.pairwise
  rw [kernelList, hsort]

theorem addRun_numbers (n : ℕ) (rs : List Run) :
    (addRun n rs).flatMap Run.numbers = n :: rs.flatMap Run.numbers := by
  have hone : Run.numbers ⟨n, n, le_rfl⟩ = [n] := by simp [Run.numbers]
  cases rs with
  | nil => simp [addRun, hone]
  | cons r rest =>
      rw [addRun]
      split_ifs with h
      · have hcount : r.last + 1 - n = r.last + 1 - r.first + 1 := by
          have := r.ordered
          omega
        rw [List.flatMap_cons, List.flatMap_cons, Run.numbers, hcount, List.range'_succ, h,
          List.cons_append, Run.numbers]
      · rw [List.flatMap_cons, hone, List.singleton_append]

/-- The runs are made of the numbers. -/
theorem runs_numbers (numbers : List ℕ) : (runs numbers).flatMap Run.numbers = numbers := by
  induction numbers with
  | nil => rfl
  | cons n numbers ih => rw [runs, List.foldr_cons, addRun_numbers, ← runs, ih]

theorem Run.mem_numbers {r : Run} {n : ℕ} : n ∈ r.numbers ↔ r.first ≤ n ∧ n ≤ r.last := by
  have hordered := r.ordered
  rw [Run.numbers, List.mem_range'_1]
  omega

theorem mem_of_run {numbers : List ℕ} {r : Run} (hr : r ∈ runs numbers) {n : ℕ}
    (hn : n ∈ r.numbers) : n ∈ numbers := by
  rw [← runs_numbers numbers]
  exact List.mem_flatMap.mpr ⟨r, hr, hn⟩

/-- A number is missing between one run and the next. -/
theorem runs_maximal {numbers : List ℕ} (hsorted : numbers.SortedLT) :
    (runs numbers).Pairwise fun r r' => r.last + 1 < r'.first := by
  induction numbers with
  | nil => exact .nil
  | cons n numbers ih =>
      have hpairs := List.pairwise_cons.mp hsorted.pairwise
      have hlater : ∀ r ∈ runs numbers, n < r.first := fun r hr =>
        hpairs.1 r.first (mem_of_run hr (Run.mem_numbers.mpr ⟨le_rfl, r.ordered⟩))
      have hrest := ih hpairs.2.sortedLT
      rw [runs, List.foldr_cons, ← runs]
      cases hruns : runs numbers with
      | nil => exact List.pairwise_singleton _ _
      | cons r rest =>
          rw [hruns] at hlater hrest
          have hr := List.pairwise_cons.mp hrest
          rw [addRun]
          split_ifs with h
          · exact .cons hr.1 hr.2
          · refine .cons (List.forall_mem_cons.mpr ⟨?_, fun r' hr' => ?_⟩) hrest
            · have := hlater r List.mem_cons_self
              simp only
              omega
            · have hfirst := hlater r List.mem_cons_self
              have hgap := hr.1 r' hr'
              have hordered := r.ordered
              simp only
              omega

theorem runs_apart {numbers : List ℕ} (hsorted : numbers.SortedLT) {r r' : Run}
    (hr : r ∈ runs numbers) (hr' : r' ∈ runs numbers) (hne : r' ≠ r) :
    r.last + 1 < r'.first ∨ r'.last + 1 < r.first := by
  have hsymm : Std.Symm fun r r' : Run => r.last + 1 < r'.first ∨ r'.last + 1 < r.first :=
    ⟨fun _ _ h => h.symm⟩
  have happart : (runs numbers).Pairwise fun r r' =>
      r.last + 1 < r'.first ∨ r'.last + 1 < r.first := (runs_maximal hsorted).imp .inl
  exact happart.forall hr hr' hne.symm

/-- The numbers of a run are read as they are. -/
theorem Run.item_ids {r : Run} (hlast : r.last < 2 ^ 31) :
    r.item.ids = r.numbers.map fun n : ℕ => (n : ℤ) := by
  have hordered := r.ordered
  have hfirst : read r.first = r.first := read_of_lt (by omega)
  unfold Run.item
  split_ifs with h
  · simp [Item.ids, Run.numbers, hfirst, ← h]
  · have hcount : max 1 ((r.last : ℤ) - r.first + 1).toNat = r.last + 1 - r.first := by omega
    rw [Item.ids, hfirst, read_of_lt hlast, intRange, hcount, Run.numbers, List.range'_eq_map_range,
      List.map_map]
    apply List.map_congr_left
    intro k _
    simp

theorem Run.item_countable {r : Run} (hlast : r.last < 2 ^ 31) :
    r.item.Countable ↔ ¬ (r.first < r.last ∧ r.last = 2 ^ 31 - 1) := by
  have hordered := r.ordered
  unfold Run.item
  split_ifs with h
  · simp [Item.Countable, h]
  · rw [Item.Countable, read_of_lt (by omega : r.first < 2 ^ 31), read_of_lt hlast]
    unfold INT_MAX
    omega

/-- A range ends in the largest `int` when that and the number before it are in
the list. -/
theorem runs_countable {numbers : List ℕ} (hsorted : numbers.SortedLT)
    (hlt : ∀ n ∈ numbers, n < 2 ^ 31) :
    (∀ r ∈ runs numbers, r.item.Countable) ↔
      ¬ (2 ^ 31 - 2 ∈ numbers ∧ 2 ^ 31 - 1 ∈ numbers) := by
  have hlast : ∀ r ∈ runs numbers, r.last < 2 ^ 31 := fun r hr =>
    hlt r.last (mem_of_run hr (Run.mem_numbers.mpr ⟨r.ordered, le_rfl⟩))
  constructor
  · intro hcount hboth
    rcases hboth with ⟨hbefore, hmax⟩
    rw [← runs_numbers numbers, List.mem_flatMap] at hbefore hmax
    obtain ⟨r, hr, hin⟩ := hmax
    obtain ⟨r', hr', hin'⟩ := hbefore
    have hno := (Run.item_countable (hlast r hr)).mp (hcount r hr)
    have hrlast := hlast r hr
    rw [Run.mem_numbers] at hin hin'
    have hne : r' ≠ r := by
      intro he
      subst he
      omega
    have hgap := runs_apart hsorted hr hr' hne
    omega
  · intro hno r hr
    refine (Run.item_countable (hlast r hr)).mpr ?_
    intro hend
    exact hno ⟨mem_of_run hr (Run.mem_numbers.mpr (by omega)),
      mem_of_run hr (Run.mem_numbers.mpr (by omega))⟩

/-- The text of a set is read as its elements in order. -/
theorem kernelList_tokens {S : Finset ℕ} (hne : S.Nonempty) (hlt : ∀ n ∈ S, n < 2 ^ 31) :
    (tokens ',' (kernelList S)).flatMap tokenIds = S.sort.map (fun n : ℕ => (n : ℤ)) ∧
      (Fits 0 (tokens ',' (kernelList S)) ↔
        ¬ (2 ^ 31 - 2 ∈ S ∧ 2 ^ 31 - 1 ∈ S) ∧ S.card ≤ LOGIC_CPU_MAX) := by
  have hlt' : ∀ n ∈ S.sort, n < 2 ^ 31 := fun n hn => hlt n ((Finset.mem_sort _).mp hn)
  have hsome : (runs S.sort).map Run.item ≠ [] := by
    intro hnil
    have hnumbers := runs_numbers S.sort
    rw [List.map_eq_nil_iff.mp hnil] at hnumbers
    obtain ⟨n, hn⟩ := hne
    have hmem : n ∈ S.sort := (Finset.mem_sort _).mpr hn
    rw [← hnumbers] at hmem
    cases hmem
  have hids : ((runs S.sort).map Run.item).flatMap Item.ids =
      S.sort.map (fun n : ℕ => (n : ℤ)) := by
    rw [List.flatMap_map]
    calc (runs S.sort).flatMap (fun r => r.item.ids)
        = (runs S.sort).flatMap (fun r => r.numbers.map fun n : ℕ => (n : ℤ)) := by
          refine List.flatMap_congr fun r hr => Run.item_ids (hlt' r.last ?_)
          exact mem_of_run hr (Run.mem_numbers.mpr ⟨r.ordered, le_rfl⟩)
      _ = ((runs S.sort).flatMap Run.numbers).map fun n : ℕ => (n : ℤ) := List.map_flatMap.symm
      _ = S.sort.map (fun n : ℕ => (n : ℤ)) := by rw [runs_numbers]
  obtain ⟨hread, hfits⟩ := tokens_onlineText hsome true
  refine ⟨hread.trans hids, hfits.trans ?_⟩
  rw [hids, List.length_map, Finset.length_sort, List.forall_mem_map,
    runs_countable S.sortedLT_sort hlt', Finset.mem_sort, Finset.mem_sort]

/-- The call returns 0 with the elements of the set in order, each once, exactly
when it has an array and no run of the set ends in the largest `int`. -/
theorem kernelList_iff (S : Finset ℕ) (hne : S.Nonempty) (hcard : S.card ≤ 256)
    (hlt : ∀ n ∈ S, n < 2 ^ 31) (calloc : Bool) (answer : Realloc) (heap : Heap Block)
    (cputop : Cputop) :
    (∃ heap' cputop' address cpus,
        cputopFillLogicCPU calloc answer (kernelList S) heap cputop = .ok (0, heap', cputop') ∧
        cputop'.numLogicCpu = S.card ∧ cputop'.logicCpus = some address ∧
        load heap' address = some (.cpus cpus) ∧
        cpus.map LogicCpu.id = S.sort.map (fun n : ℕ => (n : ℤ))) ↔
      calloc = true ∧ ¬ (2 ^ 31 - 2 ∈ S ∧ 2 ^ 31 - 1 ∈ S) := by
  obtain ⟨hids, hfits⟩ := kernelList_tokens hne hlt
  constructor
  · intro h
    rcases h with ⟨heap', cputop', address, cpus, hfill, -⟩
    cases calloc with
    | false => cases hfill
    | true => exact ⟨rfl, (hfits.mp (fillLogicCPU_eq_ok hfill rfl)).1⟩
  · intro h
    rcases h with ⟨hcalloc, hno⟩
    obtain ⟨heap', address, hfill, hplaced⟩ :=
      fillLogicCPU_placed answer hcalloc (hfits.mpr ⟨hno, hcard⟩)
    have hcount : ((tokens ',' (kernelList S)).flatMap tokenIds).length = S.card := by
      rw [hids, List.length_map, Finset.length_sort]
    have hentries : entries ((tokens ',' (kernelList S)).flatMap tokenIds) ≠ [] := by
      intro hnil
      have hpos := hne.card_pos
      rw [← hcount, ← length_entries, hnil] at hpos
      cases hpos
    refine ⟨heap', _, address, _, hfill, hcount, rfl, hplaced.contents hentries, ?_⟩
    rw [hids, entries, List.map_map]
    exact List.map_congr_left (fun _ _ => rfl) |>.trans (List.map_id _)

/-- The CPUs 0 to 2, 5, 7 and 8. -/
theorem kernelList_six :
    (∃ heap' cputop' address cpus,
        cputopFillLogicCPU true .moved (kernelList {0, 1, 2, 5, 7, 8}) [] ⟨0, 0, none⟩ =
          .ok (0, heap', cputop') ∧
        cputop'.numLogicCpu = Finset.card {0, 1, 2, 5, 7, 8} ∧
        cputop'.logicCpus = some address ∧ load heap' address = some (.cpus cpus) ∧
        cpus.map LogicCpu.id = (Finset.sort {0, 1, 2, 5, 7, 8}).map (fun n : ℕ => (n : ℤ))) ↔
      true = true ∧ ¬ (2 ^ 31 - 2 ∈ ({0, 1, 2, 5, 7, 8} : Finset ℕ) ∧
        2 ^ 31 - 1 ∈ ({0, 1, 2, 5, 7, 8} : Finset ℕ)) :=
  kernelList_iff {0, 1, 2, 5, 7, 8} (by decide) (by decide) (by decide) true .moved [] ⟨0, 0, none⟩

/-- The last two CPUs that an `int` can name. -/
theorem kernelList_largest :
    kernelList {2147483646, 2147483647} = "2147483646-2147483647\n".toList ∧
      cputopFillLogicCPU true .inPlace (kernelList {2147483646, 2147483647}) [] ⟨0, 0, none⟩ =
        .error .overflow := by
  have hsorted : [2147483646, 2147483647].SortedLT := by decide
  have hlist : kernelList {2147483646, 2147483647} =
      onlineText ((runs [2147483646, 2147483647]).map Run.item) true := by
    rw [← kernelList_toFinset hsorted]
    rfl
  rw [hlist]
  decide +kernel

end TaskLunev.CpuOnlineList
