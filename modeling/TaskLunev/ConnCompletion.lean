import Mathlib.Algebra.BigOperators.Group.Finset.Piecewise
import Mathlib.Algebra.BigOperators.Ring.Finset
import Mathlib.Algebra.Order.BigOperators.Group.Finset
import Mathlib.Data.Fintype.Card
import TaskLunev.CompletedRuns
import TaskLunev.ConnSafety

/-!
# Readers and writers meet

As long as no process exits the connection phase does not lock up: its steps
run out only when there is no reader left or no writer, and by then as many of
each are through as can be paired.
-/
namespace TaskLunev.ConnCompletion
open UndoSemaphores ConnModel ConnHandover ConnSafety TransitionRuns CompletedRuns
open scoped BigOperators

/-! ## The steps left -/

def writerRank : WriterPc → ℕ
  | .pFull => 6
  | .pMutex => 5
  | .readId => 4
  | .readSem => 3
  | .vMutex => 2
  | .vReaded => 1
  | .done => 0

def readerRank : ReaderPc → ℕ
  | .pEmpty => 7
  | .pMutex => 6
  | .writeId => 5
  | .vMutex => 4
  | .vFull => 3
  | .pReaded => 2
  | .setAll => 1
  | .done => 0

def pcRank : Pc → ℕ
  | .writer pc => writerRank pc
  | .reader pc => readerRank pc
  | .exited => 0

def roleOf : Pc → Option Role
  | .writer _ => some .writer
  | .reader _ => some .reader
  | .exited => none

/-- A writer that has read an identifier. -/
def didRead : Pc → Bool
  | .writer pc => decide (HasRead pc)
  | _ => false

variable {ι : Type*} {persShmID : ι → ℤ} {role : ι → Role} {ph : Phase ι} {s t : State ι}
  {p r : ι} {k : Sem} {d : ℤ} {pc : Pc}

/-- Each process is in its function, and each writer past its reading has
logged it once. -/
structure Logged (role : ι → Role) (s : State ι) : Prop where
  role : ∀ p, roleOf (s.pc p) = some (role p)
  once : (s.reads.map Prod.fst).Nodup
  read : ∀ p, p ∈ s.reads.map Prod.fst ↔ didRead (s.pc p) = true

theorem logged_start (readerShmID : ℤ) : Logged role (.start role readerShmID) where
  role p := by
    change roleOf (role p).begin = _
    cases role p <;> rfl
  once := List.nodup_nil
  read p := by
    refine iff_of_false List.not_mem_nil ?_
    change ¬ didRead (role p).begin = true
    cases role p <;> decide

theorem done_of_outside (h : Outside (s.pc p)) (hread : didRead (s.pc p) = true) :
    s.pc p = .writer .done := by
  rcases h with hp | hp | hp | hp | hp
  · simp [hp, didRead, HasRead] at hread
  · simp [hp, didRead] at hread
  · exact hp
  · simp [hp, didRead] at hread
  · simp [hp, didRead] at hread

/-- The system rests when no reader is left, or when a reader waits for a
writer and no writer is left. -/
inductive Rests (s : State ι) : Phase ι → Prop
  | idle : (∀ p, s.pc p ≠ .reader .pEmpty) → Rests s .idle
  | waiting (r : ι) : (∀ p, s.pc p ≠ .writer .pFull) → Rests s (.alone r .pReaded)

theorem Rests.answer (h : Rests s ph) : ph.answer = none := by cases h <;> rfl

/-! ## Counting -/

section
variable [Fintype ι]

def doneReaders (s : State ι) : Finset ι := Finset.univ.filter fun p => s.pc p = .reader .done

def doneWriters (s : State ι) : Finset ι := Finset.univ.filter fun p => s.pc p = .writer .done

/-- How many processes run this function. -/
def numberOf (role : ι → Role) (a : Role) : ℕ := (Finset.univ.filter fun p => role p = a).card

/-- While nobody is being answered the readers done are those that were read. -/
theorem card_doneReaders (hinj : Function.Injective persShmID) (honce : Once persShmID ph s)
    (hanswered : Answered persShmID s) (hnone : ph.answer = none) :
    (doneReaders s).card = s.reads.length := by
  have himage : (doneReaders s).image persShmID = (s.reads.map Prod.snd).toFinset := by
    ext x
    simp only [doneReaders, Finset.mem_image, Finset.mem_filter, Finset.mem_univ, true_and,
      List.mem_toFinset, List.mem_map]
    constructor
    · rintro ⟨r, hr, rfl⟩
      obtain ⟨w, hw⟩ := hanswered r hr
      exact ⟨_, hw, rfl⟩
    · rintro ⟨e, he, rfl⟩
      rcases honce.owner e he with ⟨r, hr, hid⟩ | ⟨r, w, hsome, -⟩
      · exact ⟨r, hr, hid.symm⟩
      · simp [hnone] at hsome
  rw [← Finset.card_image_of_injective _ hinj, himage, List.toFinset_card_of_nodup honce.nodup,
    List.length_map]

theorem card_le_numberOf {A : Finset ι} {a : Role} (hlogged : Logged role s)
    (h : ∀ p ∈ A, roleOf (s.pc p) = some a) : A.card ≤ numberOf role a :=
  Finset.card_le_card fun p hp => Finset.mem_filter.mpr
    ⟨Finset.mem_univ p, Option.some.inj ((hlogged.role p).symm.trans (h p hp))⟩

def rank (s : State ι) : ℕ := ∑ p, pcRank (s.pc p)

theorem rank_start (role : ι → Role) (readerShmID : ℤ) :
    rank (.start role readerShmID) = 7 * numberOf role .reader + 6 * numberOf role .writer := by
  have hone : ∀ p, pcRank (role p).begin =
      7 * (if role p = .reader then 1 else 0) + 6 * (if role p = .writer then 1 else 0) := by
    intro p
    cases role p <;> rfl
  change ∑ p, pcRank (role p).begin = _
  simp only [hone, Finset.sum_add_distrib, ← Finset.mul_sum, numberOf, Finset.card_filter]

end

/-! ## Steps -/

variable [DecidableEq ι]

/-- A process goes on to its next step in the same function, and logs what it
reads. -/
structure Goes (s : State ι) (p : ι) (pc : Pc) (t : State ι) : Prop where
  pc_eq : t.pc = Function.update s.pc p pc
  role : roleOf pc = roleOf (s.pc p)
  rank : pcRank pc + 1 = pcRank (s.pc p)
  reads : t.reads = s.reads ∧ didRead pc = didRead (s.pc p) ∨
    didRead (s.pc p) = false ∧ didRead pc = true ∧ ∃ x, t.reads = s.reads ++ [(p, x)]

theorem goes_semop {pc₀ : Pc} (hp : s.pc p = pc₀) (ht : s.semop p k d pc = some t)
    (hrole : roleOf pc = roleOf pc₀) (hrank : pcRank pc + 1 = pcRank pc₀)
    (hread : didRead pc = didRead pc₀) : Goes s p pc t := by
  subst hp
  obtain ⟨-, hreads, -, hpc⟩ := semop_spec ht
  exact ⟨hpc, hrole, hrank, .inl ⟨hreads, hread⟩⟩

theorem goes_writer {b : WriterPc} (hp : s.pc p = .writer b) (ht : s.writer p b = some t) :
    ∃ pc, Goes s p pc t := by
  cases b with
  | pFull => exact ⟨_, goes_semop hp ht rfl rfl rfl⟩
  | pMutex => exact ⟨_, goes_semop hp ht rfl rfl rfl⟩
  | readId =>
      cases ht
      exact ⟨_, rfl, by rw [hp]; rfl, by rw [hp]; rfl, .inr ⟨by rw [hp]; rfl, rfl, _, rfl⟩⟩
  | readSem =>
      cases ht
      exact ⟨_, rfl, by rw [hp]; rfl, by rw [hp]; rfl, .inl ⟨rfl, by rw [hp]; rfl⟩⟩
  | vMutex =>
      have hV : s.connV p .mutex (.writer .vReaded) = some t := ht
      exact ⟨_, goes_semop hp hV rfl rfl rfl⟩
  | vReaded =>
      have hV : s.connV p .wReaded (.writer .done) = some t := ht
      exact ⟨_, goes_semop hp hV rfl rfl rfl⟩
  | done => cases ht

theorem goes_reader {a : ReaderPc} (hp : s.pc p = .reader a)
    (ht : s.reader persShmID p a = some t) : ∃ pc, Goes s p pc t := by
  cases a with
  | pEmpty => exact ⟨_, goes_semop hp ht rfl rfl rfl⟩
  | pMutex => exact ⟨_, goes_semop hp ht rfl rfl rfl⟩
  | writeId =>
      cases ht
      exact ⟨_, rfl, by rw [hp]; rfl, by rw [hp]; rfl, .inl ⟨rfl, by rw [hp]; rfl⟩⟩
  | vMutex =>
      have hV : s.connV p .mutex (.reader .vFull) = some t := ht
      exact ⟨_, goes_semop hp hV rfl rfl rfl⟩
  | vFull =>
      have hV : s.connV p .full (.reader .pReaded) = some t := ht
      exact ⟨_, goes_semop hp hV rfl rfl rfl⟩
  | pReaded => exact ⟨_, goes_semop hp ht rfl rfl rfl⟩
  | setAll =>
      cases ht
      exact ⟨_, rfl, by rw [hp]; rfl, by rw [hp]; rfl, .inl ⟨rfl, by rw [hp]; rfl⟩⟩
  | done => cases ht

theorem goes_exec (ht : s.exec persShmID p = some t) : ∃ pc, Goes s p pc t := by
  unfold State.exec at ht
  cases hp : s.pc p with
  | writer b =>
      rw [hp] at ht
      exact goes_writer hp ht
  | reader a =>
      rw [hp] at ht
      exact goes_reader hp ht
  | exited => simp [hp] at ht

theorem Logged.goes (h : Logged role s) (hgoes : Goes s p pc t) : Logged role t := by
  have hself : t.pc p = pc := by rw [hgoes.pc_eq, Function.update_self]
  have hother : ∀ q, q ≠ p → t.pc q = s.pc q := fun q hq => by
    rw [hgoes.pc_eq, Function.update_of_ne hq]
  constructor
  case role =>
    intro q
    by_cases hq : q = p
    · rw [hq, hself, hgoes.role, h.role]
    · rw [hother q hq, h.role]
  case once =>
    rcases hgoes.reads with ⟨hreads, -⟩ | ⟨hnot, -, x, hreads⟩
    · rw [hreads]
      exact h.once
    · have hnew : p ∉ s.reads.map Prod.fst := fun hmem => by simp [(h.read p).mp hmem] at hnot
      rw [hreads, List.map_append, List.map_singleton, List.nodup_append]
      refine ⟨h.once, List.nodup_singleton p, fun q hq q' hq' hqq => hnew ?_⟩
      rwa [hqq, List.mem_singleton.mp hq'] at hq
  case read =>
    intro q
    rcases hgoes.reads with ⟨hreads, hsame⟩ | ⟨-, hdid, x, hreads⟩
    · rw [hreads, h.read]
      by_cases hq : q = p
      · rw [hq, hself, hsame]
      · rw [hother q hq]
    · rw [hreads, List.map_append, List.mem_append, h.read, List.map_singleton, List.mem_singleton]
      by_cases hq : q = p
      · rw [hq, hself, hdid]
        exact iff_of_true (.inr rfl) rfl
      · rw [hother q hq, or_iff_left hq]

/-! ## Rest -/

section
variable (hstuck : ∀ p, s.exec persShmID p = none)

theorem blocked (h : s.semop p k d pc = none) : (s.sem.val k : ℤ) + d < 0 := by
  by_contra hd
  simp [State.semop, SemSet.semop, if_pos (not_lt.mp hd)] at h

theorem blocked_reader {a : ReaderPc} (hp : s.pc p = .reader a)
    (hstuck : ∀ p, s.exec persShmID p = none) : s.reader persShmID p a = none := by
  have h := hstuck p
  rwa [State.exec, hp] at h

theorem blocked_writer {b : WriterPc} (hp : s.pc p = .writer b)
    (hstuck : ∀ p, s.exec persShmID p = none) : s.writer p b = none := by
  have h := hstuck p
  rwa [State.exec, hp] at h

include hstuck in
theorem rests_alone {a : ReaderPc} (h : Holds persShmID (.alone r a) s) :
    Rests s (.alone r a) := by
  obtain ⟨hr, hbegin, hset, hdone, -⟩ := h.place
  have hblocked := blocked_reader hr hstuck
  have hval := h.val_alone
  cases a with
  | pEmpty => exact absurd rfl hbegin
  | pMutex =>
      have hlt := blocked hblocked
      have hmutex : (s.sem.val .mutex : ℤ) + 0 = 1 := hval .mutex
      omega
  | writeId => cases hblocked
  | vMutex =>
      have hV : s.connV r .mutex (.reader .vFull) = none := hblocked
      have hlt := blocked hV
      omega
  | vFull =>
      have hV : s.connV r .full (.reader .pReaded) = none := hblocked
      have hlt := blocked hV
      omega
  | pReaded =>
      refine .waiting r fun p hp => ?_
      have hlt := blocked (blocked_writer hp hstuck)
      have hfull : (s.sem.val .full : ℤ) + -1 = 0 := hval .full
      omega
  | setAll => exact absurd rfl hset
  | done => exact absurd rfl hdone

include hstuck in
/-- A reader and the writer that answers it do not wait for each other. -/
theorem not_both {w : ι} {b : WriterPc} (h : Holds persShmID (.both r w b) s) : False := by
  obtain ⟨hr, hw, hbegin, -⟩ := h.place
  have hblocked := blocked_writer hw hstuck
  have hval := h.val_both
  cases b with
  | pFull => exact absurd rfl hbegin
  | pMutex =>
      have hlt := blocked hblocked
      have hmutex : (s.sem.val .mutex : ℤ) + (0 + 0) = 1 := hval .mutex
      omega
  | readId => cases hblocked
  | readSem => cases hblocked
  | vMutex =>
      have hV : s.connV w .mutex (.writer .vReaded) = none := hblocked
      have hlt := blocked hV
      omega
  | vReaded =>
      have hV : s.connV w .wReaded (.writer .done) = none := hblocked
      have hlt := blocked hV
      omega
  | done =>
      have hlt := blocked (blocked_reader hr hstuck)
      have hreaded : (s.sem.val .wReaded : ℤ) + (0 + -1) = 0 := hval .wReaded
      omega

include hstuck in
theorem rests_of_stuck (h : Holds persShmID ph s) : Rests s ph := by
  cases ph with
  | idle =>
      refine .idle fun p hp => ?_
      have hlt := blocked (blocked_reader hp hstuck)
      have hempty : (s.sem.val .empty : ℤ) = 1 := h.val_idle .empty
      omega
  | alone r a => exact rests_alone hstuck h
  | both r w b => exact (not_both hstuck h).elim
  | passed r w =>
      have hblocked := blocked_reader h.place.1 hstuck
      cases hblocked

/-- At rest a writer that has read is through. -/
theorem done_of_rests (h : Holds persShmID ph s) (hrests : Rests s ph)
    (hread : didRead (s.pc p) = true) : s.pc p = .writer .done := by
  cases hrests with
  | idle _ => exact done_of_outside (h.held.rest p (Finset.notMem_empty p)) hread
  | waiting r _ =>
      by_cases hp : p = r
      · simp [hp, h.place.1, didRead] at hread
      · exact done_of_outside (h.held.rest p (by simpa [Phase.active] using hp)) hread

end

/-! ## Pairs -/

section
variable [Fintype ι]

theorem card_doneWriters (hlogged : Logged role s)
    (hdone : ∀ p, didRead (s.pc p) = true → s.pc p = .writer .done) :
    (doneWriters s).card = s.reads.length := by
  have hset : doneWriters s = (s.reads.map Prod.fst).toFinset := by
    ext p
    rw [doneWriters, Finset.mem_filter, List.mem_toFinset, hlogged.read]
    exact ⟨fun h => by rw [h.2]; rfl, fun h => ⟨Finset.mem_univ p, hdone p h⟩⟩
  rw [hset, List.toFinset_card_of_nodup hlogged.once, List.length_map]

/-- The pairs are complete, and each handed over as it should be. -/
structure Paired (persShmID : ι → ℤ) (role : ι → Role) (s : State ι) : Prop where
  handedOver : HandedOver persShmID s
  readers : (doneReaders s).card = min (numberOf role .reader) (numberOf role .writer)
  writers : (doneWriters s).card = min (numberOf role .reader) (numberOf role .writer)

/-- The side that is through. -/
theorem all_done_of_rests (h : Holds persShmID ph s) (hrests : Rests s ph)
    (hlogged : Logged role s) :
    numberOf role .reader ≤ (doneReaders s).card ∨
      numberOf role .writer ≤ (doneWriters s).card := by
  cases hrests with
  | idle hnone =>
      refine .inl (Finset.card_le_card fun p hp => ?_)
      have hrole := hlogged.role p
      rw [(Finset.mem_filter.mp hp).2] at hrole
      refine Finset.mem_filter.mpr ⟨Finset.mem_univ p, ?_⟩
      rcases h.held.rest p (Finset.notMem_empty p) with hpc | hpc | hpc | hpc | hpc
      · simp [hpc, roleOf] at hrole
      · exact absurd hpc (hnone p)
      · simp [hpc, roleOf] at hrole
      · exact hpc
      · simp [hpc, roleOf] at hrole
  | waiting r hnone =>
      refine .inr (Finset.card_le_card fun p hp => ?_)
      have hrole := hlogged.role p
      rw [(Finset.mem_filter.mp hp).2] at hrole
      have hpr : p ≠ r := fun hpr => by simp [hpr, h.place.1, roleOf] at hrole
      refine Finset.mem_filter.mpr ⟨Finset.mem_univ p, ?_⟩
      rcases h.held.rest p (by simpa [Phase.active] using hpr) with hpc | hpc | hpc | hpc | hpc
      · exact absurd hpc (hnone p)
      · simp [hpc, roleOf] at hrole
      · exact hpc
      · simp [hpc, roleOf] at hrole
      · simp [hpc, roleOf] at hrole

theorem paired_of_stuck (hinj : Function.Injective persShmID) (h : Orderly persShmID s)
    (hlogged : Logged role s) (hstuck : ∀ p, s.exec persShmID p = none) :
    Paired persShmID role s := by
  have hhanded := h.handedOver
  obtain ⟨ph, hph, honce, hanswered⟩ := h
  have hrests := rests_of_stuck hstuck hph
  have hreaders := card_doneReaders hinj honce hanswered hrests.answer
  have hwriters := card_doneWriters hlogged fun p hread => done_of_rests hph hrests hread
  have hreadersLe : (doneReaders s).card ≤ numberOf role .reader :=
    card_le_numberOf hlogged fun p hp => by rw [(Finset.mem_filter.mp hp).2]; rfl
  have hwritersLe : (doneWriters s).card ≤ numberOf role .writer :=
    card_le_numberOf hlogged fun p hp => by rw [(Finset.mem_filter.mp hp).2]; rfl
  have hall := all_done_of_rests hph hrests hlogged
  exact ⟨hhanded, by omega, by omega⟩

/-! ## Every order of the steps -/

theorem rank_goes (h : Goes s p pc t) : rank t + 1 = rank s := by
  have hp := Finset.mem_univ p
  have hrest : ∀ q ∈ Finset.univ.erase p, pcRank (t.pc q) = pcRank (s.pc q) := fun q hq => by
    rw [h.pc_eq, Function.update_of_ne (Finset.ne_of_mem_erase hq)]
  rw [rank, rank, ← Finset.sum_erase_add _ _ hp, ← Finset.sum_erase_add _ (pcRank <| s.pc ·) hp,
    Finset.sum_congr rfl hrest, h.pc_eq, Function.update_self, ← h.rank, add_assoc]

theorem ranked (hinj : Function.Injective persShmID) (role : ι → Role) :
    Ranked (fun s p t => s.exec persShmID p = some t) (fun _ => true)
      (fun s => Orderly persShmID s ∧ Logged role s) rank (Paired persShmID role) where
  keeps s p t h ht := by
    obtain ⟨pc, hgoes⟩ := goes_exec ht
    exact ⟨h.1.exec hinj ht, h.2.goes hgoes⟩
  lowers s p t _ ht := by
    obtain ⟨pc, hgoes⟩ := goes_exec ht
    exact (rank_goes hgoes).le
  goal s h hrest := paired_of_stuck hinj h.1 h.2 fun _ => hrest.eq_none rfl

/-- Whatever the order of the steps, they run out after seven for each reader
and six for each writer at most, and by then as many are handed over as there
are pairs of a reader and a writer. -/
theorem pairs_complete (persShmID : ι ↪ ℤ) (role : ι → Role) (readerShmID : ℤ) :
    Completes (fun s p t => s.exec persShmID p = some t) (fun _ => true)
      (.start role readerShmID) (7 * numberOf role .reader + 6 * numberOf role .writer)
      (Paired persShmID role) :=
  rank_start role readerShmID ▸ (ranked persShmID.injective role).completes
    ⟨orderly_start role readerShmID, logged_start readerShmID⟩

end

end TaskLunev.ConnCompletion
