import TaskLunev.ConnModel
import TaskLunev.TransitionRuns

/-!
# The hand-over of a registration

At any moment at most one reader is inside the connection phase, and at most
one writer with it. This is kept as a phase: nobody inside, a reader alone, a
reader waiting for the writer that took its registration, or a reader about to
set the semaphores anew. All others have not begun, are done or have exited.
The values of the semaphores then follow from the adjustments of the one or
two processes inside, and so does the effect of an exit.
-/
namespace TaskLunev.ConnHandover
open UndoSemaphores ConnModel

/-! ## Adjustments -/

/-- What a writer inside the protocol owes each semaphore. -/
def writerAdj (pc : WriterPc) : Sem → ℤ
  | .empty => 0
  | .mutex => if pc = .readId ∨ pc = .readSem ∨ pc = .vMutex then 1 else 0
  | .full => if pc = .pFull then 0 else 1
  | .wReaded => if pc = .done then -1 else 0

def readerAdj (pc : ReaderPc) : Sem → ℤ
  | .empty => if pc = .pEmpty ∨ pc = .done then 0 else 1
  | .mutex => if pc = .writeId ∨ pc = .vMutex then 1 else 0
  | .full => if pc = .pReaded ∨ pc = .setAll then -1 else 0
  | .wReaded => if pc = .setAll then 1 else 0

def adjAt : Pc → Sem → ℤ
  | .writer pc => writerAdj pc
  | .reader pc => readerAdj pc
  | .exited => 0

theorem adjAt_mutex_nonneg (pc : Pc) : 0 ≤ adjAt pc .mutex := by
  cases pc with
  | writer pc => cases pc <;> decide
  | reader pc => cases pc <;> decide
  | exited => exact le_rfl

/-- Not inside the protocol: not begun, done or exited. -/
def Outside (pc : Pc) : Prop :=
  pc = .writer .pFull ∨ pc = .reader .pEmpty ∨ pc = .writer .done ∨ pc = .reader .done ∨ pc = .exited

variable {ι : Type*}

/-- Only the processes in `A` are inside, and each owes what its position says. -/
structure Held (A : Finset ι) (s : State ι) : Prop where
  owed : s.sem.Owed ops A
  adj : ∀ p ∈ A, s.sem.adj p = adjAt (s.pc p)
  rest : ∀ p ∉ A, Outside (s.pc p)

namespace Held

variable {A : Finset ι} {s t : State ι} {p : ι} {k : Sem} {d : ℤ} {pc : Pc}

theorem val (h : Held A s) (k : Sem) : (s.sem.val k : ℤ) + ∑ p ∈ A, adjAt (s.pc p) k = ops k := by
  rw [← h.owed.total k]
  exact congrArg _ (Finset.sum_congr rfl fun p hp => by rw [h.adj p hp])

theorem start (role : ι → Role) (readerShmID : ℤ) : Held ∅ (State.start role readerShmID) where
  owed := .setAll ops
  adj p hp := absurd hp (Finset.notMem_empty p)
  rest p _ := by
    change Outside (role p).begin
    cases role p with
    | writer => exact .inl rfl
    | reader => exact .inr (.inl rfl)

/-- The mutex is never above one. -/
theorem mutex_le (h : Held A s) : s.sem.val .mutex ≤ 1 :=
  h.owed.val_le fun p hp => by rw [h.adj p hp]; exact adjAt_mutex_nonneg _

variable [DecidableEq ι]

theorem semop (h : Held A s) (hown : s.sem.adj p = adjAt (s.pc p))
    (ht : s.semop p k d pc = some t)
    (hadj : adjAt pc = Function.update (adjAt (s.pc p)) k (adjAt (s.pc p) k - d)) :
    Held (insert p A) t := by
  obtain ⟨sem, hsem, rfl⟩ := Option.map_eq_some_iff.mp ht
  exact
    { owed := h.owed.semop hsem
      adj := fun q hq => by
        by_cases hqp : q = p
        · subst hqp
          simp only [State.goto, Function.update_self]
          rw [SemSet.adj_semop_self hsem, hown, hadj]
        · simp only [State.goto, Function.update_of_ne hqp]
          rw [SemSet.adj_semop_of_ne hsem hqp]
          exact h.adj q (Finset.mem_of_mem_insert_of_ne hq hqp)
      rest := fun q hq => by
        rw [Finset.mem_insert, not_or] at hq
        simp only [State.goto, Function.update_of_ne hq.1]
        exact h.rest q hq.2 }

/-- An access to memory by a process inside. -/
theorem access (h : Held A s) (hp : p ∈ A) (hadj : adjAt pc = adjAt (s.pc p))
    (hsem : t.sem = s.sem) (hpc : t.pc = Function.update s.pc p pc) : Held A t where
  owed := hsem ▸ h.owed
  adj q hq := by
    rw [hsem, hpc]
    by_cases hqp : q = p
    · subst hqp
      rw [Function.update_self, hadj, h.adj q hq]
    · rw [Function.update_of_ne hqp, h.adj q hq]
  rest q hq := by
    have hqp : q ≠ p := fun hqp => hq (by rwa [hqp])
    rw [hpc, Function.update_of_ne hqp]
    exact h.rest q hq

theorem exit (h : Held A s) (hp : s.sem.Undoable p) (ht : s.exit p = some t) :
    Held (A.erase p) t ∧ t.reads = s.reads ∧ t.readerShmID = s.readerShmID ∧
      t.pc = Function.update s.pc p .exited := by
  have hts : t = { s with sem := s.sem.exit p }.goto p .exited := by
    unfold State.exit at ht
    split at ht
    · cases ht
    · exact (Option.some.inj ht).symm
  subst hts
  constructor
  · exact
      { owed := h.owed.exit hp
        adj := fun q hq => by
          have hqp := Finset.ne_of_mem_erase hq
          simp only [State.goto, Function.update_of_ne hqp]
          rw [SemSet.adj_exit_of_ne hqp, h.adj q (Finset.mem_of_mem_erase hq)]
        rest := fun q hq => by
          simp only [State.goto]
          by_cases hqp : q = p
          · rw [hqp, Function.update_self]
            simp [Outside]
          · rw [Function.update_of_ne hqp]
            exact h.rest q fun hA => hq (Finset.mem_erase.mpr ⟨hqp, hA⟩) }
  · exact ⟨rfl, rfl, rfl⟩

end Held

/-! ## Phases -/

inductive Phase (ι : Type*) where
  | idle
  | alone (r : ι) (pc : ReaderPc)
  | both (r w : ι) (pc : WriterPc)
  | passed (r w : ι)

/-- The writer has read the identifier. -/
def HasRead (pc : WriterPc) : Prop := pc = .readSem ∨ pc = .vMutex ∨ pc = .vReaded ∨ pc = .done

instance (pc : WriterPc) : Decidable (HasRead pc) :=
  inferInstanceAs (Decidable (pc = .readSem ∨ pc = .vMutex ∨ pc = .vReaded ∨ pc = .done))

namespace Phase

/-- The reader whose registration has been read and is not finished, with the
writer that read it. -/
def answer : Phase ι → Option (ι × ι)
  | .idle => none
  | .alone _ _ => none
  | .both r w pc => if HasRead pc then some (r, w) else none
  | .passed r w => some (r, w)

def active [DecidableEq ι] : Phase ι → Finset ι
  | .idle => ∅
  | .alone r _ => {r}
  | .both r w _ => {r, w}
  | .passed r w => {r, w}

/-- Where the processes inside are and what the cell holds. -/
def At (persShmID : ι → ℤ) (s : State ι) : Phase ι → Prop
  | .idle => True
  | .alone r pc =>
      s.pc r = .reader pc ∧ pc ≠ .pEmpty ∧ pc ≠ .setAll ∧ pc ≠ .done ∧
        (pc ≠ .pMutex → pc ≠ .writeId → s.readerShmID = persShmID r)
  | .both r w pc =>
      s.pc r = .reader .pReaded ∧ s.pc w = .writer pc ∧ pc ≠ .pFull ∧
        s.readerShmID = persShmID r
  | .passed r w => s.pc r = .reader .setAll ∧ s.pc w = .writer .done

end Phase

variable [DecidableEq ι]

structure Holds (persShmID : ι → ℤ) (ph : Phase ι) (s : State ι) : Prop where
  held : Held ph.active s
  place : ph.At persShmID s
  logged : ∀ r w, ph.answer = some (r, w) → (w, persShmID r) ∈ s.reads

/-- What a step does to the registrations: nothing, a first reading, or the
end of a reader that has been read. -/
inductive Moved (persShmID : ι → ℤ) (ph ph' : Phase ι) (s t : State ι) : Prop
  | quiet : ph'.answer = ph.answer → t.reads = s.reads →
      (∀ q, t.pc q = .reader .done ↔ s.pc q = .reader .done) → Moved persShmID ph ph' s t
  | read (r w : ι) : ph.answer = none → ph'.answer = some (r, w) → s.pc r ≠ .reader .done →
      t.reads = s.reads ++ [(w, persShmID r)] →
      (∀ q, t.pc q = .reader .done ↔ s.pc q = .reader .done) → Moved persShmID ph ph' s t
  | close (r w : ι) : ph.answer = some (r, w) → ph'.answer = none → t.reads = s.reads →
      (∀ q, t.pc q = .reader .done ↔ q = r ∨ s.pc q = .reader .done) → Moved persShmID ph ph' s t

section
variable {persShmID : ι → ℤ} {ph ph' : Phase ι} {s t : State ι} {p r w : ι} {k : Sem} {d : ℤ} {pc : Pc}

theorem semop_spec (h : s.semop p k d pc = some t) :
    0 ≤ s.sem.val k + d ∧ t.reads = s.reads ∧ t.readerShmID = s.readerShmID ∧
      t.pc = Function.update s.pc p pc := by
  obtain ⟨sem, hsem, rfl⟩ := Option.map_eq_some_iff.mp h
  exact ⟨(SemSet.semop_eq_some hsem).1, rfl, rfl, rfl⟩

theorem done_update (hp : s.pc p ≠ .reader .done) (hpc : pc ≠ .reader .done) (q : ι) :
    Function.update s.pc p pc q = .reader .done ↔ s.pc q = .reader .done := by
  by_cases hq : q = p
  · rw [hq, Function.update_self]
    exact iff_of_false hpc hp
  · rw [Function.update_of_ne hq]

/-- A process that is not inside can only begin. -/
theorem begins_of_outside (hp : Outside (s.pc p)) (ht : s.exec persShmID p = some t) :
    s.pc p = .writer .pFull ∧ s.connP p .full (.writer .pMutex) = some t ∨
      s.pc p = .reader .pEmpty ∧ s.connP p .empty (.reader .pMutex) = some t := by
  unfold State.exec at ht
  obtain hp | hp | hp | hp | hp := hp
  · exact .inl ⟨hp, by simpa [hp, State.writer] using ht⟩
  · exact .inr ⟨hp, by simpa [hp, State.reader] using ht⟩
  · simp [hp, State.writer] at ht
  · simp [hp, State.reader] at ht
  · simp [hp] at ht

namespace Holds

/-- A semaphore operation that reads nothing and finishes no reader. -/
theorem semop {pc₀ : Pc} (h : Holds persShmID ph s) (hp : s.pc p = pc₀)
    (hin : p ∈ ph.active ∨ adjAt pc₀ = 0) (ht : s.semop p k d pc = some t)
    (hadj : ∀ j, adjAt pc j = Function.update (adjAt pc₀) k (adjAt pc₀ k - d) j)
    (hdone : pc₀ ≠ .reader .done ∧ pc ≠ .reader .done)
    (hactive : ph'.active = insert p ph.active) (hanswer : ph'.answer = ph.answer)
    (hplace : t.pc = Function.update s.pc p pc → t.readerShmID = s.readerShmID →
      ph'.At persShmID t) :
    Holds persShmID ph' t ∧ Moved persShmID ph ph' s t := by
  subst hp
  obtain ⟨-, hreads, hcell, hpc⟩ := semop_spec ht
  have hown : s.sem.adj p = adjAt (s.pc p) := by
    by_cases hA : p ∈ ph.active
    · exact h.held.adj p hA
    · rw [h.held.owed.rest p hA, hin.resolve_left hA]
  constructor
  · exact
      { held := hactive ▸ h.held.semop hown ht (funext hadj)
        place := hplace hpc hcell
        logged := fun r w hrw => by
          rw [hreads]
          exact h.logged r w (hanswer ▸ hrw) }
  · exact .quiet hanswer hreads fun q => by rw [hpc, done_update hdone.1 hdone.2]

/-! Nobody is inside: only a reader can begin. -/

theorem val_idle (h : Holds persShmID .idle s) (k : Sem) : (s.sem.val k : ℤ) = ops k := by
  simpa [Phase.active] using h.held.val k

theorem exec_idle (h : Holds persShmID .idle s) (ht : s.exec persShmID p = some t) :
    ∃ ph', Holds persShmID ph' t ∧ Moved persShmID .idle ph' s t := by
  obtain ⟨hpc, hP⟩ | ⟨hpc, hP⟩ := begins_of_outside (h.held.rest p (Finset.notMem_empty p)) ht
  · have hfull := (semop_spec hP).1
    rw [h.val_idle] at hfull
    exact absurd hfull (by decide)
  · refine ⟨.alone p .pMutex, h.semop hpc (.inr ?_) hP ?_ (by decide) rfl rfl ?_⟩
    · funext j
      cases j <;> rfl
    · intro j
      cases j <;> rfl
    · intro htpc _
      simp [Phase.At, htpc]

/-! A reader alone goes through its steps up to `P (W_READED)`; then a writer
can begin. -/

section
variable {a : ReaderPc}

theorem val_alone (h : Holds persShmID (.alone r a) s) (k : Sem) :
    (s.sem.val k : ℤ) + readerAdj a k = ops k := by
  have hval := h.held.val k
  rw [Phase.active, Finset.sum_singleton, h.place.1] at hval
  exact hval

/-- The steps of the reader on the semaphores. -/
theorem semop_alone {b : ReaderPc} (h : Holds persShmID (.alone r a) s)
    (ht : s.semop r k d (.reader b) = some t)
    (hadj : ∀ j, readerAdj b j = Function.update (readerAdj a) k (readerAdj a k - d) j)
    (hb : b ≠ .pEmpty ∧ b ≠ .setAll ∧ b ≠ .done)
    (hcell : b ≠ .pMutex → b ≠ .writeId → s.readerShmID = persShmID r) :
    ∃ ph', Holds persShmID ph' t ∧ Moved persShmID (.alone r a) ph' s t := by
  obtain ⟨hr, -, -, hdone, -⟩ := h.place
  refine ⟨.alone r b, h.semop hr (.inl (Finset.mem_singleton_self r)) ht hadj ?_ ?_ rfl ?_⟩
  · simp [hdone, hb]
  · simp [Phase.active]
  · intro htpc htcell
    exact ⟨by rw [htpc, Function.update_self], hb.1, hb.2.1, hb.2.2, by rwa [htcell]⟩

theorem exec_alone_reader (h : Holds persShmID (.alone r a) s)
    (ht : s.exec persShmID r = some t) :
    ∃ ph', Holds persShmID ph' t ∧ Moved persShmID (.alone r a) ph' s t := by
  obtain ⟨hr, hbegin, hset, hdone, hcell⟩ := h.place
  unfold State.exec at ht
  rw [hr] at ht
  cases a with
  | pEmpty => exact absurd rfl hbegin
  | pMutex =>
      have hP : s.connP r .mutex (.reader .writeId) = some t := ht
      exact h.semop_alone hP (fun j => by cases j <;> rfl) (by decide) fun _ hw => absurd rfl hw
  | writeId =>
      cases ht
      refine ⟨.alone r .vMutex, ⟨?_, ?_, fun _ _ hrw => nomatch hrw⟩, .quiet rfl rfl ?_⟩
      · exact h.held.access (Finset.mem_singleton_self r)
          (by rw [hr]; funext j; cases j <;> rfl) rfl rfl
      · simp [Phase.At, State.goto]
      · exact done_update (by simp [hr]) (by simp)
  | vMutex =>
      have hV : s.connV r .mutex (.reader .vFull) = some t := ht
      exact h.semop_alone hV (fun j => by cases j <;> rfl) (by decide)
        fun _ _ => hcell (by decide) (by decide)
  | vFull =>
      have hV : s.connV r .full (.reader .pReaded) = some t := ht
      exact h.semop_alone hV (fun j => by cases j <;> rfl) (by decide)
        fun _ _ => hcell (by decide) (by decide)
  | pReaded =>
      -- nobody has posted `W_READED`
      have hP : s.connP r .wReaded (.reader .setAll) = some t := ht
      have hval : (s.sem.val .wReaded : ℤ) + 0 = 0 := h.val_alone .wReaded
      have hW := (semop_spec hP).1
      omega
  | setAll => exact absurd rfl hset
  | done => exact absurd rfl hdone

theorem exec_alone (h : Holds persShmID (.alone r a) s) (ht : s.exec persShmID p = some t) :
    ∃ ph', Holds persShmID ph' t ∧ Moved persShmID (.alone r a) ph' s t := by
  by_cases hp : p = r
  · subst hp
    exact h.exec_alone_reader ht
  · obtain ⟨hr, hbegin, hset, hdone, hcell⟩ := h.place
    have hout := h.held.rest p (by simpa [Phase.active] using hp)
    obtain ⟨hpc, hP⟩ | ⟨hpc, hP⟩ := begins_of_outside hout ht
    · have hF := (semop_spec hP).1
      have hval := h.val_alone .full
      have ha : a = .pReaded := by
        by_contra ha
        simp only [readerAdj, ops, ha, hset, or_self, if_false] at hval
        omega
      subst ha
      refine ⟨.both r p .pMutex, h.semop hpc (.inr ?_) hP ?_ (by decide) ?_ rfl ?_⟩
      · funext j
        cases j <;> rfl
      · intro j
        cases j <;> rfl
      · exact Finset.pair_comm r p
      · intro htpc htcell
        have hrp : r ≠ p := fun hrp => hp hrp.symm
        simp [Phase.At, htpc, htcell, hcell, hr, Function.update_of_ne hrp]
    · have hE := (semop_spec hP).1
      have hval := h.val_alone .empty
      simp only [readerAdj, ops, hbegin, hdone, or_self, if_false] at hval
      omega

end

/-! With the writer that took its registration a reader waits at
`P (W_READED)`, until that writer is done. -/

section
variable {b : WriterPc}

theorem ne_both (h : Holds persShmID (.both r w b) s) : r ≠ w := by
  intro hrw
  have hr := h.place.1
  rw [hrw, h.place.2.1] at hr
  cases hr

theorem val_both (h : Holds persShmID (.both r w b) s) (k : Sem) :
    (s.sem.val k : ℤ) + (readerAdj .pReaded k + writerAdj b k) = ops k := by
  have hval := h.held.val k
  rw [Phase.active, Finset.sum_pair h.ne_both, h.place.1, h.place.2.1] at hval
  exact hval

/-- The steps of the writer on the semaphores. -/
theorem semop_both {c : WriterPc} (h : Holds persShmID (.both r w b) s)
    (ht : s.semop w k d (.writer c) = some t)
    (hadj : ∀ j, writerAdj c j = Function.update (writerAdj b) k (writerAdj b k - d) j)
    (hc : c ≠ .pFull) (hread : HasRead c ↔ HasRead b) :
    ∃ ph', Holds persShmID ph' t ∧ Moved persShmID (.both r w b) ph' s t := by
  obtain ⟨hr, hw, -, hcell⟩ := h.place
  have hin : w ∈ (Phase.both r w b).active := by simp [Phase.active]
  refine ⟨.both r w c, h.semop hw (.inl hin) ht hadj (by simp) ?_ ?_ ?_⟩
  · rw [Finset.insert_eq_of_mem hin]
    rfl
  · simp only [Phase.answer, hread]
  · intro htpc htcell
    exact ⟨by rw [htpc, Function.update_of_ne h.ne_both, hr],
      by rw [htpc, Function.update_self], hc, by rw [htcell, hcell]⟩

theorem exec_both_writer (h : Holds persShmID (.both r w b) s)
    (ht : s.exec persShmID w = some t) :
    ∃ ph', Holds persShmID ph' t ∧ Moved persShmID (.both r w b) ph' s t := by
  obtain ⟨hr, hw, hbegin, hcell⟩ := h.place
  have hin : w ∈ (Phase.both r w b).active := by simp [Phase.active]
  unfold State.exec at ht
  rw [hw] at ht
  cases b with
  | pFull => exact absurd rfl hbegin
  | pMutex =>
      have hP : s.connP w .mutex (.writer .readId) = some t := ht
      exact h.semop_both hP (fun j => by cases j <;> rfl) (by decide) (by decide)
  | readId =>
      cases ht
      refine ⟨.both r w .readSem, ⟨?_, ?_, ?_⟩, .read r w rfl rfl ?_ ?_ ?_⟩
      · exact h.held.access hin (by rw [hw]; funext j; cases j <;> rfl) rfl rfl
      · simp [Phase.At, State.goto, Function.update_of_ne h.ne_both, hr, hcell]
      · intro r' w' hrw
        cases hrw
        simp [State.goto, hcell]
      · simp [hr]
      · simp [State.goto, hcell]
      · exact done_update (by simp [hw]) (by simp)
  | readSem =>
      cases ht
      refine ⟨.both r w .vMutex, ⟨?_, ?_, h.logged⟩, .quiet rfl rfl ?_⟩
      · exact h.held.access hin (by rw [hw]; funext j; cases j <;> rfl) rfl rfl
      · simp [Phase.At, State.goto, Function.update_of_ne h.ne_both, hr, hcell]
      · exact done_update (by simp [hw]) (by simp)
  | vMutex =>
      have hV : s.connV w .mutex (.writer .vReaded) = some t := ht
      exact h.semop_both hV (fun j => by cases j <;> rfl) (by decide) (by decide)
  | vReaded =>
      have hV : s.connV w .wReaded (.writer .done) = some t := ht
      exact h.semop_both hV (fun j => by cases j <;> rfl) (by decide) (by decide)
  | done => cases ht

theorem exec_both_reader (h : Holds persShmID (.both r w b) s)
    (ht : s.exec persShmID r = some t) :
    ∃ ph', Holds persShmID ph' t ∧ Moved persShmID (.both r w b) ph' s t := by
  obtain ⟨hr, hw, -, -⟩ := h.place
  have hP : s.connP r .wReaded (.reader .setAll) = some t := by
    simpa [State.exec, hr, State.reader] using ht
  have hb : b = .done := by
    have hW := (semop_spec hP).1
    have hval := h.val_both .wReaded
    by_contra hb
    simp only [readerAdj, writerAdj, ops, hb, if_false] at hval
    simp at hval
    omega
  subst hb
  have hin : r ∈ (Phase.both r w .done).active := by simp [Phase.active]
  refine ⟨.passed r w, h.semop hr (.inl hin) hP (fun j => by cases j <;> rfl) (by decide) ?_ rfl ?_⟩
  · rw [Finset.insert_eq_of_mem hin]
    rfl
  · intro htpc _
    exact ⟨by rw [htpc, Function.update_self],
      by rw [htpc, Function.update_of_ne h.ne_both.symm, hw]⟩

theorem exec_both (h : Holds persShmID (.both r w b) s) (ht : s.exec persShmID p = some t) :
    ∃ ph', Holds persShmID ph' t ∧ Moved persShmID (.both r w b) ph' s t := by
  by_cases hp : p = r
  · exact h.exec_both_reader (hp ▸ ht)
  · by_cases hq : p = w
    · exact h.exec_both_writer (hq ▸ ht)
    · have hout := h.held.rest p (by simp [Phase.active, hp, hq])
      obtain ⟨-, hP⟩ | ⟨-, hP⟩ := begins_of_outside hout ht
      · have hF := (semop_spec hP).1
        have hval := h.val_both .full
        simp only [readerAdj, writerAdj, ops, h.place.2.2.1, if_false] at hval
        simp at hval
        omega
      · have hE := (semop_spec hP).1
        have hval : (s.sem.val .empty : ℤ) + (1 + 0) = 1 := h.val_both .empty
        omega

end

/-! The reader that has passed sets all semaphores anew. -/

theorem ne_passed (h : Holds persShmID (.passed r w) s) : r ≠ w := by
  intro hrw
  have hr := h.place.1
  rw [hrw, h.place.2] at hr
  cases hr

theorem val_passed (h : Holds persShmID (.passed r w) s) (k : Sem) :
    (s.sem.val k : ℤ) + (readerAdj .setAll k + writerAdj .done k) = ops k := by
  have hval := h.held.val k
  rw [Phase.active, Finset.sum_pair h.ne_passed, h.place.1, h.place.2] at hval
  exact hval

theorem exec_passed (h : Holds persShmID (.passed r w) s) (ht : s.exec persShmID p = some t) :
    ∃ ph', Holds persShmID ph' t ∧ Moved persShmID (.passed r w) ph' s t := by
  obtain ⟨hr, hw⟩ := h.place
  by_cases hp : p = r
  · subst hp
    have hset : t = { s with sem := .setAll ops }.goto p (.reader .done) := by
      simpa [State.exec, hr, State.reader, eq_comm] using ht
    subst hset
    refine ⟨.idle, ⟨⟨.setAll ops, ?_, ?_⟩, trivial, ?_⟩, .close p w rfl rfl rfl ?_⟩
    · exact fun q hq => absurd hq (Finset.notMem_empty q)
    · intro q _
      by_cases hqp : q = p
      · simp [State.goto, hqp, Outside]
      · simp only [State.goto, Function.update_of_ne hqp]
        by_cases hqw : q = w
        · simp [hqw, hw, Outside]
        · exact h.held.rest q (by simp [Phase.active, hqp, hqw])
    · exact fun _ _ hrw => nomatch hrw
    · intro q
      by_cases hqp : q = p
      · simp [State.goto, hqp]
      · simp [State.goto, hqp]
  · by_cases hq : p = w
    · simp [State.exec, hq, hw, State.writer] at ht
    · have hout := h.held.rest p (by simp [Phase.active, hp, hq])
      obtain ⟨-, hP⟩ | ⟨-, hP⟩ := begins_of_outside hout ht
      · have hF := (semop_spec hP).1
        have hval : (s.sem.val .full : ℤ) + (-1 + 1) = 0 := h.val_passed .full
        omega
      · have hE := (semop_spec hP).1
        have hval : (s.sem.val .empty : ℤ) + (1 + 0) = 1 := h.val_passed .empty
        omega

/-- Every step of every process leads from a phase to a phase. -/
theorem exec (h : Holds persShmID ph s) (ht : s.exec persShmID p = some t) :
    ∃ ph', Holds persShmID ph' t ∧ Moved persShmID ph ph' s t := by
  cases ph with
  | idle => exact h.exec_idle ht
  | alone r a => exact h.exec_alone ht
  | both r w b => exact h.exec_both ht
  | passed r w => exact h.exec_passed ht

/-! ## Exits -/

/-- A reader that waits for a writer owes `FULL` a unit the writer has taken,
so only the writer can exit. -/
theorem exit_both {b : WriterPc} (h : Holds persShmID (.both r w b) s) (hp : s.sem.Undoable p)
    (hin : p = r ∨ p = w) (ht : s.exit p = some t) : ∃ ph', Holds persShmID ph' t := by
  obtain ⟨hr, hw, hbegin, hid⟩ := h.place
  have hne := h.ne_both
  cases hin with
  | inl hpr =>
      have hF := hp .full
      have hval := h.val_both .full
      rw [h.held.adj p (by simp [Phase.active, hpr]), hpr, hr] at hF
      simp only [adjAt, readerAdj, writerAdj, ops, hbegin, if_false] at hF hval
      simp at hF hval
      omega
  | inr hpw =>
      subst hpw
      obtain ⟨hheld, -, hcell, hpc⟩ := h.held.exit hp ht
      refine ⟨.alone r .pReaded, ?_, ?_, fun _ _ hrw => by cases hrw⟩
      · rwa [Phase.active, Finset.pair_comm, Finset.erase_insert (by simp [hne.symm])] at hheld
      · simp [Phase.At, hpc, Function.update_of_ne hne, hr, hcell, hid]

/-- Neither can exit before the semaphores are set: the reader has taken the
unit of the writer, and the writer that of the reader. -/
theorem not_undoable_passed (h : Holds persShmID (.passed r w) s) (hin : p = r ∨ p = w) :
    ¬ s.sem.Undoable p := by
  intro hp
  obtain ⟨hr, hw⟩ := h.place
  cases hin with
  | inl hpr =>
      have hF := hp .full
      have hval : (s.sem.val .full : ℤ) + (-1 + 1) = 0 := h.val_passed .full
      rw [h.held.adj p (by simp [Phase.active, hpr]), hpr, hr] at hF
      change 0 ≤ (s.sem.val .full : ℤ) + -1 at hF
      omega
  | inr hpw =>
      have hW := hp .wReaded
      have hval : (s.sem.val .wReaded : ℤ) + (1 + -1) = 0 := h.val_passed .wReaded
      rw [h.held.adj p (by simp [Phase.active, hpw]), hpw, hw] at hW
      change 0 ≤ (s.sem.val .wReaded : ℤ) + -1 at hW
      omega

/-- A process that is not inside exits without a trace. -/
theorem exit_outside (h : Holds persShmID ph s) (hp : s.sem.Undoable p) (hin : p ∉ ph.active)
    (ht : s.exit p = some t) : Holds persShmID ph t := by
  obtain ⟨hheld, hreads, hcell, hpc⟩ := h.held.exit hp ht
  rw [Finset.erase_eq_of_notMem hin] at hheld
  have hother : ∀ q ∈ ph.active, t.pc q = s.pc q := fun q hq => by
    rw [hpc, Function.update_of_ne fun hqp : q = p => hin (by rwa [← hqp])]
  refine ⟨hheld, ?_, fun r w hrw => by rw [hreads]; exact h.logged r w hrw⟩
  have hplace := h.place
  cases ph with
  | idle => trivial
  | alone r a =>
      rw [Phase.At, hother r (by simp [Phase.active]), hcell]
      exact hplace
  | both r w b =>
      rw [Phase.At, hother r (by simp [Phase.active]), hother w (by simp [Phase.active]), hcell]
      exact hplace
  | passed r w =>
      rw [Phase.At, hother r (by simp [Phase.active]), hother w (by simp [Phase.active])]
      exact hplace

theorem exit (h : Holds persShmID ph s) (hp : s.sem.Undoable p) (ht : s.exit p = some t) :
    ∃ ph', Holds persShmID ph' t := by
  by_cases hin : p ∈ ph.active
  · cases ph with
    | idle => exact absurd hin (Finset.notMem_empty p)
    | alone r a =>
        obtain ⟨hheld, -, -, -⟩ := h.held.exit hp ht
        rw [Phase.active, Finset.mem_singleton] at hin
        refine ⟨.idle, ?_, trivial, fun _ _ hrw => nomatch hrw⟩
        rwa [Phase.active, hin, Finset.erase_singleton] at hheld
    | both r w b =>
        rw [Phase.active, Finset.mem_insert, Finset.mem_singleton] at hin
        exact h.exit_both hp hin ht
    | passed r w =>
        rw [Phase.active, Finset.mem_insert, Finset.mem_singleton] at hin
        exact absurd hp (h.not_undoable_passed hin)
  · exact ⟨ph, h.exit_outside hp hin ht⟩

end Holds

end

end TaskLunev.ConnHandover
