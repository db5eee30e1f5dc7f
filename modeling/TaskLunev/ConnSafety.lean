import TaskLunev.ConnHandover

/-!
# Safety of the connection phase

What the phases say about the registrations that have been read. As long as no
process exits, each is read once. Exits may let a second writer read the same
registration, but as long as the kernel can add the adjustments of an exiting
process in full, no reader goes on unread and the mutex stays a mutex.
-/
namespace TaskLunev.ConnSafety
open UndoSemaphores ConnModel ConnHandover TransitionRuns

variable {ι : Type*} {persShmID : ι → ℤ} {ph ph' : Phase ι} {s t : State ι}

/-! ## Registrations read once -/

/-- Each identifier that was read is that of a finished reader or of the one
being answered, and none was read twice. -/
structure Once (persShmID : ι → ℤ) (ph : Phase ι) (s : State ι) : Prop where
  owner : ∀ e ∈ s.reads, (∃ r, s.pc r = .reader .done ∧ e.2 = persShmID r) ∨
    ∃ r w, ph.answer = some (r, w) ∧ e.2 = persShmID r
  nodup : (s.reads.map Prod.snd).Nodup

theorem Once.writer_unique (h : Once persShmID ph s) {w w' : ι} {x : ℤ} (hw : (w, x) ∈ s.reads)
    (hw' : (w', x) ∈ s.reads) : w = w' :=
  congrArg Prod.fst (List.inj_on_of_nodup_map h.nodup hw hw' rfl)

theorem Once.moved (hinj : Function.Injective persShmID) (h : Once persShmID ph s)
    (hm : Moved persShmID ph ph' s t) : Once persShmID ph' t := by
  cases hm with
  | quiet hanswer hreads hdone =>
      exact
        { owner := by simpa only [hreads, hdone, hanswer] using h.owner
          nodup := hreads ▸ h.nodup }
  | read r w hnone hsome hr hreads hdone =>
      -- so far only identifiers of finished readers have been read
      have hold : ∀ e ∈ s.reads, ∃ r', s.pc r' = .reader .done ∧ e.2 = persShmID r' := fun e he =>
        (h.owner e he).resolve_right fun ⟨r', w', hrw, _⟩ => by simp [hnone] at hrw
      constructor
      · intro e he
        rw [hreads, List.mem_append, List.mem_singleton] at he
        cases he with
        | inl he =>
            obtain ⟨r', hr', hid⟩ := hold e he
            exact .inl ⟨r', (hdone r').mpr hr', hid⟩
        | inr he => exact .inr ⟨r, w, hsome, by rw [he]⟩
      · rw [hreads, List.map_append, List.map_singleton, List.nodup_append]
        refine ⟨h.nodup, List.nodup_singleton _, ?_⟩
        intro x hx y hy hxy
        rw [List.mem_singleton] at hy
        obtain ⟨e, he, rfl⟩ := List.mem_map.mp hx
        obtain ⟨r', hr', hid⟩ := hold e he
        have hrr : r' = r := hinj (by rw [← hid, hxy, hy])
        exact hr (hrr ▸ hr')
  | close r w hsome hnone hreads hdone =>
      constructor
      · intro e he
        rw [hreads] at he
        cases h.owner e he with
        | inl hfin =>
            obtain ⟨r', hr', hid⟩ := hfin
            exact .inl ⟨r', (hdone r').mpr (.inr hr'), hid⟩
        | inr hcur =>
            obtain ⟨r', w', hrw, hid⟩ := hcur
            rw [hsome] at hrw
            cases hrw
            exact .inl ⟨r, (hdone r).mpr (.inl rfl), hid⟩
      · rw [hreads]
        exact h.nodup

/-! ## Readers that go on -/

/-- Every finished reader has been read. -/
def Answered (persShmID : ι → ℤ) (s : State ι) : Prop :=
  ∀ r, s.pc r = .reader .done → ∃ w, (w, persShmID r) ∈ s.reads

theorem answered_start (role : ι → Role) (readerShmID : ℤ) :
    Answered persShmID (.start role readerShmID) := by
  intro r hr
  change (role r).begin = _ at hr
  cases hrole : role r <;> simp [hrole, Role.begin] at hr

variable [DecidableEq ι]

theorem Answered.moved (h : Answered persShmID s) (hph : Holds persShmID ph s)
    (hm : Moved persShmID ph ph' s t) : Answered persShmID t := by
  intro r hr
  cases hm with
  | quiet _ hreads hdone =>
      rw [hreads]
      exact h r ((hdone r).mp hr)
  | read r' w _ _ _ hreads hdone =>
      obtain ⟨w', hw'⟩ := h r ((hdone r).mp hr)
      rw [hreads]
      exact ⟨w', List.mem_append_left _ hw'⟩
  | close r' w hanswer _ hreads hdone =>
      rw [hreads]
      cases (hdone r).mp hr with
      | inl hrr => exact ⟨w, hrr ▸ hph.logged r' w hanswer⟩
      | inr hold => exact h r hold

theorem Answered.exit {p : ι} (h : Answered persShmID s) (ht : s.exit p = some t) :
    Answered persShmID t := by
  intro r hr
  unfold State.exit at ht
  split at ht
  · cases ht
  · cases ht
    by_cases hrp : r = p
    · simp [State.goto, hrp] at hr
    · simp only [State.goto, Function.update_of_ne hrp] at hr
      exact h r hr

/-- A reader that has passed is finished, or it is the one whose registration
was read last. -/
theorem Answered.passed (h : Answered persShmID s) (hph : Holds persShmID ph s) {r : ι}
    (hr : (s.pc r).Passed) : ∃ w, (w, persShmID r) ∈ s.reads := by
  obtain hset | hdone := hr
  · have hin : r ∈ ph.active := by
      by_contra hout
      have hrest := hph.held.rest r hout
      simp [Outside, hset] at hrest
    have hplace := hph.place
    cases ph with
    | idle => exact absurd hin (Finset.notMem_empty r)
    | alone r' a =>
        rw [Phase.active, Finset.mem_singleton] at hin
        rw [Phase.At, ← hin, hset] at hplace
        exact absurd (Pc.reader.inj hplace.1).symm hplace.2.2.1
    | both r' w b =>
        rw [Phase.active, Finset.mem_insert, Finset.mem_singleton] at hin
        obtain rfl | rfl := hin
        · rw [Phase.At, hset] at hplace
          cases hplace.1
        · rw [Phase.At, hset] at hplace
          cases hplace.2.1
    | passed r' w =>
        rw [Phase.active, Finset.mem_insert, Finset.mem_singleton] at hin
        obtain rfl | rfl := hin
        · exact ⟨w, hph.logged r w rfl⟩
        · rw [Phase.At, hset] at hplace
          cases hplace.2
  · exact h r hdone

/-- Inside the mutex is the reader of the phase, while it is alone, or the
writer. -/
theorem critical_unique (h : Holds persShmID ph s) {p q : ι} (hp : (s.pc p).InCritical)
    (hq : (s.pc q).InCritical) : p = q := by
  have hin : ∀ x, (s.pc x).InCritical → x ∈ ph.active := fun x hx => by
    by_contra hout
    obtain hx' | hx' | hx' | hx' | hx' := h.held.rest x hout <;> simp [hx', Pc.InCritical] at hx
  have hip := hin p hp
  have hiq := hin q hq
  have hplace := h.place
  cases ph with
  | idle => exact absurd hip (Finset.notMem_empty p)
  | alone r a =>
      rw [Phase.active, Finset.mem_singleton] at hip hiq
      rw [hip, hiq]
  | both r w b =>
      rw [Phase.active, Finset.mem_insert, Finset.mem_singleton] at hip hiq
      have hr : ∀ x, (s.pc x).InCritical → x ≠ r := fun x hx hxr => by
        rw [hxr, hplace.1] at hx
        simp [Pc.InCritical] at hx
      rw [hip.resolve_left (hr p hp), hiq.resolve_left (hr q hq)]
  | passed r w =>
      rw [Phase.active, Finset.mem_insert, Finset.mem_singleton] at hip
      obtain rfl | rfl := hip
      · simp [hplace.1, Pc.InCritical] at hp
      · simp [hplace.2, Pc.InCritical] at hp

/-! ## Runs -/

theorem holds_start (role : ι → Role) (readerShmID : ℤ) :
    Holds persShmID .idle (.start role readerShmID) where
  held := .start role readerShmID
  place := trivial
  logged _ _ hrw := nomatch hrw

/-- What holds while no process exits. -/
def Orderly (persShmID : ι → ℤ) (s : State ι) : Prop :=
  ∃ ph, Holds persShmID ph s ∧ Once persShmID ph s ∧ Answered persShmID s

theorem Orderly.exec (hinj : Function.Injective persShmID) {p : ι} (h : Orderly persShmID s)
    (ht : s.exec persShmID p = some t) : Orderly persShmID t := by
  obtain ⟨ph, hph, honce, hanswered⟩ := h
  obtain ⟨ph', hph', hm⟩ := hph.exec ht
  exact ⟨ph', hph', honce.moved hinj hm, hanswered.moved hph hm⟩

theorem orderly_start (role : ι → Role) (readerShmID : ℤ) :
    Orderly persShmID (.start role readerShmID) :=
  ⟨.idle, holds_start role readerShmID,
    { owner := fun _ he => absurd he List.not_mem_nil
      nodup := List.nodup_nil },
    answered_start role readerShmID⟩

theorem Orderly.handedOver (h : Orderly persShmID s) : HandedOver persShmID s := by
  obtain ⟨ph, hph, honce, hanswered⟩ := h
  constructor
  · exact fun p q hp hq => critical_unique hph hp hq
  · intro r hr
    obtain ⟨w, hw⟩ := hanswered.passed hph hr
    exact ⟨w, hw, fun w' hw' => honce.writer_unique hw' hw⟩
  · exact fun r w w' hw hw' => honce.writer_unique hw hw'

/-- Process `n` has its personal memory under the identifier `n`. -/
def shmIds : ℕ ↪ ℤ := ⟨Int.ofNat, fun _ _ => Int.ofNat.inj⟩

/-- The first processes are readers, all others writers. -/
def readersBelow (n : ℕ) : State ℕ := .start (fun p => if p < n then .reader else .writer) 0

/-- Reader `0` and writer `1`, from beginning to end. -/
def handOver : List ℕ := [0, 0, 0, 0, 0, 1, 1, 1, 1, 1, 1, 0, 0]

/-- Whatever the order of the steps, every registration is handed over to one
writer before its reader goes on, and the mutex is exclusive. -/
theorem handedOver_run (persShmID : ι ↪ ℤ) (role : ι → Role) (readerShmID : ℤ)
    {trace : List (ι × State ι)}
    (hrun : Path (fun s p t => s.exec persShmID p = some t) (.start role readerShmID) trace) :
    ∀ m ∈ trace, HandedOver persShmID m.2 := by
  have hinv : ∀ m ∈ trace, Orderly persShmID m.2 :=
    hrun.invariant (fun _ _ _ hs ht => hs.exec persShmID.injective ht)
      (orderly_start role readerShmID)
  exact fun m hm => (hinv m hm).handedOver

/-- One reader and one writer, up to the end of both. -/
theorem handedOver_run_two :
    (final (readersBelow 1) (walk (State.exec shmIds) (readersBelow 1) handOver)).pc 0 =
        .reader .done ∧
      ∀ m ∈ walk (State.exec shmIds) (readersBelow 1) handOver, HandedOver shmIds m.2 :=
  ⟨by decide, handedOver_run shmIds _ 0 (path_walk _ _ _)⟩

/-- What holds while the kernel adds all adjustments in full. -/
def Shielded (persShmID : ι → ℤ) (s : State ι) : Prop :=
  (∃ ph, Holds persShmID ph s) ∧ Answered persShmID s

theorem Shielded.next {e : Event ι} (h : Shielded persShmID s) (he : e.Undone s)
    (ht : s.next persShmID e = some t) : Shielded persShmID t := by
  obtain ⟨⟨ph, hph⟩, hanswered⟩ := h
  cases e with
  | step p =>
      obtain ⟨ph', hph', hm⟩ := hph.exec ht
      exact ⟨⟨ph', hph'⟩, hanswered.moved hph hm⟩
  | exit p => exact ⟨hph.exit he ht, hanswered.exit ht⟩

/-- In every run in which the kernel adds all adjustments of exiting processes
in full, the mutex is never above one and no reader goes on unread. -/
theorem guarded_run (persShmID : ι ↪ ℤ) (role : ι → Role) (readerShmID : ℤ)
    {trace : List (Event ι × State ι)}
    (hrun : Path (fun s e t => s.next persShmID e = some t) (.start role readerShmID) trace)
    (hundone : ∀ m ∈ moves (.start role readerShmID) trace, m.2.Undone m.1) :
    ∀ m ∈ trace, Guarded persShmID m.2 := by
  have hstart : Shielded persShmID (.start role readerShmID) :=
    ⟨⟨.idle, holds_start role readerShmID⟩, answered_start role readerShmID⟩
  have hinv : ∀ m ∈ trace, Shielded persShmID m.2 :=
    hrun.invariant_of_moves (fun _ _ _ hs he ht => hs.next he ht) hstart hundone
  intro m hm
  obtain ⟨⟨ph, hph⟩, hanswered⟩ := hinv m hm
  exact ⟨hph.held.mutex_le, fun r hr => hanswered.passed hph hr⟩

/-- Writer `1` reads the registration of reader `0` and is killed, writer `2`
reads it again. -/
def killedWriter : List (Event ℕ) :=
  [0, 0, 0, 0, 0, 1, 1, 1].map .step ++ [.exit 1] ++ [2, 2, 2, 2, 2, 2, 0, 0].map .step

theorem guarded_run_killedWriter :
    (final (readersBelow 1) (walk (State.next shmIds) (readersBelow 1) killedWriter)).pc 0 =
        .reader .done ∧
      ∀ m ∈ walk (State.next shmIds) (readersBelow 1) killedWriter, Guarded shmIds m.2 :=
  ⟨by decide, guarded_run shmIds _ 0 (path_walk _ _ _) (by decide)⟩

/-- Reader `0` is killed when writer `2` has taken its registration. -/
def killedReader : List (Event ℕ) :=
  [0, 0, 0, 0, 0, 2].map .step ++ [.exit 0] ++ [2, 2, 2, 2, 2, 1, 1, 1, 1, 1, 1].map .step

/-- Writer `1` ends after reader `0` has passed, before that sets the
semaphores anew; writer `2` is in the mutex meanwhile. -/
def endedWriter : List (Event ℕ) :=
  [0, 0, 0, 0, 0, 1, 1, 1, 1, 1, 1, 0].map .step ++ [.exit 1] ++ [2, 2, 0, 2, 2, 2].map .step

/-- A reader goes on with an answer that was meant for a killed one, and a
mutex that was set anew while it was held ends at two. -/
theorem exits_not_guarded :
    (∃ trace, Path (fun s e t => s.next shmIds e = some t) (readersBelow 2) trace ∧
      ((final (readersBelow 2) trace).pc 1).Passed ∧
      ∀ w, (w, shmIds 1) ∉ (final (readersBelow 2) trace).reads) ∧
    ∃ trace, Path (fun s e t => s.next shmIds e = some t) (readersBelow 1) trace ∧
      (final (readersBelow 1) trace).sem.val .mutex = 2 :=
  ⟨⟨walk (State.next shmIds) (readersBelow 2) killedReader, path_walk _ _ _,
      by unfold Pc.Passed; decide, fun w hw => by
        have hread : (w, (1 : ℤ)) ∈ [(2, (0 : ℤ))] := hw
        simp at hread⟩,
    walk (State.next shmIds) (readersBelow 1) endedWriter, path_walk _ _ _, by decide⟩

end TaskLunev.ConnSafety
