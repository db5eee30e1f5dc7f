import TaskLunev.TransferSafety

/-!
# Removing the semaphores

The reader removes the semaphores when it has left its loop. If its last test
did not come between the writer's storing the size `0` and its `V (FULL)`, the
writer needs no semaphore any more, and both return without error; a rank that
every step lowers shows that they do. The empty file never lets the test come
there, every other file does in some order of the steps.
-/
namespace TaskLunev.TransferRemoval
open ByteMemory TransferModel TransferSafety TransitionRuns

/-- The reader has left, and the writer has done its last `V (FULL)`. -/
structure After (s : State) : Prop where
  left : s.reader.Left
  writer : s.writer = .testing ∨ s.writer = .detaching ∨ s.writer = .returned 0
  size : s.currSizeData = 0

def Ordered (file : List Byte) (s : State) : Prop := (Live s ∧ Carries file s) ∨ After s

section
variable {file : List Byte} {s t : State} {e : Event}

theorem after_of_late (hl : Live s) (hc : Carries file s) (hr : s.reader = .testing)
    (hsize : s.currSizeData = 0) (hlate : s.writer ≠ .vFull) : After (s.setReader .removing) := by
  have hbegins := (hc.whole hl hr hsize).2
  refine ⟨.inl rfl, ?_, hsize⟩
  change s.writer = _ ∨ s.writer = _ ∨ s.writer = _
  cases hw : s.writer with
  | pEmpty => exact absurd (.inl hw) hbegins
  | reading => exact absurd (.inr (.inl hw)) hbegins
  | storing size => exact absurd (.inr (.inr ⟨size, hw⟩)) hbegins
  | vFull => exact absurd hw hlate
  | testing => exact .inl rfl
  | detaching => exact .inr (.inl rfl)
  | returned code => exact .inr (.inr (by rw [hl.code code hw]))

/-- The writer has only its last two steps left. -/
theorem After.writerMove (h : After s) (ht : s.writerStep = some t) :
    (s.writer = .testing ∧ t = s.setWriter .detaching) ∨
      (s.writer = .detaching ∧ t = s.setWriter (.returned 0)) := by
  obtain ⟨-, hwriter, hsize⟩ := h
  unfold State.writerStep at ht
  rcases hwriter with hw | hw | hw
  · rw [hw] at ht
    cases ht
    exact .inl ⟨hw, by rw [hsize, if_neg (Nat.lt_irrefl 0)]⟩
  · rw [hw] at ht
    cases ht
    exact .inr ⟨hw, rfl⟩
  · rw [hw] at ht
    cases ht

theorem After.next (h : After s) (ht : s.next e = some t) : After t := by
  cases e with
  | writer =>
      rcases h.writerMove ht with ⟨-, rfl⟩ | ⟨-, rfl⟩
      · exact ⟨h.left, .inr (.inl rfl), h.size⟩
      · exact ⟨h.left, .inr (.inr rfl), h.size⟩
  | read size =>
      have hw := (readFile_spec ht).1
      have hwriter := h.writer
      simp [hw] at hwriter
  | reader =>
      obtain ⟨hreader, -, hsame, hcurr⟩ := readerStep_left h.left ht
      exact ⟨hreader, by rw [hsame]; exact h.writer, by rw [hcurr]; exact h.size⟩

theorem Ordered.next (h : Ordered file s) (he : e.LateTest s) (ht : s.next e = some t) :
    Ordered file t := by
  cases h with
  | inl h =>
      obtain ⟨hl, hc⟩ := h
      rcases hl.next hc ht with hlive | ⟨rfl, hr, hsize, rfl⟩
      · exact .inl hlive
      · exact .inr (after_of_late hl hc hr hsize fun hw => he rfl hr hw hsize)
  | inr h => exact .inr (h.next ht)

theorem safe_of_live (hl : Live s) : Safe s where
  semop hremoved := absurd (hl.present.symm.trans hremoved) (by decide)
  writer hw := absurd (hl.code _ hw) (by decide)
  reader hr := by obtain hr' | hr' | hr' | hr' := hl.loops <;> simp [hr] at hr'

theorem After.safe (h : After s) : Safe s where
  semop _ := by obtain hw | hw | hw := h.writer <;> simp [hw]
  writer hw := by
    have hwriter := h.writer
    simp [hw] at hwriter
  reader hr := by
    have hleft := h.left
    simp [hr, ReaderPc.Left] at hleft

theorem Ordered.safe (h : Ordered file s) : Safe s := by
  cases h with
  | inl h => exact safe_of_live h.1
  | inr h => exact h.safe

/-! ## Both return -/

def writerRank (unread currSizeData : ℕ) : WriterPc → ℕ
  | .pEmpty => 10 * unread + 11
  | .reading => 10 * unread + 10
  | .storing size => if 0 < size then 10 * unread + 18 else 8
  | .vFull => if 0 < currSizeData then 10 * unread + 17 else 7
  | .testing => if 0 < currSizeData then 10 * unread + 12 else 2
  | .detaching => 1
  | .returned _ => 0

def readerRank : ReaderPc → ℕ
  | .writing => 7
  | .vEmpty => 6
  | .testing => 5
  | .pFull => 4
  | .removing => 3
  | .detaching => 2
  | .removingShm => 1
  | .returned _ => 0

/-- A chunk offered is four steps of the reader. -/
def rank (s : State) : ℕ :=
  writerRank s.unread.length s.currSizeData s.writer + readerRank s.reader + 4 * s.sem .full

theorem rank_writerStep (hl : Live s) (ht : s.writerStep = some t) : rank t < rank s := by
  have htoken := hl.token
  cases writerMove hl.present ht with
  | pEmpty hw hempty => simp [rank, writerRank, hw]
  | storing size hw => by_cases hsize : 0 < size <;> simp [rank, writerRank, hw, hsize]
  | vFull hw =>
      rw [hw] at htoken
      simp only [fills] at htoken
      by_cases hsize : 0 < s.currSizeData
      · simp [rank, writerRank, hw, hsize]
        omega
      · simp [rank, writerRank, hw, hsize]
        omega
  | again hw hsize => simp [rank, writerRank, hw, hsize]
  | ended hw hsize => simp [rank, writerRank, hw, hsize]
  | detaching hw => simp [rank, writerRank, hw]

theorem rank_readFile {size : ℕ} (ht : s.readFile size = some t) : rank t < rank s := by
  obtain ⟨hw, -, hlen, hend, buf, -, rfl⟩ := readFile_spec ht
  by_cases hsize : 0 < size
  · simp [rank, writerRank, hw, hsize]
    omega
  · simp [rank, writerRank, hw, hsize]

theorem rank_readerStep (hl : Live s) (ht : s.readerStep = some t) : rank t < rank s := by
  cases readerMove hl ht with
  | pFull hr hfull =>
      simp [rank, readerRank, hr]
      omega
  | writing hr => simp [rank, readerRank, hr]
  | vEmpty hr => simp [rank, readerRank, hr]
  | again hr hsize => simp [rank, readerRank, hr]
  | ended hr hsize => simp [rank, readerRank, hr]

theorem After.rank_lt (h : After s) (ht : s.next e = some t) : rank t < rank s := by
  cases e with
  | writer =>
      rcases h.writerMove ht with ⟨hw, rfl⟩ | ⟨hw, rfl⟩
      · simp [rank, writerRank, State.setWriter, hw, h.size]
      · simp [rank, writerRank, State.setWriter, hw]
  | read size => exact rank_readFile ht
  | reader =>
      have hstep : s.readerStep = some t := ht
      unfold State.readerStep at hstep
      obtain hr | hr | hr | hr := h.left <;> rw [hr] at hstep <;> cases hstep <;>
        simp [rank, readerRank, State.setReader, hr]

theorem Ordered.rank_lt (h : Ordered file s) (ht : s.next e = some t) : rank t < rank s := by
  cases h with
  | inl h =>
      cases e with
      | writer => exact rank_writerStep h.1 ht
      | read size => exact rank_readFile ht
      | reader => exact rank_readerStep h.1 ht
  | inr h => exact h.rank_lt ht

/-! Nobody waits for ever. -/

theorem writerStep_isSome (hl : Live s) (hw : s.writer ≠ .reading)
    (hcode : ∀ code, s.writer ≠ .returned code) (hempty : s.writer = .pEmpty → 0 < s.sem .empty) :
    (s.writerStep).isSome := by
  unfold State.writerStep
  cases hpc : s.writer with
  | pEmpty => simp [State.Ptime, hl.present, hempty hpc]
  | reading => exact absurd hpc hw
  | storing size => rfl
  | vFull => simp [State.Vtime, hl.present]
  | testing => rfl
  | detaching => rfl
  | returned code => exact absurd hpc (hcode code)

theorem readerStep_isSome (hl : Live s) (hc : Carries file s)
    (hfull : s.reader = .pFull → 0 < s.sem .full) : (s.readerStep).isSome := by
  unfold State.readerStep
  obtain hr | hr | hr | hr := hl.loops
  · simp [hr, State.Ptime, hl.present, hfull hr]
  · have hsize := hc.size
    simp [hr, readBytes, hsize]
  · simp [hr, State.Vtime, hl.present]
  · simp [hr]

theorem progress_of_live (hl : Live s) (hc : Carries file s) : ∃ e, (s.next e).isSome := by
  have htoken := hl.token
  cases hw : s.writer with
  | pEmpty =>
      by_cases hempty : 0 < s.sem .empty
      · exact ⟨.writer, writerStep_isSome hl (by simp [hw]) (by simp [hw]) fun _ => hempty⟩
      · refine ⟨.reader, readerStep_isSome hl hc fun hr => ?_⟩
        rw [hw, hr] at htoken
        simp only [fills, prints] at htoken
        omega
  | reading =>
      refine ⟨.read (min SIZE_BUF s.unread.length), ?_⟩
      have hlen : 0 + (s.unread.take (min SIZE_BUF s.unread.length)).length ≤ SIZE_BUF := by
        rw [List.length_take]
        omega
      have hend : min SIZE_BUF s.unread.length = 0 → s.unread = [] := fun hzero => by
        rw [SIZE_BUF] at hzero
        exact List.length_eq_zero_iff.mp (by omega)
      have hguard : s.writer = .reading ∧ min SIZE_BUF s.unread.length ≤ SIZE_BUF ∧
          min SIZE_BUF s.unread.length ≤ s.unread.length ∧
          (min SIZE_BUF s.unread.length = 0 → s.unread = []) :=
        ⟨hw, min_le_left .., min_le_right .., hend⟩
      rw [State.next, State.readFile, if_pos hguard, writeBytes, if_pos hlen]
      rfl
  | storing size => exact ⟨.writer, writerStep_isSome hl (by simp [hw]) (by simp [hw]) (by simp [hw])⟩
  | vFull => exact ⟨.writer, writerStep_isSome hl (by simp [hw]) (by simp [hw]) (by simp [hw])⟩
  | testing => exact ⟨.writer, writerStep_isSome hl (by simp [hw]) (by simp [hw]) (by simp [hw])⟩
  | detaching => exact ⟨.writer, writerStep_isSome hl (by simp [hw]) (by simp [hw]) (by simp [hw])⟩
  | returned code =>
      refine ⟨.reader, readerStep_isSome hl hc fun hr => ?_⟩
      by_contra hfull
      have hends : Ends s.writer := .inr ⟨code, hw⟩
      have hpos := hl.waits hr (by omega) (.inr hends)
      have hzero := hl.ends hends
      omega

theorem After.progress (h : After s) :
    (s.writer = .returned 0 ∧ s.reader = .returned 0) ∨ ∃ e, (s.next e).isSome := by
  obtain ⟨hleft, hwriter, -⟩ := h
  obtain hw | hw | hw := hwriter
  · exact .inr ⟨.writer, by simp [State.next, State.writerStep, hw]⟩
  · exact .inr ⟨.writer, by simp [State.next, State.writerStep, hw]⟩
  · obtain hr | hr | hr | hr := hleft
    · exact .inr ⟨.reader, by simp [State.next, State.readerStep, hr]⟩
    · exact .inr ⟨.reader, by simp [State.next, State.readerStep, hr]⟩
    · exact .inr ⟨.reader, by simp [State.next, State.readerStep, hr]⟩
    · exact .inl ⟨hw, hr⟩

theorem Ordered.returned (h : Ordered file s) (hstuck : ∀ e, s.next e = none) :
    s.writer = .returned 0 ∧ s.reader = .returned 0 := by
  have hno : ¬ ∃ e, (s.next e).isSome := fun ⟨e, he⟩ => by simp [hstuck e] at he
  cases h with
  | inl h => exact absurd (progress_of_live h.1 h.2) hno
  | inr h => exact h.progress.resolve_right hno

/-! ## The empty file -/

/-- No chunk is ever sent: until the first `V (FULL)` the reader waits. -/
structure NoChunk (s : State) : Prop where
  unread : s.unread = []
  size : s.currSizeData = 0
  stored : ∀ size, s.writer = .storing size → size = 0
  waits : Begins s.writer ∨ s.writer = .vFull → s.reader = .pFull

theorem NoChunk.lateTest (h : NoChunk s) (e : Event) : e.LateTest s := fun _ hr hw => by
  have hwait := h.waits (.inr hw)
  rw [hr] at hwait
  cases hwait

theorem NoChunk.writerStep (h : NoChunk s) (hl : Live s) (ht : s.writerStep = some t) :
    NoChunk t := by
  obtain ⟨hunread, hsize, hstored, hwaits⟩ := h
  cases writerMove hl.present ht with
  | pEmpty hw hempty => exact ⟨hunread, hsize, by simp, fun _ => hwaits (.inl (.inl hw))⟩
  | storing size hw =>
      exact ⟨hunread, hstored size hw, by simp, fun _ => hwaits (.inl (.inr (.inr ⟨size, hw⟩)))⟩
  | vFull hw => exact ⟨hunread, hsize, by simp, by simp [Begins]⟩
  | again hw hpos => exact absurd hpos (by omega)
  | ended hw _ => exact ⟨hunread, hsize, by simp, by simp [Begins]⟩
  | detaching hw => exact ⟨hunread, hsize, by simp, by simp [Begins]⟩

theorem NoChunk.readFile {size : ℕ} (h : NoChunk s) (ht : s.readFile size = some t) :
    NoChunk t := by
  obtain ⟨hw, -, hlen, -, buf, -, rfl⟩ := readFile_spec ht
  rw [h.unread, List.length_nil] at hlen
  exact
    { unread := by simp [h.unread]
      size := h.size
      stored := fun size' hpc => by
        cases hpc
        omega
      waits := fun _ => h.waits (.inl (.inr (.inl hw))) }

theorem NoChunk.readerStep (h : NoChunk s) (hl : Live s) (ht : s.readerStep = some t) :
    NoChunk t := by
  obtain ⟨hunread, hsize, hstored, hwaits⟩ := h
  have htoken := hl.token
  -- past the first `V (FULL)` the writer never begins again
  have hpast : s.reader = .pFull → 0 < s.sem .full → ¬ (Begins s.writer ∨ s.writer = .vFull) := by
    intro hr hfull hw
    cases hw with
    | inl hb =>
        cases hl.begins hb with
        | inl hpos => omega
        | inr hwait => omega
    | inr hv =>
        rw [hv] at htoken
        simp only [fills] at htoken
        omega
  have hgone : s.reader ≠ .pFull → ¬ (Begins s.writer ∨ s.writer = .vFull) :=
    fun hr hw => hr (hwaits hw)
  cases readerMove hl ht with
  | pFull hr hfull => exact ⟨hunread, hsize, hstored, fun hw => absurd hw (hpast hr hfull)⟩
  | writing hr => exact ⟨hunread, hsize, hstored, fun hw => absurd hw (hgone (by simp [hr]))⟩
  | vEmpty hr => exact ⟨hunread, hsize, hstored, fun hw => absurd hw (hgone (by simp [hr]))⟩
  | again hr hpos => exact absurd hpos (by omega)
  | ended hr _ => exact ⟨hunread, hsize, hstored, fun hw => absurd hw (hgone (by simp [hr]))⟩

/-- The empty file's states. -/
def Unchunked (s : State) : Prop := (Live s ∧ Carries [] s ∧ NoChunk s) ∨ After s

theorem Unchunked.next (h : Unchunked s) (ht : s.next e = some t) : Unchunked t := by
  cases h with
  | inl h =>
      obtain ⟨hl, hc, hn⟩ := h
      cases e with
      | writer => exact .inl ⟨hl.writerStep ht, hc.writerStep hl ht, hn.writerStep hl ht⟩
      | read size => exact .inl ⟨hl.readFile ht, hc.readFile hl ht, hn.readFile ht⟩
      | reader =>
          cases hl.readerStep ht with
          | inl hlive => exact .inl ⟨hlive, hc.readerStep hl ht, hn.readerStep hl ht⟩
          | inr hleft =>
              obtain ⟨hr, hsize, rfl⟩ := hleft
              exact .inr (after_of_late hl hc hr hsize fun hw => hn.lateTest .reader rfl hr hw hsize)
  | inr h => exact .inr (h.next ht)

theorem Unchunked.safe (h : Unchunked s) : Safe s := by
  cases h with
  | inl h => exact safe_of_live h.1
  | inr h => exact h.safe

end

/-! ## Every other file -/

/-- Some number of steps. -/
def Reaches : State → State → Prop := Relation.ReflTransGen fun s t => ∃ e, Step s e t

def sems (empty full : ℕ) : Sem → ℕ
  | .empty => empty
  | .full => full

theorem update_empty (e f v : ℕ) : Function.update (sems e f) .empty v = sems v f := by
  funext k
  cases k <;> rfl

theorem update_full (e f v : ℕ) : Function.update (sems e f) .full v = sems e v := by
  funext k
  cases k <;> rfl

/-- A state before the removal, by its parts. -/
def at_ (e f size : ℕ) (buf : Memory SIZE_BUF) (unread out : List Byte) (writer : WriterPc)
    (reader : ReaderPc) : State :=
  ⟨sems e f, false, size, buf, unread, out, writer, reader⟩

section
variable {e f size k : ℕ} {buf buf' : Memory SIZE_BUF} {unread out bytes : List Byte}
  {w : WriterPc} {r : ReaderPc}

theorem next_pEmpty : (at_ (e + 1) f size buf unread out .pEmpty r).next .writer =
    some (at_ e f size buf unread out .reading r) := by
  simp [at_, State.next, State.writerStep, State.Ptime, State.setWriter, update_empty, sems]

theorem next_read (hk : k ≤ SIZE_BUF ∧ k ≤ unread.length ∧ (k = 0 → unread = []))
    (hbuf : writeBytes buf 0 (unread.take k) = some buf') :
    (at_ e f size buf unread out .reading r).next (.read k) =
      some (at_ e f size buf' (unread.drop k) out (.storing k) r) := by
  rw [State.next, State.readFile, if_pos ⟨rfl, hk⟩]
  simp [at_, hbuf, State.setWriter]

theorem next_storing : (at_ e f size buf unread out (.storing k) r).next .writer =
    some (at_ e f k buf unread out .vFull r) := rfl

theorem next_vFull : (at_ e f size buf unread out .vFull r).next .writer =
    some (at_ e (f + 1) size buf unread out .testing r) := by
  simp [at_, State.next, State.writerStep, State.Vtime, State.setWriter, update_full, sems]

theorem next_testing (hsize : 0 < size) : (at_ e f size buf unread out .testing r).next .writer =
    some (at_ e f size buf unread out .pEmpty r) := by
  simp [at_, State.next, State.writerStep, State.setWriter, hsize]

theorem next_pFull : (at_ e (f + 1) size buf unread out w .pFull).next .reader =
    some (at_ e f size buf unread out w .writing) := by
  simp [at_, State.next, State.readerStep, State.Ptime, State.setReader, update_full, sems]

theorem next_writing (hbytes : readBytes buf 0 size = some bytes) :
    (at_ e f size buf unread out w .writing).next .reader =
      some (at_ e f size buf unread (out ++ bytes) w .vEmpty) := by
  simp [at_, State.next, State.readerStep, State.setReader, hbytes]

theorem next_vEmpty : (at_ e f size buf unread out w .vEmpty).next .reader =
    some (at_ (e + 1) f size buf unread out w .testing) := by
  simp [at_, State.next, State.readerStep, State.Vtime, State.setReader, update_empty, sems]

theorem next_readerTest (hsize : 0 < size) :
    (at_ e f size buf unread out w .testing).next .reader =
      some (at_ e f size buf unread out w .pFull) := by
  simp [at_, State.next, State.readerStep, State.setReader, hsize]

end

/-- One chunk through both loops; the reader is left before its test. -/
theorem reaches_round (size : ℕ) (buf : Memory SIZE_BUF) {unread : List Byte} (out : List Byte)
    (hunread : unread ≠ []) :
    ∃ k buf' out', 0 < k ∧ Reaches (at_ 1 0 size buf unread out .pEmpty .pFull)
      (at_ 1 0 k buf' (unread.drop k) out' .pEmpty .testing) := by
  have hlen := List.length_pos_iff.mpr hunread
  obtain ⟨k, hk⟩ : ∃ k, k = min SIZE_BUF unread.length := ⟨_, rfl⟩
  have hpos : 0 < k := by
    rw [hk, SIZE_BUF]
    omega
  obtain ⟨buf', hbuf⟩ : ∃ buf', writeBytes buf 0 (unread.take k) = some buf' := by
    have htake : 0 + (unread.take k).length ≤ SIZE_BUF := by
      rw [List.length_take]
      omega
    rw [writeBytes, if_pos htake]
    exact ⟨_, rfl⟩
  have hguard : k ≤ SIZE_BUF ∧ k ≤ unread.length ∧ (k = 0 → unread = []) := by omega
  have hread : readBytes buf' 0 k = some (slice buf' 0 k) := if_pos (by omega)
  refine ⟨k, buf', out ++ slice buf' 0 k, hpos, ?_⟩
  exact .head ⟨_, next_pEmpty⟩ (.head ⟨_, next_read hguard hbuf⟩ (.head ⟨_, next_storing⟩
    (.head ⟨_, next_vFull⟩ (.head ⟨_, next_testing hpos⟩ (.head ⟨_, next_pFull⟩
      (.head ⟨_, next_writing hread⟩ (.single ⟨_, next_vEmpty⟩)))))))

/-- At the end of the file the reader sees the size `0` before the writer's
`V (FULL)`, leaves and removes the semaphores. -/
theorem reaches_unsafe (size : ℕ) (buf : Memory SIZE_BUF) (out : List Byte) :
    ∃ t, Reaches (at_ 1 0 size buf [] out .pEmpty .testing) t ∧ ¬ Safe t := by
  have hbuf : writeBytes buf 0 (([] : List Byte).take 0) = some buf := by
    rw [writeBytes, if_pos (by simp)]
    congr 1
  have hguard : 0 ≤ SIZE_BUF ∧ 0 ≤ ([] : List Byte).length ∧ (0 = 0 → ([] : List Byte) = []) := by
    simp
  refine ⟨_, .head ⟨_, next_pEmpty⟩ (.head ⟨_, next_read hguard hbuf⟩ (.head ⟨_, next_storing⟩
    (.head ⟨.reader, rfl⟩ (.single ⟨.reader, rfl⟩)))), fun hsafe => ?_⟩
  exact (hsafe.semop rfl).2 rfl

theorem unsafe_of_nonempty (n : ℕ) : ∀ (size : ℕ) (buf : Memory SIZE_BUF) (unread out : List Byte),
    unread.length ≤ n → unread ≠ [] →
      ∃ t, Reaches (at_ 1 0 size buf unread out .pEmpty .pFull) t ∧ ¬ Safe t := by
  induction n with
  | zero => exact fun _ _ unread _ hlen hne => absurd (List.length_eq_zero_iff.mp (by omega)) hne
  | succ n ih =>
      intro size buf unread out hlen hne
      obtain ⟨k, buf', out', hk, hround⟩ := reaches_round size buf out hne
      by_cases hrest : unread.drop k = []
      · rw [hrest] at hround
        obtain ⟨t, ht, hbad⟩ := reaches_unsafe k buf' out'
        exact ⟨t, hround.trans ht, hbad⟩
      · obtain ⟨t, ht, hbad⟩ := ih k buf' (unread.drop k) out' (by rw [List.length_drop]; omega) hrest
        exact ⟨t, hround.trans (.head ⟨_, next_readerTest hk⟩ ht), hbad⟩

theorem start_eq (file : List Byte) :
    State.start file = at_ 1 0 0 (fun _ => 0) file [] .pEmpty .pFull := by
  have hvalues : values = sems 1 0 := by
    funext k
    cases k <;> rfl
  rw [State.start, hvalues, at_]

/-! ## Runs -/

/-- If the reader's test never comes between the writer's storing the size `0`
and its `V (FULL)`, no semaphore is used after the removal and both functions
return `EXIT_SUCCESS`. For the empty file all runs are like that, for every
other file one run ends in an error. -/
theorem removal_run (file : List Byte) :
    (∀ trace, Path Step (.start file) trace →
      (∀ m ∈ moves (.start file) trace, m.2.LateTest m.1) →
        (∀ m ∈ trace, Safe m.2) ∧ trace.length ≤ 10 * file.length + 15 ∧
          ((∀ e, (final (.start file) trace).next e = none) →
            (final (.start file) trace).writer = .returned 0 ∧
              (final (.start file) trace).reader = .returned 0)) ∧
    ((∀ trace, Path Step (.start file) trace → ∀ m ∈ trace, Safe m.2) ↔ file = []) := by
  constructor
  · intro trace hrun hlate
    have hstart : Ordered file (.start file) := .inl ⟨live_start file, carries_start file⟩
    obtain ⟨hfinal, hlen⟩ := hrun.length_le rank
      (fun _ _ _ hs he ht => ⟨Ordered.next hs he ht, Ordered.rank_lt hs ht⟩) hstart hlate
    have hinv : ∀ m ∈ trace, Ordered file m.2 :=
      hrun.invariant_of_moves (fun _ _ _ hs he ht => Ordered.next hs he ht) hstart hlate
    have hrank : rank (.start file) = 10 * file.length + 15 := rfl
    exact ⟨fun m hm => (hinv m hm).safe, by omega, hfinal.returned⟩
  · constructor
    · intro hall
      by_contra hne
      obtain ⟨t, ht, hbad⟩ := unsafe_of_nonempty _ 0 (fun _ => 0) file [] le_rfl hne
      rw [← start_eq] at ht
      obtain ⟨trace, hrun, hfinal⟩ := exists_path ht
      exact hbad (hfinal ▸ final_of_forall (safe_of_live (live_start file)) (hall trace hrun))
    · intro hfile trace hrun
      subst hfile
      have hstart : Unchunked (.start []) :=
        .inl ⟨live_start [], carries_start [], rfl, rfl, by simp [State.start], fun _ => rfl⟩
      have hinv : ∀ m ∈ trace, Unchunked m.2 :=
        hrun.invariant (fun _ _ _ hs ht => Unchunked.next hs ht) hstart
      exact fun m hm => (hinv m hm).safe

/-- One byte; the reader tests the size when the writer has stored `0`. -/
def earlyTest : List Event :=
  [.writer, .read 1, .writer, .writer, .reader, .reader, .reader, .writer, .writer, .read 0,
    .writer, .reader, .reader, .writer]

/-- The writer's last `V (FULL)` fails. -/
theorem earlyTest_fails : ∃ trace, Path Step (.start [7]) trace ∧
    (final (.start [7]) trace).removed = true ∧
    (final (.start [7]) trace).writer = .returned (-1) :=
  ⟨walk State.next (.start [7]) earlyTest, path_walk _ _ _, by decide, by decide⟩

end TaskLunev.TransferRemoval
