import TaskLunev.TransferModel
import TaskLunev.TransitionRuns

/-!
# Chunks are printed once and in order

One token is either in one of the two semaphores or with one of the processes,
and the bytes printed, the chunk on its way and the unread rest are the file.
The reader's test may see the size of the chunk it has printed or of the next
one; it ends the loop only on a size stored at the end of the file, when
nothing is left to print. Whether the writer still needs the semaphores then
depends on whether it has done its last `V (FULL)`.
-/
namespace TaskLunev.TransferSafety
open ByteMemory TransferModel TransitionRuns

/-- The writer has the token. -/
def fills : WriterPc → ℕ
  | .reading | .storing _ | .vFull => 1
  | _ => 0

/-- The reader has the token. -/
def prints : ReaderPc → ℕ
  | .writing | .vEmpty => 1
  | _ => 0

/-- The chunk that is read and not yet printed. -/
def onItsWay (s : State) : List Byte :=
  match s.writer with
  | .storing size => slice s.buf 0 size
  | .vFull => slice s.buf 0 s.currSizeData
  | _ => if s.sem .full = 1 ∨ s.reader = .writing then slice s.buf 0 s.currSizeData else []

/-- The writer is in a pass of its loop and has not stored the size yet. -/
def Begins (pc : WriterPc) : Prop := pc = .pEmpty ∨ pc = .reading ∨ ∃ size, pc = .storing size

/-- The writer has seen the size `0` it stored. -/
def Ends (pc : WriterPc) : Prop := pc = .detaching ∨ ∃ code, pc = .returned code

/-- Where the two are while the reader is in its loop. -/
structure Live (s : State) : Prop where
  present : s.removed = false
  loops : s.reader = .pFull ∨ s.reader = .writing ∨ s.reader = .vEmpty ∨ s.reader = .testing
  code : ∀ code, s.writer = .returned code → code = 0
  token : s.sem .empty + s.sem .full + fills s.writer + prints s.reader = 1
  /-- Only in its first pass does the writer find the size `0`, and then the
  reader waits for the first chunk. -/
  begins : Begins s.writer → 0 < s.currSizeData ∨ (s.reader = .pFull ∧ s.sem .full = 0)
  ends : Ends s.writer → s.currSizeData = 0
  /-- A reader that waits for a chunk has seen that one will come. -/
  waits : s.reader = .pFull → s.sem .full = 0 → s.writer = .testing ∨ Ends s.writer →
    0 < s.currSizeData

/-- What the bytes are while the reader is in its loop. -/
structure Carries (file : List Byte) (s : State) : Prop where
  stream : s.out ++ onItsWay s ++ s.unread = file
  size : s.currSizeData ≤ SIZE_BUF
  stored : ∀ size, s.writer = .storing size → size ≤ SIZE_BUF ∧ (size = 0 → s.unread = [])
  last : ¬ Begins s.writer → s.currSizeData = 0 → s.unread = []

theorem live_start (file : List Byte) : Live (.start file) where
  present := rfl
  loops := .inl rfl
  code _ h := nomatch h
  token := rfl
  begins _ := .inr ⟨rfl, rfl⟩
  ends h := by simp [Ends, State.start] at h
  waits _ _ h := by simp [Ends, State.start] at h

section
variable {file : List Byte} {s t : State} {k : Sem} {failed go : State → State}

theorem Ptime_present (hs : s.removed = false) (ht : s.Ptime k failed go = some t) :
    0 < s.sem k ∧ t = go { s with sem := Function.update s.sem k (s.sem k - 1) } := by
  rw [State.Ptime, if_neg (Bool.eq_false_iff.mp hs)] at ht
  split at ht
  next hk => exact ⟨hk, (Option.some.inj ht).symm⟩
  next => cases ht

theorem Vtime_present (hs : s.removed = false) (ht : s.Vtime k failed go = some t) :
    t = go { s with sem := Function.update s.sem k (s.sem k + 1) } := by
  rw [State.Vtime, if_neg (Bool.eq_false_iff.mp hs)] at ht
  exact (Option.some.inj ht).symm

/-- The writer's steps while the semaphores are there. -/
inductive WriterMove (s : State) : State → Prop
  | pEmpty (hw : s.writer = .pEmpty) (hempty : 0 < s.sem .empty) : WriterMove s
      { s with sem := Function.update s.sem .empty (s.sem .empty - 1), writer := .reading }
  | storing (size : ℕ) (hw : s.writer = .storing size) :
      WriterMove s { s with currSizeData := size, writer := .vFull }
  | vFull (hw : s.writer = .vFull) : WriterMove s
      { s with sem := Function.update s.sem .full (s.sem .full + 1), writer := .testing }
  | again (hw : s.writer = .testing) (hsize : 0 < s.currSizeData) :
      WriterMove s { s with writer := .pEmpty }
  | ended (hw : s.writer = .testing) (hsize : s.currSizeData = 0) :
      WriterMove s { s with writer := .detaching }
  | detaching (hw : s.writer = .detaching) : WriterMove s { s with writer := .returned 0 }

theorem writerMove (hs : s.removed = false) (ht : s.writerStep = some t) : WriterMove s t := by
  unfold State.writerStep at ht
  cases hw : s.writer with
  | pEmpty =>
      rw [hw] at ht
      obtain ⟨hempty, rfl⟩ := Ptime_present hs ht
      exact .pEmpty hw hempty
  | reading =>
      rw [hw] at ht
      cases ht
  | storing size =>
      rw [hw] at ht
      cases ht
      exact .storing size hw
  | vFull =>
      rw [hw] at ht
      cases Vtime_present hs ht
      exact .vFull hw
  | testing =>
      rw [hw] at ht
      cases ht
      by_cases hsize : 0 < s.currSizeData
      · rw [if_pos hsize]
        exact .again hw hsize
      · rw [if_neg hsize]
        exact .ended hw (by omega)
  | detaching =>
      rw [hw] at ht
      cases ht
      exact .detaching hw
  | returned code =>
      rw [hw] at ht
      cases ht

/-- The reader's steps in its loop, and the one that leaves it. -/
inductive ReaderMove (s : State) : State → Prop
  | pFull (hr : s.reader = .pFull) (hfull : 0 < s.sem .full) : ReaderMove s
      { s with sem := Function.update s.sem .full (s.sem .full - 1), reader := .writing }
  | writing (hr : s.reader = .writing) : ReaderMove s
      { s with out := s.out ++ slice s.buf 0 s.currSizeData, reader := .vEmpty }
  | vEmpty (hr : s.reader = .vEmpty) : ReaderMove s
      { s with sem := Function.update s.sem .empty (s.sem .empty + 1), reader := .testing }
  | again (hr : s.reader = .testing) (hsize : 0 < s.currSizeData) :
      ReaderMove s { s with reader := .pFull }
  | ended (hr : s.reader = .testing) (hsize : s.currSizeData = 0) :
      ReaderMove s { s with reader := .removing }

theorem readerMove (hl : Live s) (ht : s.readerStep = some t) : ReaderMove s t := by
  unfold State.readerStep at ht
  obtain hr | hr | hr | hr := hl.loops
  · rw [hr] at ht
    obtain ⟨hfull, rfl⟩ := Ptime_present hl.present ht
    exact .pFull hr hfull
  · rw [hr] at ht
    obtain ⟨bytes, hbytes, rfl⟩ := Option.map_eq_some_iff.mp ht
    unfold readBytes at hbytes
    split at hbytes
    next =>
      cases hbytes
      exact .writing hr
    next => cases hbytes
  · rw [hr] at ht
    cases Vtime_present hl.present ht
    exact .vEmpty hr
  · rw [hr] at ht
    cases ht
    by_cases hsize : 0 < s.currSizeData
    · rw [if_pos hsize]
      exact .again hr hsize
    · rw [if_neg hsize]
      exact .ended hr (by omega)

theorem Live.writerStep (h : Live s) (ht : s.writerStep = some t) : Live t := by
  obtain ⟨hpresent, hloops, hcode, htoken, hbegins, hends, hwaits⟩ := h
  cases writerMove hpresent ht with
  | pEmpty hw hempty =>
      rw [hw] at htoken hbegins hends hwaits
      constructor <;> simp_all [Begins, Ends, fills]
      omega
  | storing size hw =>
      rw [hw] at htoken hbegins hends hwaits
      constructor <;> simp_all [Begins, Ends, fills]
  | vFull hw =>
      rw [hw] at htoken hbegins hends hwaits
      constructor <;> simp_all [Begins, Ends, fills]
      omega
  | again hw hsize =>
      rw [hw] at htoken hbegins hends hwaits
      constructor <;> simp_all [Begins, Ends, fills]
  | ended hw hsize =>
      rw [hw] at htoken hbegins hends hwaits
      constructor <;> simp_all [Begins, Ends, fills]
  | detaching hw =>
      rw [hw] at htoken hbegins hends hwaits
      constructor <;> simp_all [Begins, Ends, fills]

theorem readFile_spec {size : ℕ} (ht : s.readFile size = some t) :
    s.writer = .reading ∧ size ≤ SIZE_BUF ∧ size ≤ s.unread.length ∧ (size = 0 → s.unread = []) ∧
      ∃ buf, writeBytes s.buf 0 (s.unread.take size) = some buf ∧
        t = { s with buf, unread := s.unread.drop size, writer := .storing size } := by
  unfold State.readFile at ht
  split at ht
  next hread =>
    obtain ⟨buf, hbuf, rfl⟩ := Option.map_eq_some_iff.mp ht
    exact ⟨hread.1, hread.2.1, hread.2.2.1, hread.2.2.2, buf, hbuf, rfl⟩
  next => cases ht

theorem Live.readFile {size : ℕ} (h : Live s) (ht : s.readFile size = some t) : Live t := by
  obtain ⟨hw, -, -, -, buf, -, rfl⟩ := readFile_spec ht
  obtain ⟨hpresent, hloops, hcode, htoken, hbegins, hends, hwaits⟩ := h
  rw [hw] at htoken hbegins
  constructor <;> simp_all [Begins, Ends, fills]

/-- The reader's step leads on in the loop, or out of it by the test. -/
theorem Live.readerStep (h : Live s) (ht : s.readerStep = some t) :
    Live t ∨ (s.reader = .testing ∧ s.currSizeData = 0 ∧ t = s.setReader .removing) := by
  have hmove := readerMove h ht
  obtain ⟨hpresent, hloops, hcode, htoken, hbegins, hends, hwaits⟩ := h
  cases hmove with
  | pFull hr hfull =>
      rw [hr] at htoken hbegins hwaits
      left
      have hone : s.sem .full = 1 := by omega
      constructor <;> simp_all [prints]
      omega
  | writing hr =>
      rw [hr] at htoken hbegins hwaits
      left
      constructor <;> simp_all [prints]
  | vEmpty hr =>
      rw [hr] at htoken hbegins hwaits
      left
      constructor <;> simp_all [prints]
  | again hr hsize =>
      rw [hr] at htoken hbegins hwaits
      left
      constructor <;> simp_all [prints]
  | ended hr hsize => exact .inr ⟨hr, hsize, rfl⟩

/-! ## The bytes -/

theorem onItsWay_none (hw : fills s.writer = 0) (hfull : s.sem .full = 0)
    (hr : s.reader ≠ .writing) : onItsWay s = [] := by
  unfold onItsWay
  split
  next size hpc => simp [hpc, fills] at hw
  next hpc => simp [hpc, fills] at hw
  next => simp [hfull, hr]

theorem onItsWay_chunk (hw : fills s.writer = 0) (h : s.sem .full = 1 ∨ s.reader = .writing) :
    onItsWay s = slice s.buf 0 s.currSizeData := by
  unfold onItsWay
  split
  next size hpc => simp [hpc, fills] at hw
  next hpc => simp [hpc, fills] at hw
  next => simp [h]

theorem onItsWay_setWriter {pc : WriterPc} (hs : ∀ size, s.writer ≠ .storing size)
    (hs' : s.writer ≠ .vFull) (hpc : ∀ size, pc ≠ .storing size) (hpc' : pc ≠ .vFull) :
    onItsWay (s.setWriter pc) = onItsWay s := by
  have hplain : ∀ u : State, (∀ size, u.writer ≠ .storing size) → u.writer ≠ .vFull →
      onItsWay u =
        if u.sem .full = 1 ∨ u.reader = .writing then slice u.buf 0 u.currSizeData else [] := by
    intro u hu hu'
    unfold onItsWay
    split
    next size hw => exact absurd hw (hu size)
    next hw => exact absurd hw hu'
    next => rfl
  rw [hplain s hs hs', hplain _ hpc hpc']
  rfl

/-- Between its `V (FULL)` and its next pass the writer changes no bytes. -/
theorem Carries.setWriter (h : Carries file s) {pc : WriterPc}
    (hw : s.writer = .testing ∨ s.writer = .detaching) (hpc : ∀ size, pc ≠ .storing size)
    (hpc' : pc ≠ .vFull) : Carries file (s.setWriter pc) := by
  have hplain : ¬ Begins s.writer ∧ (∀ size, s.writer ≠ .storing size) ∧ s.writer ≠ .vFull := by
    cases hw with
    | inl hw => simp [hw, Begins]
    | inr hw => simp [hw, Begins]
  exact
    { stream := by
        rw [onItsWay_setWriter hplain.2.1 hplain.2.2 hpc hpc']
        exact h.stream
      size := h.size
      stored := fun size hs => absurd hs (hpc size)
      last := fun _ => h.last hplain.1 }

theorem Carries.writerStep (h : Carries file s) (hl : Live s) (ht : s.writerStep = some t) :
    Carries file t := by
  have htoken := hl.token
  cases writerMove hl.present ht with
  | pEmpty hw hempty =>
      exact
        { stream := by
            have hway : onItsWay s = onItsWay { s with
                sem := Function.update s.sem .empty (s.sem .empty - 1), writer := .reading } := by
              simp [onItsWay, hw]
            exact hway ▸ h.stream
          size := h.size
          stored := fun _ hpc => nomatch hpc
          last := fun hb => absurd (.inr (.inl rfl)) hb }
  | storing size hw =>
      have hstored := h.stored size hw
      exact
        { stream := by
            have hway : onItsWay s = onItsWay { s with currSizeData := size, writer := .vFull } := by
              simp [onItsWay, hw]
            exact hway ▸ h.stream
          size := hstored.1
          stored := fun _ hpc => nomatch hpc
          last := fun _ => hstored.2 }
  | vFull hw =>
      rw [hw] at htoken
      have hfull : s.sem .full = 0 := by
        simp only [fills] at htoken
        omega
      exact
        { stream := by
            have hway : onItsWay s = onItsWay { s with
                sem := Function.update s.sem .full (s.sem .full + 1), writer := .testing } := by
              simp [onItsWay, hw, hfull]
            exact hway ▸ h.stream
          size := h.size
          stored := fun _ hpc => nomatch hpc
          last := fun _ => h.last (by simp [hw, Begins]) }
  | again hw hsize => exact h.setWriter (.inl hw) (by simp) (by simp)
  | ended hw hsize => exact h.setWriter (.inl hw) (by simp) (by simp)
  | detaching hw => exact h.setWriter (.inr hw) (by simp) (by simp)

theorem Carries.readFile {size : ℕ} (h : Carries file s) (hl : Live s)
    (ht : s.readFile size = some t) : Carries file t := by
  obtain ⟨hw, hsize, hlen, hend, buf, hbuf, rfl⟩ := readFile_spec ht
  have htoken := hl.token
  rw [hw] at htoken
  have hfull : s.sem .full = 0 := by
    simp only [fills] at htoken
    omega
  have hr : s.reader ≠ .writing := fun hr => by
    simp only [fills, hr, prints] at htoken
    omega
  have hnone : onItsWay s = [] := by simp [onItsWay, hw, hfull, hr]
  have hchunk : slice buf 0 size = s.unread.take size := by
    have hself := slice_writeBytes_self hbuf
    rwa [List.length_take, min_eq_left hlen] at hself
  have hstream := h.stream
  rw [hnone, List.append_nil] at hstream
  exact
    { stream := by
        change s.out ++ slice buf 0 size ++ s.unread.drop size = file
        rw [← hstream, hchunk, List.append_assoc, List.take_append_drop]
      size := h.size
      stored := fun size' hpc => by
        cases hpc
        exact ⟨hsize, fun hzero => by simp [hend hzero]⟩
      last := fun hb => absurd (.inr (.inr ⟨size, rfl⟩)) hb }

theorem Carries.readerStep (h : Carries file s) (hl : Live s) (ht : s.readerStep = some t) :
    Carries file t := by
  have htoken := hl.token
  have hkeep : ∀ {u : State}, u.writer = s.writer → u.currSizeData = s.currSizeData →
      u.unread = s.unread → u.out ++ onItsWay u = s.out ++ onItsWay s → Carries file u := by
    intro u hwriter hsize hunread hstream
    exact
      { stream := by rw [hstream, hunread, h.stream]
        size := by rw [hsize]; exact h.size
        stored := by rw [hwriter, hunread]; exact h.stored
        last := by rw [hwriter, hsize, hunread]; exact h.last }
  cases readerMove hl ht with
  | pFull hr hpos =>
      have hone : s.sem .full = 1 ∧ fills s.writer = 0 := by omega
      refine hkeep rfl rfl rfl ?_
      rw [onItsWay_chunk hone.2 (.inl hone.1)]
      exact congrArg (s.out ++ ·) (onItsWay_chunk (by exact hone.2) (.inr rfl))
  | writing hr =>
      rw [hr] at htoken
      have hzero : s.sem .full = 0 ∧ fills s.writer = 0 := by
        simp only [prints] at htoken
        omega
      have hafter : onItsWay { s with
          out := s.out ++ slice s.buf 0 s.currSizeData, reader := .vEmpty } = [] :=
        onItsWay_none hzero.2 hzero.1 (by simp)
      refine hkeep rfl rfl rfl ?_
      rw [hafter, onItsWay_chunk hzero.2 (.inr hr), List.append_nil]
  | vEmpty hr =>
      rw [hr] at htoken
      have hzero : s.sem .full = 0 ∧ fills s.writer = 0 := by
        simp only [prints] at htoken
        omega
      refine hkeep rfl rfl rfl ?_
      rw [onItsWay_none hzero.2 hzero.1 (by simp [hr])]
      exact congrArg (s.out ++ ·) (onItsWay_none (by exact hzero.2) hzero.1 (by simp))
  | again hr hsize =>
      refine hkeep rfl rfl rfl ?_
      simp [onItsWay, hr]
  | ended hr hsize =>
      refine hkeep rfl rfl rfl ?_
      simp [onItsWay, hr]

/-! ## The end of the loop -/

/-- A reader that leaves has the whole file, whichever size it saw. -/
theorem Carries.whole (h : Carries file s) (hl : Live s) (hr : s.reader = .testing)
    (hsize : s.currSizeData = 0) : s.out = file ∧ ¬ Begins s.writer := by
  have hbegins : ¬ Begins s.writer := fun hb => by
    cases hl.begins hb with
    | inl hpos => omega
    | inr hwait => simp [hr] at hwait
  have hnone : onItsWay s = [] := by
    unfold onItsWay
    split
    next size hw => exact absurd (.inr (.inr ⟨size, hw⟩)) hbegins
    next => rw [hsize, slice_zero]
    next => simp [hsize]
  have hstream := h.stream
  rw [hnone, h.last hbegins hsize, List.append_nil, List.append_nil] at hstream
  exact ⟨hstream, hbegins⟩

theorem Live.not_left (h : Live s) : ¬ s.reader.Left := by
  obtain hr | hr | hr | hr := h.loops <;> simp [hr, ReaderPc.Left]

theorem writerStep_frame (ht : s.writerStep = some t) : t.reader = s.reader ∧ t.out = s.out := by
  unfold State.writerStep at ht
  split at ht
  next =>
    unfold State.Ptime at ht
    split at ht
    · cases ht
      exact ⟨rfl, rfl⟩
    · split at ht <;> cases ht
      exact ⟨rfl, rfl⟩
  next => cases ht
  next =>
    cases ht
    exact ⟨rfl, rfl⟩
  next =>
    unfold State.Vtime at ht
    split at ht <;> cases ht <;> exact ⟨rfl, rfl⟩
  next =>
    cases ht
    exact ⟨rfl, rfl⟩
  next =>
    cases ht
    exact ⟨rfl, rfl⟩
  next => cases ht

theorem readerStep_left (hr : s.reader.Left) (ht : s.readerStep = some t) :
    t.reader.Left ∧ t.out = s.out ∧ t.writer = s.writer ∧ t.currSizeData = s.currSizeData := by
  unfold State.readerStep at ht
  obtain hr | hr | hr | hr := hr
  · rw [hr] at ht
    cases ht
    exact ⟨.inr (.inl rfl), rfl, rfl, rfl⟩
  · rw [hr] at ht
    cases ht
    exact ⟨.inr (.inr (.inl rfl)), rfl, rfl, rfl⟩
  · rw [hr] at ht
    cases ht
    exact ⟨.inr (.inr (.inr rfl)), rfl, rfl, rfl⟩
  · rw [hr] at ht
    cases ht

/-- All bytes stay accounted for until the reader leaves its loop. -/
theorem Live.next {e : Event} (hl : Live s) (hc : Carries file s) (ht : s.next e = some t) :
    (Live t ∧ Carries file t) ∨
      e = .reader ∧ s.reader = .testing ∧ s.currSizeData = 0 ∧ t = s.setReader .removing := by
  cases e with
  | writer => exact .inl ⟨hl.writerStep ht, hc.writerStep hl ht⟩
  | read size => exact .inl ⟨hl.readFile ht, hc.readFile hl ht⟩
  | reader =>
      cases hl.readerStep ht with
      | inl hlive => exact .inl ⟨hlive, hc.readerStep hl ht⟩
      | inr hleft => exact .inr ⟨rfl, hleft⟩

/-- In its loop with all bytes accounted for, or past it with the file. -/
def Printed (file : List Byte) (s : State) : Prop :=
  (Live s ∧ Carries file s) ∨ (s.reader.Left ∧ s.out = file)

theorem Printed.next {e : Event} (h : Printed file s) (ht : s.next e = some t) : Printed file t := by
  cases h with
  | inl h =>
      obtain ⟨hl, hc⟩ := h
      rcases hl.next hc ht with hlive | ⟨-, hr, hsize, rfl⟩
      · exact .inl hlive
      · exact .inr ⟨.inl rfl, (hc.whole hl hr hsize).1⟩
  | inr h =>
      obtain ⟨hleft, hout⟩ := h
      cases e with
      | writer =>
          obtain ⟨hreader, hsame⟩ := writerStep_frame ht
          exact .inr ⟨by rwa [hreader], by rwa [hsame]⟩
      | read size =>
          obtain ⟨-, -, -, -, buf, -, rfl⟩ := readFile_spec ht
          exact .inr ⟨hleft, hout⟩
      | reader =>
          obtain ⟨hreader, hsame, -, -⟩ := readerStep_left hleft ht
          exact .inr ⟨hreader, by rwa [hsame]⟩

theorem carries_start (file : List Byte) : Carries file (.start file) where
  stream := rfl
  size := Nat.zero_le _
  stored _ h := nomatch h
  last h := absurd (.inl rfl) h

end

/-- In every order of the steps the reader has written a prefix of the file,
and the whole file when it leaves its loop. -/
theorem transfer_run (file : List Byte) {trace : List (Event × State)}
    (hrun : Path Step (.start file) trace) :
    ∀ m ∈ trace, m.2.out <+: file ∧ (m.2.reader.Left → m.2.out = file) := by
  have hinv : ∀ m ∈ trace, Printed file m.2 :=
    hrun.invariant (fun _ _ _ hs ht => hs.next ht) (.inl ⟨live_start file, carries_start file⟩)
  intro m hm
  cases hinv m hm with
  | inl h =>
      refine ⟨⟨onItsWay m.2 ++ m.2.unread, ?_⟩, fun hleft => absurd hleft h.1.not_left⟩
      rw [← List.append_assoc, h.2.stream]
  | inr h => exact ⟨h.2 ▸ List.prefix_rfl, fun _ => h.2⟩

/-- Three bytes in two chunks; the second is read before the reader tests the
size of the first. -/
def twoChunks : List Event :=
  [.writer, .read 2, .writer, .writer, .reader, .reader, .reader, .writer, .writer, .read 1,
    .writer, .reader, .writer, .reader, .reader, .reader, .writer, .writer, .read 0, .writer,
    .writer, .reader]

theorem transfer_run_twoChunks :
    (final (.start [1, 2, 3]) (walk State.next (.start [1, 2, 3]) twoChunks)).reader =
        .removing ∧
      ∀ m ∈ walk State.next (.start [1, 2, 3]) twoChunks, m.2.out <+: [1, 2, 3] ∧
        (m.2.reader.Left → m.2.out = [1, 2, 3]) :=
  ⟨by decide, transfer_run _ (path_walk _ _ _)⟩

end TaskLunev.TransferSafety
