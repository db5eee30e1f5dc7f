import TaskLunev.CompletedRuns
import TaskLunev.TransferRemoval

/-!
# Every transfer ends

Whether or not the reader removes the semaphores too early, neither process
waits for ever: in every order of the steps the reader prints the whole file,
removes what it made and returns `0`. What an early removal can cost is the
writer's result.
-/
namespace TaskLunev.TransferCompletion
open ByteMemory TransferModel TransferSafety TransferRemoval TransitionRuns CompletedRuns

/-- The reader is past its loop; the writer has at most its last `V (FULL)` to
do, on semaphores that may be gone. -/
structure Leaving (file : List Byte) (s : State) : Prop where
  left : s.reader.Left
  out : s.out = file
  removed : s.reader ≠ .removing → s.removed = true
  writer : s.writer = .vFull ∨ s.writer = .testing ∨ s.writer = .detaching ∨
    s.writer = .returned 0 ∨ s.writer = .returned (-1)
  size : s.currSizeData = 0

section
variable {file : List Byte} {s t : State} {e : Event}

theorem leaving_of_live (hl : Live s) (hc : Carries file s) (hr : s.reader = .testing)
    (hsize : s.currSizeData = 0) : Leaving file (s.setReader .removing) := by
  obtain ⟨hout, hbegins⟩ := hc.whole hl hr hsize
  refine ⟨.inl rfl, hout, fun hne => absurd rfl hne, ?_, hsize⟩
  change s.writer = _ ∨ s.writer = _ ∨ s.writer = _ ∨ s.writer = _ ∨ s.writer = _
  cases hw : s.writer with
  | pEmpty => exact absurd (.inl hw) hbegins
  | reading => exact absurd (.inr (.inl hw)) hbegins
  | storing size => exact absurd (.inr (.inr ⟨size, hw⟩)) hbegins
  | vFull => exact .inl rfl
  | testing => exact .inr (.inl rfl)
  | detaching => exact .inr (.inr (.inl rfl))
  | returned code => exact .inr (.inr (.inr (.inl (by rw [hl.code code hw]))))

/-- The writer's steps behind the reader's loop; the first one fails if the
semaphores are gone. -/
inductive LastMove (s : State) : State → Prop
  | vFull : s.writer = .vFull → s.removed = false →
      LastMove s
        ({ s with sem := Function.update s.sem .full (s.sem .full + 1) }.setWriter .testing)
  | fails : s.writer = .vFull → s.removed = true → LastMove s (s.setWriter (.returned (-1)))
  | ended : s.writer = .testing → LastMove s (s.setWriter .detaching)
  | detaching : s.writer = .detaching → LastMove s (s.setWriter (.returned 0))

theorem Leaving.lastMove (h : Leaving file s) (ht : s.writerStep = some t) : LastMove s t := by
  unfold State.writerStep at ht
  rcases h.writer with hw | hw | hw | hw | hw
  · rw [hw] at ht
    unfold State.Vtime at ht
    by_cases hremoved : s.removed = true
    · rw [if_pos hremoved] at ht
      cases ht
      exact .fails hw hremoved
    · rw [if_neg hremoved] at ht
      cases ht
      exact .vFull hw (Bool.eq_false_of_not_eq_true hremoved)
  · rw [hw, h.size] at ht
    cases ht
    exact .ended hw
  · rw [hw] at ht
    cases ht
    exact .detaching hw
  · simp [hw] at ht
  · simp [hw] at ht

theorem Leaving.writerStep (h : Leaving file s) (ht : s.writerStep = some t) :
    Leaving file t ∧ rank t < rank s := by
  have hmove := h.lastMove ht
  obtain ⟨hleft, hout, hremoved, -, hsize⟩ := h
  cases hmove with
  | vFull hw _ =>
      refine ⟨⟨hleft, hout, hremoved, .inr (.inl rfl), hsize⟩, ?_⟩
      simp [rank, writerRank, State.setWriter, hw, hsize]
      omega
  | fails hw _ =>
      refine ⟨⟨hleft, hout, hremoved, .inr (.inr (.inr (.inr rfl))), hsize⟩, ?_⟩
      simp [rank, writerRank, State.setWriter, hw, hsize]
  | ended hw =>
      refine ⟨⟨hleft, hout, hremoved, .inr (.inr (.inl rfl)), hsize⟩, ?_⟩
      simp [rank, writerRank, State.setWriter, hw, hsize]
  | detaching hw =>
      refine ⟨⟨hleft, hout, hremoved, .inr (.inr (.inr (.inl rfl))), hsize⟩, ?_⟩
      simp [rank, writerRank, State.setWriter, hw]

theorem Leaving.readerStep (h : Leaving file s) (ht : s.readerStep = some t) :
    Leaving file t ∧ rank t < rank s := by
  obtain ⟨hleft, hout, hremoved, hwriter, hsize⟩ := h
  unfold State.readerStep at ht
  obtain hr | hr | hr | hr := hleft <;> rw [hr] at ht <;> cases ht
  · exact ⟨⟨.inr (.inl rfl), hout, fun _ => rfl, hwriter, hsize⟩,
      by simp [rank, readerRank, State.setReader, hr]⟩
  · exact ⟨⟨.inr (.inr (.inl rfl)), hout, fun _ => hremoved (by simp [hr]), hwriter, hsize⟩,
      by simp [rank, readerRank, State.setReader, hr]⟩
  · exact ⟨⟨.inr (.inr (.inr rfl)), hout, fun _ => hremoved (by simp [hr]), hwriter, hsize⟩,
      by simp [rank, readerRank, State.setReader, hr]⟩

/-- Nothing is read any more. -/
theorem Leaving.not_read (h : Leaving file s) {size : ℕ} : s.readFile size = none := by
  rw [State.readFile, if_neg]
  rintro ⟨hw, -⟩
  rcases h.writer with hw' | hw' | hw' | hw' | hw' <;> simp [hw'] at hw

theorem Leaving.next (h : Leaving file s) (ht : s.next e = some t) :
    Leaving file t ∧ rank t < rank s := by
  cases e with
  | writer => exact h.writerStep ht
  | read size => exact absurd (h.not_read.symm.trans ht) (by simp)
  | reader => exact h.readerStep ht

/-- In the loop with all bytes accounted for, or past it with the file. -/
def Underway (file : List Byte) (s : State) : Prop := (Live s ∧ Carries file s) ∨ Leaving file s

theorem rank_live (hl : Live s) (ht : s.next e = some t) : rank t < rank s := by
  cases e with
  | writer => exact rank_writerStep hl ht
  | read size => exact rank_readFile ht
  | reader => exact rank_readerStep hl ht

theorem Underway.next (h : Underway file s) (ht : s.next e = some t) :
    Underway file t ∧ rank t < rank s := by
  cases h with
  | inl h =>
      refine ⟨?_, rank_live h.1 ht⟩
      rcases h.1.next h.2 ht with hlive | ⟨-, hr, hsize, rfl⟩
      · exact .inl hlive
      · exact .inr (leaving_of_live h.1 h.2 hr hsize)
  | inr h => exact ⟨.inr (h.next ht).1, (h.next ht).2⟩

/-- The reader is done with the whole file; only the writer may have failed. -/
structure Delivered (file : List Byte) (s : State) : Prop where
  reader : s.reader = .returned 0
  out : s.out = file
  removed : s.removed = true
  writer : s.writer = .returned 0 ∨ s.writer = .returned (-1)

theorem Leaving.delivered (h : Leaving file s) (hstuck : ∀ e, s.next e = none) :
    Delivered file s := by
  have hwriter : s.writerStep = none := hstuck .writer
  have hreader : s.readerStep = none := hstuck .reader
  have hr : s.reader = .returned 0 := by
    unfold State.readerStep at hreader
    obtain hr | hr | hr | hr := h.left
    · simp [hr] at hreader
    · simp [hr] at hreader
    · simp [hr] at hreader
    · exact hr
  refine ⟨hr, h.out, h.removed (by simp [hr]), ?_⟩
  unfold State.writerStep at hwriter
  rcases h.writer with hw | hw | hw | hw | hw
  · simp only [hw, State.Vtime] at hwriter
    split at hwriter <;> cases hwriter
  · simp [hw] at hwriter
  · simp [hw] at hwriter
  · exact .inl hw
  · exact .inr hw

theorem Underway.delivered (h : Underway file s) (hstuck : ∀ e, s.next e = none) :
    Delivered file s := by
  cases h with
  | inl h =>
      obtain ⟨e, he⟩ := progress_of_live h.1 h.2
      simp [hstuck e] at he
  | inr h => exact h.delivered hstuck

end

theorem ranked (file : List Byte) :
    Ranked Step (fun _ => true) (Underway file) rank (Delivered file) where
  keeps _ _ _ h ht := (h.next ht).1
  lowers _ _ _ h ht := (h.next ht).2
  goal _ h hrest := h.delivered fun _ => AtRest.eq_none (f := State.next) hrest rfl

/-- In every order of the steps, early removals included, the transfer of a
file is over after ten steps a byte and fifteen more, and the reader has
printed all of it. -/
theorem delivery_completes (file : List Byte) :
    Completes Step (fun _ => true) (.start file) (10 * file.length + 15) (Delivered file) :=
  (ranked file).completes (.inl ⟨live_start file, carries_start file⟩)

end TaskLunev.TransferCompletion
