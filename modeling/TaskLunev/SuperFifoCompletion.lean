import TaskLunev.SuperFifoEndings
import Mathlib.Algebra.BigOperators.Group.Finset.Basic
import Mathlib.Algebra.Order.BigOperators.Group.Finset
import Mathlib.Data.Finset.Card

/-!
# Every reader that is served gets a whole file

Runs that nobody disturbs are bounded: every step takes a process on, moves bytes
on or closes an end. Behind the last one everybody has ended, but for those who
wait in `open` for somebody of the other kind. When no reader loses its patience
there is somebody who is served.
-/
namespace TaskLunev.SuperFifoCompletion
open ByteMemory NamedPipe SuperFifoModel SuperFifoEffects SuperFifoPairing SuperFifoStreams
  SuperFifoTurns SuperFifoEndings TransitionRuns

/-! ## The steps are bounded -/

def readerRank : ReaderPc → ℕ
  | .openingPers => 9
  | .openingConn => 7
  | .waitingConn _ => 5
  | .sending => 4
  | .polling => 3
  | .greeting => 2
  | .reading => 1
  | .printing _ => 2

def writerRank : WriterPc → ℕ
  | .openingConn => 17
  | .waitingConn _ => 15
  | .readingPid => 14
  | .openingReader => 13
  | .greeting => 11
  | .openingFile => 2
  | .reading => 1
  | .writing buf => 2 * buf.length + 2

/-- A byte of the file has four steps before it: it is read and written by the
writer, then by the reader. -/
def processRank : Process → ℕ
  | .reader r => readerRank r.pc
  | .writer w => writerRank w.pc + 4 * (w.file.length - w.pos)

def endsRank (f : Fifo Pid Byte) : ℕ := f.readers.card + f.writers.card

def fifoRank (f : Fifo Pid Byte) : ℕ := 2 * f.buf.length + endsRank f

def livingRank (s : State) (p : Pid) : ℕ :=
  if s.exited p = true then 0 else processRank (s.process p)

def rank (P : Finset Pid) (s : State) : ℕ :=
  ∑ p ∈ P, livingRank s p + ∑ p ∈ P, fifoRank (s.pers p) + endsRank s.conn

/-- The steps that a process may cause in all. -/
def cost : Option (List Byte) → ℕ
  | none => 9
  | some file => 17 + 4 * file.length

section
variable {p k : Pid} {conn conn' f f' : Fifo Pid Byte} {x y : Process}

theorem endsRank_openRead : endsRank (f.openRead p) ≤ endsRank f + 1 := by
  have hle := Finset.card_insert_le p f.readers
  change (insert p f.readers).card + f.writers.card ≤ f.readers.card + f.writers.card + 1
  omega

theorem endsRank_openWrite : endsRank (f.openWrite p) ≤ endsRank f + 1 := by
  have hle := Finset.card_insert_le p f.writers
  change f.readers.card + (insert p f.writers).card ≤ f.readers.card + f.writers.card + 1
  omega

theorem fifoRank_read {items : List Byte} {n : ℕ} (h : f.read n = some (items, f')) :
    fifoRank f' + 2 * items.length = fifoRank f := by
  obtain ⟨rfl, rfl, -⟩ := Fifo.read_eq_some h
  change 2 * (f.buf.drop n).length + endsRank f + 2 * (f.buf.take n).length =
    2 * f.buf.length + endsRank f
  rw [List.length_drop, List.length_take]
  omega

theorem fifoRank_write {items : List Byte} (h : f.write items = some f') :
    fifoRank f' = fifoRank f + 2 * items.length := by
  obtain ⟨-, rfl⟩ := Fifo.write_eq_some h
  change 2 * (f.buf ++ items).length + endsRank f = 2 * f.buf.length + endsRank f + 2 * items.length
  rw [List.length_append]
  omega

theorem act_rank (h : Act p conn k f x conn' f' y) :
    processRank y + fifoRank f' + endsRank conn' < processRank x + fifoRank f + endsRank conn := by
  cases h with
  | opensPers hpc =>
      have hle := endsRank_openRead (f := f) (p := p)
      change 7 + (2 * f.buf.length + endsRank (f.openRead p)) + endsRank conn < _
      simp only [processRank, hpc, readerRank, fifoRank]
      omega
  | opensConnWrite hpc =>
      have hle := endsRank_openWrite (f := conn) (p := p)
      simp only [processRank, hpc, readerRank]
      omega
  | meetsWriter hpc _ => simp [processRank, hpc, readerRank]
  | sendsPid hpc hwrite =>
      obtain ⟨-, rfl⟩ := Fifo.write_eq_some hwrite
      simp [processRank, hpc, readerRank, endsRank]
  | polls hpc _ => simp [processRank, hpc, readerRank]
  | greets hpc hread =>
      have hrank := fifoRank_read hread
      simp only [processRank, hpc, readerRank]
      omega
  | receives hpc hread hne =>
      have hrank := fifoRank_read hread
      have hpos := List.length_pos_of_ne_nil hne
      simp only [processRank, hpc, readerRank]
      omega
  | prints hpc => simp [processRank, hpc, readerRank]
  | opensConnRead hpc =>
      have hle := endsRank_openRead (f := conn) (p := p)
      simp only [processRank, hpc, writerRank]
      omega
  | meetsReader hpc _ => simp [processRank, hpc, writerRank]
  | takesPid hpc hread _ =>
      obtain ⟨-, rfl, -⟩ := Fifo.read_eq_some hread
      simp [processRank, hpc, writerRank, endsRank]
  | opensReader hpc _ =>
      have hle := endsRank_openWrite (f := f) (p := p)
      change 11 + _ + (2 * f.buf.length + endsRank (f.openWrite p)) + endsRank conn < _
      simp only [processRank, hpc, writerRank, fifoRank]
      omega
  | sendsGreeting hpc hwrite =>
      have hrank := fifoRank_write hwrite
      have hlength : greetingBytes.length = 4 := rfl
      simp only [processRank, hpc, writerRank]
      omega
  | opensFile hpc => simp [processRank, hpc, writerRank]
  | readsFile hpc hsize hle =>
      simp only [processRank, hpc, writerRank, List.length_take, List.length_drop]
      omega
  | sendsData hpc hwrite =>
      have hrank := fifoRank_write hwrite
      simp only [processRank, hpc, writerRank]
      omega

end

section
variable {role : Pid → Option (List Byte)} {P : Finset Pid} {s t : State} {p q : Pid}

/-- A sum in which one summand changes. -/
theorem sum_change {f g : Pid → ℕ} (hp : p ∈ P) (h : ∀ q, q ≠ p → f q = g q) :
    ∑ q ∈ P, f q + g p = ∑ q ∈ P, g q + f p := by
  have hrest : ∑ q ∈ P.erase p, f q = ∑ q ∈ P.erase p, g q :=
    Finset.sum_congr rfl fun q hq => h q (Finset.ne_of_mem_erase hq)
  rw [← Finset.add_sum_erase P f hp, ← Finset.add_sum_erase P g hp, hrest]
  omega

theorem mem_of_process (h : Undisturbed role P s) {b : Process → Bool}
    (hstart : ∀ q, b ((State.start role).process q) = false) (hb : b (s.process q) = true) :
    q ∈ P := by
  by_contra hq
  rw [(h.outside q hq).1, hstart q] at hb
  cases hb

theorem reader_mem (h : Undisturbed role P s) (hq : hasSent (s.process q) = true) : q ∈ P :=
  mem_of_process h (fun q => (start_facts role q).1) hq

theorem taken_mem (h : Undisturbed role P s) (hp : takes (s.process p) = some q) : q ∈ P := by
  obtain ⟨waiting, hwaiting⟩ := h.inv.pairing
  exact reader_mem h (hwaiting.taken p q hp).1

theorem act_target {k : Pid} {conn conn' f f' : Fifo Pid Byte} {x y : Process}
    (h : Act p conn k f x conn' f' y) : k = p ∨ takes x = some k := by
  cases h with
  | opensReader hpc _ => exact .inr (by simp [takes, hpc])
  | sendsGreeting hpc _ => exact .inr (by simp [takes, hpc])
  | sendsData hpc _ => exact .inr (by simp [takes, hpc])
  | _ => exact .inl rfl

/-- Who lives has its end to go. -/
theorem processRank_pos (x : Process) : 0 < processRank x := by
  cases x with
  | reader r => cases hpc : r.pc <;> simp [processRank, readerRank, hpc]
  | writer w =>
      have hpos : 0 < writerRank w.pc := by cases w.pc <;> simp [writerRank]
      exact Nat.add_pos_left hpos _

theorem closes_rank {k : Pid} {conn' f' : Fifo Pid Byte} (h : Closes s p k conn' f') :
    (f' = s.pers k ∧ endsRank conn' < endsRank s.conn) ∨
      (conn' = s.conn ∧ (k = p ∨ p ∈ (s.pers k).writers) ∧ fifoRank f' < fifoRank (s.pers k)) := by
  have hbuf : ∀ g g' : Fifo Pid Byte, g'.buf = g.buf ∨ g'.buf = [] →
      endsRank g' < endsRank g → fifoRank g' < fifoRank g := by
    intro g g' hbuf hends
    unfold fifoRank
    rcases hbuf with hbuf | hbuf <;> rw [hbuf]
    · omega
    · rw [List.length_nil]
      omega
  have hread : ∀ g : Fifo Pid Byte, p ∈ g.readers → endsRank (g.closeRead p) < endsRank g := by
    intro g hg
    have hlt := Finset.card_erase_lt_of_mem hg
    simp only [endsRank, Fifo.closeRead_readers, Fifo.closeRead_writers]
    omega
  have hwrite : ∀ g : Fifo Pid Byte, p ∈ g.writers → endsRank (g.closeWrite p) < endsRank g := by
    intro g hg
    have hlt := Finset.card_erase_lt_of_mem hg
    simp only [endsRank, Fifo.closeWrite_readers, Fifo.closeWrite_writers]
    omega
  cases h with
  | connRead hmem => exact .inl ⟨rfl, hread _ hmem⟩
  | connWrite hmem => exact .inl ⟨rfl, hwrite _ hmem⟩
  | persRead hmem hk => exact .inr ⟨rfl, .inl hk, hbuf _ _ Fifo.closeRead_buf (hread _ hmem)⟩
  | persWrite hmem => exact .inr ⟨rfl, .inr hmem, hbuf _ _ Fifo.closeWrite_buf (hwrite _ hmem)⟩

theorem rank_lt (h : Undisturbed role P s) {e : Event} (hst : Moves P s e t) :
    rank P t < rank P s := by
  obtain ⟨hstep, hmem, hcalm⟩ := hst
  have hturn := turn_of_step hstep hcalm
  generalize mover e = p at hmem hturn
  cases hturn with
  | @acts k x fifo halive hact hprocess hexited hpers _ =>
      have hk : k ∈ P := (act_target hact).elim (fun hk => hk ▸ hmem) (taken_mem h)
      have hliving := sum_change (f := livingRank t) (g := livingRank s) hmem fun q hq => by
        rw [livingRank, livingRank, hexited, hprocess, Function.update_of_ne hq]
      have hfifos := sum_change (f := fun q => fifoRank (t.pers q))
        (g := fun q => fifoRank (s.pers q)) hk fun q hq => by
          simp only [hpers, Function.update_of_ne hq]
      have hself : livingRank s p = processRank (s.process p) := by
        rw [livingRank, halive]
        rfl
      have hself' : livingRank t p = processRank x := by
        rw [livingRank, hexited, halive, hprocess, Function.update_self]
        rfl
      have hfifo : fifoRank (t.pers k) = fifoRank fifo := by rw [hpers, Function.update_self]
      have hlt := act_rank hact
      simp only [hself, hself', hfifo] at hliving hfifos
      unfold rank
      omega
  | @ends x halive _ hprocess hexited hconn hpers _ =>
      have hliving := sum_change (f := livingRank t) (g := livingRank s) hmem fun q hq => by
        rw [livingRank, livingRank, hexited, hprocess, Function.update_of_ne hq,
          Function.update_of_ne hq]
      have hself : livingRank s p = processRank (s.process p) := by
        rw [livingRank, halive]
        rfl
      have hself' : livingRank t p = 0 := by
        rw [livingRank, hexited, Function.update_self]
        rfl
      have hpos := processRank_pos (s.process p)
      unfold rank
      rw [hconn, hpers]
      omega
  | @closes k fifo _ hcloses hprocess hexited hpers _ =>
      have hliving : livingRank t = livingRank s := by
        funext q
        rw [livingRank, livingRank, hexited, hprocess]
      unfold rank
      rw [hliving]
      rcases closes_rank hcloses with ⟨rfl, hlt⟩ | ⟨hconn, hk, hlt⟩
      · rw [hpers, Function.update_eq_self]
        omega
      · have hmem' : k ∈ P := by
          rcases hk with rfl | hk
          · exact hmem
          · exact taken_mem h (opens_takes ((h.holds p).sends k hk))
        have hfifos := sum_change (f := fun q => fifoRank (t.pers q))
          (g := fun q => fifoRank (s.pers q)) hmem' fun q hq => by
            simp only [hpers, Function.update_of_ne hq]
        have hfifo : fifoRank (t.pers k) = fifoRank fifo := by rw [hpers, Function.update_self]
        simp only [hfifo] at hfifos
        rw [hconn]
        omega

theorem rank_start (role : Pid → Option (List Byte)) (P : Finset Pid) :
    rank P (State.start role) = ∑ p ∈ P, cost (role p) := by
  have hnone : ∑ p ∈ P, fifoRank ((State.start role).pers p) = 0 :=
    Finset.sum_eq_zero fun p _ => rfl
  have hconn : endsRank (State.start role).conn = 0 := rfl
  unfold rank
  rw [hnone, hconn, add_zero, add_zero]
  apply Finset.sum_congr rfl
  intro p _
  unfold livingRank State.start
  cases hp : role p with
  | none => simp [hp, processRank, readerRank, cost]
  | some file => simp [hp, processRank, writerRank, cost]

end

/-! ## Where it stops -/

/-- Nobody can go on, but for readers that may lose their patience. -/
def Rests (P : Finset Pid) (s : State) : Prop := ∀ e t, Moves P s e t → ∃ p, e = .timeout p

section
variable {role : Pid → Option (List Byte)} {P : Finset Pid} {s : State} {p q r : Pid}

theorem Rests.next (hrest : Rests P s) {e : Event} (hmem : mover e ∈ P) (hcalm : Calm e)
    (hno : ∀ p, e ≠ .timeout p) : s.next e = none := by
  cases hnext : s.next e with
  | none => rfl
  | some t =>
      obtain ⟨p, hp⟩ := hrest e t ⟨hnext, hmem, hcalm⟩
      exact absurd hp (hno p)

/-- Who has an end open is alive. -/
theorem Rests.living (h : Undisturbed role P s) (hrest : Rests P s)
    (hopen : q ∈ s.conn.readers ∨ q ∈ s.conn.writers ∨ q ∈ (s.pers r).writers) :
    s.exited q = false := by
  by_contra hq
  rw [Bool.not_eq_false] at hq
  have hstart := start_facts role
  rcases hopen with hopen | hopen | hopen
  · have hmem := mem_of_process h (q := q) (b := readsConn) (fun q => by
      unfold State.start
      cases hr : role q <;> simp [hr, readsConn]) ((h.holds q).reads.only hopen)
    have hnext := hrest.next (e := .closeConnRead q) hmem trivial (fun _ => Event.noConfusion)
    simp [State.next, hq, hopen] at hnext
  · have hmem := mem_of_process h (q := q) (b := writesConn) (fun q => by
      unfold State.start
      cases hr : role q <;> simp [hr, writesConn]) ((h.holds q).writes.only hopen)
    have hnext := hrest.next (e := .closeConnWrite q) hmem trivial (fun _ => Event.noConfusion)
    simp [State.next, hq, hopen] at hnext
  · have hmem := mem_of_process h (q := q) (b := fun x => (opens x).isSome)
      (fun q => by rw [(hstart q).2.2]; rfl) (by rw [(h.holds q).sends r hopen]; rfl)
    have hnext := hrest.next (e := .closePersWrite q r) hmem trivial (fun _ => Event.noConfusion)
    simp [State.next, hq, hopen] at hnext

theorem writer_rests (h : Undisturbed role P s) (hrest : Rests P s) (hmem : p ∈ P)
    (halive : s.exited p = false) {w : Writer} (hp : s.process p = .writer w) :
    (∃ seen, w.pc = .waitingConn seen) ∧ s.conn.writers = ∅ ∨
      w.pc = .readingPid ∧ s.conn.buf = [] ∧ s.conn.writers.Nonempty := by
  have hstep := hrest.next (e := .step p) hmem trivial (fun _ => Event.noConfusion)
  simp only [State.next, halive, Bool.false_eq_true, if_false, State.step, hp] at hstep
  cases hpc : w.pc with
  | waitingConn seen =>
      simp only [State.writerStep, hpc, ite_eq_right_iff, reduceCtorEq, imp_false] at hstep
      exact .inl ⟨⟨seen, rfl⟩, Finset.not_nonempty_iff_eq_empty.mp (not_or.mp hstep).1⟩
  | readingPid =>
      simp only [State.writerStep, hpc, Option.map_eq_none_iff, Fifo.read] at hstep
      split_ifs at hstep with hbuf hwriters
      exact .inr ⟨rfl, not_not.mp hbuf, hwriters⟩
  | reading =>
      have hsound := h.sound p halive
      rw [hp] at hsound
      have hpos : w.pos ≤ w.file.length := hsound
      have hread :=
        hrest.next (e := .readFile p (min PIPE_BUF (w.file.length - w.pos))) hmem trivial
        (fun _ => Event.noConfusion)
      have hbuf : PIPE_BUF = 4096 := rfl
      have hready : w.pc = .reading ∧ min PIPE_BUF (w.file.length - w.pos) ≤ PIPE_BUF ∧
          w.pos + min PIPE_BUF (w.file.length - w.pos) ≤ w.file.length ∧
          (min PIPE_BUF (w.file.length - w.pos) = 0 → w.pos = w.file.length) :=
        ⟨hpc, by omega, by omega, by omega⟩
      simp only [State.next, halive, Bool.false_eq_true, if_false, hp, State.readFile,
        if_pos hready] at hread
      split_ifs at hread
  | openingConn => simp [State.writerStep, hpc] at hstep
  | openingReader =>
      simp only [State.writerStep, hpc] at hstep
      split_ifs at hstep
  | greeting => simp [State.writerStep, hpc] at hstep
  | openingFile => simp [State.writerStep, hpc] at hstep
  | writing buf => simp [State.writerStep, hpc] at hstep

theorem reader_rests (h : Undisturbed role P s) (hrest : Rests P s) (hmem : p ∈ P)
    (halive : s.exited p = false) {r : Reader} (hp : s.process p = .reader r) :
    (∃ seen, r.pc = .waitingConn seen) ∧ s.conn.readers = ∅ ∨
      r.pc = .polling ∧ ¬ (s.pers p).Ready r.seen := by
  have hstep := hrest.next (e := .step p) hmem trivial (fun _ => Event.noConfusion)
  simp only [State.next, halive, Bool.false_eq_true, if_false, State.step, hp] at hstep
  have hblocked : ∀ n, (s.pers p).read n ≠ none := by
    intro n hread
    unfold Fifo.read at hread
    split_ifs at hread with hbuf hwriters
    obtain ⟨q, hq⟩ := hwriters
    have hliving := Rests.living h hrest (.inr (.inr hq))
    have hopens := (h.holds q).sends p hq
    cases hproc : s.process q with
    | reader _ => simp [hproc, opens] at hopens
    | writer w =>
        have hmemq : q ∈ P := mem_of_process h (b := fun x => (opens x).isSome)
          (fun q => by rw [(start_facts role q).2.2]; rfl) (by rw [hopens]; rfl)
        rcases writer_rests h hrest hmemq hliving hproc with ⟨⟨seen, hpc⟩, -⟩ | ⟨hpc, -⟩
        · simp [hproc, opens, hpc] at hopens
        · simp [hproc, opens, hpc] at hopens
  cases hpc : r.pc with
  | waitingConn seen =>
      simp only [State.readerStep, hpc, ite_eq_right_iff, reduceCtorEq, imp_false] at hstep
      exact .inl ⟨⟨seen, rfl⟩, Finset.not_nonempty_iff_eq_empty.mp (not_or.mp hstep).1⟩
  | polling =>
      simp only [State.readerStep, hpc, ite_eq_right_iff, reduceCtorEq, imp_false] at hstep
      exact .inr ⟨rfl, hstep⟩
  | greeting =>
      simp only [State.readerStep, hpc, Option.map_eq_none_iff] at hstep
      exact absurd hstep (hblocked 4)
  | reading =>
      simp only [State.readerStep, hpc, Option.map_eq_none_iff] at hstep
      exact absurd hstep (hblocked PIPE_BUF)
  | openingPers => simp [State.readerStep, hpc] at hstep
  | openingConn => simp [State.readerStep, hpc] at hstep
  | sending =>
      simp only [State.readerStep, hpc] at hstep
      split at hstep <;> cases hstep
  | printing buf => simp [State.readerStep, hpc] at hstep

end

/-! ## Before the first reader is served -/

/-- Some writer has opened the FIFO of a reader. -/
def Serves (s : State) : Prop := ∃ w r, opens (s.process w) = some r

/-- Who is behind its `open` of the connection has met somebody. -/
def Met (s : State) : Process → Prop
  | .reader r =>
      match r.pc with
      | .openingPers => True
      | .openingConn => True
      | .waitingConn seen => seen ≤ s.conn.readerOpens
      | _ => ∃ q, readsConn (s.process q) = true
  | .writer w =>
      match w.pc with
      | .openingConn => True
      | .waitingConn seen => seen ≤ s.conn.writerOpens
      | _ => ∃ q, writesConn (s.process q) = true

def numberOf (P : Finset Pid) (s : State) (b : Process → Bool) : ℕ :=
  ∑ p ∈ P, if b (s.process p) = true then 1 else 0

/-- Nobody has ended, and every pid that was sent is in the connection or was
taken. -/
structure Fresh (P : Finset Pid) (s : State) : Prop where
  alive : ∀ p, s.exited p = false
  readers : 0 < s.conn.readerOpens → ∃ q, readsConn (s.process q) = true
  writers : 0 < s.conn.writerOpens → ∃ q, writesConn (s.process q) = true
  met : ∀ p, Met s (s.process p)
  pids : s.conn.buf.length + 4 * numberOf P s (fun x => (takes x).isSome) =
    4 * numberOf P s hasSent

section
variable {role : Pid → Option (List Byte)} {P : Finset Pid} {s t : State} {p q : Pid}

theorem fresh_start (role : Pid → Option (List Byte)) (P : Finset Pid) :
    Fresh P (State.start role) where
  alive _ := rfl
  readers h := absurd h (lt_irrefl 0)
  writers h := absurd h (lt_irrefl 0)
  met p := by
    unfold State.start
    cases hp : role p <;> simp [hp, Met]
  pids := by
    have hnone : ∀ b : Process → Bool, (∀ p, b ((State.start role).process p) = false) →
        numberOf P (State.start role) b = 0 := fun b hb =>
      Finset.sum_eq_zero fun p _ => by rw [hb p]; rfl
    rw [hnone _ fun p => by rw [(start_facts role p).2.1]; rfl,
      hnone _ fun p => (start_facts role p).1]
    rfl

/-- What an act does to the opens of the connection. -/
theorem act_opens {k : Pid} {conn conn' f f' : Fifo Pid Byte} {x y : Process}
    (h : Act p conn k f x conn' f' y) :
    (conn'.readerOpens = conn.readerOpens ∨
      conn'.readerOpens = conn.readerOpens + 1 ∧ readsConn y = true) ∧
    (conn'.writerOpens = conn.writerOpens ∨
      conn'.writerOpens = conn.writerOpens + 1 ∧ writesConn y = true) := by
  cases h with
  | sendsPid _ hwrite =>
      obtain ⟨-, rfl⟩ := Fifo.write_eq_some hwrite
      exact ⟨.inl rfl, .inl rfl⟩
  | takesPid _ hread _ =>
      obtain ⟨-, rfl, -⟩ := Fifo.read_eq_some hread
      exact ⟨.inl rfl, .inl rfl⟩
  | opensConnRead _ => exact ⟨.inr ⟨rfl, rfl⟩, .inl rfl⟩
  | opensConnWrite _ => exact ⟨.inl rfl, .inr ⟨rfl, rfl⟩⟩
  | _ => exact ⟨.inl rfl, .inl rfl⟩

/-- What an act does to the pids. -/
theorem act_pids {k : Pid} {conn conn' f f' : Fifo Pid Byte} {x y : Process}
    (h : Act p conn k f x conn' f' y) {waiting : List Pid}
    (hconn : conn.buf = waiting.flatMap pidBytes) :
    conn'.buf.length + 4 * (if (takes y).isSome = true then 1 else 0) +
        4 * (if hasSent x = true then 1 else 0) =
      conn.buf.length + 4 * (if (takes x).isSome = true then 1 else 0) +
        4 * (if hasSent y = true then 1 else 0) := by
  cases h with
  | sendsPid hpc hwrite =>
      obtain ⟨-, rfl⟩ := Fifo.write_eq_some hwrite
      simp [takes, hasSent, polled, hpc, length_pidBytes]
  | @takesPid w _ _ _ hpc hread hne =>
      obtain ⟨rfl, rfl, -⟩ := Fifo.read_eq_some hread
      have hlength : conn.buf.length = 4 * waiting.length := by
        rw [hconn, List.length_flatMap]
        simp [length_pidBytes, mul_comm]
      have hpos : 0 < conn.buf.length := by
        refine List.length_pos_of_ne_nil fun hnil => hne ?_
        rw [hnil, List.take_nil]
      simp only [takes, hpc, hasSent, List.length_drop]
      simp
      omega
  | opensPers hpc => simp [takes, hasSent, polled, hpc]
  | opensConnWrite hpc => simp [takes, hasSent, polled, hpc]; rfl
  | meetsWriter hpc _ => simp [takes, hasSent, polled, hpc]
  | polls hpc _ => simp [takes, hasSent, polled, hpc]
  | greets hpc _ => simp [takes, hasSent, polled, hpc]
  | receives hpc _ _ => simp [takes, hasSent, polled, hpc]
  | prints hpc => simp [takes, hasSent, polled, hpc]
  | opensConnRead hpc => simp [takes, hasSent, hpc]; rfl
  | meetsReader hpc _ => simp [takes, hasSent, hpc]
  | opensReader hpc _ => simp [takes, hasSent, hpc]
  | sendsGreeting hpc _ => simp [takes, hasSent, hpc]
  | opensFile hpc => simp [takes, hasSent, hpc]
  | readsFile hpc _ _ => simp [takes, hasSent, hpc]
  | sendsData hpc _ => simp [takes, hasSent, hpc]

theorem numberOf_change {b : Process → Bool} {y : Process} (hp : p ∈ P)
    (hprocess : t.process = Function.update s.process p y) :
    numberOf P t b + (if b (s.process p) = true then 1 else 0) =
      numberOf P s b + (if b y = true then 1 else 0) := by
  have hsum := sum_change (f := fun q => if b (t.process q) = true then 1 else 0)
    (g := fun q => if b (s.process q) = true then 1 else 0) hp fun q hq => by
      simp only [hprocess, Function.update_of_ne hq]
  have hself : t.process p = y := by rw [hprocess, Function.update_self]
  simp only [hself] at hsum
  exact hsum

theorem Serves.turn (h : Serves s) (ht : Turn s p t) : Serves t := by
  obtain ⟨w, r, hw⟩ := h
  refine ⟨w, r, ?_⟩
  cases ht with
  | acts _ hact hprocess _ _ _ =>
      rw [hprocess]
      by_cases hwp : w = p
      · subst hwp
        rw [Function.update_self]
        rcases act_sends hact with ⟨hsame, -⟩ | ⟨hnone, -⟩
        · exact hsame.trans hw
        · rw [hnone] at hw
          cases hw
      · rwa [Function.update_of_ne hwp]
  | ends _ hends hprocess _ _ _ _ =>
      rw [hprocess]
      exact (set_same (s := s) opens (ends_same hends).2.2 w).trans hw
  | closes _ _ hprocess _ _ _ => rwa [hprocess]

/-- Nobody ends before some writer has opened the FIFO of a reader. -/
theorem Fresh.serves_of_ends (h : Fresh P s) (hs : Undisturbed role P s)
    (htime : ∀ r, s.process p = .reader r → r.pc ≠ .polling) {x : Process}
    (hends : Ends s p (s.process p) x) : Serves s := by
  have hmet := h.met p
  generalize hx : s.process p = y at hends hmet
  have htaken : ∀ q, takes y = some q → (s.pers q).readers.Nonempty := fun q hq =>
    ⟨q, hs.reader_of_taken (hx ▸ hq) (h.alive q)⟩
  cases hends with
  | timedOut hpc => exact absurd hpc (htime _ hx)
  | noWriter hpc hnone =>
      simp only [Met, hpc] at hmet
      obtain ⟨q, hq⟩ := hmet
      exact absurd ⟨q, (hs.holds q).reads.alive hq (h.alive q)⟩ hnone
  | readAll hpc _ _ =>
      obtain ⟨w, hw⟩ := (hs.inv.stream p).polled (by rw [hx]; simp [inlet, hpc, polled])
      exact ⟨w, p, hw⟩
  | noReader hpc hnone =>
      simp only [Met, hpc] at hmet
      obtain ⟨q, hq⟩ := hmet
      have hopen := (hs.holds q).writes.alive hq (h.alive q)
      rw [hnone] at hopen
      exact absurd hopen (Finset.notMem_empty q)
  | @readerGone w hpc hnone => exact absurd (htaken w.pid_r (by simp [takes, hpc])) hnone
  | @brokenPipe w hpc hnone =>
      refine ⟨p, w.pid_r, ?_⟩
      rw [hx]
      rcases hpc with hpc | ⟨buf, hpc⟩ <;> simp [opens, hpc]
  | @sentAll w hpc _ => exact ⟨p, w.pid_r, by rw [hx]; simp [opens, hpc]⟩

/-- What others have met stays. -/
theorem Met.mono {x : Process} (h : Met s x) (hreads : s.conn.readerOpens ≤ t.conn.readerOpens)
    (hwrites : s.conn.writerOpens ≤ t.conn.writerOpens)
    (hr : (∃ q, readsConn (s.process q) = true) → ∃ q, readsConn (t.process q) = true)
    (hw : (∃ q, writesConn (s.process q) = true) → ∃ q, writesConn (t.process q) = true) :
    Met t x := by
  cases x with
  | reader r =>
      cases hpc : r.pc with
      | openingPers => simp [Met, hpc]
      | openingConn => simp [Met, hpc]
      | waitingConn seen =>
          simp only [Met, hpc] at h ⊢
          exact h.trans hreads
      | _ =>
          simp only [Met, hpc] at h ⊢
          exact hr h
  | writer w =>
      cases hpc : w.pc with
      | openingConn => simp [Met, hpc]
      | waitingConn seen =>
          simp only [Met, hpc] at h ⊢
          exact h.trans hwrites
      | _ =>
          simp only [Met, hpc] at h ⊢
          exact hw h

/-- Who goes on behind its `open` has met somebody there. -/
theorem met_act {k : Pid} {f f' conn' : Fifo Pid Byte} {y : Process} (h : Fresh P s)
    (hs : Undisturbed role P s) (hact : Act p s.conn k f (s.process p) conn' f' y) : Met s y := by
  have hmet := h.met p
  generalize s.process p = x at hact hmet
  cases hact with
  | opensPers hpc => exact trivial
  | opensConnWrite hpc => exact le_refl s.conn.readerOpens
  | @meetsWriter r _ seen hpc hcame =>
      simp only [Met, hpc] at hmet
      rcases hcame with ⟨q, hq⟩ | hne
      · exact ⟨q, (hs.holds q).reads.only hq⟩
      · exact h.readers (by omega)
  | opensConnRead hpc => exact le_refl s.conn.writerOpens
  | @meetsReader w _ seen hpc hcame =>
      simp only [Met, hpc] at hmet
      rcases hcame with ⟨q, hq⟩ | hne
      · exact ⟨q, (hs.holds q).writes.only hq⟩
      · exact h.writers (by omega)
  | sendsPid hpc _ =>
      simp only [Met, hpc] at hmet
      exact hmet
  | polls hpc _ =>
      simp only [Met, hpc] at hmet
      exact hmet
  | greets hpc _ =>
      simp only [Met, hpc] at hmet
      exact hmet
  | receives hpc _ _ =>
      simp only [Met, hpc] at hmet
      exact hmet
  | prints hpc =>
      simp only [Met, hpc] at hmet
      exact hmet
  | takesPid hpc _ _ =>
      simp only [Met, hpc] at hmet
      exact hmet
  | opensReader hpc _ =>
      simp only [Met, hpc] at hmet
      exact hmet
  | sendsGreeting hpc _ =>
      simp only [Met, hpc] at hmet
      exact hmet
  | opensFile hpc =>
      simp only [Met, hpc] at hmet
      exact hmet
  | readsFile hpc _ _ =>
      simp only [Met, hpc] at hmet
      exact hmet
  | sendsData hpc _ =>
      simp only [Met, hpc] at hmet
      exact hmet

/-- An act of a process before the first reader is served. -/
theorem Fresh.act (h : Fresh P s) (hs : Undisturbed role P s) (hp : p ∈ P) {k : Pid}
    {fifo : Fifo Pid Byte} {y : Process}
    (hact : Act p s.conn k (s.pers k) (s.process p) t.conn fifo y)
    (hprocess : t.process = Function.update s.process p y) (hexited : t.exited = s.exited) :
    Fresh P t := by
  have hself : t.process p = y := by rw [hprocess, Function.update_self]
  have hkeep : ∀ {b : Process → Bool} {ends ends' : Finset Pid},
      b y = b (s.process p) ∧ ends' = ends ∨ b y = true ∧ ends' = insert p ends →
      (∃ q, b (s.process q) = true) → ∃ q, b (t.process q) = true := by
    rintro b ends ends' hb ⟨q, hq⟩
    by_cases hqp : q = p
    · subst hqp
      refine ⟨q, ?_⟩
      rw [hself]
      rcases hb with ⟨hsame, -⟩ | ⟨htrue, -⟩
      · exact hsame.trans hq
      · exact htrue
    · exact ⟨q, by rw [hprocess, Function.update_of_ne hqp, hq]⟩
  have hreads := hkeep (act_readers hact)
  have hwrites := hkeep (act_writers hact)
  obtain ⟨hopensR, hopensW⟩ := act_opens hact
  have hmono : ∀ {x : Process}, Met s x → Met t x := fun hx =>
    hx.mono (by omega) (by omega) hreads hwrites
  obtain ⟨waiting, hwaiting⟩ := hs.inv.pairing
  constructor
  case alive =>
    intro q
    rw [hexited]
    exact h.alive q
  case readers =>
    intro hpos
    rcases hopensR with hsame | ⟨-, htrue⟩
    · rw [hsame] at hpos
      exact hreads (h.readers hpos)
    · exact ⟨p, by rw [hself, htrue]⟩
  case writers =>
    intro hpos
    rcases hopensW with hsame | ⟨-, htrue⟩
    · rw [hsame] at hpos
      exact hwrites (h.writers hpos)
    · exact ⟨p, by rw [hself, htrue]⟩
  case met =>
    intro q
    by_cases hqp : q = p
    · subst hqp
      rw [hself]
      exact hmono (met_act h hs hact)
    · rw [hprocess, Function.update_of_ne hqp]
      exact hmono (h.met q)
  case pids =>
    have hpids := act_pids hact hwaiting.conn
    have htakes := numberOf_change (b := fun x => (takes x).isSome) hp hprocess
    have hsent := numberOf_change (b := hasSent) hp hprocess
    have hold := h.pids
    omega

/-- A reader that polls is not ended by a step of its own. -/
theorem polling_stays {e : Event} (hst : Step s e t) (htime : ∀ p, e ≠ .timeout p)
    (hcalm : Calm e) {r : Reader} (hp : s.process (mover e) = .reader r) (hpc : r.pc = .polling)
    (halive : s.exited (mover e) = false) : t.exited = s.exited := by
  unfold Step at hst
  cases e with
  | step p =>
      simp only [mover] at hp halive
      simp only [State.next, halive, Bool.false_eq_true, if_false, State.step, hp,
        State.readerStep, hpc] at hst
      split_ifs at hst
      cases hst
      rfl
  | readFile p size =>
      simp only [mover] at hp halive
      simp [State.next, halive, hp] at hst
  | timeout p => exact absurd rfl (htime p)
  | exit p => exact hcalm.elim
  | fail p => exact hcalm.elim
  | _ =>
      simp only [mover] at halive
      simp [State.next, halive] at hst

/-- As long as no reader loses its patience, somebody is served or nobody has
ended. -/
theorem serves_or_fresh (hs : Undisturbed role P s) (h : Serves s ∨ Fresh P s) {e : Event}
    (hst : Moves P s e t) (htime : ∀ p, e ≠ .timeout p) : Serves t ∨ Fresh P t := by
  obtain ⟨hstep, hmem, hcalm⟩ := hst
  have hturn := turn_of_step hstep hcalm
  rcases h with h | h
  · exact .inl (h.turn hturn)
  · have hpoll : t.exited ≠ s.exited → ∀ r, s.process (mover e) = .reader r → r.pc ≠ .polling :=
      fun hne r hp hpc => hne (polling_stays hstep htime hcalm hp hpc (h.alive _))
    generalize mover e = p at hmem hturn hpoll
    cases hturn with
    | acts _ hact hprocess hexited _ _ => exact .inr (h.act hs hmem hact hprocess hexited)
    | ends halive hends hprocess hexited hconn hpers hopened =>
        have hne : t.exited ≠ s.exited := by
          intro he
          have hp := congrFun he p
          rw [hexited, Function.update_self, halive] at hp
          cases hp
        exact .inl ((h.serves_of_ends hs (hpoll hne) hends).turn
          (.ends halive hends hprocess hexited hconn hpers hopened))
    | closes hp _ _ _ _ _ =>
        rw [h.alive p] at hp
        cases hp

/-- No reader has given up. -/
def Patience (s : State) : Prop :=
  ∀ p r, s.process p = .reader r → r.pc = .polling → s.exited p = false

theorem Patience.moves (h : Patience s) {e : Event} (hst : Moves P s e t)
    (htime : ∀ p, e ≠ .timeout p) : Patience t := by
  obtain ⟨hstep, -, hcalm⟩ := hst
  have hturn := turn_of_step hstep hcalm
  have hpoll : s.exited (mover e) = false → t.exited ≠ s.exited → ∀ r,
      s.process (mover e) = .reader r → r.pc ≠ .polling :=
    fun halive hne r hp hpc => hne (polling_stays hstep htime hcalm hp hpc halive)
  generalize mover e = p at hturn hpoll
  intro q r hq hpc
  cases hturn with
  | acts halive _ hprocess hexited _ _ =>
      rw [hexited]
      by_cases hqp : q = p
      · rwa [hqp]
      · rw [hprocess, Function.update_of_ne hqp] at hq
        exact h q r hq hpc
  | ends halive hends hprocess hexited _ _ _ =>
      by_cases hqp : q = p
      · subst hqp
        have hne : t.exited ≠ s.exited := by
          intro he
          have hp := congrFun he q
          rw [hexited, Function.update_self, halive] at hp
          cases hp
        rw [hprocess, Function.update_self] at hq
        subst hq
        generalize hx : s.process q = x at hends
        cases hends with
        | timedOut hold => exact absurd hold (hpoll halive hne _ hx)
        | noWriter hold _ => exact absurd hpc (hpoll halive hne _ hx)
        | readAll hold _ _ => exact absurd hpc (hpoll halive hne _ hx)
      · rw [hprocess, Function.update_of_ne hqp] at hq
        rw [hexited, Function.update_of_ne hqp]
        exact h q r hq hpc
  | closes _ _ hprocess hexited _ _ =>
      rw [hprocess] at hq
      rw [hexited]
      exact h q r hq hpc

/-! ## The end of a run -/

/-- Whoever of `P` has not ended waits in `open`, and for the same side. -/
def Waits (P : Finset Pid) (s : State) : Prop :=
  (∀ p ∈ P, s.exited p = false → ∃ r seen, s.process p = .reader r ∧ r.pc = .waitingConn seen) ∨
    ∀ p ∈ P, s.exited p = false → ∃ w seen, s.process p = .writer w ∧ w.pc = .waitingConn seen

/-- A reader has ended with a whole file printed. -/
def Delivers (role : Pid → Option (List Byte)) (s : State) : Prop :=
  ∃ p r q file, s.process p = .reader r ∧ s.exited p = true ∧ (q, p) ∈ s.opened ∧
    role q = some file ∧ r.out = file.map .byte

theorem conn_held (h : Undisturbed role P s) (halive : s.exited p = false) :
    (∀ r seen, s.process p = .reader r → r.pc = .waitingConn seen → p ∈ s.conn.writers) ∧
      ∀ w, s.process p = .writer w → w.pc ≠ .openingConn → p ∈ s.conn.readers := by
  refine ⟨fun r seen hp hpc => (h.holds p).writes.alive ?_ halive, fun w hp hpc =>
    (h.holds p).reads.alive ?_ halive⟩
  · simp [hp, writesConn, hpc]
  · simp [hp, readsConn, hpc]

theorem waits_of_stuck (h : Undisturbed role P s) (hstuck : ∀ e t, ¬ Moves P s e t) :
    Waits P s := by
  have hrest : Rests P s := fun e t hst => absurd hst (hstuck e t)
  have hreader : ∀ p ∈ P, s.exited p = false → ∀ r, s.process p = .reader r →
      (∃ seen, r.pc = .waitingConn seen) ∧ s.conn.readers = ∅ := by
    intro p hmem halive r hp
    rcases reader_rests h hrest hmem halive hp with hwaits | ⟨hpc, hready⟩
    · exact hwaits
    · have htimeout : s.next (.timeout p) = s.timeout p r := by
        simp only [State.next, halive, Bool.false_eq_true, if_false, hp]
      unfold State.timeout at htimeout
      rw [if_pos ⟨hpc, hready⟩] at htimeout
      exact absurd ⟨htimeout, hmem, trivial⟩ (hstuck (.timeout p) _)
  have hwriter : ∀ p ∈ P, s.exited p = false → ∀ w, s.process p = .writer w →
      (∃ seen, w.pc = .waitingConn seen) ∧ s.conn.writers = ∅ := by
    intro p hmem halive w hp
    rcases writer_rests h hrest hmem halive hp with hwaits | ⟨hpc, -, q, hq⟩
    · exact hwaits
    · have hq_alive := Rests.living (r := p) h hrest (.inr (.inl hq))
      have hwrites := (h.holds q).writes.only hq
      have hopen := (conn_held h halive).2 w hp (by rw [hpc]; exact WriterPc.noConfusion)
      have hq_mem := mem_of_process h (b := writesConn) (fun q => by
        unfold State.start
        cases hr : role q <;> simp [hr, writesConn]) hwrites
      cases hproc : s.process q with
      | writer _ => simp [hproc, writesConn] at hwrites
      | reader r =>
          rw [(hreader q hq_mem hq_alive r hproc).2] at hopen
          exact absurd hopen (Finset.notMem_empty p)
  by_cases hsome : ∃ q ∈ P, s.exited q = false ∧ ∃ w, s.process q = .writer w
  · obtain ⟨q, hq_mem, hq_alive, w, hq⟩ := hsome
    refine .inr fun p hmem halive => ?_
    cases hp : s.process p with
    | writer v =>
        obtain ⟨⟨seen, hpc⟩, -⟩ := hwriter p hmem halive v hp
        exact ⟨v, seen, rfl, hpc⟩
    | reader r =>
        obtain ⟨⟨seen, hpc⟩, -⟩ := hreader p hmem halive r hp
        have hopen := (conn_held h halive).1 r seen hp hpc
        rw [(hwriter q hq_mem hq_alive w hq).2] at hopen
        exact absurd hopen (Finset.notMem_empty p)
  · refine .inl fun p hmem halive => ?_
    cases hp : s.process p with
    | writer w => exact absurd ⟨p, hmem, halive, w, hp⟩ hsome
    | reader r =>
        obtain ⟨⟨seen, hpc⟩, -⟩ := hreader p hmem halive r hp
        exact ⟨r, seen, rfl, hpc⟩

/-- The reader whose FIFO was opened has its file. -/
theorem delivers_of_serves (h : Undisturbed role P s) (hrest : Rests P s) (hpatience : Patience s)
    (hserves : Serves s) : Delivers role s := by
  obtain ⟨w, p, hw⟩ := hserves
  obtain ⟨waiting, hwaiting⟩ := h.inv.pairing
  have hsent := (hwaiting.taken w p (opens_takes hw)).1
  have hp_mem := reader_mem h hsent
  have hw_mem := mem_of_process h (q := w) (b := fun x => (opens x).isSome)
    (fun q => by rw [(start_facts role q).2.2]; rfl) (by rw [hw]; rfl)
  cases hproc : s.process w with
  | reader _ => simp [hproc, opens] at hw
  | writer v =>
      have hw_ended : s.exited w = true := by
        by_contra hlives
        rcases writer_rests h hrest hw_mem (Bool.eq_false_iff.mpr hlives) hproc with
          ⟨⟨seen, hpc⟩, -⟩ | ⟨hpc, -⟩
        · simp [hproc, opens, hpc] at hw
        · simp [hproc, opens, hpc] at hw
      cases hp : s.process p with
      | writer _ => simp [hp, hasSent] at hsent
      | reader r =>
          have hp_ended : s.exited p = true := by
            by_contra hlives
            rw [Bool.not_eq_true] at hlives
            rcases reader_rests h hrest hp_mem hlives hp with ⟨⟨seen, hpc⟩, -⟩ | ⟨hpc, hready⟩
            · simp [hp, hasSent, polled, hpc] at hsent
            · refine hready (.inl fun hnil => ?_)
              have hstream := h.inv.stream p
              have hok := h.inv.ok p
              rw [hp] at hstream hok
              obtain ⟨htemp, hgot⟩ := inlet_fresh hok (by simp [inlet, hpc, greeted])
              have hsends := hstream.stream (hstream.held (by simp [inlet, hpc]) hlives) w hw
              rw [htemp, hgot, hnil, h.whole hw hw_ended hlives] at hsends
              cases hsends
          have hending := h.ending p hp_ended
          rw [hp] at hending
          rcases hending with ⟨hpc, -⟩ | ⟨hpc, -⟩ | ⟨-, q, file, hmem, hrole, hout⟩
          · rw [hpatience p r hp hpc] at hp_ended
            cases hp_ended
          · simp [hp, hasSent, polled, hpc] at hsent
          · exact ⟨p, r, q, file, hp, hp_ended, hmem, hrole, hout⟩

/-- A reader and a writer that are both there meet. -/
theorem not_fresh (h : Undisturbed role P s) (hrest : Rests P s) (hfresh : Fresh P s)
    (hp : p ∈ P) (hreader : role p = none) (hq : q ∈ P) {bytes : List Byte}
    (hwriter : role q = some bytes) : False := by
  have hrole := h.inv.role p
  have hrole' := h.inv.role q
  cases hproc : s.process p with
  | writer w => simp [hproc, hreader, roleOf] at hrole
  | reader r =>
      cases hproc' : s.process q with
      | reader _ => simp [hproc', hwriter, roleOf] at hrole'
      | writer w =>
          have hrests := writer_rests h hrest hq (hfresh.alive q) hproc'
          have hopen : q ∈ s.conn.readers := (conn_held h (hfresh.alive q)).2 w hproc' (by
            rcases hrests with ⟨⟨seen, hpc⟩, -⟩ | ⟨hpc, -⟩ <;>
              (rw [hpc]; exact WriterPc.noConfusion))
          have hpolls : r.pc = .polling := by
            rcases reader_rests h hrest hp (hfresh.alive p) hproc with ⟨-, hnone⟩ | ⟨hpc, -⟩
            · rw [hnone] at hopen
              exact absurd hopen (Finset.notMem_empty q)
            · exact hpc
          have hopen' := (h.holds p).writes.alive (by simp [hproc, writesConn, hpolls])
            (hfresh.alive p)
          have hempty : s.conn.buf = [] := by
            rcases hrests with ⟨-, hnone⟩ | ⟨-, hempty, -⟩
            · rw [hnone] at hopen'
              exact absurd hopen' (Finset.notMem_empty p)
            · exact hempty
          have hsent : 0 < numberOf P s hasSent :=
            Finset.sum_pos' (fun _ _ => Nat.zero_le _)
              ⟨p, hp, by simp [hproc, hasSent, hpolls]⟩
          have htaken : numberOf P s (fun x => (takes x).isSome) = 0 := by
            refine Finset.sum_eq_zero fun v hv => if_neg ?_
            cases hprocv : s.process v with
            | reader _ => simp [takes]
            | writer u =>
                rcases writer_rests h hrest hv (hfresh.alive v) hprocv with
                  ⟨⟨seen, hpc⟩, -⟩ | ⟨hpc, -⟩ <;> simp [takes, hpc]
          have hpids := hfresh.pids
          rw [hempty, htaken] at hpids
          simp at hpids
          omega

end

/-- Runs of the processes `P` that nobody disturbs end after a bounded number of
steps. A reader that ends has printed a whole file unless it gave up or met a
connection without a writer; at the end nobody is left but those who wait for
somebody of the other kind, and when no reader gave up some reader was served. -/
theorem fifos_complete {role : Pid → Option (List Byte)} {P : Finset Pid}
    {trace : List (Event × State)} (h : Path Step (State.start role) trace)
    (hcalm : ∀ x ∈ trace, mover x.1 ∈ P ∧ Calm x.1) :
    trace.length ≤ ∑ p ∈ P, cost (role p) ∧
      (∀ p, (final (State.start role) trace).exited p = true →
        Ending role (final (State.start role) trace) p
          ((final (State.start role) trace).process p)) ∧
      ((∀ e t, ¬ Moves P (final (State.start role) trace) e t) →
        Waits P (final (State.start role) trace)) ∧
      ((∀ x ∈ trace, ∀ p, x.1 ≠ .timeout p) → Rests P (final (State.start role) trace) →
        (∃ p ∈ P, role p = none) → (∃ q ∈ P, ∃ file, role q = some file) →
        Delivers role (final (State.start role) trace)) := by
  have hmoves : ∀ m ∈ moves (State.start role) trace, mover m.2 ∈ P ∧ Calm m.2 :=
    (forall_moves_iff (P := fun e => mover e ∈ P ∧ Calm e)).mpr hcalm
  have hsteps : ∀ s e t, Undisturbed role P s → mover e ∈ P ∧ Calm e → Step s e t →
      Undisturbed role P t ∧ rank P t < rank P s := fun s e t hs hm hst =>
    ⟨hs.moves ⟨hst, hm⟩, rank_lt hs ⟨hst, hm⟩⟩
  obtain ⟨hfinal, hlength⟩ := h.length_le (rank P) hsteps (undisturbed_start role P) hmoves
  rw [rank_start] at hlength
  refine ⟨by omega, hfinal.ending, waits_of_stuck hfinal, fun htime hrest hreader hwriter => ?_⟩
  have htimes : ∀ m ∈ moves (State.start role) trace,
      (mover m.2 ∈ P ∧ Calm m.2) ∧ ∀ p, m.2 ≠ .timeout p :=
    (forall_moves_iff (P := fun e => (mover e ∈ P ∧ Calm e) ∧ ∀ p, e ≠ .timeout p)).mpr
      fun x hx => ⟨hcalm x hx, htime x hx⟩
  have hstart : Undisturbed role P (State.start role) ∧ Patience (State.start role) ∧
      (Serves (State.start role) ∨ Fresh P (State.start role)) :=
    ⟨undisturbed_start role P, fun _ _ _ _ => rfl, .inr (fresh_start role P)⟩
  have hkept : ∀ s e t, (Undisturbed role P s ∧ Patience s ∧ (Serves s ∨ Fresh P s)) →
      ((mover e ∈ P ∧ Calm e) ∧ ∀ p, e ≠ .timeout p) → Step s e t →
      Undisturbed role P t ∧ Patience t ∧ (Serves t ∨ Fresh P t) := fun s e t hs hm hst =>
    ⟨hs.1.moves ⟨hst, hm.1⟩, hs.2.1.moves ⟨hst, hm.1⟩ hm.2,
      serves_or_fresh hs.1 hs.2.2 ⟨hst, hm.1⟩ hm.2⟩
  obtain ⟨-, hpatience, hserves⟩ := final_of_forall
    (P := fun s => Undisturbed role P s ∧ Patience s ∧ (Serves s ∨ Fresh P s)) hstart
    (h.invariant_of_moves hkept hstart htimes)
  obtain ⟨p, hp, hrole⟩ := hreader
  obtain ⟨q, hq, file, hrole'⟩ := hwriter
  rcases hserves with hserves | hfresh
  · exact delivers_of_serves hfinal hrest hpatience hserves
  · exact (not_fresh hfinal hrest hfresh hp hrole hq hrole').elim

/-- A reader and a writer of three bytes. -/
theorem fifos_complete_two :
    let role : Pid → Option (List Byte) := fun p => if p = 7 then none else some [1, 2, 3]
    let trace := walk State.next (State.start role)
      [.step 7, .step 7, .step 8, .step 8, .step 7, .step 7, .step 8, .step 8, .step 8, .step 8,
        .readFile 8 3, .step 8, .step 7, .step 7, .step 7, .step 7]
    trace.length ≤ ∑ p ∈ {7, 8}, cost (role p) ∧
      (∀ p, (final (State.start role) trace).exited p = true →
        Ending role (final (State.start role) trace) p
          ((final (State.start role) trace).process p)) ∧
      ((∀ e t, ¬ Moves {7, 8} (final (State.start role) trace) e t) →
        Waits {7, 8} (final (State.start role) trace)) ∧
      ((∀ x ∈ trace, ∀ p, x.1 ≠ .timeout p) → Rests {7, 8} (final (State.start role) trace) →
        (∃ p ∈ ({7, 8} : Finset Pid), role p = none) →
        (∃ q ∈ ({7, 8} : Finset Pid), ∃ file, role q = some file) →
        Delivers role (final (State.start role) trace)) := by
  intro role trace
  refine fifos_complete (path_walk State.next _ _) fun x hx => ?_
  have hevent := mem_walk hx
  generalize x.1 = e at hevent
  simp only [List.mem_cons, List.not_mem_nil, or_false] at hevent
  rcases hevent with rfl | rfl | rfl | rfl | rfl | rfl | rfl | rfl | rfl | rfl | rfl | rfl | rfl |
    rfl | rfl | rfl <;> exact ⟨by decide, trivial⟩

end TaskLunev.SuperFifoCompletion
