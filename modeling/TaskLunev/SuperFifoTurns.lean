import TaskLunev.SuperFifoStreams

/-!
# The steps of an undisturbed run

Runs in which nobody is killed and no call fails, and in which only some of the
pids belong to a process. What a process does in a step that it survives is a
relation between itself, the connection and one FIFO, before and after. All the
others of the steps are its end, and the kernel's closing of what it has open.
-/
namespace TaskLunev.SuperFifoTurns
open ByteMemory NamedPipe SuperFifoModel

/-- The process that moves, or whose end is closed. -/
def mover : Event → Pid
  | .step p => p
  | .timeout p => p
  | .readFile p _ => p
  | .exit p => p
  | .fail p => p
  | .closeConnRead p => p
  | .closeConnWrite p => p
  | .closePersRead p => p
  | .closePersWrite p _ => p

/-- Neither a kill nor a call that fails. -/
def Calm : Event → Prop
  | .exit _ => False
  | .fail _ => False
  | _ => True

/-- A calm step of one of the processes there are. -/
def Moves (P : Finset Pid) (s : State) (e : Event) (t : State) : Prop :=
  Step s e t ∧ mover e ∈ P ∧ Calm e

/-- What the process `p` does when it goes on: the connection, the FIFO of some
pid and the process, and the three of them afterwards. -/
inductive Act (p : Pid) (conn : Fifo Pid Byte) : Pid → Fifo Pid Byte → Process →
    Fifo Pid Byte → Fifo Pid Byte → Process → Prop
  | opensPers {r : Reader} {f : Fifo Pid Byte} : r.pc = .openingPers →
      Act p conn p f (.reader r) conn (f.openRead p)
        (.reader { r with pc := .openingConn, seen := f.writerOpens })
  | opensConnWrite {r : Reader} {f : Fifo Pid Byte} : r.pc = .openingConn →
      Act p conn p f (.reader r) (conn.openWrite p) f
        (.reader { r with pc := .waitingConn conn.readerOpens })
  | meetsWriter {r : Reader} {f : Fifo Pid Byte} {seen : ℕ} : r.pc = .waitingConn seen →
      conn.readers.Nonempty ∨ conn.readerOpens ≠ seen →
      Act p conn p f (.reader r) conn f (.reader { r with pc := .sending })
  | sendsPid {r : Reader} {f conn' : Fifo Pid Byte} : r.pc = .sending →
      conn.write (pidBytes p) = some conn' →
      Act p conn p f (.reader r) conn' f (.reader { r with pc := .polling })
  | polls {r : Reader} {f : Fifo Pid Byte} : r.pc = .polling → f.Ready r.seen →
      Act p conn p f (.reader r) conn f (.reader { r with pc := .greeting })
  | greets {r : Reader} {f f' : Fifo Pid Byte} {temp : List Byte} : r.pc = .greeting →
      f.read 4 = some (temp, f') →
      Act p conn p f (.reader r) conn f' (.reader { r with pc := .reading, temp })
  | receives {r : Reader} {f f' : Fifo Pid Byte} {buf : List Byte} : r.pc = .reading →
      f.read PIPE_BUF = some (buf, f') → buf ≠ [] →
      Act p conn p f (.reader r) conn f' (.reader { r with pc := .printing buf })
  | prints {r : Reader} {f : Fifo Pid Byte} {buf : List Byte} : r.pc = .printing buf →
      Act p conn p f (.reader r) conn f
        (.reader { r with pc := .reading, out := r.out ++ buf.map .byte })
  | opensConnRead {w : Writer} {f : Fifo Pid Byte} : w.pc = .openingConn →
      Act p conn p f (.writer w) (conn.openRead p) f
        (.writer { w with pc := .waitingConn conn.writerOpens })
  | meetsReader {w : Writer} {f : Fifo Pid Byte} {seen : ℕ} : w.pc = .waitingConn seen →
      conn.writers.Nonempty ∨ conn.writerOpens ≠ seen →
      Act p conn p f (.writer w) conn f (.writer { w with pc := .readingPid })
  | takesPid {w : Writer} {f conn' : Fifo Pid Byte} {bytes : List Byte} : w.pc = .readingPid →
      conn.read 4 = some (bytes, conn') → bytes ≠ [] →
      Act p conn p f (.writer w) conn' f
        (.writer { w with pc := .openingReader, pid_r := pidOfBytes bytes })
  | opensReader {w : Writer} {f : Fifo Pid Byte} : w.pc = .openingReader →
      f.readers.Nonempty →
      Act p conn w.pid_r f (.writer w) conn (f.openWrite p) (.writer { w with pc := .greeting })
  | sendsGreeting {w : Writer} {f f' : Fifo Pid Byte} : w.pc = .greeting →
      f.write greetingBytes = some f' →
      Act p conn w.pid_r f (.writer w) conn f' (.writer { w with pc := .openingFile })
  | opensFile {w : Writer} {f : Fifo Pid Byte} : w.pc = .openingFile →
      Act p conn p f (.writer w) conn f (.writer { w with pc := .reading })
  | readsFile {w : Writer} {f : Fifo Pid Byte} {size : ℕ} : w.pc = .reading → 0 < size →
      w.pos + size ≤ w.file.length →
      Act p conn p f (.writer w) conn f (.writer
        { w with pc := .writing ((w.file.drop w.pos).take size), pos := w.pos + size })
  | sendsData {w : Writer} {f f' : Fifo Pid Byte} {buf : List Byte} : w.pc = .writing buf →
      f.write buf = some f' →
      Act p conn w.pid_r f (.writer w) conn f' (.writer { w with pc := .reading })

/-- How a process ends, with what it is behind its last step. -/
inductive Ends (s : State) (p : Pid) : Process → Process → Prop
  | timedOut {r : Reader} : r.pc = .polling →
      Ends s p (.reader r) (.reader { r with out := r.out ++ [.writerNotFound] })
  | noWriter {r : Reader} : r.pc = .sending → ¬ s.conn.readers.Nonempty →
      Ends s p (.reader r) (.reader r)
  | readAll {r : Reader} : r.pc = .reading → (s.pers p).buf = [] → (s.pers p).writers = ∅ →
      Ends s p (.reader r) (.reader r)
  | noReader {w : Writer} : w.pc = .readingPid → s.conn.writers = ∅ →
      Ends s p (.writer w) (.writer w)
  | readerGone {w : Writer} : w.pc = .openingReader → ¬ (s.pers w.pid_r).readers.Nonempty →
      Ends s p (.writer w) (.writer w)
  | brokenPipe {w : Writer} : (w.pc = .greeting ∨ ∃ buf, w.pc = .writing buf) →
      ¬ (s.pers w.pid_r).readers.Nonempty → Ends s p (.writer w) (.writer w)
  | sentAll {w : Writer} : w.pc = .reading → w.pos = w.file.length →
      Ends s p (.writer w) (.writer w)

/-- The kernel closes an end of `p`: of the connection, or of the FIFO of `k`. -/
inductive Closes (s : State) (p k : Pid) : Fifo Pid Byte → Fifo Pid Byte → Prop
  | connRead : p ∈ s.conn.readers → Closes s p k (s.conn.closeRead p) (s.pers k)
  | connWrite : p ∈ s.conn.writers → Closes s p k (s.conn.closeWrite p) (s.pers k)
  | persRead : p ∈ (s.pers k).readers → k = p → Closes s p k s.conn ((s.pers k).closeRead p)
  | persWrite : p ∈ (s.pers k).writers → Closes s p k s.conn ((s.pers k).closeWrite p)

/-- A calm step of the process `p`. -/
inductive Turn (s : State) (p : Pid) (t : State) : Prop
  | acts {k : Pid} {x : Process} {fifo : Fifo Pid Byte} : s.exited p = false →
      Act p s.conn k (s.pers k) (s.process p) t.conn fifo x →
      t.process = Function.update s.process p x → t.exited = s.exited →
      t.pers = Function.update s.pers k fifo → (∀ z ∈ s.opened, z ∈ t.opened) → Turn s p t
  | ends {x : Process} : s.exited p = false → Ends s p (s.process p) x →
      t.process = Function.update s.process p x → t.exited = Function.update s.exited p true →
      t.conn = s.conn → t.pers = s.pers → t.opened = s.opened → Turn s p t
  | closes {k : Pid} {fifo : Fifo Pid Byte} : s.exited p = true →
      Closes s p k t.conn fifo → t.process = s.process → t.exited = s.exited →
      t.pers = Function.update s.pers k fifo → t.opened = s.opened → Turn s p t

section
variable {s t : State} {p : Pid}

/-- A step of `p` on the connection and its own FIFO. -/
theorem Turn.own {x : Process} {conn fifo : Fifo Pid Byte} (halive : s.exited p = false)
    (h : Act p s.conn p (s.pers p) (s.process p) conn fifo x) :
    Turn s p (({ s with conn }.setPers p fifo).set p x) :=
  .acts halive h rfl rfl rfl fun _ hz => hz

/-- A step of `p` on the connection alone. -/
theorem Turn.onConn {x : Process} {conn : Fifo Pid Byte} (halive : s.exited p = false)
    (h : Act p s.conn p (s.pers p) (s.process p) conn (s.pers p) x) :
    Turn s p ({ s with conn }.set p x) :=
  .acts halive h rfl rfl (Function.update_eq_self p s.pers).symm fun _ hz => hz

/-- A process that ends as it stands. -/
theorem Turn.exit (halive : s.exited p = false) (h : Ends s p (s.process p) (s.process p)) :
    Turn s p (s.exit p) :=
  .ends halive h (Function.update_eq_self p s.process).symm rfl rfl rfl rfl

theorem readerStep_turn {r : Reader} (hp : s.process p = .reader r) (halive : s.exited p = false)
    (ht : s.readerStep p r = some t) : Turn s p t := by
  cases hpc : r.pc with
  | openingPers =>
      simp only [State.readerStep, hpc] at ht
      cases ht
      exact .own halive (hp ▸ .opensPers hpc)
  | openingConn =>
      simp only [State.readerStep, hpc] at ht
      cases ht
      exact .onConn halive (hp ▸ .opensConnWrite hpc)
  | waitingConn seen =>
      simp only [State.readerStep, hpc] at ht
      split_ifs at ht with hcame
      cases ht
      exact .onConn halive (hp ▸ .meetsWriter hpc hcame)
  | sending =>
      simp only [State.readerStep, hpc] at ht
      split at ht
      next conn hconn =>
        cases ht
        exact .onConn halive (hp ▸ .sendsPid hpc hconn)
      next hconn =>
        cases ht
        refine .exit halive (hp ▸ .noWriter hpc ?_)
        unfold Fifo.write at hconn
        split_ifs at hconn with hreaders
        exact hreaders
  | polling =>
      simp only [State.readerStep, hpc] at ht
      split_ifs at ht with hready
      cases ht
      exact .onConn halive (hp ▸ .polls hpc hready)
  | greeting =>
      simp only [State.readerStep, hpc] at ht
      obtain ⟨⟨temp, fifo⟩, hread, rfl⟩ := Option.map_eq_some_iff.mp ht
      exact .own halive (hp ▸ .greets hpc hread)
  | reading =>
      simp only [State.readerStep, hpc] at ht
      obtain ⟨⟨buf, fifo⟩, hread, rfl⟩ := Option.map_eq_some_iff.mp ht
      split_ifs with hbuf
      · subst hbuf
        obtain ⟨htake, -, hwriters⟩ := Fifo.read_eq_some hread
        have hempty : (s.pers p).buf = [] := by
          rcases List.take_eq_nil_iff.mp htake.symm with hzero | hempty
          · exact absurd hzero (by decide)
          · exact hempty
        exact .exit halive (hp ▸ .readAll hpc hempty (hwriters hempty))
      · exact .own halive (hp ▸ .receives hpc hread hbuf)
  | printing buf =>
      simp only [State.readerStep, hpc] at ht
      cases ht
      exact .onConn halive (hp ▸ .prints hpc)

/-- A write to the reader, or the end by `SIGPIPE`. -/
theorem send_turn {w : Writer} {bytes : List Byte} {pc : WriterPc} (hp : s.process p = .writer w)
    (halive : s.exited p = false) (hpc : w.pc = .greeting ∨ ∃ buf, w.pc = .writing buf)
    (hact : ∀ fifo, (s.pers w.pid_r).write bytes = some fifo →
      Act p s.conn w.pid_r (s.pers w.pid_r) (.writer w) s.conn fifo (.writer { w with pc })) :
    Turn s p (s.send p w bytes pc) := by
  unfold State.send
  split
  next fifo hwrite => exact .acts halive (hp ▸ hact fifo hwrite) rfl rfl rfl fun _ hz => hz
  next hwrite =>
    refine .exit halive (hp ▸ .brokenPipe hpc ?_)
    unfold Fifo.write at hwrite
    split_ifs at hwrite with hreaders
    exact hreaders

theorem writerStep_turn {w : Writer} (hp : s.process p = .writer w) (halive : s.exited p = false)
    (ht : s.writerStep p w = some t) : Turn s p t := by
  cases hpc : w.pc with
  | openingConn =>
      simp only [State.writerStep, hpc] at ht
      cases ht
      exact .onConn halive (hp ▸ .opensConnRead hpc)
  | waitingConn seen =>
      simp only [State.writerStep, hpc] at ht
      split_ifs at ht with hcame
      cases ht
      exact .onConn halive (hp ▸ .meetsReader hpc hcame)
  | readingPid =>
      simp only [State.writerStep, hpc] at ht
      obtain ⟨⟨bytes, conn⟩, hread, rfl⟩ := Option.map_eq_some_iff.mp ht
      simp only
      split_ifs with hbytes
      · subst hbytes
        obtain ⟨htake, -, hwriters⟩ := Fifo.read_eq_some hread
        refine .exit halive (hp ▸ .noReader hpc (hwriters ?_))
        rcases List.take_eq_nil_iff.mp htake.symm with hzero | hempty
        · exact absurd hzero (by decide)
        · exact hempty
      · exact .onConn halive (hp ▸ .takesPid hpc hread hbytes)
  | openingReader =>
      simp only [State.writerStep, hpc] at ht
      split_ifs at ht with hreaders
      · cases ht
        exact .acts halive (hp ▸ .opensReader hpc hreaders) rfl rfl rfl fun _ hz =>
          List.mem_append_left _ hz
      · cases ht
        exact .exit halive (hp ▸ .readerGone hpc hreaders)
  | greeting =>
      simp only [State.writerStep, hpc] at ht
      cases ht
      exact send_turn hp halive (.inl hpc) fun _ hwrite => .sendsGreeting hpc hwrite
  | openingFile =>
      simp only [State.writerStep, hpc] at ht
      cases ht
      exact .onConn halive (hp ▸ .opensFile hpc)
  | reading => simp [State.writerStep, hpc] at ht
  | writing buf =>
      simp only [State.writerStep, hpc] at ht
      cases ht
      exact send_turn hp halive (.inr ⟨buf, hpc⟩) fun _ hwrite => .sendsData hpc hwrite

theorem readFile_turn {w : Writer} {size : ℕ} (hp : s.process p = .writer w)
    (halive : s.exited p = false) (ht : s.readFile p w size = some t) : Turn s p t := by
  unfold State.readFile at ht
  split_ifs at ht with hread hsize
  · cases ht
    exact .exit halive (hp ▸ .sentAll hread.1 (hread.2.2.2 hsize))
  · obtain ⟨hpc, -, hle, -⟩ := hread
    cases ht
    exact .onConn halive (hp ▸ .readsFile hpc (Nat.pos_of_ne_zero hsize) hle)

/-- The steps are those listed. -/
theorem turn_of_step {e : Event} (h : Step s e t) (hcalm : Calm e) : Turn s (mover e) t := by
  unfold Step at h
  cases e with
  | step p =>
      simp only [State.next, State.step] at h
      split_ifs at h with hexited
      rw [Bool.not_eq_true] at hexited
      split at h
      next r hp => exact readerStep_turn hp hexited h
      next w hp => exact writerStep_turn hp hexited h
  | timeout p =>
      simp only [State.next] at h
      split_ifs at h with hexited
      rw [Bool.not_eq_true] at hexited
      split at h
      next r hp =>
        unfold State.timeout at h
        split_ifs at h with hpoll
        cases h
        exact .ends hexited (hp ▸ .timedOut hpoll.1) rfl rfl rfl rfl rfl
      next => cases h
  | readFile p size =>
      simp only [State.next] at h
      split_ifs at h with hexited
      rw [Bool.not_eq_true] at hexited
      split at h
      next => cases h
      next w hp => exact readFile_turn hp hexited h
  | exit p => exact hcalm.elim
  | fail p => exact hcalm.elim
  | closeConnRead p =>
      simp only [State.next] at h
      split_ifs at h with hclose
      cases h
      exact .closes hclose.1 (.connRead hclose.2) rfl rfl
        (Function.update_eq_self p s.pers).symm rfl
  | closeConnWrite p =>
      simp only [State.next] at h
      split_ifs at h with hclose
      cases h
      exact .closes hclose.1 (.connWrite hclose.2) rfl rfl
        (Function.update_eq_self p s.pers).symm rfl
  | closePersRead p =>
      simp only [State.next] at h
      split_ifs at h with hclose
      cases h
      exact .closes hclose.1 (.persRead hclose.2 rfl) rfl rfl rfl rfl
  | closePersWrite p r =>
      simp only [State.next] at h
      split_ifs at h with hclose
      cases h
      exact .closes hclose.1 (.persWrite hclose.2) rfl rfl rfl rfl

end

end TaskLunev.SuperFifoTurns
