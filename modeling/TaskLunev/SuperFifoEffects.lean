import TaskLunev.SuperFifoModel

/-!
# What a step does to the pairing of readers and writers

Most steps of a process are of no account to the others. What the others and
the FIFOs can tell of a process is here: how far a reader is with its FIFO and
what it has received, which pid a writer has taken, whether it has opened that
FIFO and what it has sent. The steps that change any of it are listed once.
-/
namespace TaskLunev.SuperFifoEffects
open ByteMemory NamedPipe SuperFifoModel

/-! ## The side of a reader -/

/-- A reader that has opened its FIFO, that has seen an event there, and that is
behind its greeting; what it read as the greeting, and the bytes it received. -/
structure Inlet where
  holds : Bool
  polled : Bool
  greeted : Bool
  seen : ℕ
  temp : List Byte
  got : List Byte

def pending : ReaderPc → List Byte
  | .printing buf => buf
  | _ => []

def polled : ReaderPc → Bool
  | .greeting => true
  | .reading => true
  | .printing _ => true
  | _ => false

def greeted : ReaderPc → Bool
  | .reading => true
  | .printing _ => true
  | _ => false

def inlet : Process → Inlet
  | .reader r =>
      { holds := decide (r.pc ≠ .openingPers)
        polled := polled r.pc
        greeted := greeted r.pc
        seen := r.seen
        temp := r.temp
        got := data r.out ++ pending r.pc }
  | .writer _ => ⟨false, false, false, 0, [], []⟩

/-- A reader that has sent its pid. -/
def hasSent : Process → Bool
  | .reader r => decide (r.pc = .polling) || polled r.pc
  | .writer _ => false

/-! ## The side of a writer -/

/-- The pid that a writer has taken. -/
def takes : Process → Option Pid
  | .reader _ => none
  | .writer w =>
      match w.pc with
      | .openingConn => none
      | .waitingConn _ => none
      | .readingPid => none
      | _ => some w.pid_r

/-- The pid whose FIFO a writer has opened. -/
def opens : Process → Option Pid
  | .reader _ => none
  | .writer w =>
      match w.pc with
      | .openingConn => none
      | .waitingConn _ => none
      | .readingPid => none
      | .openingReader => none
      | _ => some w.pid_r

/-- What a writer has sent to the FIFO. -/
def sends : Process → List Byte
  | .reader _ => []
  | .writer w =>
      match w.pc with
      | .openingFile => greetingBytes ++ w.file.take w.pos
      | .reading => greetingBytes ++ w.file.take w.pos
      | .writing buf => greetingBytes ++ w.file.take (w.pos - buf.length)
      | _ => []

def roleOf : Process → Option (List Byte)
  | .reader _ => none
  | .writer w => some w.file

def file : Process → List Byte
  | .reader _ => []
  | .writer w => w.file

/-- A reader has received nothing before its greeting. A writer has read nothing
before it has opened its file, and what it is about to send ends at its offset. -/
def Ok : Process → Prop
  | .reader r => greeted r.pc = false → r.temp = [] ∧ data r.out = []
  | .writer w =>
      match w.pc with
      | .reading => True
      | .writing buf => w.file.take (w.pos - buf.length) ++ buf = w.file.take w.pos
      | _ => w.pos = 0

theorem opens_takes {x : Process} {r : Pid} (h : opens x = some r) : takes x = some r := by
  cases x with
  | reader _ => cases h
  | writer w =>
      unfold opens at h
      unfold takes
      cases hpc : w.pc <;> simp_all

/-- A writer sends nothing, or the greeting and a part of its file. -/
theorem sends_eq (x : Process) :
    sends x = [] ∨ ∃ k, sends x = greetingBytes ++ (file x).take k := by
  cases x with
  | reader _ => exact .inl rfl
  | writer w =>
      simp only [sends, file]
      cases hpc : w.pc with
      | openingFile => exact .inr ⟨w.pos, rfl⟩
      | reading => exact .inr ⟨w.pos, rfl⟩
      | writing buf => exact .inr ⟨w.pos - buf.length, rfl⟩
      | _ => exact .inl rfl

/-! ## The steps that count -/

/-- What the others can tell of the process has not changed. -/
structure Agrees (x y : Process) : Prop where
  inlet : inlet x = inlet y
  sent : hasSent x = hasSent y
  takes : takes x = takes y
  opens : opens x = opens y
  sends : sends x = sends y
  role : roleOf x = roleOf y
  file : file x = file y
  ok : Ok y → Ok x

theorem Agrees.refl (x : Process) : Agrees x x := ⟨rfl, rfl, rfl, rfl, rfl, rfl, rfl, id⟩

/-- What a step leaves. In `transmits` the writer has the process `x` behind it. -/
inductive Effect (s : State) : State → Prop
  | quiet {t : State} : (∀ q, Agrees (t.process q) (s.process q)) → t.conn.buf = s.conn.buf →
      t.pers = s.pers → t.opened = s.opened →
      (∀ q, s.exited q = true → t.exited q = true) → Effect s t
  | opensPers {p : Pid} {r : Reader} : s.process p = .reader r → r.pc = .openingPers →
      Effect s ((s.setPers p ((s.pers p).openRead p)).set p
        (.reader { r with pc := .openingConn, seen := (s.pers p).writerOpens }))
  | sendsPid {p : Pid} {r : Reader} {conn : Fifo Pid Byte} : s.process p = .reader r →
      r.pc = .sending → conn.buf = s.conn.buf ++ pidBytes p →
      Effect s ({ s with conn }.set p (.reader { r with pc := .polling }))
  | polls {p : Pid} {r : Reader} : s.process p = .reader r → r.pc = .polling →
      (s.pers p).Ready r.seen → Effect s (s.set p (.reader { r with pc := .greeting }))
  | greets {p : Pid} {r : Reader} {temp : List Byte} {fifo : Fifo Pid Byte} :
      s.process p = .reader r → s.exited p = false → r.pc = .greeting →
      (s.pers p).read 4 = some (temp, fifo) →
      Effect s ((s.setPers p fifo).set p (.reader { r with pc := .reading, temp }))
  | receives {p : Pid} {r : Reader} {buf : List Byte} {fifo : Fifo Pid Byte} :
      s.process p = .reader r → s.exited p = false → r.pc = .reading →
      (s.pers p).read PIPE_BUF = some (buf, fifo) →
      Effect s ((s.setPers p fifo).set p (.reader { r with pc := .printing buf }))
  | takesPid {p : Pid} {w : Writer} {bytes : List Byte} {conn : Fifo Pid Byte} :
      s.process p = .writer w → w.pc = .readingPid → s.conn.read 4 = some (bytes, conn) →
      bytes ≠ [] →
      Effect s ({ s with conn }.set p
        (.writer { w with pc := .openingReader, pid_r := pidOfBytes bytes }))
  | opensReader {p : Pid} {w : Writer} : s.process p = .writer w → w.pc = .openingReader →
      Effect s (({ s with opened := s.opened ++ [(p, w.pid_r)] }.setPers w.pid_r
        ((s.pers w.pid_r).openWrite p)).set p (.writer { w with pc := .greeting }))
  | transmits {p r : Pid} {x : Process} {bytes : List Byte} {fifo : Fifo Pid Byte} :
      s.exited p = false → opens (s.process p) = some r →
      (s.pers r).write bytes = some fifo → inlet x = inlet (s.process p) →
      hasSent x = hasSent (s.process p) → takes x = takes (s.process p) →
      opens x = opens (s.process p) → roleOf x = roleOf (s.process p) →
      file x = file (s.process p) →
      (Ok (s.process p) → Ok x ∧ sends x = sends (s.process p) ++ bytes) →
      Effect s ((s.setPers r fifo).set p x)
  | closesConn {conn : Fifo Pid Byte} : conn.buf = s.conn.buf ∨ conn.buf = [] →
      Effect s { s with conn }
  | closesRead {p : Pid} : s.exited p = true →
      Effect s (s.setPers p ((s.pers p).closeRead p))
  | closesWrite {p r : Pid} : s.exited p = true →
      Effect s (s.setPers r ((s.pers r).closeWrite p))

section
variable {s t : State} {p : Pid}

/-- A property of processes that the moving one keeps. -/
theorem set_same {β : Type*} (f : Process → β) {x : Process} (h : f x = f (s.process p)) (q : Pid) :
    f ((s.set p x).process q) = f (s.process q) := by
  by_cases hq : q = p
  · subst hq
    rw [State.set_self, h]
  · rw [State.set_of_ne hq]

/-- What holds of every process still does when it holds of the moving one. -/
theorem forall_set {P : Process → Prop} (h : ∀ q, P (s.process q)) {x : Process} (hx : P x)
    (q : Pid) : P ((s.set p x).process q) := by
  by_cases hq : q = p
  · subst hq
    rwa [State.set_self]
  · rw [State.set_of_ne hq]
    exact h q

theorem agrees_set {x : Process} (h : Agrees x (s.process p)) (q : Pid) :
    Agrees ((s.set p x).process q) (s.process q) := by
  by_cases hq : q = p
  · subst hq
    rw [State.set_self]
    exact h
  · rw [State.set_of_ne hq]
    exact .refl _

theorem exit_mono (s : State) (p q : Pid) (h : s.exited q = true) : (s.exit p).exited q = true := by
  by_cases hq : q = p
  · subst hq
    exact State.exit_self
  · rw [State.exit_of_ne hq, h]

theorem Effect.exit (s : State) (p : Pid) : Effect s (s.exit p) :=
  .quiet (fun _ => .refl _) rfl rfl rfl (exit_mono s p)

/-- A step of a process that nobody can tell. -/
theorem Effect.setConn {x : Process} (conn : Fifo Pid Byte) (h : Agrees x (s.process p))
    (hconn : conn.buf = s.conn.buf) : Effect s ({ s with conn }.set p x) :=
  .quiet (agrees_set (s := { s with conn }) h) hconn rfl rfl fun _ hq => hq

theorem Effect.set {x : Process} (h : Agrees x (s.process p)) : Effect s (s.set p x) :=
  .setConn s.conn h rfl

theorem data_append (out out' : List Printed) : data (out ++ out') = data out ++ data out' := by
  unfold data
  rw [List.filterMap_append]

theorem data_byte (buf : List Byte) : data (buf.map .byte) = buf := by
  unfold data
  induction buf with
  | nil => rfl
  | cons b buf ih => rw [List.map_cons, List.filterMap_cons, ih]

/-- A reader on its way to the connection, or one that prints what it has. -/
theorem agrees_reader {r r' : Reader} (hholds : (r'.pc = .openingPers) = (r.pc = .openingPers))
    (hsent : (r'.pc = .polling) = (r.pc = .polling)) (hpolled : polled r'.pc = polled r.pc)
    (hgreeted : greeted r'.pc = greeted r.pc) (hseen : r'.seen = r.seen) (htemp : r'.temp = r.temp)
    (hgot : data r'.out ++ pending r'.pc = data r.out ++ pending r.pc)
    (hok : greeted r.pc = false → data r'.out = data r.out) :
    Agrees (.reader r') (.reader r) where
  inlet := by simp only [inlet, ne_eq, hholds, hpolled, hgreeted, hseen, htemp, hgot]
  sent := by simp only [hasSent, hsent, hpolled]
  takes := rfl
  opens := rfl
  sends := rfl
  role := rfl
  file := rfl
  ok h hg := by
    rw [hgreeted] at hg
    rw [htemp, hok hg]
    exact h hg

theorem readerStep_effect {r : Reader} (hp : s.process p = .reader r) (halive : s.exited p = false)
    (ht : s.readerStep p r = some t) : Effect s t := by
  cases hpc : r.pc with
  | openingPers =>
      simp only [State.readerStep, hpc] at ht
      cases ht
      exact .opensPers hp hpc
  | openingConn =>
      simp only [State.readerStep, hpc] at ht
      cases ht
      refine .setConn _ ?_ rfl
      rw [hp]
      exact agrees_reader (by simp [hpc]) (by simp [hpc]) (by simp [hpc, polled])
        (by simp [hpc, greeted]) rfl rfl (by simp [hpc, pending]) fun _ => rfl
  | waitingConn seen =>
      simp only [State.readerStep, hpc] at ht
      split_ifs at ht
      cases ht
      refine .set ?_
      rw [hp]
      exact agrees_reader (by simp [hpc]) (by simp [hpc]) (by simp [hpc, polled])
        (by simp [hpc, greeted]) rfl rfl (by simp [hpc, pending]) fun _ => rfl
  | sending =>
      simp only [State.readerStep, hpc] at ht
      split at ht
      next conn hconn =>
        cases ht
        exact .sendsPid hp hpc (by rw [(Fifo.write_eq_some hconn).2])
      next =>
        cases ht
        exact .exit s p
  | polling =>
      simp only [State.readerStep, hpc] at ht
      split_ifs at ht with hready
      cases ht
      exact .polls hp hpc hready
  | greeting =>
      simp only [State.readerStep, hpc] at ht
      obtain ⟨⟨temp, fifo⟩, hread, rfl⟩ := Option.map_eq_some_iff.mp ht
      exact .greets hp halive hpc hread
  | reading =>
      simp only [State.readerStep, hpc] at ht
      obtain ⟨⟨buf, fifo⟩, hread, rfl⟩ := Option.map_eq_some_iff.mp ht
      split_ifs
      · exact .exit s p
      · exact .receives hp halive hpc hread
  | printing buf =>
      simp only [State.readerStep, hpc] at ht
      cases ht
      refine .set ?_
      rw [hp]
      exact agrees_reader (by simp [hpc]) (by simp [hpc]) (by simp [hpc, polled])
        (by simp [hpc, greeted]) rfl rfl (by simp [hpc, pending, data_append, data_byte])
        (by simp [hpc, greeted])

theorem agrees_writer {w w' : Writer} (htakes : takes (.writer w') = takes (.writer w))
    (hopens : opens (.writer w') = opens (.writer w))
    (hsends : sends (.writer w') = sends (.writer w)) (hfile : w'.file = w.file)
    (hok : Ok (.writer w) → Ok (.writer w')) : Agrees (.writer w') (.writer w) where
  inlet := rfl
  sent := rfl
  takes := htakes
  opens := hopens
  sends := hsends
  role := congrArg some hfile
  file := hfile
  ok := hok

theorem send_effect {w : Writer} {bytes : List Byte} {pc : WriterPc}
    (hp : s.process p = .writer w) (halive : s.exited p = false)
    (hopens : opens (.writer w) = some w.pid_r)
    (htakes : takes (.writer { w with pc }) = takes (.writer w))
    (hkeeps : opens (.writer { w with pc }) = opens (.writer w))
    (hsends : Ok (.writer w) → Ok (.writer { w with pc }) ∧
      sends (.writer { w with pc }) = sends (.writer w) ++ bytes) :
    Effect s (s.send p w bytes pc) := by
  unfold State.send
  split
  next fifo hwrite =>
    rw [← hp] at hopens htakes hkeeps hsends
    exact .transmits halive hopens hwrite (by rw [hp]; rfl) (by rw [hp]; rfl) htakes hkeeps
      (by rw [hp]; rfl) (by rw [hp]; rfl) hsends
  next => exact .exit s p

theorem writerStep_effect {w : Writer} (hp : s.process p = .writer w) (halive : s.exited p = false)
    (ht : s.writerStep p w = some t) : Effect s t := by
  cases hpc : w.pc with
  | openingConn =>
      simp only [State.writerStep, hpc] at ht
      cases ht
      refine .setConn _ ?_ rfl
      rw [hp]
      exact agrees_writer (by simp [takes, hpc]) (by simp [opens, hpc]) (by simp [sends, hpc]) rfl
        (by simp [Ok, hpc])
  | waitingConn seen =>
      simp only [State.writerStep, hpc] at ht
      split_ifs at ht
      cases ht
      refine .set ?_
      rw [hp]
      exact agrees_writer (by simp [takes, hpc]) (by simp [opens, hpc]) (by simp [sends, hpc]) rfl
        (by simp [Ok, hpc])
  | readingPid =>
      simp only [State.writerStep, hpc] at ht
      obtain ⟨⟨bytes, conn⟩, hread, rfl⟩ := Option.map_eq_some_iff.mp ht
      simp only
      split_ifs with hbytes
      · exact .exit s p
      · exact .takesPid hp hpc hread hbytes
  | openingReader =>
      simp only [State.writerStep, hpc] at ht
      split_ifs at ht
      · cases ht
        exact .opensReader hp hpc
      · cases ht
        exact .exit s p
  | greeting =>
      simp only [State.writerStep, hpc] at ht
      cases ht
      refine send_effect hp halive (by simp [opens, hpc]) (by simp [takes, hpc])
        (by simp [opens, hpc]) fun hok => ?_
      have hpos : w.pos = 0 := by simpa only [Ok, hpc] using hok
      exact ⟨hpos, by simp [sends, hpc, hpos]⟩
  | openingFile =>
      simp only [State.writerStep, hpc] at ht
      cases ht
      refine .set ?_
      rw [hp]
      exact agrees_writer (by simp [takes, hpc]) (by simp [opens, hpc]) (by simp [sends, hpc]) rfl
        fun _ => trivial
  | reading => simp [State.writerStep, hpc] at ht
  | writing buf =>
      simp only [State.writerStep, hpc] at ht
      cases ht
      refine send_effect hp halive (by simp [opens, hpc]) (by simp [takes, hpc])
        (by simp [opens, hpc]) fun hok => ?_
      have htake : w.file.take (w.pos - buf.length) ++ buf = w.file.take w.pos := by
        simpa only [Ok, hpc] using hok
      exact ⟨trivial, by simp [sends, hpc, htake]⟩

theorem readFile_effect {w : Writer} {size : ℕ} (hp : s.process p = .writer w)
    (ht : s.readFile p w size = some t) : Effect s t := by
  unfold State.readFile at ht
  split_ifs at ht with hread hsize
  · cases ht
    exact .exit s p
  · obtain ⟨hpc, -, hle, -⟩ := hread
    cases ht
    refine .set ?_
    rw [hp]
    have hlength : ((w.file.drop w.pos).take size).length = size := by
      rw [List.length_take, List.length_drop]
      omega
    have hpos : w.pos + size - ((w.file.drop w.pos).take size).length = w.pos := by omega
    refine agrees_writer (by simp [takes, hpc]) (by simp [opens, hpc]) ?_ rfl fun _ => ?_
    · simp only [sends, hpc, hpos]
    · simp only [Ok, hpos]
      rw [List.take_add]

/-- A reader that ends and prints a message of its own. -/
theorem message_effect {r : Reader} {m : Printed} (hp : s.process p = .reader r)
    (hm : data [m] = []) :
    Effect s ((s.set p (.reader { r with out := r.out ++ [m] })).exit p) := by
  refine .quiet (fun q => ?_) rfl rfl rfl (exit_mono _ p)
  refine agrees_set ?_ q
  rw [hp]
  exact agrees_reader rfl rfl rfl rfl rfl rfl (by simp [data_append, hm])
    (by simp [data_append, hm])

theorem step_effect {e : Event} (h : Step s e t) : Effect s t := by
  unfold Step at h
  cases e with
  | step p =>
      simp only [State.next, State.step] at h
      split_ifs at h with hexited
      rw [Bool.not_eq_true] at hexited
      split at h
      next r hp => exact readerStep_effect hp hexited h
      next w hp => exact writerStep_effect hp hexited h
  | timeout p =>
      simp only [State.next] at h
      split_ifs at h
      split at h
      next r hp =>
        unfold State.timeout at h
        split_ifs at h
        cases h
        exact message_effect hp rfl
      next => cases h
  | readFile p size =>
      simp only [State.next] at h
      split_ifs at h
      split at h
      next => cases h
      next w hp => exact readFile_effect hp h
  | exit p =>
      simp only [State.next] at h
      split_ifs at h
      cases h
      exact .exit s p
  | fail p =>
      simp only [State.next, State.fail] at h
      split_ifs at h
      cases h
      split
      next r hp => exact message_effect hp rfl
      next => exact .exit s p
  | closeConnRead p =>
      simp only [State.next] at h
      split_ifs at h
      cases h
      exact .closesConn Fifo.closeRead_buf
  | closeConnWrite p =>
      simp only [State.next] at h
      split_ifs at h
      cases h
      exact .closesConn Fifo.closeWrite_buf
  | closePersRead p =>
      simp only [State.next] at h
      split_ifs at h with hclose
      cases h
      exact .closesRead hclose.1
  | closePersWrite p r =>
      simp only [State.next] at h
      split_ifs at h with hclose
      cases h
      exact .closesWrite hclose.1

end

end TaskLunev.SuperFifoEffects
