import TaskLunev.SuperFifoPairing

/-!
# What a reader receives

The FIFO of a reader is opened for sending at most once, so all it ever carries
is the stream of one writer: the greeting, then the file. What the reader read
as the greeting, what it has received since and what is still in the FIFO is
that stream as far as it has been sent. A reader whose writer ended without a
greeting reads none, and finds nothing afterwards.
-/
namespace TaskLunev.SuperFifoStreams
open ByteMemory NamedPipe SuperFifoModel SuperFifoEffects SuperFifoPairing TransitionRuns

/-- The FIFO `f` of `r`, which stands at `i` as its reader. -/
structure Stream (s : State) (r : Pid) (i : Inlet) (f : Fifo Pid Byte) : Prop where
  readers : ∀ q ∈ f.readers, q = r
  held : i.holds = true → s.exited r = false → r ∈ f.readers
  alive : ∀ w, opens (s.process w) = some r → s.exited w = false → w ∈ f.writers
  unopened : (∀ w, opens (s.process w) ≠ some r) → f.buf = [] ∧ f.writerOpens = 0
  seen : i.seen = 0
  polled : i.polled = true → ∃ w, opens (s.process w) = some r
  temp : i.temp = [] ∨ i.temp = greetingBytes
  stream : r ∈ f.readers → ∀ w, opens (s.process w) = some r →
    i.temp ++ i.got ++ f.buf = sends (s.process w)
  missed : i.greeted = true → i.temp = [] →
    ∀ w, opens (s.process w) = some r → s.exited w = true ∧ sends (s.process w) = []
  got : ∀ w, opens (s.process w) = some r → i.got <+: file (s.process w)

section
variable {s t : State} {r : Pid} {i : Inlet} {f : Fifo Pid Byte}

/-- A step that does not change what the writers of `r` have sent. -/
theorem Stream.frame (h : Stream s r i f)
    (hopens : ∀ q, opens (t.process q) = some r ↔ opens (s.process q) = some r)
    (hsends : ∀ q, opens (s.process q) = some r → sends (t.process q) = sends (s.process q))
    (hfile : ∀ q, file (t.process q) = file (s.process q))
    (hexited : ∀ q, s.exited q = true → t.exited q = true) : Stream t r i f where
  readers := h.readers
  held hi hr := h.held hi (Bool.eq_false_iff.mpr fun hs => by simp [hexited r hs] at hr)
  alive w hw hr :=
    h.alive w ((hopens w).mp hw) (Bool.eq_false_iff.mpr fun hs => by simp [hexited w hs] at hr)
  unopened hnone := h.unopened fun w hw => hnone w ((hopens w).mpr hw)
  seen := h.seen
  polled hi := by
    obtain ⟨w, hw⟩ := h.polled hi
    exact ⟨w, (hopens w).mpr hw⟩
  temp := h.temp
  stream hr w hw := by
    have hs := (hopens w).mp hw
    rw [hsends w hs]
    exact h.stream hr w hs
  missed hi htemp w hw := by
    have hs := (hopens w).mp hw
    rw [hsends w hs]
    obtain ⟨hexit, hnothing⟩ := h.missed hi htemp w hs
    exact ⟨hexited w hexit, hnothing⟩
  got w hw := by
    rw [hfile w]
    exact h.got w ((hopens w).mp hw)

/-! ## Steps of the reader -/

theorem Stream.opensPers (h : Stream s r i f) (hnone : ∀ w, opens (s.process w) ≠ some r) :
    Stream s r { i with holds := true, seen := f.writerOpens } (f.openRead r) where
  readers q hq := (Finset.mem_insert.mp hq).elim id (h.readers q)
  held _ _ := Finset.mem_insert_self r _
  alive := h.alive
  unopened := h.unopened
  seen := (h.unopened hnone).2
  polled := h.polled
  temp := h.temp
  stream _ w hw := absurd hw (hnone w)
  missed := h.missed
  got := h.got

/-- Bytes or a hang-up tell that somebody has opened the FIFO for sending. -/
theorem Stream.polls (h : Stream s r i f) (hready : f.Ready i.seen) :
    Stream s r { i with polled := true } f := by
  have hopened : ∃ w, opens (s.process w) = some r := by
    by_contra hnone
    rw [not_exists] at hnone
    obtain ⟨hbuf, hopens⟩ := h.unopened hnone
    rcases hready with hready | ⟨-, hready⟩
    · exact hready hbuf
    · exact hready (hopens.trans h.seen.symm)
  exact { h with polled := fun _ => hopened }

/-- The read of the greeting gets all of it, or meets the end of a FIFO whose
writer is gone. -/
theorem Stream.greets (h : Stream s r i f) (hmem : r ∈ f.readers) (hpolled : i.polled = true)
    (hfresh : i.temp = [] ∧ i.got = []) {temp : List Byte} {fifo : Fifo Pid Byte}
    (hread : f.read 4 = some (temp, fifo)) :
    Stream s r { i with greeted := true, temp } fifo := by
  obtain ⟨rfl, rfl, hend⟩ := Fifo.read_eq_some hread
  have hsent : ∀ w, opens (s.process w) = some r → f.buf = sends (s.process w) := by
    intro w hw
    have hstream := h.stream hmem w hw
    rwa [hfresh.1, hfresh.2, List.nil_append, List.nil_append] at hstream
  obtain ⟨w, hw⟩ := h.polled hpolled
  constructor
  case readers => exact h.readers
  case held => exact h.held
  case alive => exact h.alive
  case unopened => exact fun hnone => absurd hw (hnone w)
  case seen => exact h.seen
  case polled => exact h.polled
  case temp =>
    rcases sends_eq (s.process w) with hnothing | ⟨k, hk⟩
    · exact .inl (by rw [hsent w hw, hnothing, List.take_nil])
    · exact .inr (by rw [hsent w hw, hk]; rfl)
  case stream =>
    intro _ w' hw'
    simp only [hfresh.2, List.append_nil, List.take_append_drop]
    exact hsent w' hw'
  case missed =>
    intro _ htemp w' hw'
    have hbuf : f.buf = [] := by simpa using htemp
    refine ⟨?_, (hsent w' hw').symm.trans hbuf⟩
    by_contra halive
    have hwriter := h.alive w' hw' (Bool.eq_false_iff.mpr halive)
    simp [hend hbuf] at hwriter
  case got =>
    intro w' _
    simp only [hfresh.2]
    exact List.nil_prefix

/-- What has been received of a stream that began with the greeting is a prefix
of the file. -/
theorem Stream.prefix_file (h : Stream s r i f) (hmem : r ∈ f.readers) (hgreeted : i.greeted = true)
    {w : Pid} (hw : opens (s.process w) = some r) : i.got ++ f.buf <+: file (s.process w) := by
  have hstream := h.stream hmem w hw
  rcases h.temp with htemp | htemp
  · rw [(h.missed hgreeted htemp w hw).2, htemp, List.nil_append] at hstream
    rw [hstream]
    exact List.nil_prefix
  · rw [htemp, List.append_assoc] at hstream
    rcases sends_eq (s.process w) with hnothing | ⟨k, hk⟩
    · simp [hnothing, greetingBytes] at hstream
    · rw [hk, List.append_right_inj] at hstream
      rw [hstream]
      exact List.take_prefix k _

theorem Stream.receives (h : Stream s r i f) (hmem : r ∈ f.readers) (hgreeted : i.greeted = true)
    {n : ℕ} {buf : List Byte} {fifo : Fifo Pid Byte} (hread : f.read n = some (buf, fifo)) :
    Stream s r { i with got := i.got ++ buf } fifo := by
  obtain ⟨rfl, rfl, -⟩ := Fifo.read_eq_some hread
  constructor
  case readers => exact h.readers
  case held => exact h.held
  case alive => exact h.alive
  case unopened =>
    intro hnone
    obtain ⟨hbuf, hopens⟩ := h.unopened hnone
    exact ⟨by simp only [hbuf, List.drop_nil], hopens⟩
  case seen => exact h.seen
  case polled => exact h.polled
  case temp => exact h.temp
  case stream =>
    intro _ w hw
    simp only
    rw [← h.stream hmem w hw, ← List.append_assoc, List.append_assoc _ (f.buf.take n),
      List.take_append_drop]
  case missed => exact h.missed
  case got =>
    intro w hw
    refine List.IsPrefix.trans ?_ (h.prefix_file hmem hgreeted hw)
    exact (List.prefix_append_right_inj i.got).mpr (List.take_prefix n f.buf)

/-- The kernel closes the end of a reader that has ended. -/
theorem Stream.closesRead (h : Stream s r i f) (hexited : s.exited r = true) :
    Stream s r i (f.closeRead r) where
  readers q hq := h.readers q (by
    rw [Fifo.closeRead_readers] at hq
    exact Finset.mem_of_mem_erase hq)
  held _ halive := by simp [hexited] at halive
  alive w hw halive := by
    rw [Fifo.closeRead_writers]
    exact h.alive w hw halive
  unopened hnone := by
    obtain ⟨hbuf, hopens⟩ := h.unopened hnone
    rw [Fifo.closeRead_writerOpens]
    exact ⟨Fifo.closeRead_buf_nil hbuf, hopens⟩
  seen := h.seen
  polled := h.polled
  temp := h.temp
  stream hmem := by simp at hmem
  missed := h.missed
  got := h.got

/-! ## Steps of the writer -/

variable {p : Pid}

/-- The first open for sending finds an empty FIFO and a reader in front of its
greeting. -/
theorem Stream.opensReader (h : Stream s r i f) (hnone : ∀ w, opens (s.process w) ≠ some r)
    (hfresh : i.greeted = false → i.temp = [] ∧ i.got = [])
    (hgreeted : i.greeted = true → i.polled = true)
    (hopens : ∀ q, opens (t.process q) = some r ↔ q = p) (hsends : sends (t.process p) = [])
    (hexited : t.exited = s.exited) : Stream t r i (f.openWrite p) := by
  have hearly : i.greeted = false := by
    by_contra hi
    obtain ⟨w, hw⟩ := h.polled (hgreeted (by simpa using hi))
    exact hnone w hw
  have hempty := hfresh hearly
  constructor
  case readers => exact h.readers
  case held => exact hexited ▸ h.held
  case alive =>
    intro q hq _
    rw [(hopens q).mp hq]
    exact Finset.mem_insert_self p _
  case unopened => exact fun hnone' => absurd ((hopens p).mpr rfl) (hnone' p)
  case seen => exact h.seen
  case polled => exact fun _ => ⟨p, (hopens p).mpr rfl⟩
  case temp => exact h.temp
  case stream =>
    intro _ q hq
    rw [(hopens q).mp hq, hsends, hempty.1, hempty.2]
    exact (h.unopened hnone).1
  case missed => exact fun hi => by simp [hearly] at hi
  case got =>
    intro q _
    rw [hempty.2]
    exact List.nil_prefix

/-- Whoever sends is not gone, so the reader has not missed the greeting. -/
theorem Stream.transmits (h : Stream s r i f) (hp : opens (s.process p) = some r)
    (halive : s.exited p = false) (hunique : ∀ q, opens (s.process q) = some r → q = p)
    {bytes : List Byte} {fifo : Fifo Pid Byte} (hwrite : f.write bytes = some fifo)
    (hopens : ∀ q, opens (t.process q) = opens (s.process q))
    (hfile : ∀ q, file (t.process q) = file (s.process q))
    (hsends : sends (t.process p) = sends (s.process p) ++ bytes)
    (hexited : t.exited = s.exited) : Stream t r i fifo := by
  obtain ⟨-, rfl⟩ := Fifo.write_eq_some hwrite
  constructor
  case readers => exact h.readers
  case held => exact hexited ▸ h.held
  case alive =>
    intro q hq hqalive
    rw [hexited] at hqalive
    exact h.alive q ((hopens q).symm.trans hq) hqalive
  case unopened => exact fun hnone => absurd ((hopens p).trans hp) (hnone p)
  case seen => exact h.seen
  case polled => exact fun _ => ⟨p, (hopens p).trans hp⟩
  case temp => exact h.temp
  case stream =>
    intro hmem q hq
    obtain rfl := hunique q ((hopens q).symm.trans hq)
    rw [hsends, ← h.stream hmem q hp]
    simp only [List.append_assoc]
  case missed =>
    intro hi htemp q _
    have hgone := (h.missed hi htemp p hp).1
    simp [halive] at hgone
  case got =>
    intro q hq
    rw [hfile q]
    exact h.got q ((hopens q).symm.trans hq)

/-- The kernel closes the end of a writer that has ended. -/
theorem Stream.closesWrite (h : Stream s r i f) (hexited : s.exited p = true) :
    Stream s r i (f.closeWrite p) where
  readers q hq := h.readers q (by rwa [Fifo.closeWrite_readers] at hq)
  held hi halive := by
    rw [Fifo.closeWrite_readers]
    exact h.held hi halive
  alive w hw halive := by
    have hne : w ≠ p := by
      rintro rfl
      simp [hexited] at halive
    rw [Fifo.closeWrite_writers]
    exact Finset.mem_erase.mpr ⟨hne, h.alive w hw halive⟩
  unopened hnone := by
    obtain ⟨hbuf, hopens⟩ := h.unopened hnone
    rw [Fifo.closeWrite_writerOpens]
    exact ⟨Fifo.closeWrite_buf_nil hbuf, hopens⟩
  seen := h.seen
  polled := h.polled
  temp := h.temp
  stream hmem w hw := by
    rw [Fifo.closeWrite_readers] at hmem
    rw [Fifo.closeWrite_buf_of_reader ⟨r, hmem⟩]
    exact h.stream hmem w hw
  missed := h.missed
  got := h.got

end

/-! ## Every step -/

theorem inlet_fresh {x : Process} (hok : Ok x) (hgreeted : (inlet x).greeted = false) :
    (inlet x).temp = [] ∧ (inlet x).got = [] := by
  cases x with
  | writer w => exact ⟨rfl, rfl⟩
  | reader r =>
      obtain ⟨htemp, hdata⟩ := hok hgreeted
      refine ⟨htemp, ?_⟩
      simp only [inlet, hdata, List.nil_append]
      cases hpc : r.pc with
      | printing buf => simp [inlet, hpc, greeted] at hgreeted
      | _ => rfl

theorem inlet_polled {x : Process} (hgreeted : (inlet x).greeted = true) :
    (inlet x).polled = true := by
  cases x with
  | writer w => cases hgreeted
  | reader r => cases hpc : r.pc <;> simp_all [inlet, greeted, polled]

structure Inv (role : Pid → Option (List Byte)) (s : State) : Prop where
  ok : ∀ p, Ok (s.process p)
  role : ∀ p, roleOf (s.process p) = role p
  pairing : ∃ waiting, Pairing s waiting
  stream : ∀ r, Stream s r (inlet (s.process r)) (s.pers r)

theorem inv_start (role : Pid → Option (List Byte)) : Inv role (State.start role) where
  ok p := by
    unfold State.start
    cases hp : role p with
    | none => simp [hp, Ok, data]
    | some file => simp [hp, Ok]
  role p := by
    unfold State.start
    cases hp : role p with
    | none => simp [hp, roleOf]
    | some file => simp [hp, roleOf]
  pairing := ⟨[], pairing_start role⟩
  stream r := by
    have hnone : ∀ w, opens ((State.start role).process w) ≠ some r := fun w => by
      simp [(start_facts role w).2.2]
    have hinlet : inlet ((State.start role).process r) = ⟨false, false, false, 0, [], []⟩ := by
      unfold State.start
      cases hp : role r with
      | none => simp [hp, inlet, polled, greeted, pending, data]
      | some file => simp [hp, inlet]
    rw [hinlet]
    exact
      { readers := fun q hq => absurd hq (Finset.notMem_empty q)
        held := fun hi => by cases hi
        alive := fun w hw => absurd hw (hnone w)
        unopened := fun _ => ⟨rfl, rfl⟩
        seen := rfl
        polled := fun hi => by cases hi
        temp := .inl rfl
        stream := fun hr => absurd hr (Finset.notMem_empty r)
        missed := fun hi => by cases hi
        got := fun w hw => absurd hw (hnone w) }

section
variable {role : Pid → Option (List Byte)} {s t : State} {p : Pid}

/-- A step of `p` on its own FIFO, or on none. -/
theorem Inv.set (h : Inv role s) {x : Process} {fifo : Fifo Pid Byte}
    (hprocess : t.process = Function.update s.process p x)
    (hpers : t.pers = Function.update s.pers p fifo) (hexited : t.exited = s.exited)
    (hopens : opens x = opens (s.process p)) (hsends : sends x = sends (s.process p))
    (hfile : file x = file (s.process p)) (hrole : roleOf x = roleOf (s.process p)) (hok : Ok x)
    (hpairing : ∃ waiting, Pairing t waiting) (hstream : Stream s p (inlet x) fifo) :
    Inv role t := by
  have hset : t.process = (s.set p x).process := hprocess
  constructor
  case ok =>
    rw [hset]
    exact forall_set h.ok hok
  case role =>
    intro q
    rw [hset, set_same _ hrole]
    exact h.role q
  case pairing => exact hpairing
  case stream =>
    intro q
    have hq : Stream s q (inlet (t.process q)) (t.pers q) := by
      rw [hprocess, hpers]
      by_cases hqp : q = p
      · subst hqp
        rwa [Function.update_self, Function.update_self]
      · rw [Function.update_of_ne hqp, Function.update_of_ne hqp]
        exact h.stream q
    refine hq.frame (fun w => ?_) (fun w _ => ?_) (fun w => ?_) (fun w hw => hexited ▸ hw)
    · rw [hset, set_same _ hopens]
    · rw [hset, set_same _ hsends]
    · rw [hset, set_same _ hfile]

/-- A step of a reader, which takes nothing and sends nothing. -/
theorem Inv.setReader (h : Inv role s) {r r' : Reader} {fifo : Fifo Pid Byte}
    (hp : s.process p = .reader r) (hprocess : t.process = Function.update s.process p (.reader r'))
    (hpers : t.pers = Function.update s.pers p fifo) (hexited : t.exited = s.exited)
    (hearly : greeted r'.pc = false →
      greeted r.pc = false ∧ r'.temp = r.temp ∧ r'.out = r.out)
    (hpairing : ∃ waiting, Pairing t waiting)
    (hstream : Stream s p (inlet (.reader r')) fifo) : Inv role t := by
  have hok := h.ok p
  rw [hp] at hok
  refine h.set hprocess hpers hexited (by rw [hp]; rfl) (by rw [hp]; rfl) (by rw [hp]; rfl)
    (by rw [hp]; rfl) (fun hg => ?_) hpairing hstream
  obtain ⟨hbefore, htemp, hout⟩ := hearly hg
  rw [htemp, hout]
  exact hok hbefore

/-- A step of the writer `p` on the FIFO of `r`. -/
theorem Inv.setWriter (h : Inv role s) {x : Process} {r : Pid} {fifo : Fifo Pid Byte}
    (hprocess : t.process = Function.update s.process p x)
    (hpers : t.pers = Function.update s.pers r fifo) (hexited : t.exited = s.exited)
    (hinlet : inlet x = inlet (s.process p)) (hopens : opens x = some r)
    (hbefore : opens (s.process p) = none ∨ opens (s.process p) = some r)
    (hfile : file x = file (s.process p)) (hrole : roleOf x = roleOf (s.process p)) (hok : Ok x)
    (hpairing : ∃ waiting, Pairing t waiting)
    (hstream : Stream t r (inlet (s.process r)) fifo) : Inv role t := by
  have hset : t.process = (s.set p x).process := hprocess
  constructor
  case ok =>
    rw [hset]
    exact forall_set h.ok hok
  case role =>
    intro q
    rw [hset, set_same _ hrole]
    exact h.role q
  case pairing => exact hpairing
  case stream =>
    intro q
    rw [hset, set_same _ hinlet, hpers]
    by_cases hqr : q = r
    · subst hqr
      rwa [Function.update_self]
    · rw [Function.update_of_ne hqr]
      have hother : opens (s.process p) ≠ some q := by
        rcases hbefore with hb | hb
        · simp [hb]
        · simpa [hb] using Ne.symm hqr
      refine (h.stream q).frame (fun w => ?_) (fun w hw => ?_) (fun w => ?_)
        fun w hw => hexited ▸ hw
      · rw [hset]
        by_cases hwp : w = p
        · subst hwp
          rw [State.set_self, hopens]
          exact iff_of_false (by simpa using Ne.symm hqr) hother
        · rw [State.set_of_ne hwp]
      · have hwp : w ≠ p := by
          rintro rfl
          exact hother hw
        rw [hset, State.set_of_ne hwp]
      · rw [hset, set_same _ hfile]

/-- A step of the kernel on the FIFO of `r`. -/
theorem Inv.setPers (h : Inv role s) {r : Pid} {fifo : Fifo Pid Byte}
    (hpairing : ∃ waiting, Pairing (s.setPers r fifo) waiting)
    (hstream : Stream s r (inlet (s.process r)) fifo) : Inv role (s.setPers r fifo) where
  ok := h.ok
  role := h.role
  pairing := hpairing
  stream q := by
    have hq : Stream s q (inlet (s.process q)) ((s.setPers r fifo).pers q) := by
      by_cases hqr : q = r
      · subst hqr
        rwa [State.setPers_self]
      · rw [State.setPers_of_ne hqr]
        exact h.stream q
    exact hq.frame (fun _ => Iff.rfl) (fun _ _ => rfl) (fun _ => rfl) fun _ hw => hw

theorem Inv.effect (h : Inv role s) (ht : Effect s t) : Inv role t := by
  obtain ⟨waiting, hwaiting⟩ := h.pairing
  have hpairing := hwaiting.effect ht
  cases ht with
  | quiet hagrees hconn hpers hopened hexited =>
      constructor
      case ok => exact fun q => (hagrees q).ok (h.ok q)
      case role => exact fun q => (hagrees q).role.trans (h.role q)
      case pairing => exact hpairing
      case stream =>
        intro q
        rw [(hagrees q).inlet, hpers]
        exact (h.stream q).frame (fun w => by rw [(hagrees w).opens])
          (fun w _ => (hagrees w).sends) (fun w => (hagrees w).file) hexited
  | @opensPers p r hp hpc =>
      have hnone : ∀ w, opens (s.process w) ≠ some p := by
        intro w hw
        have hsent := (hwaiting.taken w p (opens_takes hw)).1
        simp [hp, hpc, hasSent, polled] at hsent
      have hstream := (h.stream p).opensPers hnone
      rw [hp] at hstream
      refine h.setReader hp rfl rfl rfl (fun _ => ⟨by simp [hpc, greeted], rfl, rfl⟩) hpairing ?_
      simpa [inlet, hpc, polled, greeted, pending] using hstream
  | @sendsPid p r conn hp hpc _ =>
      have hstream := h.stream p
      rw [hp] at hstream
      refine h.setReader hp rfl (Function.update_eq_self p s.pers).symm rfl
        (fun _ => ⟨by simp [hpc, greeted], rfl, rfl⟩) hpairing ?_
      simpa [inlet, hpc, polled, greeted, pending] using hstream
  | @polls p r hp hpc hready =>
      have hstream := h.stream p
      rw [hp] at hstream
      have hpolled := hstream.polls hready
      refine h.setReader hp rfl (Function.update_eq_self p s.pers).symm rfl
        (fun _ => ⟨by simp [hpc, greeted], rfl, rfl⟩) hpairing ?_
      simpa [inlet, hpc, polled, greeted, pending] using hpolled
  | @greets p r temp fifo hp halive hpc hread =>
      have hfresh := inlet_fresh (h.ok p) (by simp [hp, hpc, inlet, greeted])
      have hmem := (h.stream p).held (by simp [hp, hpc, inlet]) halive
      have hstream := (h.stream p).greets hmem (by simp [hp, hpc, inlet, polled]) hfresh hread
      rw [hp] at hstream
      refine h.setReader hp rfl rfl rfl (fun hg => by cases hg) hpairing ?_
      simpa [inlet, hpc, polled, greeted, pending] using hstream
  | @receives p r buf fifo hp halive hpc hread =>
      have hmem := (h.stream p).held (by simp [hp, hpc, inlet]) halive
      have hstream := (h.stream p).receives hmem (by simp [hp, hpc, inlet, greeted]) hread
      rw [hp] at hstream
      refine h.setReader hp rfl rfl rfl (fun hg => by cases hg) hpairing ?_
      simpa [inlet, hpc, polled, greeted, pending] using hstream
  | @takesPid p w bytes conn hp hpc _ _ =>
      have hok := h.ok p
      have hstream := h.stream p
      rw [hp] at hok hstream
      refine h.set rfl (Function.update_eq_self p s.pers).symm rfl (by simp [hp, hpc, opens])
        (by simp [hp, hpc, sends]) (by rw [hp]; rfl) (by rw [hp]; rfl) ?_ hpairing hstream
      simpa [Ok, hpc] using hok
  | @opensReader p w hp hpc =>
      have hok := h.ok p
      rw [hp] at hok
      have hnone := hwaiting.unopened hp hpc
      refine h.setWriter rfl rfl rfl (by rw [hp]; rfl) rfl (.inl (by simp [hp, hpc, opens]))
        (by rw [hp]; rfl) (by rw [hp]; rfl) (by simpa [Ok, hpc] using hok) hpairing ?_
      refine (h.stream w.pid_r).opensReader hnone (inlet_fresh (h.ok w.pid_r)) inlet_polled
        (fun q => ?_) (by rw [State.set_self]; rfl) rfl
      by_cases hq : q = p
      · subst hq
        rw [State.set_self]
        exact iff_of_true rfl rfl
      · rw [State.set_of_ne hq]
        exact iff_of_false (hnone q) hq
  | @transmits p r x bytes fifo halive hopens hwrite hinlet _ _ hkeeps hrole hfile hsends =>
      obtain ⟨hok, hmore⟩ := hsends (h.ok p)
      refine h.setWriter rfl rfl rfl hinlet (hkeeps.trans hopens) (.inr hopens) hfile hrole hok
        hpairing ?_
      refine (h.stream r).transmits hopens halive (fun q hq => ?_) hwrite
        (fun q => set_same (s := s.setPers r fifo) opens hkeeps q)
        (fun q => set_same (s := s.setPers r fifo) file hfile q) (by rw [State.set_self, hmore]) rfl
      exact hwaiting.unique q p r (opens_takes hq) (opens_takes hopens)
  | closesConn _ =>
      exact ⟨h.ok, h.role, hpairing, fun q => (h.stream q).frame (fun _ => Iff.rfl)
        (fun _ _ => rfl) (fun _ => rfl) fun _ hw => hw⟩
  | @closesRead p hexited => exact h.setPers hpairing ((h.stream p).closesRead hexited)
  | @closesWrite p r hexited => exact h.setPers hpairing ((h.stream r).closesWrite hexited)

theorem inv_final {trace : List (Event × State)} (h : Path Step (State.start role) trace) :
    Inv role (final (State.start role) trace) :=
  h.final_invariant (fun _ _ _ hs hst => hs.effect (step_effect hst)) (inv_start role)

theorem Inv.safe (h : Inv role s) : Safe role s where
  exclusive := by
    obtain ⟨waiting, hwaiting⟩ := h.pairing
    exact hwaiting.exclusive
  printed p r hp := by
    obtain ⟨waiting, hwaiting⟩ := h.pairing
    have hstream := h.stream p
    by_cases hopened : ∃ q, opens (s.process q) = some p
    · obtain ⟨q, hq⟩ := hopened
      have hgot := hstream.got q hq
      rw [hp] at hgot
      have hrole := h.role q
      cases hproc : s.process q with
      | reader _ => simp [hproc, opens] at hq
      | writer w =>
          rw [hproc] at hrole hgot
          exact .inr ⟨q, w.file, (hwaiting.opened q p).mpr hq, hrole.symm,
            (List.prefix_append _ _).trans hgot⟩
    · have hgreeted : (inlet (s.process p)).greeted = false := by
        by_contra hg
        exact hopened (hstream.polled (inlet_polled (by simpa using hg)))
      have hgot := (inlet_fresh (h.ok p) hgreeted).2
      rw [hp] at hgot
      exact .inl (List.append_eq_nil_iff.mp hgot).1

end

/-- In every state of every run, whoever reads and whoever writes. -/
theorem exclusive_and_prefix {role : Pid → Option (List Byte)} {trace : List (Event × State)}
    (h : Path Step (State.start role) trace) : Safe role (final (State.start role) trace) :=
  (inv_final h).safe

/-- A writer sends its file to a reader that prints it. -/
theorem exclusive_and_prefix_delivered :
    Safe (fun p => if p = 7 then none else some [1, 2, 3])
      (final (State.start fun p => if p = 7 then none else some [1, 2, 3])
        (walk State.next (State.start fun p => if p = 7 then none else some [1, 2, 3])
          [.step 7, .step 7, .step 8, .step 8, .step 7, .step 7, .step 8, .step 8, .step 8, .step 8,
            .readFile 8 3, .step 8, .step 7, .step 7, .step 7, .step 7])) :=
  exclusive_and_prefix (path_walk State.next _ _)

end TaskLunev.SuperFifoStreams
