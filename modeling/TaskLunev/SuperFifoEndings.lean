import TaskLunev.SuperFifoTurns

/-!
# How the processes of an undisturbed run end

A process has open what it has opened until it ends. So a writer that finds
nobody at a FIFO has a reader that ended before, and a reader that meets the end
of its FIFO has the whole file.
-/
namespace TaskLunev.SuperFifoEndings
open ByteMemory NamedPipe SuperFifoModel SuperFifoEffects SuperFifoPairing SuperFifoStreams
  SuperFifoTurns

/-! ## What a process has open -/

/-- A process that has opened the connection for reading. -/
def readsConn : Process → Bool
  | .reader _ => false
  | .writer w => decide (w.pc ≠ .openingConn)

def writesConn : Process → Bool
  | .reader r => decide (r.pc ≠ .openingPers ∧ r.pc ≠ .openingConn)
  | .writer _ => false

/-- The set has the processes of which `b` holds, but for some that have ended. -/
structure Tracks (b : Process → Bool) (ends : Finset Pid) (s : State) (q : Pid) : Prop where
  only : q ∈ ends → b (s.process q) = true
  alive : b (s.process q) = true → s.exited q = false → q ∈ ends

structure Holds (s : State) (q : Pid) : Prop where
  reads : Tracks readsConn s.conn.readers s q
  writes : Tracks writesConn s.conn.writers s q
  sends : ∀ r, q ∈ (s.pers r).writers → opens (s.process q) = some r

section
variable {p k q : Pid} {conn conn' f f' : Fifo Pid Byte} {x y : Process}

theorem act_readers (h : Act p conn k f x conn' f' y) :
    readsConn y = readsConn x ∧ conn'.readers = conn.readers ∨
      readsConn y = true ∧ conn'.readers = insert p conn.readers := by
  cases h with
  | sendsPid hpc hwrite =>
      obtain ⟨-, rfl⟩ := Fifo.write_eq_some hwrite
      exact .inl ⟨rfl, rfl⟩
  | takesPid hpc hread _ =>
      obtain ⟨-, rfl, -⟩ := Fifo.read_eq_some hread
      exact .inl ⟨by simp [readsConn, hpc], rfl⟩
  | opensConnRead hpc => exact .inr ⟨rfl, rfl⟩
  | meetsReader hpc _ => exact .inl ⟨by simp [readsConn, hpc], rfl⟩
  | opensReader hpc _ => exact .inl ⟨by simp [readsConn, hpc], rfl⟩
  | sendsGreeting hpc _ => exact .inl ⟨by simp [readsConn, hpc], rfl⟩
  | opensFile hpc => exact .inl ⟨by simp [readsConn, hpc], rfl⟩
  | readsFile hpc _ _ => exact .inl ⟨by simp [readsConn, hpc], rfl⟩
  | sendsData hpc _ => exact .inl ⟨by simp [readsConn, hpc], rfl⟩
  | _ => exact .inl ⟨rfl, rfl⟩

theorem act_writers (h : Act p conn k f x conn' f' y) :
    writesConn y = writesConn x ∧ conn'.writers = conn.writers ∨
      writesConn y = true ∧ conn'.writers = insert p conn.writers := by
  cases h with
  | sendsPid hpc hwrite =>
      obtain ⟨-, rfl⟩ := Fifo.write_eq_some hwrite
      exact .inl ⟨by simp [writesConn, hpc], rfl⟩
  | takesPid hpc hread _ =>
      obtain ⟨-, rfl, -⟩ := Fifo.read_eq_some hread
      exact .inl ⟨rfl, rfl⟩
  | opensConnWrite hpc => exact .inr ⟨rfl, rfl⟩
  | opensPers hpc => exact .inl ⟨by simp [writesConn, hpc], rfl⟩
  | meetsWriter hpc _ => exact .inl ⟨by simp [writesConn, hpc], rfl⟩
  | polls hpc _ => exact .inl ⟨by simp [writesConn, hpc], rfl⟩
  | greets hpc _ => exact .inl ⟨by simp [writesConn, hpc], rfl⟩
  | receives hpc _ _ => exact .inl ⟨by simp [writesConn, hpc], rfl⟩
  | prints hpc => exact .inl ⟨by simp [writesConn, hpc], rfl⟩
  | _ => exact .inl ⟨rfl, rfl⟩

theorem act_sends (h : Act p conn k f x conn' f' y) :
    opens y = opens x ∧ f'.writers = f.writers ∨
      opens x = none ∧ opens y = some k ∧ f'.writers = insert p f.writers := by
  cases h with
  | greets hpc hread =>
      obtain ⟨-, rfl, -⟩ := Fifo.read_eq_some hread
      exact .inl ⟨rfl, rfl⟩
  | receives hpc hread _ =>
      obtain ⟨-, rfl, -⟩ := Fifo.read_eq_some hread
      exact .inl ⟨rfl, rfl⟩
  | opensConnRead hpc => exact .inl ⟨by simp [opens, hpc], rfl⟩
  | meetsReader hpc _ => exact .inl ⟨by simp [opens, hpc], rfl⟩
  | takesPid hpc _ _ => exact .inl ⟨by simp [opens, hpc], rfl⟩
  | opensReader hpc _ => exact .inr ⟨by simp [opens, hpc], rfl, rfl⟩
  | sendsGreeting hpc hwrite =>
      obtain ⟨-, rfl⟩ := Fifo.write_eq_some hwrite
      exact .inl ⟨by simp [opens, hpc], rfl⟩
  | opensFile hpc => exact .inl ⟨by simp [opens, hpc], rfl⟩
  | readsFile hpc _ _ => exact .inl ⟨by simp [opens, hpc], rfl⟩
  | sendsData hpc hwrite =>
      obtain ⟨-, rfl⟩ := Fifo.write_eq_some hwrite
      exact .inl ⟨by simp [opens, hpc], rfl⟩
  | _ => exact .inl ⟨rfl, rfl⟩

variable {s t : State}

/-- A process that ends does so where it stands. -/
theorem ends_same (h : Ends s p x y) : readsConn y = readsConn x ∧ writesConn y = writesConn x ∧
    opens y = opens x := by
  cases h <;> exact ⟨rfl, rfl, rfl⟩

/-- A step of `p` that keeps what it has, or that opens one more. -/
theorem Tracks.act {b : Process → Bool} {ends ends' : Finset Pid} (h : ∀ q, Tracks b ends s q)
    (hends : b y = b (s.process p) ∧ ends' = ends ∨ b y = true ∧ ends' = insert p ends)
    (hprocess : t.process = Function.update s.process p y) (hexited : t.exited = s.exited)
    (q : Pid) : Tracks b ends' t q := by
  by_cases hq : q = p
  · subst hq
    have hself : t.process q = y := by rw [hprocess, Function.update_self]
    rcases hends with ⟨hsame, rfl⟩ | ⟨htrue, rfl⟩
    · refine ⟨fun hmem => ?_, fun hb halive => ?_⟩
      · rw [hself, hsame]
        exact (h q).only hmem
      · rw [hself, hsame] at hb
        rw [hexited] at halive
        exact (h q).alive hb halive
    · exact ⟨fun _ => by rw [hself, htrue], fun _ _ => Finset.mem_insert_self q ends⟩
  · have hother : t.process q = s.process q := by rw [hprocess, Function.update_of_ne hq]
    have hmem : q ∈ ends' ↔ q ∈ ends := by
      rcases hends with ⟨-, rfl⟩ | ⟨-, rfl⟩
      · exact Iff.rfl
      · rw [Finset.mem_insert, or_iff_right hq]
    refine ⟨fun hq' => ?_, fun hb halive => ?_⟩
    · rw [hother]
      exact (h q).only (hmem.mp hq')
    · rw [hother] at hb
      rw [hexited] at halive
      exact hmem.mpr ((h q).alive hb halive)

/-- The end of `p`. -/
theorem Tracks.ends {b : Process → Bool} {ends : Finset Pid} (h : ∀ q, Tracks b ends s q)
    (hsame : b y = b (s.process p)) (hprocess : t.process = Function.update s.process p y)
    (hexited : t.exited = Function.update s.exited p true) (q : Pid) : Tracks b ends t q := by
  have hb : b (t.process q) = b (s.process q) := by
    by_cases hq : q = p
    · subst hq
      rw [hprocess, Function.update_self, hsame]
    · rw [hprocess, Function.update_of_ne hq]
  have hwas : t.exited q = false → s.exited q = false := by
    rw [hexited]
    by_cases hq : q = p
    · subst hq
      rw [Function.update_self]
      exact fun htrue => absurd htrue.symm Bool.false_ne_true
    · rw [Function.update_of_ne hq]
      exact id
  exact ⟨fun hmem => hb ▸ (h q).only hmem, fun hbq halive => (h q).alive (hb ▸ hbq) (hwas halive)⟩

/-- The kernel closes ends of a process that has ended. -/
theorem Tracks.closes {b : Process → Bool} {ends ends' : Finset Pid} (h : ∀ q, Tracks b ends s q)
    (hp : s.exited p = true) (hends : ends' = ends ∨ ends' = ends.erase p)
    (hprocess : t.process = s.process) (hexited : t.exited = s.exited) (q : Pid) :
    Tracks b ends' t q := by
  have hsub : q ∈ ends' → q ∈ ends := by
    rcases hends with rfl | rfl
    · exact id
    · exact Finset.mem_of_mem_erase
  refine ⟨fun hq => by rw [hprocess]; exact (h q).only (hsub hq), fun hb halive => ?_⟩
  rw [hprocess] at hb
  rw [hexited] at halive
  rcases hends with rfl | rfl
  · exact (h q).alive hb halive
  · refine Finset.mem_erase.mpr ⟨?_, (h q).alive hb halive⟩
    rintro rfl
    rw [hp] at halive
    cases halive

theorem closes_readers (h : Closes s p k conn' f') :
    conn'.readers = s.conn.readers ∨ conn'.readers = s.conn.readers.erase p := by
  cases h with
  | connRead _ => exact .inr Fifo.closeRead_readers
  | connWrite _ => exact .inl Fifo.closeWrite_readers
  | _ => exact .inl rfl

theorem closes_writers (h : Closes s p k conn' f') :
    conn'.writers = s.conn.writers ∨ conn'.writers = s.conn.writers.erase p := by
  cases h with
  | connRead _ => exact .inl Fifo.closeRead_writers
  | connWrite _ => exact .inr Fifo.closeWrite_writers
  | _ => exact .inl rfl

theorem closes_sends (h : Closes s p k conn' f') : f'.writers ⊆ (s.pers k).writers := by
  cases h with
  | persRead _ _ => rw [Fifo.closeRead_writers]
  | persWrite _ =>
      rw [Fifo.closeWrite_writers]
      exact Finset.erase_subset _ _
  | _ => exact Finset.Subset.refl _

/-- An end for sending is the one of the process that opened it. -/
theorem sends_act (h : ∀ q r, q ∈ (s.pers r).writers → opens (s.process q) = some r)
    (hact : Act p conn k (s.pers k) (s.process p) conn' f' y)
    (hprocess : t.process = Function.update s.process p y)
    (hpers : t.pers = Function.update s.pers k f') (q r : Pid)
    (hq : q ∈ (t.pers r).writers) : opens (t.process q) = some r := by
  have hin : q ∈ (s.pers r).writers ∨ r = k ∧ q = p ∧ opens y = some k := by
    rw [hpers] at hq
    by_cases hr : r = k
    · subst hr
      rw [Function.update_self] at hq
      rcases act_sends hact with ⟨-, hset⟩ | ⟨-, hopens, hset⟩
      · rw [hset] at hq
        exact .inl hq
      · rw [hset, Finset.mem_insert] at hq
        exact hq.elim (fun hqp => .inr ⟨rfl, hqp, hopens⟩) .inl
    · rw [Function.update_of_ne hr] at hq
      exact .inl hq
  rcases hin with hold | ⟨rfl, rfl, hopens⟩
  · have hwas := h q r hold
    by_cases hqp : q = p
    · subst hqp
      rw [hprocess, Function.update_self]
      rcases act_sends hact with ⟨hsame, -⟩ | ⟨hnone, -, -⟩
      · exact hsame.trans hwas
      · rw [hnone] at hwas
        cases hwas
    · rw [hprocess, Function.update_of_ne hqp, hwas]
  · rw [hprocess, Function.update_self, hopens]

theorem Holds.turn (h : ∀ q, Holds s q) (ht : Turn s p t) (q : Pid) : Holds t q := by
  cases ht with
  | acts halive hact hprocess hexited hpers _ =>
      exact ⟨Tracks.act (fun q => (h q).reads) (act_readers hact) hprocess hexited q,
        Tracks.act (fun q => (h q).writes) (act_writers hact) hprocess hexited q,
        sends_act (fun q => (h q).sends) hact hprocess hpers q⟩
  | ends _ hends hprocess hexited hconn hpers _ =>
      obtain ⟨hreads, hwrites, hopens⟩ := ends_same hends
      refine ⟨?_, ?_, fun r hq => ?_⟩
      · rw [hconn]
        exact Tracks.ends (fun q => (h q).reads) hreads hprocess hexited q
      · rw [hconn]
        exact Tracks.ends (fun q => (h q).writes) hwrites hprocess hexited q
      · rw [hpers] at hq
        rw [hprocess]
        exact (set_same (s := s) opens hopens q).trans ((h q).sends r hq)
  | @closes k fifo hp hcloses hprocess hexited hpers _ =>
      refine ⟨Tracks.closes (fun q => (h q).reads) hp (closes_readers hcloses) hprocess hexited q,
        Tracks.closes (fun q => (h q).writes) hp (closes_writers hcloses) hprocess hexited q,
        fun r hq => ?_⟩
      rw [hprocess]
      rw [hpers] at hq
      by_cases hr : r = k
      · subst hr
        rw [Function.update_self] at hq
        exact (h q).sends r (closes_sends hcloses hq)
      · rw [Function.update_of_ne hr] at hq
        exact (h q).sends r hq

end

/-! ## How a process ends -/

/-- A reader has waited in vain, has met a connection without a writer, or has
printed a whole file. A writer has taken no pid, has sent its whole file, or has
a reader that ended before. -/
def Ending (role : Pid → Option (List Byte)) (s : State) (p : Pid) : Process → Prop
  | .reader r =>
      r.pc = .polling ∧ r.out = [.writerNotFound] ∨ r.pc = .sending ∧ r.out = [] ∨
        r.pc = .reading ∧ ∃ q file, (q, p) ∈ s.opened ∧ role q = some file ∧
          r.out = file.map .byte
  | .writer w =>
      w.pc = .readingPid ∨ w.pc = .reading ∧ w.pos = w.file.length ∨
        takes (.writer w) = some w.pid_r ∧ s.exited w.pid_r = true

/-- What a living reader has printed are bytes. A writer is not past the end of
its file. -/
def Sound : Process → Prop
  | .reader r => (data r.out).map .byte = r.out
  | .writer w => w.pos ≤ w.file.length

/-- What holds of the processes `P` in runs that nobody disturbs. -/
structure Undisturbed (role : Pid → Option (List Byte)) (P : Finset Pid) (s : State) : Prop where
  inv : Inv role s
  outside : ∀ q, q ∉ P → s.process q = (State.start role).process q ∧ s.exited q = false
  holds : ∀ q, Holds s q
  ending : ∀ q, s.exited q = true → Ending role s q (s.process q)
  sound : ∀ q, s.exited q = false → Sound (s.process q)

section
variable {role : Pid → Option (List Byte)} {P : Finset Pid} {s t : State} {p q : Pid}

theorem undisturbed_start (role : Pid → Option (List Byte)) (P : Finset Pid) :
    Undisturbed role P (State.start role) where
  inv := inv_start role
  outside _ _ := ⟨rfl, rfl⟩
  holds q := by
    have hnone : readsConn ((State.start role).process q) = false ∧
        writesConn ((State.start role).process q) = false := by
      unfold State.start
      cases hq : role q <;> simp [hq, readsConn, writesConn]
    refine ⟨⟨fun hq => absurd hq (Finset.notMem_empty q), fun hb => ?_⟩,
      ⟨fun hq => absurd hq (Finset.notMem_empty q), fun hb => ?_⟩,
      fun _ hq => absurd hq (Finset.notMem_empty q)⟩
    · rw [hnone.1] at hb
      cases hb
    · rw [hnone.2] at hb
      cases hb
  ending _ hq := absurd hq Bool.false_ne_true
  sound q _ := by
    unfold State.start
    cases hq : role q <;> simp [hq, Sound, data]

/-- A reader whose pid was taken keeps its FIFO open while it lives. -/
theorem Undisturbed.reader_of_taken (h : Undisturbed role P s) {w : Pid}
    (hw : takes (s.process w) = some q) (hq : s.exited q = false) : q ∈ (s.pers q).readers := by
  obtain ⟨waiting, hwaiting⟩ := h.inv.pairing
  have hsent := (hwaiting.taken w q hw).1
  refine (h.inv.stream q).held ?_ hq
  cases hproc : s.process q with
  | writer _ => simp [hproc, hasSent] at hsent
  | reader r => cases hpc : r.pc <;> simp_all [inlet, hasSent, polled]

theorem Undisturbed.ended_of_gone (h : Undisturbed role P s) {w : Pid}
    (hw : takes (s.process w) = some q) (hgone : ¬ (s.pers q).readers.Nonempty) :
    s.exited q = true := by
  by_contra hq
  exact hgone ⟨q, h.reader_of_taken hw (Bool.eq_false_iff.mpr hq)⟩

/-- A writer that has ended, but whose reader lives, has sent all of its file. -/
theorem Undisturbed.whole (h : Undisturbed role P s) (hq : opens (s.process q) = some p)
    (hended : s.exited q = true) (halive : s.exited p = false) :
    sends (s.process q) = greetingBytes ++ file (s.process q) := by
  have hending := h.ending q hended
  have htakes := opens_takes hq
  cases hproc : s.process q with
  | reader _ => simp [hproc, opens] at hq
  | writer w =>
      rw [hproc] at hending hq htakes
      rcases hending with hnone | ⟨hpc, hpos⟩ | ⟨htarget, hgone⟩
      · simp [opens, hnone] at hq
      · simp [sends, file, hpc, hpos]
      · rw [htakes] at htarget
        obtain rfl := Option.some.inj htarget
        rw [halive] at hgone
        cases hgone

/-- A reader that meets the end of its FIFO has received a whole file. -/
theorem Undisturbed.received (h : Undisturbed role P s) {r : Reader}
    (hp : s.process p = .reader r) (halive : s.exited p = false) (hpc : r.pc = .reading)
    (hbuf : (s.pers p).buf = []) (hwriters : (s.pers p).writers = ∅) :
    ∃ q file, (q, p) ∈ s.opened ∧ role q = some file ∧ r.out = file.map .byte := by
  have hstream := h.inv.stream p
  rw [hp] at hstream
  obtain ⟨q, hq⟩ := hstream.polled (by simp [inlet, hpc, polled])
  have hended : s.exited q = true := by
    by_contra hlives
    have hmem := hstream.alive q hq (Bool.eq_false_iff.mpr hlives)
    rw [hwriters] at hmem
    exact Finset.notMem_empty q hmem
  have hsends := h.whole hq hended halive
  have hsent := hstream.stream (hstream.held (by simp [inlet, hpc]) halive) q hq
  have htemp : r.temp = greetingBytes := by
    rcases hstream.temp with htemp | htemp
    · have hmissed := (hstream.missed (by simp [inlet, hpc, greeted]) htemp q hq).2
      rw [hsends] at hmissed
      simp [greetingBytes] at hmissed
    · exact htemp
  have hdata : data r.out = file (s.process q) := by
    rw [hsends, hbuf] at hsent
    simpa [inlet, hpc, pending, htemp] using hsent
  have hrole : role q = some (file (s.process q)) := by
    rw [← h.inv.role q]
    cases hproc : s.process q with
    | reader _ => simp [hproc, opens] at hq
    | writer w => rfl
  have hbytes := h.sound p halive
  rw [hp] at hbytes
  obtain ⟨waiting, hwaiting⟩ := h.inv.pairing
  exact ⟨q, file (s.process q), (hwaiting.opened q p).mpr hq, hrole, hdata ▸ hbytes.symm⟩

/-- A reader that has not got its greeting has printed nothing. -/
theorem Undisturbed.silent (h : Undisturbed role P s) {r : Reader}
    (hp : s.process p = .reader r) (halive : s.exited p = false) (hpc : greeted r.pc = false) :
    r.out = [] := by
  have hok := h.inv.ok p
  have hbytes := h.sound p halive
  rw [hp] at hok hbytes
  unfold Sound at hbytes
  rw [← hbytes, (hok hpc).2, List.map_nil]

/-! ## Every step -/

/-- What a process did before its end. -/
theorem Undisturbed.ends (h : Undisturbed role P s) (halive : s.exited p = false) {x : Process}
    (hends : Ends s p (s.process p) x) : Ending role s p x := by
  generalize hx : s.process p = y at hends
  cases hends with
  | timedOut hpc =>
      refine .inl ⟨hpc, ?_⟩
      rw [h.silent hx halive (by rw [hpc]; rfl), List.nil_append]
  | noWriter hpc _ => exact .inr (.inl ⟨hpc, h.silent hx halive (by rw [hpc]; rfl)⟩)
  | readAll hpc hbuf hwriters => exact .inr (.inr ⟨hpc, h.received hx halive hpc hbuf hwriters⟩)
  | noReader hpc _ => exact .inl hpc
  | @readerGone w hpc hgone =>
      have htakes : takes (.writer w) = some w.pid_r := by simp [takes, hpc]
      exact .inr (.inr ⟨htakes, h.ended_of_gone (hx ▸ htakes) hgone⟩)
  | @brokenPipe w hpc hgone =>
      have htakes : takes (.writer w) = some w.pid_r := by
        rcases hpc with hpc | ⟨buf, hpc⟩ <;> simp [takes, hpc]
      exact .inr (.inr ⟨htakes, h.ended_of_gone (hx ▸ htakes) hgone⟩)
  | sentAll hpc hpos => exact .inr (.inl ⟨hpc, hpos⟩)

theorem Ending.mono {x : Process} (h : Ending role s q x) (hopened : ∀ z ∈ s.opened, z ∈ t.opened)
    (hexited : ∀ r, s.exited r = true → t.exited r = true) : Ending role t q x := by
  cases x with
  | reader r =>
      rcases h with h | h | ⟨hpc, w, file, hmem, hrest⟩
      · exact .inl h
      · exact .inr (.inl h)
      · exact .inr (.inr ⟨hpc, w, file, hopened _ hmem, hrest⟩)
  | writer w =>
      rcases h with h | h | ⟨htakes, hended⟩
      · exact .inl h
      · exact .inr (.inl h)
      · exact .inr (.inr ⟨htakes, hexited _ hended⟩)

theorem act_sound {k : Pid} {conn conn' f f' : Fifo Pid Byte} {x y : Process}
    (h : Act p conn k f x conn' f' y) (hx : Sound x) : Sound y := by
  cases h with
  | @prints r f buf _ =>
      have hold : (data r.out).map .byte = r.out := hx
      change (data (r.out ++ buf.map .byte)).map .byte = r.out ++ buf.map .byte
      rw [data_append, data_byte, List.map_append, hold]
  | readsFile _ _ hle => exact hle
  | _ => exact hx

theorem Undisturbed.moves (h : Undisturbed role P s) {e : Event} (hst : Moves P s e t) :
    Undisturbed role P t := by
  obtain ⟨hstep, hmem, hcalm⟩ := hst
  have hinv := h.inv.effect (step_effect hstep)
  have hturn := turn_of_step hstep hcalm
  generalize mover e = p at hmem hturn
  have hholds := Holds.turn h.holds hturn
  have hne : ∀ q, q ∉ P → q ≠ p := by
    rintro q hq rfl
    exact hq hmem
  cases hturn with
  | acts halive hact hprocess hexited _ hopened =>
      refine ⟨hinv, fun q hq => ?_, hholds, fun q hq => ?_, fun q hq => ?_⟩
      · rw [hprocess, hexited, Function.update_of_ne (hne q hq)]
        exact h.outside q hq
      · have hqp : q ≠ p := by
          rintro rfl
          rw [hexited, halive] at hq
          cases hq
        rw [hprocess, Function.update_of_ne hqp]
        rw [hexited] at hq
        exact (h.ending q hq).mono hopened fun r hr => by rw [hexited]; exact hr
      · rw [hexited] at hq
        rw [hprocess]
        by_cases hqp : q = p
        · subst hqp
          rw [Function.update_self]
          exact act_sound hact (h.sound q hq)
        · rw [Function.update_of_ne hqp]
          exact h.sound q hq
  | ends halive hends hprocess hexited _ _ hopened =>
      have hmono : ∀ r, s.exited r = true → t.exited r = true := by
        intro r hr
        rw [hexited]
        exact exit_mono s p r hr
      have hkept : ∀ z ∈ s.opened, z ∈ t.opened := fun z hz => by rwa [hopened]
      refine ⟨hinv, fun q hq => ?_, hholds, fun q hq => ?_, fun q hq => ?_⟩
      · rw [hprocess, hexited, Function.update_of_ne (hne q hq), Function.update_of_ne (hne q hq)]
        exact h.outside q hq
      · rw [hprocess]
        by_cases hqp : q = p
        · subst hqp
          rw [Function.update_self]
          exact (h.ends halive hends).mono hkept hmono
        · rw [hexited, Function.update_of_ne hqp] at hq
          rw [Function.update_of_ne hqp]
          exact (h.ending q hq).mono hkept hmono
      · by_cases hqp : q = p
        · subst hqp
          rw [hexited, Function.update_self] at hq
          cases hq
        · rw [hexited, Function.update_of_ne hqp] at hq
          rw [hprocess, Function.update_of_ne hqp]
          exact h.sound q hq
  | closes _ _ hprocess hexited _ hopened =>
      refine ⟨hinv, fun q hq => ?_, hholds, fun q hq => ?_, fun q hq => ?_⟩
      · rw [hprocess, hexited]
        exact h.outside q hq
      · rw [hexited] at hq
        rw [hprocess]
        exact (h.ending q hq).mono (fun z hz => by rwa [hopened]) fun r hr => by rwa [hexited]
      · rw [hexited] at hq
        rw [hprocess]
        exact h.sound q hq

end

end TaskLunev.SuperFifoEndings
