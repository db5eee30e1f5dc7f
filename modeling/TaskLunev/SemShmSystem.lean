import TaskLunev.SemShmModel

/-!
# Transfers in pairs

The connection phase leaves every identifier with one writer and every writer
with one identifier. So the processes that transfer do so in pairs, each on a
personal memory of its own, and a step of one pair is nothing to the others. A
writer with bytes to send returns only after its reader has begun to print, and
that reader has set the connection semaphores anew. So the exits leave these as
they are.
-/
namespace TaskLunev.SemShmSystem
open ByteMemory UndoSemaphores ConnModel ConnHandover ConnSafety ConnCompletion TransferCompletion
  SemShmModel TransitionRuns

/-! ## What the connection phase leaves -/

section
variable {ι : Type*} [DecidableEq ι] {persShmID : ι → ℤ} {role : ι → Role} {s t : ConnModel.State ι}
  {p r w : ι} {x : ℤ}

/-- An identifier that was read is that of a reader. -/
theorem reader_of_read (h : Orderly persShmID s) (hx : (w, x) ∈ s.reads) :
    ∃ r, x = persShmID r ∧ roleOf (s.pc r) = some .reader := by
  obtain ⟨ph, hph, honce, -⟩ := h
  rcases honce.owner _ hx with ⟨r, hr, hid⟩ | ⟨r, w', hanswer, hid⟩
  · exact ⟨r, hid, by rw [hr]; rfl⟩
  · refine ⟨r, hid, ?_⟩
    have hplace := hph.place
    cases ph with
    | idle => cases hanswer
    | alone r' a => cases hanswer
    | both r' w' b =>
        simp only [Phase.answer] at hanswer
        split_ifs at hanswer
        cases hanswer
        rw [hplace.1]
        rfl
    | passed r' w' =>
        cases hanswer
        rw [hplace.1]
        rfl

/-- A step of the connection phase reads nothing, or a writer reads its first
identifier, which nobody has read. -/
theorem reads_exec (hinj : Function.Injective persShmID) (h : Orderly persShmID s)
    (hlogged : Logged role s) (ht : s.exec persShmID p = some t) :
    t.reads = s.reads ∨ ∃ r w, t.reads = s.reads ++ [(w, persShmID r)] ∧
      w ∉ s.reads.map Prod.fst ∧ ∀ w', (w', persShmID r) ∉ s.reads := by
  obtain ⟨ph, hph, honce, -⟩ := h
  obtain ⟨ph', -, hmoved⟩ := hph.exec ht
  cases hmoved with
  | quiet _ hreads => exact .inl hreads
  | close r w _ _ hreads => exact .inl hreads
  | read r w hnone _ hr hreads =>
      refine .inr ⟨r, w, hreads, ?_, fun w' hw' => ?_⟩
      · obtain ⟨pc, hgoes⟩ := goes_exec ht
        have hnodup := (hlogged.goes hgoes).once
        rw [hreads, List.map_append, List.nodup_append] at hnodup
        exact fun hmem => hnodup.2.2 w hmem w (by simp) rfl
      · rcases honce.owner _ hw' with ⟨r', hr', hid⟩ | ⟨r', w'', hanswer, -⟩
        · exact hr (hinj hid ▸ hr')
        · simp [hnone] at hanswer

/-- A reader that is through stays where it is. -/
theorem done_exec (ht : s.exec persShmID p = some t) (hr : s.pc r = .reader .done) :
    t.pc r = .reader .done := by
  obtain ⟨pc, hgoes⟩ := goes_exec ht
  have hne : r ≠ p := by
    rintro rfl
    simp [ConnModel.State.exec, hr, ConnModel.State.reader] at ht
  rw [hgoes.pc_eq, Function.update_of_ne hne]
  exact hr

/-- Of the processes that are active only a writer can be through, and then its
reader is not. -/
theorem answer_of_active {ph : Phase ι} (hph : Holds persShmID ph s) (hin : p ∈ ph.active)
    (hdone : s.pc p = .reader .done ∨ s.pc p = .writer .done) :
    s.pc p = .writer .done ∧ ∃ r, ph.answer = some (r, p) ∧ s.pc r ≠ .reader .done := by
  have hplace := hph.place
  cases ph with
  | idle => exact absurd hin (Finset.notMem_empty p)
  | alone r a =>
      obtain rfl := Finset.mem_singleton.mp hin
      exact absurd (by simpa [hplace.1] using hdone) hplace.2.2.2.1
  | both r w b =>
      rw [Phase.active, Finset.mem_insert, Finset.mem_singleton] at hin
      rcases hin with rfl | rfl
      · simp [hplace.1] at hdone
      · obtain rfl : b = .done := by simpa [hplace.2.1] using hdone
        exact ⟨hplace.2.1, r, rfl, by simp [hplace.1]⟩
  | passed r w =>
      rw [Phase.active, Finset.mem_insert, Finset.mem_singleton] at hin
      rcases hin with rfl | rfl
      · simp [hplace.1] at hdone
      · exact ⟨hplace.2, r, rfl, by simp [hplace.1]⟩

/-- Through the connection phase a reader owes its semaphores nothing, and neither
does the writer that read its identifier. -/
theorem adj_reader (h : Orderly persShmID s) (hr : s.pc r = .reader .done) : s.sem.adj r = 0 := by
  obtain ⟨ph, hph, -⟩ := h
  refine hph.held.owed.rest r fun hin => ?_
  have hw := (answer_of_active hph hin (.inl hr)).1
  rw [hr] at hw
  cases hw

theorem adj_writer (hinj : Function.Injective persShmID) (h : Orderly persShmID s)
    (hlogged : Logged role s) (hw : s.pc w = .writer .done) (hread : (w, persShmID r) ∈ s.reads)
    (hr : s.pc r = .reader .done) : s.sem.adj w = 0 := by
  obtain ⟨ph, hph, -⟩ := h
  refine hph.held.owed.rest w fun hin => ?_
  obtain ⟨-, r', hanswer, hwaits⟩ := answer_of_active hph hin (.inr hw)
  have hsame : r' = r := hinj (congrArg Prod.snd (List.inj_on_of_nodup_map hlogged.once
    (hph.logged r' w hanswer) hread rfl))
  exact hwaits (hsame ▸ hr)

omit [DecidableEq ι] in
theorem writer_of_read (hlogged : Logged role s) (hx : (w, x) ∈ s.reads) : role w = .writer := by
  have hread := (hlogged.read w).mp (List.mem_map_of_mem hx)
  have hrole := hlogged.role w
  cases hpc : s.pc w with
  | writer pc =>
      rw [hpc] at hrole
      exact (Option.some.inj hrole).symm
  | reader pc => simp [hpc, didRead] at hread
  | exited => simp [hpc, didRead] at hread

end

/-! ## Pairs -/

section
variable {ι : Type*} [DecidableEq ι]

/-- Writer `w` has read the identifier of reader `r`. -/
def Linked (persShmID : ι → ℤ) (s : SemShmModel.State ι) (r w : ι) : Prop :=
  (w, persShmID r) ∈ s.conn.reads

/-- The transfer from `w` to `r`. -/
def pair (persShmID : ι → ℤ) (s : SemShmModel.State ι) (r w : ι) : TransferModel.State :=
  transfer (s.persShm (persShmID r)) (s.sender w) (s.receiver r)

/-- Every pair is underway with the file of its writer, and who is in no pair has
not begun. -/
structure Inv (persShmID : ι → ℤ) (role : ι → Role) (file : ι → List Byte)
    (s : SemShmModel.State ι) : Prop where
  orderly : Orderly persShmID s.conn
  logged : Logged role s.conn
  underway : ∀ r w, Linked persShmID s r w → Underway (file w) (pair persShmID s r w)
  sender : ∀ w, w ∉ s.conn.reads.map Prod.fst → s.sender w = ⟨file w, .pEmpty⟩
  receiver : ∀ r, (∀ w, ¬ Linked persShmID s r w) →
    s.persShm (persShmID r) = .init ∧ s.receiver r = ⟨[], .pFull⟩
  waits : ∀ r, s.conn.pc r ≠ .reader .done → s.receiver r = ⟨[], .pFull⟩

/-- The pair of `r` and `w` takes a step of a transfer, and nobody else moves. -/
structure PairMoves (persShmID : ι → ℤ) (s : SemShmModel.State ι) (r w : ι)
    (event : TransferModel.Event) (t : SemShmModel.State ι) : Prop where
  conn : t.conn = s.conn
  exited : t.exited = s.exited
  reads : event = .reader → s.conn.pc r = .reader .done
  step : (pair persShmID s r w).next event = some (pair persShmID t r w)
  persShm : ∀ id, id ≠ persShmID r → t.persShm id = s.persShm id
  sender : ∀ q, q ≠ w → t.sender q = s.sender q
  receiver : ∀ q, q ≠ r → t.receiver q = s.receiver q

variable {persShmID : ι → ℤ} {role : ι → Role} {file : ι → List Byte} {s t : SemShmModel.State ι}
  {p r w r' w' : ι} {event : TransferModel.Event} {id : ℤ}

theorem reads_of_place (hplace : s.place persShmID p .reader = some id) :
    s.conn.pc p = .reader .done := by
  simp only [SemShmModel.State.place] at hplace
  split_ifs at hplace with hdone
  exact hdone

theorem attached_eq_some (hlogged : Logged role s.conn) :
    s.attached w = some id ↔ (w, id) ∈ s.conn.reads := by
  unfold SemShmModel.State.attached
  constructor
  · intro h
    obtain ⟨e, he, rfl⟩ := Option.map_eq_some_iff.mp h
    have hfst : e.1 = w := of_decide_eq_true (List.find?_some he :)
    exact hfst ▸ List.mem_of_find?_eq_some he
  · intro h
    cases hfind : s.conn.reads.find? fun e => decide (e.1 = w) with
    | none =>
        have hnot := List.find?_eq_none.mp hfind _ h
        simp at hnot
    | some e =>
        have hfst : e.1 = w := of_decide_eq_true (List.find?_some hfind :)
        have heq : e = (w, id) := List.inj_on_of_nodup_map hlogged.once
          (List.mem_of_find?_eq_some hfind) h hfst
        rw [heq]
        rfl

theorem Inv.writer_unique (h : Inv persShmID role file s) (hw : Linked persShmID s r w)
    (hw' : Linked persShmID s r w') : w = w' := h.orderly.handedOver.once r w w' hw hw'

theorem Inv.reader_unique (hinj : Function.Injective persShmID) (h : Inv persShmID role file s)
    (hr : Linked persShmID s r w) (hr' : Linked persShmID s r' w) : r = r' :=
  hinj (congrArg Prod.snd (List.inj_on_of_nodup_map h.logged.once hr hr' rfl))

/-- A process that is through the connection phase is in a pair. -/
theorem Inv.place (h : Inv persShmID role file s) (hplace : s.place persShmID p event = some id) :
    ∃ r w, Linked persShmID s r w ∧ id = persShmID r ∧ p = if event = .reader then r else w := by
  cases event with
  | reader =>
      simp only [SemShmModel.State.place] at hplace
      split_ifs at hplace with hdone
      cases hplace
      obtain ⟨w, hw, -⟩ := h.orderly.handedOver.read p (.inr hdone)
      exact ⟨p, w, hw, rfl, rfl⟩
  | writer | read size =>
      simp only [SemShmModel.State.place] at hplace
      split_ifs at hplace with hdone
      have hread := (attached_eq_some h.logged).mp hplace
      obtain ⟨r, rfl, -⟩ := reader_of_read h.orderly hread
      exact ⟨r, p, hread, rfl, rfl⟩

theorem Inv.pairMoves (h : Inv persShmID role file s) (ht : s.act persShmID p event = some t) :
    ∃ r w, Linked persShmID s r w ∧ PairMoves persShmID s r w event t := by
  obtain ⟨id, hplace, ht⟩ := Option.bind_eq_some_iff.mp ht
  obtain ⟨m, hm, rfl⟩ := Option.map_eq_some_iff.mp ht
  obtain ⟨r, w, hlinked, rfl, hp⟩ := h.place hplace
  refine ⟨r, w, hlinked, ?_⟩
  by_cases hevent : event = .reader
  · rw [if_pos hevent] at hp
    subst hp
    subst hevent
    obtain ⟨hsender, hstep⟩ := next_receiver hm
    constructor
    case conn => rfl
    case exited => rfl
    case reads => exact fun _ => reads_of_place hplace
    case step =>
      have hkept : Function.update s.sender p (senderOf m) = s.sender := by
        rw [hsender, Function.update_eq_self]
      simp only [pair, hkept, Function.update_self]
      exact hstep (s.sender w)
    case persShm => exact fun id hid => Function.update_of_ne hid _ _
    case sender =>
      intro q _
      simp only [hsender, Function.update_eq_self]
    case receiver => exact fun q hq => Function.update_of_ne hq _ _
  · rw [if_neg hevent] at hp
    subst hp
    obtain ⟨hreceiver, hstep⟩ := next_sender hevent hm
    constructor
    case conn => rfl
    case exited => rfl
    case reads => exact fun hreader => absurd hreader hevent
    case step =>
      have hkept : Function.update s.receiver p (receiverOf m) = s.receiver := by
        rw [hreceiver, Function.update_eq_self]
      simp only [pair, hkept, Function.update_self]
      exact hstep (s.receiver r)
    case persShm => exact fun id hid => Function.update_of_ne hid _ _
    case sender => exact fun q hq => Function.update_of_ne hq _ _
    case receiver =>
      intro q _
      simp only [hreceiver, Function.update_eq_self]

/-! ## Steps -/

theorem Inv.moves (hinj : Function.Injective persShmID) (h : Inv persShmID role file s)
    (hlinked : Linked persShmID s r w) (hmoves : PairMoves persShmID s r w event t) :
    Inv persShmID role file t where
  orderly := hmoves.conn ▸ h.orderly
  logged := hmoves.conn ▸ h.logged
  underway r' w' hlinked' := by
    have hlinked' : Linked persShmID s r' w' := by
      unfold Linked at hlinked'
      rwa [hmoves.conn] at hlinked'
    by_cases hr : r' = r
    · subst hr
      obtain rfl := h.writer_unique hlinked hlinked'
      exact ((h.underway r' w hlinked).next hmoves.step).1
    · have hw : w' ≠ w := by
        rintro rfl
        exact hr (h.reader_unique hinj hlinked' hlinked)
      have hsame : pair persShmID t r' w' = pair persShmID s r' w' := by
        unfold pair
        rw [hmoves.persShm _ fun hid => hr (hinj hid), hmoves.sender _ hw, hmoves.receiver _ hr]
      rw [hsame]
      exact h.underway r' w' hlinked'
  sender w' hnot := by
    rw [hmoves.conn] at hnot
    have hw : w' ≠ w := fun heq => hnot (heq ▸ List.mem_map_of_mem hlinked)
    rw [hmoves.sender _ hw]
    exact h.sender w' hnot
  receiver r' hnone := by
    have hnone : ∀ w', ¬ Linked persShmID s r' w' := fun w' hw' => hnone w' (by
      unfold Linked
      rwa [hmoves.conn])
    have hr : r' ≠ r := fun heq => hnone w (heq ▸ hlinked)
    rw [hmoves.persShm _ fun hid => hr (hinj hid), hmoves.receiver _ hr]
    exact h.receiver r' hnone
  waits r' hdone := by
    rw [hmoves.conn] at hdone
    by_cases hr : r' = r
    · subst hr
      have hevent : event ≠ .reader := fun hreader => hdone (hmoves.reads hreader)
      have hkept := (next_sender hevent hmoves.step).1
      exact hkept.trans (h.waits r' hdone)
    · rw [hmoves.receiver _ hr]
      exact h.waits r' hdone

/-- The new pair has its transfer before it. -/
theorem Inv.conn (hinj : Function.Injective persShmID) (h : Inv persShmID role file s)
    {conn : ConnModel.State ι} (ht : s.conn.exec persShmID p = some conn) :
    Inv persShmID role file { s with conn } := by
  obtain ⟨pc, hgoes⟩ := goes_exec ht
  have horderly := h.orderly.exec hinj ht
  have hlogged := h.logged.goes hgoes
  have hwaits : ∀ r, conn.pc r ≠ .reader .done → s.receiver r = ⟨[], .pFull⟩ := fun r hdone =>
    h.waits r fun hr => hdone (done_exec ht hr)
  rcases reads_exec hinj h.orderly h.logged ht with hreads | ⟨r, w, hreads, hnew, hunread⟩
  · have hsame : ∀ r w, Linked persShmID { s with conn } r w ↔ Linked persShmID s r w := by
      intro r w
      unfold Linked
      rw [hreads]
    refine ⟨horderly, hlogged, fun r w hlinked => ?_, fun w hnot => ?_, fun r hnone => ?_, hwaits⟩
    · exact h.underway r w ((hsame r w).mp hlinked)
    · exact h.sender w (hreads ▸ hnot)
    · exact h.receiver r fun w hlinked => hnone w ((hsame r w).mpr hlinked)
  · have hsub : ∀ e ∈ s.conn.reads, e ∈ conn.reads := fun e he => by
      rw [hreads]
      exact List.mem_append_left _ he
    refine ⟨horderly, hlogged, fun r' w' hlinked => ?_, fun w' hnot => ?_, fun r' hnone => ?_,
      hwaits⟩
    · unfold Linked at hlinked
      simp only [hreads, List.mem_append, List.mem_singleton, Prod.mk.injEq] at hlinked
      rcases hlinked with hold | ⟨rfl, hid⟩
      · exact h.underway r' w' hold
      · obtain rfl := hinj hid
        have hfresh := h.receiver r' hunread
        have hstart : pair persShmID { s with conn } r' w' = .start (file w') := by
          simp only [pair, hfresh.1, hfresh.2, h.sender w' hnew]
          rfl
        rw [hstart]
        exact .inl ⟨TransferSafety.live_start _, TransferSafety.carries_start _⟩
    · refine h.sender w' fun hmem => hnot ?_
      obtain ⟨e, he, rfl⟩ := List.mem_map.mp hmem
      exact List.mem_map_of_mem (hsub e he)
    · exact h.receiver r' fun w' hlinked => hnone w' (hsub _ hlinked)

/-- A writer that has returned before its reader printed had an empty file. -/
theorem empty_of_returned {bytes : List Byte} {m : TransferModel.State} (h : Underway bytes m)
    (hreceiver : receiverOf m = ⟨[], .pFull⟩) {code : ℤ} (hw : m.writer = .returned code) :
    bytes = [] := by
  have hout : m.out = [] := congrArg Receiver.out hreceiver
  have hreader : m.reader = .pFull := congrArg Receiver.pc hreceiver
  rcases h with ⟨hlive, hcarries⟩ | hleaving
  · have hsize := hlive.ends (.inr ⟨code, hw⟩)
    have hread := hcarries.last (by simp [TransferSafety.Begins, hw]) hsize
    have hstream := hcarries.stream
    simpa [TransferSafety.onItsWay, hw, hsize, hread, hout, eq_comm] using hstream
  · have hleft := hleaving.left
    simp [TransferModel.ReaderPc.Left, hreader] at hleft

/-- Who exits owes the connection semaphores nothing. -/
theorem Inv.adj_exit (hinj : Function.Injective persShmID) (h : Inv persShmID role file s)
    (hlate : Event.Late file s (.exit p)) (hreturned : s.hasReturned p = true) :
    s.conn.sem.adj p = 0 := by
  by_cases hempty : file p = []
  · exact hlate hempty
  unfold SemShmModel.State.hasReturned at hreturned
  split at hreturned
  next hdone _ => exact adj_reader h.orderly hdone
  next code hdone hsender =>
    have hread : p ∈ s.conn.reads.map Prod.fst := (h.logged.read p).mpr (by rw [hdone]; rfl)
    obtain ⟨e, he, rfl⟩ := List.mem_map.mp hread
    obtain ⟨r, hid, -⟩ := reader_of_read h.orderly (show (e.1, e.2) ∈ s.conn.reads from he)
    have hlinked : Linked persShmID s r e.1 := by
      unfold Linked
      rwa [← hid]
    have hr : s.conn.pc r = .reader .done := by
      by_contra hnot
      exact hempty (empty_of_returned (h.underway r e.1 hlinked) (h.waits r hnot) hsender)
    exact adj_writer hinj h.orderly h.logged hdone hlinked hr
  next => cases hreturned

/-- An exit changes nothing but its mark. -/
theorem Inv.exit_eq (hinj : Function.Injective persShmID) (h : Inv persShmID role file s)
    (hlate : Event.Late file s (.exit p)) (ht : s.exit p = some t) :
    s.exited p = false ∧ t = { s with exited := Function.update s.exited p true } := by
  unfold SemShmModel.State.exit at ht
  split_ifs at ht with hboth
  cases ht
  have hsem : s.conn.sem.exit p = s.conn.sem := SemSet.exit_eq (h.adj_exit hinj hlate hboth.1)
  exact ⟨hboth.2, by rw [hsem]⟩

theorem Inv.next (hinj : Function.Injective persShmID) (h : Inv persShmID role file s)
    {e : SemShmModel.Event ι} (ht : Step persShmID file s e t) : Inv persShmID role file t := by
  obtain ⟨hlate, ht⟩ := ht
  cases e with
  | conn p =>
      obtain ⟨conn, hconn, rfl⟩ := Option.map_eq_some_iff.mp ht
      exact h.conn hinj hconn
  | transfer p event =>
      obtain ⟨r, w, hlinked, hmoves⟩ := h.pairMoves ht
      exact h.moves hinj hlinked hmoves
  | exit p =>
      obtain ⟨-, rfl⟩ := h.exit_eq hinj hlate ht
      exact ⟨h.orderly, h.logged, h.underway, h.sender, h.receiver, h.waits⟩

theorem inv_start (role : ι → Role) (readerShmID : ℤ) (file : ι → List Byte) :
    Inv persShmID role file (.start role readerShmID file) where
  orderly := orderly_start role readerShmID
  logged := logged_start readerShmID
  underway _ _ hlinked := absurd hlinked List.not_mem_nil
  sender _ _ := rfl
  receiver _ _ := ⟨rfl, rfl⟩
  waits _ _ := rfl

end

end TaskLunev.SemShmSystem
