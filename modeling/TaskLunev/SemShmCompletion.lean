import Mathlib.Algebra.BigOperators.Ring.Finset
import Mathlib.Algebra.Order.BigOperators.Group.Finset
import TaskLunev.SemShmSystem

/-!
# Files from writers to readers

The system as a whole. At any time a reader has printed the beginning of the
file of the one writer that has its identifier. The steps run out in every
order, and by then as many pairs as there can be have passed their files on,
each writer to one reader, and who is through has exited.
-/
namespace TaskLunev.SemShmCompletion
open ByteMemory ConnModel ConnHandover ConnSafety ConnCompletion TransferCompletion SemShmModel
  SemShmSystem TransitionRuns CompletedRuns
open scoped BigOperators

/-- A sum in which two terms go down and the others stay. -/
theorem sum_lt_of_two {ι : Type*} [Fintype ι] [DecidableEq ι] {f g : ι → ℕ} {a b : ι} (hab : a ≠ b)
    (hlt : g a + g b < f a + f b) (hrest : ∀ q, q ≠ a → q ≠ b → g q = f q) :
    ∑ q, g q < ∑ q, f q := by
  have hb : b ∈ Finset.univ.erase a := Finset.mem_erase.mpr ⟨hab.symm, Finset.mem_univ b⟩
  have hsplit : ∀ u : ι → ℕ, ∑ q, u q = u a + (u b + ∑ q ∈ (Finset.univ.erase a).erase b, u q) :=
    fun u => by rw [Finset.add_sum_erase _ _ hb, Finset.add_sum_erase _ _ (Finset.mem_univ a)]
  have hothers : ∑ q ∈ (Finset.univ.erase a).erase b, g q =
      ∑ q ∈ (Finset.univ.erase a).erase b, f q := by
    apply Finset.sum_congr rfl
    intro q hq
    rw [Finset.mem_erase, Finset.mem_erase] at hq
    exact hrest q hq.2.1 hq.1
  rw [hsplit g, hsplit f, hothers]
  omega

variable {ι : Type*} [DecidableEq ι]

/-! ## What is asked of a state -/

/-- Every reader has at most one writer, and has printed a beginning of its
file, or nothing when it has none. -/
structure InOrder (persShmID : ι → ℤ) (file : ι → List Byte) (s : SemShmModel.State ι) : Prop where
  once : ∀ r w w', Linked persShmID s r w → Linked persShmID s r w' → w = w'
  printed : ∀ r w, Linked persShmID s r w → (s.receiver r).out <+: file w
  silent : ∀ r, (∀ w, ¬ Linked persShmID s r w) → (s.receiver r).out = []

/-- As many pairs as there can be are through. `source` gives the readers among
them the writers whose files they have printed. -/
structure Delivered [Fintype ι] (persShmID : ι → ℤ) (role : ι → Role) (file : ι → List Byte)
    (s : SemShmModel.State ι) : Prop where
  readers : (doneReaders s.conn).card = min (numberOf role .reader) (numberOf role .writer)
  writers : (doneWriters s.conn).card = min (numberOf role .reader) (numberOf role .writer)
  files : ∃ source : ι → ι, Set.BijOn source (doneReaders s.conn) (doneWriters s.conn) ∧
    ∀ r ∈ doneReaders s.conn,
      s.receiver r = ⟨file (source r), .returned 0⟩ ∧ (s.persShm (persShmID r)).removed = true ∧
        ((s.sender (source r)).pc = .returned 0 ∨ (s.sender (source r)).pc = .returned (-1))
  others : ∀ p, p ∉ doneReaders s.conn → (s.receiver p).out = []
  exited : ∀ p, p ∈ doneReaders s.conn ∨ p ∈ doneWriters s.conn → s.exited p = true

variable {persShmID : ι → ℤ} {role : ι → Role} {file : ι → List Byte} {s t : SemShmModel.State ι}
  {p r w : ι} {event : TransferModel.Event}

theorem out_of_underway {bytes : List Byte} {m : TransferModel.State} (h : Underway bytes m) :
    m.out <+: bytes := by
  rcases h with ⟨-, hcarries⟩ | hleaving
  · rw [← hcarries.stream, List.append_assoc]
    exact List.prefix_append _ _
  · rw [hleaving.out]

theorem inOrder_of_inv (h : Inv persShmID role file s) : InOrder persShmID file s where
  once _ _ _ hw hw' := h.writer_unique hw hw'
  printed r w hlinked := out_of_underway (h.underway r w hlinked)
  silent r hnone := by rw [(h.receiver r hnone).2]

/-! ## The steps left -/

/-- The part of a process in the rank of its transfer. -/
def part (persShmID : ι → ℤ) (role : ι → Role) (s : SemShmModel.State ι) (p : ι) : ℕ :=
  match role p with
  | .writer =>
      TransferRemoval.writerRank (s.sender p).unread.length
        (((s.attached p).map fun id => (s.persShm id).currSizeData).getD 0) (s.sender p).pc
  | .reader =>
      TransferRemoval.readerRank (s.receiver p).pc + 4 * (s.persShm (persShmID p)).sem .full

theorem role_of_linked (hinj : Function.Injective persShmID) (h : Inv persShmID role file s)
    (hlinked : Linked persShmID s r w) : role r = .reader := by
  obtain ⟨r', hid, hrole⟩ := reader_of_read h.orderly hlinked
  obtain rfl := hinj hid
  exact Option.some.inj ((h.logged.role r).symm.trans hrole)

theorem part_pair (hinj : Function.Injective persShmID) (h : Inv persShmID role file s)
    (hlinked : Linked persShmID s r w) :
    part persShmID role s w + part persShmID role s r =
      TransferRemoval.rank (pair persShmID s r w) := by
  have hattached : s.attached w = some (persShmID r) := (attached_eq_some h.logged).mpr hlinked
  simp only [part, writer_of_read h.logged hlinked, role_of_linked hinj h hlinked, hattached,
    Option.map_some, Option.getD_some]
  rw [← add_assoc]
  rfl

/-- The other processes keep their parts. -/
theorem part_moves (hinj : Function.Injective persShmID) (h : Inv persShmID role file s)
    (hlinked : Linked persShmID s r w) (hmoves : PairMoves persShmID s r w event t) {q : ι}
    (hw : q ≠ w) (hr : q ≠ r) : part persShmID role t q = part persShmID role s q := by
  have hattached : t.attached q = s.attached q := by
    unfold SemShmModel.State.attached
    rw [hmoves.conn]
  unfold part
  cases role q with
  | reader =>
      simp only
      rw [hmoves.receiver q hr, hmoves.persShm _ fun hid => hr (hinj hid)]
  | writer =>
      simp only
      rw [hmoves.sender q hw, hattached]
      cases hid : s.attached q with
      | none => rfl
      | some id =>
          have hother : id ≠ persShmID r := by
            rintro rfl
            exact hw (h.writer_unique ((attached_eq_some h.logged).mp hid) hlinked)
          simp only [Option.map_some, hmoves.persShm id hother]

/-- A step of the connection phase keeps all of them. -/
theorem part_conn (hinj : Function.Injective persShmID) (h : Inv persShmID role file s)
    {conn : ConnModel.State ι} (ht : s.conn.exec persShmID p = some conn) (q : ι) :
    part persShmID role { s with conn } q = part persShmID role s q := by
  have hlogged : Logged role conn := (h.conn hinj ht).logged
  have hsub : ∀ e ∈ s.conn.reads, e ∈ conn.reads := by
    rcases reads_exec hinj h.orderly h.logged ht with hreads | ⟨_, _, hreads, -⟩
    · exact fun e he => hreads ▸ he
    · exact fun e he => hreads ▸ List.mem_append_left _ he
  unfold part
  cases role q with
  | reader => rfl
  | writer =>
      simp only
      cases hid : s.attached q with
      | some id =>
          have hread := hsub _ ((attached_eq_some h.logged).mp hid)
          have hkept : SemShmModel.State.attached { s with conn } q = some id :=
            (attached_eq_some hlogged).mpr hread
          rw [hkept]
      | none =>
          -- a writer that has not read is at its first step
          have hnew : q ∉ s.conn.reads.map Prod.fst := by
            intro hmem
            obtain ⟨e, he, rfl⟩ := List.mem_map.mp hmem
            have hsome := (attached_eq_some h.logged).mpr he
            rw [hid] at hsome
            cases hsome
          rw [h.sender q hnew]
          rfl

section
variable [Fintype ι]

/-- The processes that have still to exit. -/
def present (s : SemShmModel.State ι) : Finset ι := Finset.univ.filter fun p => s.exited p = false

omit [DecidableEq ι] in
theorem numberOf_add (role : ι → Role) :
    numberOf role .reader + numberOf role .writer = Fintype.card ι := by
  have hwriters : (Finset.univ.filter fun p => role p = .writer) =
      Finset.univ.filter fun p => ¬ role p = .reader :=
    Finset.filter_congr fun p _ => by cases role p <;> simp
  rw [numberOf, numberOf, hwriters, Finset.card_filter_add_card_filter_not, Finset.card_univ]

def rank (persShmID : ι → ℤ) (role : ι → Role) (s : SemShmModel.State ι) : ℕ :=
  ConnCompletion.rank s.conn + ∑ p, part persShmID role s p + (present s).card

theorem present_exit (hp : s.exited p = false) :
    (present { s with exited := Function.update s.exited p true }).card + 1 =
      (present s).card := by
  have herase : present { s with exited := Function.update s.exited p true } =
      (present s).erase p := by
    ext q
    by_cases hq : q = p <;> simp [present, hq]
  have hmem : p ∈ present s := Finset.mem_filter.mpr ⟨Finset.mem_univ p, hp⟩
  rw [herase]
  exact Finset.card_erase_add_one hmem

theorem rank_lt (hinj : Function.Injective persShmID) (h : Inv persShmID role file s)
    {e : SemShmModel.Event ι} (ht : Step persShmID file s e t) :
    rank persShmID role t < rank persShmID role s := by
  obtain ⟨hlate, ht⟩ := ht
  cases e with
  | conn p =>
      obtain ⟨conn, hconn, rfl⟩ := Option.map_eq_some_iff.mp ht
      obtain ⟨pc, hgoes⟩ := goes_exec hconn
      have hrank := rank_goes hgoes
      simp only [rank, part_conn hinj h hconn]
      change ConnCompletion.rank conn + _ + (present s).card < _
      omega
  | transfer p event =>
      obtain ⟨r, w, hlinked, hmoves⟩ := h.pairMoves ht
      have hpair := ((h.underway r w hlinked).next hmoves.step).2
      have hlinked' : Linked persShmID t r w := by
        unfold Linked
        rwa [hmoves.conn]
      rw [← part_pair hinj h hlinked, ← part_pair hinj (h.moves hinj hlinked hmoves) hlinked']
        at hpair
      have hne : w ≠ r := by
        rintro rfl
        have hrole := writer_of_read h.logged hlinked
        rw [role_of_linked hinj h hlinked] at hrole
        cases hrole
      have hsum := sum_lt_of_two hne hpair fun q hw hr => part_moves hinj h hlinked hmoves hw hr
      simp only [rank, present, hmoves.conn, hmoves.exited]
      omega
  | exit p =>
      obtain ⟨hp, rfl⟩ := h.exit_eq hinj hlate ht
      have hcard := present_exit hp
      change ConnCompletion.rank s.conn + ∑ q, part persShmID role s q + _ < _
      unfold rank
      omega

theorem rank_start (persShmID : ι → ℤ) (role : ι → Role) (readerShmID : ℤ)
    (file : ι → List Byte) :
    rank persShmID role (.start role readerShmID file) = 12 * numberOf role .reader +
      ∑ p with role p = .writer, (10 * (file p).length + 18) := by
  have hpart : ∀ p, part persShmID role (.start role readerShmID file) p =
      4 * (if role p = .reader then 1 else 0) +
        if role p = .writer then 10 * (file p).length + 11 else 0 := by
    intro p
    unfold part
    cases role p <;> simp [SemShmModel.State.start, TransferRemoval.writerRank,
      TransferRemoval.readerRank, PersShm.init, TransferModel.values]
  have hsum : ∑ p with role p = .writer, (10 * (file p).length + 18) =
      7 * numberOf role .writer + ∑ p with role p = .writer, (10 * (file p).length + 11) := by
    simp only [Finset.sum_add_distrib, Finset.sum_const, nsmul_eq_mul, Nat.cast_id, numberOf]
    omega
  have hconn : ConnCompletion.rank (SemShmModel.State.start role readerShmID file).conn =
      7 * numberOf role .reader + 6 * numberOf role .writer :=
    ConnCompletion.rank_start role readerShmID
  have hreaders : ∑ p, (if role p = .reader then 1 else 0) = numberOf role .reader := by
    rw [numberOf, Finset.card_filter]
  have hpresent : (present (SemShmModel.State.start role readerShmID file)).card =
      numberOf role .reader + numberOf role .writer := by
    have hall : present (SemShmModel.State.start role readerShmID file) = Finset.univ :=
      Finset.filter_true_of_mem fun _ _ => rfl
    rw [hall, Finset.card_univ, numberOf_add]
  simp only [rank, hpart, Finset.sum_add_distrib, ← Finset.mul_sum, hreaders, hconn, hsum, hpresent,
    ← Finset.sum_filter]
  omega

end

/-! ## Rest -/

/-- When the connection phase is stuck both sides of a pair are through it. -/
theorem done_of_stuck (hinj : Function.Injective persShmID) (h : Inv persShmID role file s)
    (hstuck : ∀ p, s.conn.exec persShmID p = none) (hlinked : Linked persShmID s r w) :
    s.conn.pc w = .writer .done ∧ s.conn.pc r = .reader .done := by
  obtain ⟨ph, hph, honce, -⟩ := h.orderly
  have hrests := rests_of_stuck hstuck hph
  constructor
  · exact done_of_rests hph hrests ((h.logged.read w).mp (List.mem_map_of_mem hlinked))
  · rcases honce.owner _ hlinked with ⟨r', hr', hid⟩ | ⟨r', w', hanswer, -⟩
    · exact hinj hid ▸ hr'
    · simp [hrests.answer] at hanswer

/-- A pair that is through the connection phase takes the steps of its transfer. -/
theorem act_isSome (h : Inv persShmID role file s) (hlinked : Linked persShmID s r w)
    (hw : s.conn.pc w = .writer .done) (hr : s.conn.pc r = .reader .done)
    {m : TransferModel.State} (hm : (pair persShmID s r w).next event = some m) :
    ∃ p, (s.act persShmID p event).isSome := by
  by_cases hevent : event = .reader
  · subst hevent
    have hplace : s.place persShmID r .reader = some (persShmID r) := if_pos hr
    have hstep := (next_receiver hm).2 (s.sender r)
    refine ⟨r, ?_⟩
    rw [SemShmModel.State.act, hplace, Option.bind_some, hstep]
    rfl
  · have hplace : s.place persShmID w event = some (persShmID r) := by
      have hattached := (attached_eq_some h.logged).mpr hlinked
      cases event with
      | reader => exact absurd rfl hevent
      | writer | read size => simp only [SemShmModel.State.place, if_pos hw, hattached]
    have hstep := (next_sender hevent hm).2 (s.receiver w)
    refine ⟨w, ?_⟩
    rw [SemShmModel.State.act, hplace, Option.bind_some, hstep]
    rfl

/-- No step is left. -/
def Stuck (persShmID : ι → ℤ) (file : ι → List Byte) (s : SemShmModel.State ι) : Prop :=
  ∀ e t, ¬ Step persShmID file s e t

theorem conn_of_stuck (hstuck : Stuck persShmID file s) (p : ι) :
    s.conn.exec persShmID p = none :=
  Option.eq_none_iff_forall_ne_some.mpr fun conn hconn =>
    hstuck (.conn p) { s with conn } ⟨trivial, congrArg (Option.map _) hconn⟩

theorem act_of_stuck (hstuck : Stuck persShmID file s) (p : ι) (event : TransferModel.Event) :
    s.act persShmID p event = none :=
  Option.eq_none_iff_forall_ne_some.mpr fun t ht => hstuck (.transfer p event) t ⟨trivial, ht⟩

/-- Who is through the connection phase when nobody moves any more owes nothing. -/
theorem adj_of_stuck (h : Inv persShmID role file s) (hstuck : Stuck persShmID file s)
    (hdone : s.conn.pc p = .reader .done ∨ s.conn.pc p = .writer .done) :
    s.conn.sem.adj p = 0 := by
  obtain ⟨ph, hph, -⟩ := h.orderly
  refine hph.held.owed.rest p fun hin => ?_
  obtain ⟨-, r, hanswer, -⟩ := answer_of_active hph hin hdone
  rw [(rests_of_stuck (conn_of_stuck hstuck) hph).answer] at hanswer
  cases hanswer

theorem exited_of_stuck (h : Inv persShmID role file s) (hstuck : Stuck persShmID file s)
    (hdone : s.conn.pc p = .reader .done ∨ s.conn.pc p = .writer .done)
    (hreturned : s.hasReturned p = true) : s.exited p = true := by
  by_contra hpresent
  have hexit : s.exit p = some _ := if_pos ⟨hreturned, Bool.eq_false_of_not_eq_true hpresent⟩
  exact hstuck (.exit p) _ ⟨fun _ => adj_of_stuck h hstuck hdone, hexit⟩

/-- Every pair has delivered its file when no step is left. -/
theorem delivered_of_stuck (hinj : Function.Injective persShmID) (h : Inv persShmID role file s)
    (hstuck : Stuck persShmID file s) (hlinked : Linked persShmID s r w) :
    TransferCompletion.Delivered (file w) (pair persShmID s r w) := by
  have hconn := conn_of_stuck hstuck
  obtain ⟨hw, hr⟩ := done_of_stuck hinj h hconn hlinked
  refine (h.underway r w hlinked).delivered fun event => ?_
  by_contra hne
  obtain ⟨m, hm⟩ := Option.ne_none_iff_exists'.mp hne
  obtain ⟨p, hsome⟩ := act_isSome h hlinked hw hr hm
  rw [act_of_stuck hstuck p event] at hsome
  cases hsome

section
variable [Fintype ι]

theorem delivered (hinj : Function.Injective persShmID) (h : Inv persShmID role file s)
    (hstuck : Stuck persShmID file s) : Delivered persShmID role file s := by
  have hconn := conn_of_stuck hstuck
  have hpaired := paired_of_stuck hinj h.orderly h.logged hconn
  have hreads : ∀ r ∈ doneReaders s.conn, ∃ w, Linked persShmID s r w := by
    intro r hr
    obtain ⟨w, hw, -⟩ := hpaired.handedOver.read r (.inr (Finset.mem_filter.mp hr).2)
    exact ⟨w, hw⟩
  choose! source hsource using hreads
  have hwriter : ∀ w, s.conn.pc w = .writer .done → ∃ r, Linked persShmID s r w := by
    -- a writer that is through has read the identifier of a reader
    intro w hw
    obtain ⟨e, he, rfl⟩ := List.mem_map.mp ((h.logged.read w).mpr (by rw [hw]; rfl))
    obtain ⟨r, hid, -⟩ := reader_of_read h.orderly (show (e.1, e.2) ∈ s.conn.reads from he)
    refine ⟨r, ?_⟩
    unfold Linked
    rwa [← hid]
  refine ⟨hpaired.readers, hpaired.writers, ⟨source, ⟨?_, ?_, ?_⟩, fun r hr => ?_⟩, fun p hp => ?_,
    fun p hp => ?_⟩
  · intro r hr
    have hdone := (done_of_stuck hinj h hconn (hsource r hr)).1
    exact Finset.mem_coe.mpr (Finset.mem_filter.mpr ⟨Finset.mem_univ _, hdone⟩)
  · intro r hr r' hr' heq
    have hlinked : Linked persShmID s r' (source r) := heq ▸ hsource r' hr'
    exact h.reader_unique hinj (hsource r hr) hlinked
  · intro w hw
    obtain ⟨r, hlinked⟩ := hwriter w (Finset.mem_filter.mp hw).2
    have hr : r ∈ doneReaders s.conn :=
      Finset.mem_filter.mpr ⟨Finset.mem_univ r, (done_of_stuck hinj h hconn hlinked).2⟩
    exact ⟨r, hr, h.writer_unique (hsource r hr) hlinked⟩
  · have hdelivered := delivered_of_stuck hinj h hstuck (hsource r hr)
    have hreceiver : s.receiver r = ⟨(s.receiver r).out, (s.receiver r).pc⟩ := rfl
    rw [hreceiver, show (s.receiver r).out = _ from hdelivered.out,
      show (s.receiver r).pc = _ from hdelivered.reader]
    exact ⟨rfl, hdelivered.removed, hdelivered.writer⟩
  · refine (inOrder_of_inv h).silent p fun w hlinked => hp ?_
    exact Finset.mem_filter.mpr ⟨Finset.mem_univ p, (done_of_stuck hinj h hconn hlinked).2⟩
  · rcases hp with hp | hp
    · have hr := (Finset.mem_filter.mp hp).2
      have hreader : (s.receiver p).pc = .returned 0 :=
        (delivered_of_stuck hinj h hstuck (hsource p hp)).reader
      have hreturned : s.hasReturned p = true := by
        simp [SemShmModel.State.hasReturned, hr, hreader]
      exact exited_of_stuck h hstuck (.inl hr) hreturned
    · have hw := (Finset.mem_filter.mp hp).2
      obtain ⟨r, hlinked⟩ := hwriter p hw
      have hcode : ∃ code, (s.sender p).pc = .returned code :=
        (delivered_of_stuck hinj h hstuck hlinked).writer.elim (fun h => ⟨0, h⟩) fun h => ⟨-1, h⟩
      obtain ⟨code, hcode⟩ := hcode
      have hreturned : s.hasReturned p = true := by
        simp [SemShmModel.State.hasReturned, hw, hcode]
      exact exited_of_stuck h hstuck (.inr hw) hreturned

theorem ranked (hinj : Function.Injective persShmID) :
    Ranked (Step persShmID file) (fun _ => true)
      (fun s => Inv persShmID role file s) (rank persShmID role)
      (Delivered persShmID role file) where
  keeps _ _ _ h ht := h.next hinj ht
  lowers _ _ _ h ht := by
    rw [if_pos rfl]
    exact rank_lt hinj h ht
  goal s h hrest := delivered hinj h fun e t => hrest e t rfl

/-- Any number of readers and writers, each writer with a file of its own, in
every order of their steps: what a reader prints is at any time a beginning of
the file of the one writer it has. The steps run out, and then the readers that
found a writer, as many as there can be, have printed its whole file, no two the
same writer's, and removed what they made, and they and their writers have
exited. -/
theorem files_delivered (persShmID : ι ↪ ℤ) (role : ι → Role) (readerShmID : ℤ)
    (file : ι → List Byte) :
    (∀ trace, Path (Step persShmID file) (.start role readerShmID file) trace →
      ∀ m ∈ trace, InOrder persShmID file m.2) ∧
    Completes (Step persShmID file) (fun _ => true) (.start role readerShmID file)
      (12 * numberOf role .reader + ∑ p with role p = .writer, (10 * (file p).length + 18))
      (Delivered persShmID role file) := by
  have hstart : Inv persShmID role file (.start role readerShmID file) :=
    inv_start role readerShmID file
  constructor
  · intro trace htrace m hm
    exact inOrder_of_inv
      (htrace.invariant (fun _ _ _ h ht => h.next persShmID.injective ht) hstart m hm)
  · rw [← rank_start persShmID role readerShmID file]
    exact (ranked persShmID.injective).completes hstart

end

end TaskLunev.SemShmCompletion
