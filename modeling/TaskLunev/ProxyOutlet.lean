import Mathlib.Algebra.Order.BigOperators.Group.Finset
import TaskLunev.ProxyTurns
import TaskLunev.TransitionRuns

/-!
# The way out of the last channel

Each channel but the last is drained to a descriptor that `poll` watches, and
its mask asks for `POLLOUT` whenever the channel holds bytes. The last channel
is written to standard output, once, right after it was read. What that write
leaves stays in the channel with nothing to send it. One pass is followed here
as far as the last channel goes.
-/
namespace TaskLunev.ProxyOutlet
open ByteMemory ProxyModel ProxyTurns ExceptRules TransitionRuns

/-- What the last channel has, and how many bytes of how many are written. -/
structure Outlet where
  mSize : ℤ
  mCapacity : ℤ
  counter : ℤ
  sizeFile : ℤ
  deriving DecidableEq, Repr

section
variable {last total : ℕ}

def outlet (s : State last total) : Outlet where
  mSize := (s.channels (Fin.last last)).mSize
  mCapacity := (s.channels (Fin.last last)).mCapacity
  counter := s.counter
  sizeFile := s.sizeFile

namespace Outlet

/-- The size message may come in. -/
def hear (o : Outlet) (e : Pass last) : Outlet :=
  if (e.revents 0).write.pollIn then
    match e.sizeRead with
    | .message size => { o with sizeFile := size }
    | _ => o
  else o

theorem hear_counter (o : Outlet) (e : Pass last) : (o.hear e).counter = o.counter := by
  unfold hear
  split_ifs
  · split <;> rfl
  · rfl

theorem hear_mSize (o : Outlet) (e : Pass last) : (o.hear e).mSize = o.mSize := by
  unfold hear
  split_ifs
  · split <;> rfl
  · rfl

/-- A read of the last channel and what standard output takes of it. -/
def print (o : Outlet) (e : Pass last) : Outlet :=
  if (e.revents (Fin.last last)).read.pollIn then
    match e.reads (Fin.last last), e.stdout with
    | some offered, some k =>
        let len := (offered.take (sizeT o.mCapacity)).length
        { o with mSize := len - min k len, counter := o.counter + min k len }
    | _, _ => o
  else o

/-- A read of the last channel is written out whole, or to the end of the file. -/
def WrittenOut (o : Outlet) (e : Pass last) : Prop :=
  (e.revents (Fin.last last)).read.pollIn → ∀ offered k, e.reads (Fin.last last) = some offered →
    e.stdout = some k →
    (offered.take (sizeT o.mCapacity)).length ≤ k ∨ o.sizeFile ≤ o.counter + k

/-- An empty channel stays empty, unless the file ends, by writing all out. -/
theorem print_empty_iff {o : Outlet} (hempty : o.mSize = 0) (e : Pass last) :
    ((o.print e).counter < (o.print e).sizeFile → (o.print e).mSize = 0) ↔ o.WrittenOut e := by
  unfold print WrittenOut
  cases hin : (e.revents (Fin.last last)).read.pollIn with
  | false => exact iff_of_true (fun _ => hempty) fun h => nomatch h
  | true =>
      rw [if_pos rfl]
      cases hreads : e.reads (Fin.last last) with
      | none => exact iff_of_true (fun _ => hempty) fun _ _ _ h => nomatch h
      | some offered =>
          cases hstdout : e.stdout with
          | none => exact iff_of_true (fun _ => hempty) fun _ _ _ _ h => nomatch h
          | some k =>
              dsimp only
              constructor
              · intro h _ offered' k' hoffered hk
                obtain rfl := Option.some.inj hoffered
                obtain rfl := Option.some.inj hk
                by_cases hlen : (offered.take (sizeT o.mCapacity)).length ≤ k
                · exact .inl hlen
                · rw [min_eq_left (le_of_not_ge hlen)] at h
                  exact .inr (by omega)
              · intro h hgo
                cases h rfl offered k rfl rfl with
                | inl hle => rw [min_eq_right hle, sub_self]
                | inr hend =>
                    by_cases hlen : (offered.take (sizeT o.mCapacity)).length ≤ k
                    · rw [min_eq_right hlen, sub_self]
                    · rw [min_eq_left (le_of_not_ge hlen)] at hgo
                      omega

end Outlet

/-! ## One turn -/

variable {s t : State last total} {e : Pass last} {i : Fin (last + 1)}

theorem forward_outlet (h : forward e i s = .ok t) : outlet t = outlet s := by
  unfold forward at h
  cases hprev : previous i with
  | none =>
      rw [hprev] at h
      cases h
  | some c =>
      rw [hprev] at h
      obtain ⟨d, -, ht⟩ := bind_eq_ok.mp h
      obtain rfl := Except.ok.inj ht
      have hne : Fin.last last ≠ c.castSucc := (Fin.castSucc_lt_last c).ne'
      by_cases hi : Fin.last last = i
      · subst hi
        simp only [outlet, State.forwarded, Function.update_self, Function.update_of_ne hne]
      · simp only [outlet, State.forwarded, Function.update_of_ne hi, Function.update_of_ne hne]

theorem receive_outlet_of_ne (h : receive e i s = .ok t) (hi : i ≠ Fin.last last) :
    outlet t = outlet s := by
  unfold receive at h
  cases hreads : e.reads i with
  | none =>
      rw [hreads] at h
      cases h
  | some offered =>
      simp only [hreads] at h
      obtain ⟨m', -, ht⟩ := bind_eq_ok.mp h
      rw [if_neg hi] at ht
      obtain rfl := Except.ok.inj ht
      simp only [outlet, State.received, Function.update_of_ne hi.symm]

theorem readAt_length {m : Memory total} {pos count : ℤ} {bytes : List Byte} {σ : Type}
    (h : (readAt m pos count : Except (Stop σ) _) = .ok bytes) : bytes.length = count.toNat := by
  have hspec : Ends (Stops False fun _ : σ => True)
      (fun bytes => 0 ≤ pos ∧ bytes = slice m pos.toNat count.toNat) (readAt m pos count) :=
    readAt_spec m fun hfalse => hfalse.elim
  rw [h] at hspec
  rw [hspec.2, slice_length]

theorem receive_outlet_last (h : receive e (Fin.last last) s = .ok t) :
    ∃ offered k, e.reads (Fin.last last) = some offered ∧ e.stdout = some k ∧
      let len := (offered.take (sizeT (outlet s).mCapacity)).length
      outlet t = { outlet s with
        mSize := len - min k len
        counter := (outlet s).counter + min k len } := by
  unfold receive at h
  cases hreads : e.reads (Fin.last last) with
  | none =>
      rw [hreads] at h
      cases h
  | some offered =>
      simp only [hreads, if_true] at h
      obtain ⟨m', hm', ht⟩ := bind_eq_ok.mp h
      unfold printRead at ht
      cases hstdout : e.stdout with
      | none =>
          rw [hstdout] at ht
          cases ht
      | some k =>
          simp only [hstdout] at ht
          obtain ⟨bytes, hbytes, hlast⟩ := bind_eq_ok.mp ht
          obtain rfl := Except.ok.inj hlast
          have hlen := readAt_length hbytes
          refine ⟨offered, k, rfl, rfl, ?_⟩
          simp only [outlet, State.printed, State.received, Function.update_self, List.length_take,
            hlen, Int.toNat_natCast]

/-- The events of one channel that the loop counts off. -/
def turnEvents (e : Pass last) (i : Fin (last + 1)) : ℤ :=
  (e.revents i).read.pollIn.toNat + (e.revents i).write.pollOut.toNat

theorem readTurn_eq {n m : ℤ} (h : readTurn e i s n = .ok (t, m)) :
    (if (e.revents i).read.pollIn then receive e i s = .ok t else t = s) ∧
      m = n - (e.revents i).read.pollIn.toNat := by
  unfold readTurn at h
  cases hin : (e.revents i).read.pollIn with
  | true =>
      rw [if_pos hin] at h
      obtain ⟨u, hu, he⟩ := bind_eq_ok.mp h
      obtain ⟨rfl, rfl⟩ := Prod.mk.inj (Except.ok.inj he)
      exact ⟨hu, rfl⟩
  | false =>
      rw [hin] at h
      obtain ⟨rfl, rfl⟩ := Prod.mk.inj (Except.ok.inj h)
      exact ⟨rfl, (sub_zero n).symm⟩

theorem writeTurn_eq {n m : ℤ} (h : writeTurn e i s n = .ok (t, m)) :
    (if (e.revents i).write.pollOut then forward e i s = .ok t else t = s) ∧
      m = n - (e.revents i).write.pollOut.toNat := by
  unfold writeTurn at h
  cases hout : (e.revents i).write.pollOut with
  | true =>
      rw [if_pos hout] at h
      obtain ⟨u, hu, he⟩ := bind_eq_ok.mp h
      obtain ⟨rfl, rfl⟩ := Prod.mk.inj (Except.ok.inj he)
      exact ⟨hu, rfl⟩
  | false =>
      rw [hout] at h
      obtain ⟨rfl, rfl⟩ := Prod.mk.inj (Except.ok.inj h)
      exact ⟨rfl, (sub_zero n).symm⟩

/-- The last channel's turn reads and prints; the others do not touch it. -/
theorem readTurn_outlet {n m : ℤ} (h : readTurn e i s n = .ok (t, m)) :
    outlet t = if i = Fin.last last then (outlet s).print e else outlet s := by
  have hread := (readTurn_eq h).1
  cases hin : (e.revents i).read.pollIn with
  | true =>
      rw [if_pos hin] at hread
      by_cases hi : i = Fin.last last
      · subst hi
        obtain ⟨offered, k, hreads, hstdout, ho⟩ := receive_outlet_last hread
        rw [if_pos rfl, ho, Outlet.print, if_pos hin]
        simp only [hreads, hstdout]
      · rw [if_neg hi]
        exact receive_outlet_of_ne hread hi
  | false =>
      rw [hin] at hread
      obtain rfl : t = s := hread
      by_cases hi : i = Fin.last last
      · subst hi
        rw [if_pos rfl, Outlet.print, hin]
        rfl
      · rw [if_neg hi]

theorem handle_outlet {n m : ℤ} (h : handle e i s n = .ok (t, m)) :
    outlet t = (if i = Fin.last last then (outlet s).print e else outlet s) ∧
      m = n - turnEvents e i := by
  unfold handle at h
  split_ifs at h
  obtain ⟨⟨mid, n'⟩, hread, hwrite⟩ := bind_eq_ok.mp h
  obtain ⟨hsent, hm⟩ := writeTurn_eq hwrite
  constructor
  · rw [← readTurn_outlet hread]
    split_ifs at hsent
    · exact forward_outlet hsent
    · rw [hsent]
  · rw [hm, (readTurn_eq hread).2, turnEvents]
    omega

/-! ## One pass -/

theorem turnEvents_nonneg (e : Pass last) (i : Fin (last + 1)) : 0 ≤ turnEvents e i := by
  unfold turnEvents
  omega

/-- The events of the channels from `k` on. -/
def eventsFrom (e : Pass last) (k : ℕ) : ℤ :=
  ∑ j : Fin (last + 1), if k ≤ j then turnEvents e j else 0

theorem eventsFrom_succ (e : Pass last) {k : ℕ} (hk : k < last + 1) :
    eventsFrom e k = turnEvents e ⟨k, hk⟩ + eventsFrom e (k + 1) := by
  have hone : turnEvents e ⟨k, hk⟩ =
      ∑ j : Fin (last + 1), if j = ⟨k, hk⟩ then turnEvents e j else 0 := by simp
  rw [eventsFrom, eventsFrom, hone, ← Finset.sum_add_distrib]
  apply Finset.sum_congr rfl
  intro j _
  by_cases hj : j = ⟨k, hk⟩
  · simp [hj]
  · have hne : (j : ℕ) ≠ k := fun he => hj (Fin.ext he)
    rw [if_neg hj, zero_add]
    congr 1
    exact propext (by omega)

theorem turnEvents_le_eventsFrom (e : Pass last) {k : ℕ} (i : Fin (last + 1)) (hk : k ≤ i) :
    turnEvents e i ≤ eventsFrom e k := by
  have hnonneg : ∀ j ∈ Finset.univ, 0 ≤ if k ≤ (j : Fin (last + 1)) then turnEvents e j else 0 := by
    intro j _
    split_ifs
    · exact turnEvents_nonneg e j
    · exact le_rfl
  have hle := Finset.single_le_sum hnonneg (Finset.mem_univ i)
  rwa [if_pos hk] at hle

/-- Where nothing happened on the last channel nothing is printed. -/
theorem print_of_quiet (o : Outlet) (h : turnEvents e (Fin.last last) ≤ 0) : o.print e = o := by
  unfold turnEvents at h
  cases hin : (e.revents (Fin.last last)).read.pollIn with
  | true =>
      rw [hin] at h
      simp at h
      omega
  | false =>
      rw [Outlet.print, hin]
      rfl

theorem handleFrom_outlet (rest k : ℕ) {n : ℤ} (hrest : k + rest = last + 1)
    (hcount : eventsFrom e k ≤ n) (h : handleFrom e rest k s n = .ok t) :
    outlet t = if k ≤ last then (outlet s).print e else outlet s := by
  induction rest generalizing k s n with
  | zero =>
      obtain rfl := Except.ok.inj h
      rw [if_neg (by omega)]
  | succ rest ih =>
      have hk : k < last + 1 := by omega
      rw [if_pos (by omega)]
      unfold handleFrom at h
      by_cases hn : n = 0
      · -- the loop stops early, but only when nothing is left to handle
        rw [dif_neg (fun hc => hc.2 hn)] at h
        obtain rfl := Except.ok.inj h
        have hquiet := turnEvents_le_eventsFrom e (Fin.last last) (show k ≤ Fin.last last from
          Nat.lt_succ_iff.mp hk)
        rw [print_of_quiet _ (by omega)]
      · rw [dif_pos ⟨hk, hn⟩] at h
        obtain ⟨⟨mid, m⟩, hhandle, hloop⟩ := bind_eq_ok.mp h
        obtain ⟨hmid, hm⟩ := handle_outlet hhandle
        have hleft := eventsFrom_succ e hk
        rw [ih (k + 1) (by omega) (by omega) hloop, hmid]
        by_cases hlast : k = last
        · subst hlast
          rw [if_neg (by omega), if_pos (show (⟨k, hk⟩ : Fin (k + 1)) = Fin.last k from rfl)]
        · have hne : (⟨k, hk⟩ : Fin (last + 1)) ≠ Fin.last last := fun he => hlast (congrArg Fin.val he)
          rw [if_pos (by omega), if_neg hne]

theorem sizeTurn_outlet (h : sizeTurn e s = .ok t) : outlet t = (outlet s).hear e := by
  unfold sizeTurn at h
  cases hin : (e.revents 0).write.pollIn with
  | true =>
      rw [if_pos hin] at h
      unfold readSize at h
      cases hsize : e.sizeRead with
      | message size =>
          rw [hsize] at h
          obtain rfl := Except.ok.inj h
          rw [Outlet.hear, if_pos hin, hsize]
          rfl
      | ended =>
          rw [hsize] at h
          obtain rfl := Except.ok.inj h
          rw [Outlet.hear, if_pos hin, hsize]
      | failed =>
          rw [hsize] at h
          cases h
  | false =>
      rw [hin] at h
      obtain rfl := Except.ok.inj h
      rw [Outlet.hear, hin]
      rfl

/-- A pass that is not the last one hears the size and prints. -/
theorem onePass_outlet (hcount : ∑ i, turnEvents e i ≤ e.numPolls) (h : onePass s e = .ok t) :
    s.counter < s.sizeFile ∧ outlet t = ((outlet s).hear e).print e := by
  unfold onePass at h
  split_ifs at h with hloop
  refine ⟨hloop, ?_⟩
  obtain ⟨u, hsize, hchannels⟩ := bind_eq_ok.mp h
  have hall : eventsFrom e 0 = ∑ i, turnEvents e i := by simp [eventsFrom]
  rw [handleFrom_outlet (last + 1) 0 (by omega) (by omega) hchannels, if_pos (Nat.zero_le last),
    sizeTurn_outlet hsize]
  rfl

/-! ## What `poll` is asked for -/

/-- The bytes of a channel go to the client behind it, those of the last one to
standard output, which is not polled. -/
def Requested (stray : ℤ) (s : State last total) (i : Fin (last + 1)) : Prop :=
  ∃ c : Fin last, i = c.castSucc ∧ (setEvents stray s c.succ).write.pollOut = true

/-- When the loop goes on, every channel with bytes has its `POLLOUT`. -/
def Watched (s : State last total) : Prop :=
  s.counter < s.sizeFile → ∀ stray i, (s.channels i).mSize ≠ 0 → Requested stray s i

/-- The last channel is written out in this pass. -/
def WrittenOut (s : State last total) (e : Pass last) : Prop := ((outlet s).hear e).WrittenOut e

/-- One pass, with what `poll` may report and no fewer descriptors counted than
have events. -/
def Step (s : State last total) (e : Pass last) (t : State last total) : Prop :=
  PollHonest e s ∧ ∑ i, turnEvents e i ≤ e.numPolls ∧ onePass s e = .ok t

/-- The masks fail the last channel and no other. -/
theorem watched_iff : Watched s ↔ ((outlet s).counter < (outlet s).sizeFile → (outlet s).mSize = 0) := by
  unfold Watched
  apply forall_congr'
  intro _
  constructor
  · intro h
    by_contra hsize
    obtain ⟨c, hc, -⟩ := h 0 (Fin.last last) hsize
    exact (Fin.castSucc_lt_last c).ne hc.symm
  · intro hlast stray i hi
    have hne : i ≠ Fin.last last := fun he => hi (he ▸ hlast)
    obtain ⟨c, rfl⟩ := Fin.exists_castSucc_eq.mpr hne
    refine ⟨c, rfl, ?_⟩
    simp only [setEvents, previous_succ]
    exact decide_eq_true hi

theorem step_watched (hs : Watched s) (hstep : Step s e t) : Watched t ↔ WrittenOut s e := by
  obtain ⟨-, hcount, hpass⟩ := hstep
  obtain ⟨hloop, ho⟩ := onePass_outlet hcount hpass
  have hempty : (outlet s).mSize = 0 := watched_iff.mp hs hloop
  rw [watched_iff, ho]
  exact Outlet.print_empty_iff ((Outlet.hear_mSize ..).trans hempty) e

/-- The last channel holds as much, and as much is written, as `o` says. -/
def Stands (o : Outlet) (s : State last total) : Prop :=
  (outlet s).mSize = o.mSize ∧ (outlet s).counter = o.counter

/-- Bytes that stay in the last channel stay there for good: it is not read again
until it is empty, and nothing else writes it out. -/
theorem left_run {trace : List (Pass last × State last total)} (hrun : Path Step s trace)
    (hs : (outlet s).mSize ≠ 0) : ∀ p ∈ trace, Stands (outlet s) p.2 := by
  refine hrun.invariant (fun u e v hu hstep => ?_) ⟨rfl, rfl⟩
  obtain ⟨hpoll, hcount, hpass⟩ := hstep
  have hquiet : (e.revents (Fin.last last)).read.pollIn = false := by
    rw [← Bool.not_eq_true]
    exact fun hin => hs (hu.1 ▸ hpoll.empty hin)
  have ho := (onePass_outlet hcount hpass).2
  rw [Outlet.print, hquiet] at ho
  rw [Stands, ho]
  exact ⟨(Outlet.hear_mSize ..).trans hu.1, (Outlet.hear_counter ..).trans hu.2⟩

/-- From the start of the loop on, every `poll` is asked for `POLLOUT` wherever
bytes wait exactly when each read of the last channel is written out. -/
theorem watched_run_iff {trace : List (Pass last × State last _)} (path : List Byte)
    (hrun : Path Step ((start last).asked path) trace) :
    (Watched ((start last).asked path) ∧ ∀ p ∈ trace, Watched p.2) ↔
      ∀ m ∈ moves ((start last).asked path) trace, WrittenOut m.1 m.2 := by
  have hstart : Watched ((start last).asked path) := watched_iff.mpr fun _ => rfl
  rw [and_iff_right hstart]
  exact hrun.states_iff_moves (fun _ _ _ _ _ => trivial) (fun _ _ _ _ hs hst => step_watched hs hst)
    trivial hstart

end

/-- The only client gives two bytes and standard output takes `k`. -/
def passPrint (k : ℕ) : Pass 0 where
  stray := 0
  numPolls := 1
  revents _ := ⟨⟨false, false, false⟩, ⟨true, false, false⟩⟩
  sizeRead := .ended
  reads _ := some [7, 9]
  writes _ := []
  stdout := some k

theorem pollHonest_passPrint (k : ℕ) : PollHonest (passPrint k) ((start 0).asked [47]) := by
  constructor <;> intros <;> simp_all [passPrint, setEvents, State.asked, start, startChannel]

theorem watched_run_two : ∃ t,
    (Watched ((start 0).asked [47]) ∧ ∀ p ∈ [(passPrint 2, t)], Watched p.2) ↔
      ∀ m ∈ moves ((start 0).asked [47]) [(passPrint 2, t)], WrittenOut m.1 m.2 :=
  ⟨_, watched_run_iff [47] (.cons ⟨pollHonest_passPrint 2, by decide, by with_unfolding_all rfl⟩ .nil)⟩

/-- Standard output takes one byte of two. The other one stays, the loop goes on,
and no descriptor is asked for. -/
theorem byte_not_watched : ∃ t, Path Step ((start 0).asked [47]) [(passPrint 1, t)] ∧
    (t.channels 0).mSize = 1 ∧ t.counter < t.sizeFile ∧ (∀ stray, ¬ Requested stray t 0) ∧
      ¬ Watched t := by
  obtain ⟨t, ht⟩ : ∃ t, onePass ((start 0).asked [47]) (passPrint 1) = .ok t :=
    ⟨_, by with_unfolding_all rfl⟩
  have hstep : Step ((start 0).asked [47]) (passPrint 1) t := ⟨pollHonest_passPrint 1, by decide, ht⟩
  have ho := (onePass_outlet hstep.2.1 ht).2
  have hsize : (t.channels 0).mSize = 1 :=
    (congrArg Outlet.mSize ho).trans (by with_unfolding_all rfl)
  have hcounter : t.counter = 1 := (congrArg Outlet.counter ho).trans (by with_unfolding_all rfl)
  have hfile : t.sizeFile = longMax := (congrArg Outlet.sizeFile ho).trans (by with_unfolding_all rfl)
  have hloop : t.counter < t.sizeFile := by
    rw [hcounter, hfile]
    decide
  have hnone : ∀ stray, ¬ Requested stray t 0 := fun _ h => h.choose.elim0
  exact ⟨t, .cons hstep .nil, hsize, hloop, hnone,
    fun h => hnone 0 (h hloop 0 0 (by rw [hsize]; decide))⟩

end TaskLunev.ProxyOutlet
