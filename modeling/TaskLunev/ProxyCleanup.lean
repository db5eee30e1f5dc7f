import TaskLunev.ExceptRules
import TaskLunev.ProxyStartModel

/-!
# What `CloseProxy` leaves open

While the clients are started the parent holds two descriptors for each client
so far and the read end of the size pipe. `CloseProxy` closes the channels only
when the buffer was allocated, which is the last thing `StartProxy` does, so a
failure behind the first pipe leaves descriptors open. The size pipe it closes
in any case, also when its field is still zero.
-/
namespace TaskLunev.ProxyCleanup
open DescriptorTable ExceptRules ProxyModel ProxyStartModel

/-- The calls for client `i` succeed. -/
def Starts (a : Answers) (i : ℕ) : Prop :=
  a.pipeServerClient i = true ∧ a.pipeClientServer i = true ∧ a.fork i = true ∧
    (i = 0 → a.pipeAdd = true)

/-- Every call of `StartProxy` succeeds. -/
def AllSucceed (a : Answers) (n : ℕ) : Prop :=
  a.callocChannels = true ∧ (∀ i < n, Starts a i) ∧ a.callocBuffer = true

/-- `StartProxy` fails before it has opened anything. -/
def NothingOpened (a : Answers) : Prop :=
  a.callocChannels = false ∨ a.pipeServerClient 0 = false

/-- The descriptors after `i` clients were started. -/
structure Held (s : Finset ℕ) (n i : ℕ) (p : Process) (ch : ℕ → ServerChannel) : Prop where
  channels : p.server.mChannels = some ch
  number : p.server.mNumberChannels = n
  buffer : p.server.mTotalBuffer = false
  inherited : p.fds.inherited = s
  own : ∀ fd, fd ∈ p.fds.own ↔ (0 < i ∧ fd = p.server.mFdAddClientServer) ∨
    ∃ j < i, fd = (ch j).mFdRead ∨ fd = (ch j).mFdWrite
  distinct : ∀ j < i, (ch j).mFdRead ≠ p.server.mFdAddClientServer

/-- Some descriptor is open that `CloseProxy` will not close. -/
def Leaks (p : Process) : Prop :=
  p.server.mTotalBuffer = false ∧ ∃ fd ∈ p.fds.own, fd ≠ p.server.mFdAddClientServer

/-! ## The client loop -/

section
variable {a : Answers} {s : Finset ℕ} {n i : ℕ} {p : Process} {ch : ℕ → ServerChannel}

/-- `CloseProxy` closes at most one end of a pipe whose channel was not set. -/
theorem leaks_of_two {x y : ℕ} (hbuffer : p.server.mTotalBuffer = false) (hx : x ∈ p.fds.own)
    (hy : y ∈ p.fds.own) (hne : y ≠ x) : Leaks p := by
  by_cases hxe : x = p.server.mFdAddClientServer
  · exact ⟨hbuffer, y, hy, fun hye => hne (hye.trans hxe.symm)⟩
  · exact ⟨hbuffer, x, hx, hxe⟩

theorem Held.leaks (h : Held s n i p ch) (hi : 0 < i) : Leaks p :=
  ⟨h.buffer, (ch 0).mFdRead, (h.own _).mpr (.inr ⟨0, hi, .inl rfl⟩), h.distinct 0 hi⟩

/-- The parent's half of a client that was started, from the pipes it got. -/
def started (i : ℕ) (p : Process) (fds : Descriptors)
    (fdServerClient fdClientServer fdAddClientServer : ℕ × ℕ) : Process :=
  let p := { p with fds }
  let p := if i = 0 then (p.close fdAddClientServer.2).setFdAddClientServer fdAddClientServer.1 else p
  ((p.close fdServerClient.1).close fdClientServer.2).updateChannel i fun channel =>
    { channel with mFdWrite := fdServerClient.2, mFdRead := fdClientServer.1 }

theorem pipe_granted (p : Process) : p.pipe true = .ok (p.fds.pipe.1, { p with fds := p.fds.pipe.2 }) :=
  rfl

theorem pipe_refused (p : Process) : p.pipe false = .error p := rfl

theorem startOne_eq (p : Process) (hs : Starts a i) : ∃ sc cs add d₁ d₂ d₃,
    p.fds.Opens sc d₁ ∧ d₁.Opens cs d₂ ∧ (if i = 0 then d₂.Opens add d₃ else d₃ = d₂) ∧
      startOne a i p = .ok (started i p d₃ sc cs add) := by
  obtain ⟨hsc, hcs, hfork, hadd⟩ := hs
  have h₁ := Descriptors.pipe_opens p.fds
  have h₂ := Descriptors.pipe_opens p.fds.pipe.2
  by_cases hi : i = 0
  · refine ⟨_, _, _, _, _, _, h₁, h₂, by rw [if_pos hi]; exact Descriptors.pipe_opens _, ?_⟩
    simp only [startOne, hsc, hcs, hfork, hadd hi, pipe_granted, started, if_pos hi]
    rfl
  · refine ⟨_, _, (0, 0), _, _, _, h₁, h₂, by rw [if_neg hi], ?_⟩
    simp only [startOne, hsc, hcs, hfork, pipe_granted, started, if_neg hi]
    rfl

/-- Where a call for client `i` fails, its pipes so far stay open. -/
theorem startOne_stop (p : Process) (hs : ¬ Starts a i) : ∃ fds,
    startOne a i p = .error { p with fds } ∧
      (a.pipeServerClient i = false ∧ fds = p.fds ∨
        p.fds.pipe.1.1 ∈ fds.own ∧ p.fds.pipe.1.2 ∈ fds.own) := by
  have h₁ := Descriptors.pipe_opens p.fds
  have h₂ := Descriptors.pipe_opens p.fds.pipe.2
  have h₃ := Descriptors.pipe_opens p.fds.pipe.2.pipe.2
  cases hsc : a.pipeServerClient i with
  | false =>
      refine ⟨p.fds, ?_, .inl ⟨rfl, rfl⟩⟩
      simp only [startOne, hsc, pipe_refused]
      rfl
  | true =>
      cases hcs : a.pipeClientServer i with
      | false =>
          refine ⟨p.fds.pipe.2, ?_, .inr ⟨h₁.read_mem, h₁.write_mem⟩⟩
          simp only [startOne, hsc, hcs, pipe_granted, pipe_refused]
          rfl
      | true =>
          by_cases hadd : i = 0 ∧ a.pipeAdd = false
          · refine ⟨p.fds.pipe.2.pipe.2, ?_, .inr ⟨h₂.mono h₁.read_mem, h₂.mono h₁.write_mem⟩⟩
            simp only [startOne, hsc, hcs, if_pos hadd.1, hadd.2, pipe_granted, pipe_refused]
            rfl
          · have hadd' : i = 0 → a.pipeAdd = true := by simpa using hadd
            have hfork : a.fork i = false := by
              rw [← Bool.not_eq_true]
              exact fun hfork => hs ⟨hsc, hcs, hfork, hadd'⟩
            by_cases hi : i = 0
            · refine ⟨p.fds.pipe.2.pipe.2.pipe.2, ?_,
                .inr ⟨h₃.mono (h₂.mono h₁.read_mem), h₃.mono (h₂.mono h₁.write_mem)⟩⟩
              simp only [startOne, hsc, hcs, hadd' hi, hfork, if_pos hi, pipe_granted]
              rfl
            · refine ⟨p.fds.pipe.2.pipe.2, ?_,
                .inr ⟨h₂.mono h₁.read_mem, h₂.mono h₁.write_mem⟩⟩
              simp only [startOne, hsc, hcs, hfork, if_neg hi, pipe_granted]
              rfl

theorem started_add (i : ℕ) (p : Process) (fds : Descriptors) (sc cs add : ℕ × ℕ) :
    (started i p fds sc cs add).server.mFdAddClientServer =
      if i = 0 then add.1 else p.server.mFdAddClientServer := by
  unfold started
  split_ifs
  · rfl
  · rfl

/-- A client that keeps one end of each pipe. -/
theorem Held.grow (h : Held s n i p ch) {fds : Descriptors} {sc cs add : ℕ × ℕ}
    (hinherited : (started i p fds sc cs add).fds.inherited = s)
    (hown : ∀ fd, fd ∈ (started i p fds sc cs add).fds.own ↔
      fd ∈ p.fds.own ∨ (i = 0 ∧ fd = add.1) ∨ fd = cs.1 ∨ fd = sc.2)
    (hfresh : cs.1 ≠ if i = 0 then add.1 else p.server.mFdAddClientServer) :
    ∃ ch', Held s n (i + 1) (started i p fds sc cs add) ch' := by
  obtain ⟨ch', hch'⟩ : ∃ ch', ch' = Function.update ch i
      { ch i with mFdWrite := sc.2, mFdRead := cs.1 } := ⟨_, rfl⟩
  have hnew : ch' i = { ch i with mFdWrite := sc.2, mFdRead := cs.1 } := by
    rw [hch', Function.update_self]
  have hold : ∀ j < i, ch' j = ch j := fun j hj => by
    rw [hch', Function.update_of_ne hj.ne]
  have hserver : (started i p fds sc cs add).server.mNumberChannels = p.server.mNumberChannels ∧
      (started i p fds sc cs add).server.mTotalBuffer = p.server.mTotalBuffer ∧
      (started i p fds sc cs add).server.mChannels = p.server.mChannels.map fun ch =>
        Function.update ch i { ch i with mFdWrite := sc.2, mFdRead := cs.1 } := by
    unfold started
    split_ifs
    · exact ⟨rfl, rfl, rfl⟩
    · exact ⟨rfl, rfl, rfl⟩
  obtain ⟨hnumber, hbuffer, hchannels⟩ := hserver
  refine ⟨ch', ?_⟩
  constructor
  · rw [hchannels, h.channels, Option.map_some, hch']
  · exact hnumber.trans h.number
  · exact hbuffer.trans h.buffer
  · exact hinherited
  · intro fd
    have hch : (∃ j < i + 1, fd = (ch' j).mFdRead ∨ fd = (ch' j).mFdWrite) ↔
        (∃ j < i, fd = (ch j).mFdRead ∨ fd = (ch j).mFdWrite) ∨ fd = cs.1 ∨ fd = sc.2 := by
      rw [Nat.exists_lt_succ_right, hnew]
      apply or_congr_left
      apply exists_congr
      intro j
      apply and_congr_right
      intro hj
      rw [hold j hj]
    rw [hown, h.own, hch, started_add]
    by_cases hi : i = 0
    · simp only [hi, if_true, lt_irrefl, false_and, false_or, Nat.zero_add, zero_lt_one, true_and,
        Nat.not_lt_zero, exists_false]
    · simp only [hi, if_false, Nat.pos_of_ne_zero hi, Nat.succ_pos, true_and, false_and, false_or,
        or_assoc]
  · intro j hj
    rw [started_add]
    by_cases hji : j = i
    · rw [hji, hnew]
      exact hfresh
    · have hi : i ≠ 0 := by omega
      rw [hold j (by omega), if_neg hi]
      exact h.distinct j (by omega)

theorem held_first (h : Held s n 0 p ch) {sc cs add : ℕ × ℕ} {d₁ d₂ d₃ : Descriptors}
    (hsc : p.fds.Opens sc d₁) (hcs : d₁.Opens cs d₂) (hadd : d₂.Opens add d₃) :
    ∃ ch', Held s n 1 (started 0 p d₃ sc cs add) ch' := by
  have hread := hcs.mono hsc.read_mem
  have hwrite := hcs.mono hsc.write_mem
  apply h.grow
  · change ((d₃.inherited.erase add.2).erase sc.1).erase cs.2 = s
    rw [Descriptors.erase_inherited hadd.write_mem,
      Descriptors.erase_inherited (hadd.mono hread),
      Descriptors.erase_inherited (hadd.mono hcs.write_mem), hadd.inherited, hcs.inherited,
      hsc.inherited, h.inherited]
  · -- the other end of each pipe was closed
    intro fd
    change fd ∈ ((d₃.own.erase add.2).erase sc.1).erase cs.2 ↔ _
    have hne₁ := hcs.ne_of_mem hsc.read_mem
    have hne₂ := hcs.ne_of_mem hsc.write_mem
    have hne₃ := hadd.ne_of_mem hread
    have hne₄ := hadd.ne_of_mem hwrite
    have hne₅ := hadd.ne_of_mem hcs.read_mem
    have hne₆ := hadd.ne_of_mem hcs.write_mem
    have hne₇ := hsc.ne
    have hne₈ := hcs.ne
    have hne₉ := hadd.ne
    have hempty : fd ∉ p.fds.own := by simp [h.own]
    simp only [Finset.mem_erase, hadd.mem_own, hcs.mem_own, hsc.mem_own, hempty]
    grind
  · exact (hadd.ne_of_mem hcs.read_mem).1

theorem held_next (h : Held s n i p ch) (hi : i ≠ 0) {sc cs add : ℕ × ℕ} {d₁ d₂ : Descriptors}
    (hsc : p.fds.Opens sc d₁) (hcs : d₁.Opens cs d₂) :
    ∃ ch', Held s n (i + 1) (started i p d₂ sc cs add) ch' := by
  have hstarted : (started i p d₂ sc cs add).fds = (d₂.close sc.1).close cs.2 := by
    rw [started, if_neg hi]
    rfl
  have hadd : p.server.mFdAddClientServer ∈ p.fds.own :=
    (h.own _).mpr (.inl ⟨Nat.pos_of_ne_zero hi, rfl⟩)
  apply h.grow
  · rw [hstarted]
    change (d₂.inherited.erase sc.1).erase cs.2 = s
    rw [Descriptors.erase_inherited (hcs.mono hsc.read_mem),
      Descriptors.erase_inherited hcs.write_mem, hcs.inherited, hsc.inherited, h.inherited]
  · intro fd
    rw [hstarted]
    have hne₁ := hcs.ne_of_mem hsc.read_mem
    have hne₂ := hcs.ne_of_mem hsc.write_mem
    have hne₃ := hsc.ne
    have hne₄ := hcs.ne
    have hne₅ : fd ∈ p.fds.own → fd ≠ sc.1 ∧ fd ≠ cs.2 := fun hfd =>
      ⟨(hsc.ne_of_mem hfd).1, (hcs.ne_of_mem (hsc.mono hfd)).2⟩
    simp only [Descriptors.close_own, Finset.mem_erase, hcs.mem_own, hsc.mem_own]
    grind
  · rw [if_neg hi]
    exact (hcs.ne_of_mem (hsc.mono hadd)).1.symm

/-- One client more, or a failure that leaks. -/
theorem startOne_ends (h : Held s n i p ch) (hfirst : i = 0 → a.pipeServerClient 0 = true) :
    Ends (fun q => Leaks q ∧ ¬ Starts a i)
      (fun q => (∃ ch, Held s n (i + 1) q ch) ∧ Starts a i) (startOne a i p) := by
  by_cases hs : Starts a i
  · obtain ⟨sc, cs, add, d₁, d₂, d₃, hsc, hcs, hadd, he⟩ := startOne_eq p hs
    rw [he]
    refine ⟨?_, hs⟩
    by_cases hi : i = 0
    · subst hi
      exact held_first h hsc hcs hadd
    · rw [if_neg hi] at hadd
      rw [hadd]
      exact held_next h hi hsc hcs
  · obtain ⟨fds, he, hcase⟩ := startOne_stop p hs
    rw [he]
    refine ⟨?_, hs⟩
    cases hcase with
    | inl hnone =>
        have hi : 0 < i := by
          apply Nat.pos_of_ne_zero
          intro hi
          rw [hi, hfirst hi] at hnone
          cases hnone.1
        rw [hnone.2]
        exact h.leaks hi
    | inr hends =>
        exact leaks_of_two h.buffer hends.1 hends.2 (Descriptors.pipe_opens p.fds).ne

/-- The first index of a range, and the ones behind it. -/
theorem forall_range_succ {P : ℕ → Prop} {i left : ℕ} :
    (∀ j, i ≤ j → j < i + (left + 1) → P j) ↔
      P i ∧ ∀ j, i + 1 ≤ j → j < i + 1 + left → P j := by
  constructor
  · intro h
    exact ⟨h i le_rfl (by omega), fun j hlo hhi => h j (by omega) (by omega)⟩
  · intro h j hlo hhi
    by_cases hj : j = i
    · exact hj ▸ h.1
    · exact h.2 j (by omega) (by omega)

/-- The calls for `left` clients from client `i` on succeed. -/
def StartsFrom (a : Answers) (i left : ℕ) : Prop := ∀ j, i ≤ j → j < i + left → Starts a j

theorem startsFrom_succ {left : ℕ} :
    StartsFrom a i (left + 1) ↔ Starts a i ∧ StartsFrom a (i + 1) left := forall_range_succ

theorem startClients_ends (left : ℕ) (h : Held s n i p ch)
    (hfirst : i = 0 → a.pipeServerClient 0 = true) :
    Ends (fun q => Leaks q ∧ ¬ StartsFrom a i left)
      (fun q => (∃ ch, Held s n (i + left) q ch) ∧ StartsFrom a i left)
      (startClients a left i p) := by
  induction left generalizing i p ch with
  | zero => exact ⟨⟨ch, h⟩, fun j hlo hhi => absurd hhi (by omega)⟩
  | succ left ih =>
      refine Ends.bind ((startOne_ends h hfirst).mono ?_ fun q hq => hq) ?_
      · intro q hq
        exact ⟨hq.1, fun hall => hq.2 (startsFrom_succ.mp hall).1⟩
      · intro q hq
        obtain ⟨⟨ch', h'⟩, hs⟩ := hq
        apply (ih h' (by omega)).mono
        · intro r hr
          exact ⟨hr.1, fun hall => hr.2 (startsFrom_succ.mp hall).2⟩
        · intro r hr
          rw [show i + (left + 1) = i + 1 + left by omega]
          exact ⟨hr.1, startsFrom_succ.mpr ⟨hs, hr.2⟩⟩

/-! ## Closing -/

theorem closeChannels_server {left : ℕ} : (closeChannels ch left i p).server = p.server := by
  induction left generalizing i p with
  | zero => rfl
  | succ left ih => exact ih

/-- Exactly the descriptors of the channels are closed. -/
theorem mem_closeChannels {left fd : ℕ} :
    (fd ∈ (closeChannels ch left i p).fds.own ↔ fd ∈ p.fds.own ∧
      ∀ j, i ≤ j → j < i + left → fd ≠ (ch j).mFdRead ∧ fd ≠ (ch j).mFdWrite) ∧
    (fd ∈ (closeChannels ch left i p).fds.inherited ↔ fd ∈ p.fds.inherited ∧
      ∀ j, i ≤ j → j < i + left → fd ≠ (ch j).mFdRead ∧ fd ≠ (ch j).mFdWrite) := by
  induction left generalizing i p with
  | zero =>
      have hnone : ∀ j, i ≤ j → j < i + 0 → fd ≠ (ch j).mFdRead ∧ fd ≠ (ch j).mFdWrite :=
        fun j hlo hhi => absurd hhi (by omega)
      exact ⟨(and_iff_left hnone).symm, (and_iff_left hnone).symm⟩
  | succ left ih =>
      rw [closeChannels, forall_range_succ, ih.1, ih.2]
      simp only [Process.close, Descriptors.close_own, Descriptors.close_inherited,
        Finset.mem_erase]
      tauto

theorem closeProxy_of_null (hbuffer : p.server.mTotalBuffer = false) :
    (closeProxy p).fds = p.fds.close p.server.mFdAddClientServer := by
  simp only [closeProxy, hbuffer]
  rfl

/-- What was leaked keeps the table from being restored. -/
theorem Leaks.not_restored (h : Leaks p) : ¬ Descriptors.Restored s (closeProxy p).fds := by
  obtain ⟨hbuffer, fd, hfd, hne⟩ := h
  intro hr
  have hown := hr.own
  rw [closeProxy_of_null hbuffer] at hown
  exact Finset.notMem_empty fd (hown ▸ Finset.mem_erase.mpr ⟨hne, hfd⟩)

theorem closeProxy_fds {q : Process} (hbuffer : q.server.mTotalBuffer = true)
    (hch : q.server.mChannels = some ch) : (closeProxy q).fds =
      (closeChannels ch q.server.mNumberChannels 0 q).fds.close q.server.mFdAddClientServer := by
  simp only [closeProxy, hbuffer, hch]
  rw [closeChannels_server]
  rfl

/-- The buffers are laid out without touching the descriptors. -/
theorem exists_channels (h : p.server.mChannels = some ch) : ∃ ch',
    (setBuffers n (setCapacities n p)).server.mChannels = some ch' ∧
      ∀ j, (ch' j).mFdRead = (ch j).mFdRead ∧ (ch' j).mFdWrite = (ch j).mFdWrite := by
  simp only [setBuffers, setCapacities, h, Option.map_some, Option.some.injEq, exists_eq_left']
  intro j
  by_cases hj : j < n
  · simp only [if_pos hj, and_self]
  · simp only [if_neg hj, and_self]

theorem Held.restored (h : Held s n n p ch) (hn : 0 < n) :
    Descriptors.Restored s (closeProxy (setBuffers n (setCapacities n p))).fds := by
  obtain ⟨ch', hch', hsame⟩ := exists_channels (n := n) h.channels
  rw [closeProxy_fds rfl hch']
  have hnumber : (setBuffers n (setCapacities n p)).server.mNumberChannels = n := h.number
  rw [hnumber]
  constructor
  · apply Finset.eq_empty_of_forall_notMem
    intro fd hfd
    rw [Descriptors.close_own, Finset.mem_erase, mem_closeChannels.1] at hfd
    obtain ⟨hadd, hown, hall⟩ := hfd
    cases (h.own fd).mp hown with
    | inl hin => exact hadd hin.2
    | inr hin =>
        obtain ⟨j, hj, hfd⟩ := hin
        have hne := hall j (Nat.zero_le j) (by omega)
        rw [(hsame j).1, (hsame j).2] at hne
        exact hfd.elim hne.1 hne.2
  · ext fd
    rw [Descriptors.close_inherited, Finset.mem_erase, mem_closeChannels.2]
    change fd ≠ p.server.mFdAddClientServer ∧ fd ∈ p.fds.inherited ∧ _ ↔ _
    rw [h.inherited]
    constructor
    · intro hfd
      exact hfd.2.1
    · intro hfd
      -- an inherited descriptor is none of those that are closed
      have hout : fd ∉ p.fds.own := fun hown =>
        Descriptors.notMem_inherited hown (h.inherited ▸ hfd)
      rw [h.own, not_or] at hout
      refine ⟨fun he => hout.1 ⟨hn, he⟩, hfd, fun j _ hj => ?_⟩
      rw [(hsame j).1, (hsame j).2]
      exact ⟨fun he => hout.2 ⟨j, by omega, .inl he⟩, fun he => hout.2 ⟨j, by omega, .inr he⟩⟩

end

/-! ## Every outcome -/

section
variable {a : Answers} {n : ℕ}

/-- `main`'s process once the channels are allocated. -/
def allocated (n : ℕ) (s : Finset ℕ) : Process :=
  ⟨{ zeroServer with mChannels := some fun _ => zeroChannel, mNumberChannels := n }, .before s⟩

theorem held_zero (s : Finset ℕ) (n : ℕ) : Held s n 0 (allocated n s) fun _ => zeroChannel where
  channels := rfl
  number := rfl
  buffer := rfl
  inherited := rfl
  own fd := by simp [allocated]
  distinct j hj := absurd hj (by omega)

theorem startProxy_main (s : Finset ℕ) (halloc : a.callocChannels = true) :
    (startProxy a n (mainStart s)).process =
      match startClients a n 0 (allocated n s) with
      | .error p => p
      | .ok p => if a.callocBuffer = false then setCapacities n p
          else setBuffers n (setCapacities n p) := by
  have hverify : verifierProxy (mainStart s).server = false := rfl
  simp only [startProxy, hverify, halloc, Bool.false_eq_true, Bool.true_eq_false, if_false]
  change (match startClients a n 0 (allocated n s) with | .error p => _ | .ok p => _ :
    StartReply).process = _
  cases startClients a n 0 (allocated n s) with
  | error p => rfl
  | ok p => split_ifs <;> rfl

/-- Closing descriptor 0 changes nothing exactly when it was not open. -/
theorem close_zero_restored {s : Finset ℕ} :
    Descriptors.Restored s ((Descriptors.before s).close 0) ↔ 0 ∉ s := by
  constructor
  · intro h
    have hin : s.erase 0 = s := h.inherited
    exact Finset.erase_eq_self.mp hin
  · intro h
    exact ⟨Finset.erase_empty 0, Finset.erase_eq_of_notMem h⟩

theorem nothingOpened_restored (hn : 0 < n) (s : Finset ℕ) (hnothing : NothingOpened a) :
    Descriptors.Restored s (startAndClose a n s).fds ↔ 0 ∉ s := by
  rw [← close_zero_restored]
  cases halloc : a.callocChannels with
  | false =>
      have hstart : (startProxy a n (mainStart s)).process = mainStart s := by
        have hverify : verifierProxy (mainStart s).server = false := rfl
        simp only [startProxy, hverify, halloc, Bool.false_eq_true, if_false, if_true]
      rw [startAndClose, hstart]
      exact Iff.rfl
  | true =>
      have hpipe : a.pipeServerClient 0 = false := by simpa [NothingOpened, halloc] using hnothing
      obtain ⟨k, rfl⟩ := Nat.exists_eq_succ_of_ne_zero hn.ne'
      have hloop : startClients a (k + 1) 0 (allocated (k + 1) s) =
          .error (allocated (k + 1) s) := by
        simp only [startClients, startOne, hpipe, pipe_refused]
        rfl
      rw [startAndClose, startProxy_main s halloc, Nat.succ_eq_add_one, hloop]
      exact Iff.rfl

/-- Behind the first pipe only a start without any failure can be undone. -/
theorem opened_restored (hn : 0 < n) (s : Finset ℕ) (hnothing : ¬ NothingOpened a) :
    Descriptors.Restored s (startAndClose a n s).fds ↔ AllSucceed a n := by
  simp only [NothingOpened, not_or, Bool.not_eq_false] at hnothing
  obtain ⟨halloc, hpipe⟩ := hnothing
  have hends := startClients_ends n (held_zero s n) fun _ => hpipe
  rw [startAndClose, startProxy_main s halloc]
  cases hloop : startClients a n 0 (allocated n s) with
  | error p =>
      rw [hloop] at hends
      apply iff_of_false
      · exact hends.1.not_restored
      · intro hall
        exact hends.2 fun j _ hj => hall.2.1 j (by omega)
  | ok p =>
      rw [hloop, Nat.zero_add] at hends
      obtain ⟨⟨ch, h⟩, hstarts⟩ := hends
      cases hbuffer : a.callocBuffer with
      | false =>
          have hleaks : Leaks (setCapacities n p) := h.leaks hn
          apply iff_of_false
          · exact hleaks.not_restored
          · intro hall
            rw [hall.2.2] at hbuffer
            cases hbuffer
      | true =>
          apply iff_of_true
          · exact h.restored hn
          · exact ⟨halloc, fun j hj => hstarts j (Nat.zero_le j) (by omega), hbuffer⟩

/-- After `StartProxy` and `CloseProxy` the descriptors are those from before
exactly when every call succeeded, or nothing was opened and descriptor 0, which
`CloseProxy` closes then, was not open. -/
theorem startAndClose_restored_iff (a : Answers) {n : ℕ} (hn : 0 < n) (s : Finset ℕ) :
    Descriptors.Restored s (startAndClose a n s).fds ↔
      AllSucceed a n ∨ (NothingOpened a ∧ 0 ∉ s) := by
  by_cases hnothing : NothingOpened a
  · have hfails : ¬ AllSucceed a n := by
      intro hall
      cases hnothing with
      | inl halloc => exact absurd hall.1 (by rw [halloc]; decide)
      | inr hpipe => exact absurd (hall.2.1 0 hn).1 (by rw [hpipe]; decide)
    rw [nothingOpened_restored hn s hnothing, or_iff_right hfails, and_iff_right hnothing]
  · rw [opened_restored hn s hnothing]
    simp only [hnothing, false_and, or_false]

/-- Every call is successful. -/
def noFailure : Answers := ⟨true, fun _ => true, fun _ => true, true, fun _ => true, true⟩

theorem startAndClose_restored_one :
    Descriptors.Restored {0, 1, 2} (startAndClose noFailure 1 {0, 1, 2}).fds ↔
      AllSucceed noFailure 1 ∨ (NothingOpened noFailure ∧ 0 ∉ ({0, 1, 2} : Finset ℕ)) :=
  startAndClose_restored_iff noFailure Nat.one_pos {0, 1, 2}

def noMemory : Answers := { noFailure with callocChannels := false }

def noProcess : Answers := { noFailure with fork := fun _ => false }

/-- A refused `calloc` costs the process its standard input, a failed `fork`
leaves the pipes of the client open. -/
theorem descriptors_not_restored :
    ((startAndClose noMemory 1 {0, 1, 2}).fds.opened = {1, 2} ∧
      ¬ Descriptors.Restored {0, 1, 2} (startAndClose noMemory 1 {0, 1, 2}).fds) ∧
    (startAndClose noProcess 1 {0, 1, 2}).fds.opened = {1, 2, 3, 4, 5, 6, 7, 8} ∧
      ¬ Descriptors.Restored {0, 1, 2} (startAndClose noProcess 1 {0, 1, 2}).fds := by
  constructor
  · exact ⟨by decide +kernel, fun h => absurd h.opened (by decide +kernel)⟩
  · exact ⟨by decide +kernel, fun h => absurd h.opened (by decide +kernel)⟩

end

end TaskLunev.ProxyCleanup
