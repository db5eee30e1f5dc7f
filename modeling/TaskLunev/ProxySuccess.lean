import TaskLunev.ProxyTurns

/-!
# What a successful `SendFile` means

The first client moves a file into its pipe and then sends the number of bytes
it moved. The other clients move on what they are given. Along a run no link
holds more bytes than entered it, so standard output never gets more bytes than
the first client moved, and the loop can only end when it has got them all.

A `POLLHUP` ends the call with the same code at any time. The result below is
about runs in which none is reported.
-/
namespace TaskLunev.ProxySuccess
open ByteMemory ProxyModel ProxyTurns ExceptRules

theorem spliceLoop_moves (chunk : ℕ) (splices : List (Option ℕ)) (input : List Byte) :
    (spliceLoop chunk splices input).1 <+: input := by
  induction splices generalizing input with
  | nil => exact List.nil_prefix
  | cons reply rest ih =>
      cases reply with
      | none => exact List.nil_prefix
      | some ret =>
          unfold spliceLoop
          split_ifs
          · exact List.nil_prefix
          · conv_rhs => rw [← List.take_append_drop (min ret chunk) input]
            exact (List.prefix_append_right_inj _).mpr (ih _)

/-- The size message counts the bytes the first client moved. -/
theorem startFirstClient_size {splices : List (Option ℕ)} {file content : List Byte} {v : ℤ}
    (h : startFirstClient splices file = (content, some v)) : v = content.length := by
  unfold startFirstClient at h
  simp only [Prod.mk.injEq] at h
  obtain ⟨rfl, hsize⟩ := h
  split_ifs at hsize
  exact (Option.some.inj hsize).symm

section
variable {last total : ℕ}

/-- Success: the size message is there and standard output got that many
bytes. -/
def Complete (s : State last total) : Prop :=
  ∃ size, s.traffic.sizeMessage = some size ∧ s.traffic.toStdout.length = size

/-- What the clients can have in their pipes when a pass reads them: the first
one what it moves out of the file, each other one what it can have moved of the
bytes it was given. -/
structure Delivers (content : List Byte) (size : Option ℤ) (s : State last total)
    (e : Pass last) : Prop where
  first : ∀ bytes, e.reads 0 = some bytes → s.traffic.fromClient 0 ++ bytes <+: content
  next : ∀ (c : Fin last) (bytes), e.reads c.succ = some bytes →
    ∃ splices, s.traffic.fromClient c.succ ++ bytes <+:
      (startClient splices (s.traffic.toClient c.succ)).1
  message : ∀ v, e.sizeRead = .message v → size = some v

/-- Every pass of the run keeps to what `poll` and the clients can answer. -/
def RunHonest (content : List Byte) (size : Option ℤ) : State last total → List (Pass last) → Prop
  | _, [] => True
  | s, e :: passes => PollHonest e s ∧ Delivers content size s e ∧
      ∀ t, onePass s e = .ok t → RunHonest content size t passes

/-- The books of a run, in numbers of bytes. -/
structure Counted (content : List Byte) (size : Option ℤ) (s : State last total) : Prop where
  stored : ∀ c : Fin last, (s.traffic.toClient c.succ).length + (s.channels c.castSucc).mSize =
    (s.traffic.fromClient c.castSucc).length
  first : (s.traffic.fromClient 0).length ≤ content.length
  next : ∀ c : Fin last,
    (s.traffic.fromClient c.succ).length ≤ (s.traffic.toClient c.succ).length
  printed : s.traffic.toStdout.length ≤ (s.traffic.fromClient (Fin.last last)).length
  counter : s.counter = s.traffic.toStdout.length
  announced : (s.traffic.sizeMessage = none ∧ s.sizeFile = longMax) ∨
    ∃ v, s.traffic.sizeMessage = some v ∧ s.sizeFile = v ∧ size = some v

variable {content : List Byte} {size : Option ℤ} {s t : State last total} {e : Pass last}
  {i : Fin (last + 1)}

/-- No client gives more bytes than the first one moved. -/
theorem Counted.given_le (h : Counted content size s) (hs : ∀ j, 0 ≤ (s.channels j).mSize)
    (i : Fin (last + 1)) : (s.traffic.fromClient i).length ≤ content.length := by
  induction i using Fin.induction with
  | zero => exact h.first
  | succ c ih =>
      have := h.next c
      have := h.stored c
      have := hs c.castSucc
      omega

/-- A read into an empty channel, of bytes its client can have. -/
theorem Counted.received (h : Counted content size s) (hempty : (s.channels i).mSize = 0)
    (m' : Memory total) (bytes : List Byte)
    (hfirst : i = 0 → (s.traffic.fromClient i).length + bytes.length ≤ content.length)
    (hnext : i ≠ 0 → (s.traffic.fromClient i).length + bytes.length ≤
      (s.traffic.toClient i).length) :
    Counted content size (s.received i m' bytes) := by
  have hfrom : ∀ j, ((s.received i m' bytes).traffic.fromClient j).length =
      (s.traffic.fromClient j).length + if j = i then bytes.length else 0 := by
    intro j
    by_cases hj : j = i
    · subst hj
      simp [State.received]
    · simp [State.received, hj]
  constructor
  · intro c
    have hc := h.stored c
    rw [hfrom]
    by_cases hi : c.castSucc = i
    · subst hi
      have hch : ((s.received c.castSucc m' bytes).channels c.castSucc).mSize = bytes.length := by
        simp [State.received]
      rw [hch, if_pos rfl]
      change ((s.traffic.toClient c.succ).length : ℤ) + _ = _
      omega
    · have hch : (s.received i m' bytes).channels c.castSucc = s.channels c.castSucc :=
        Function.update_of_ne hi ..
      rw [hch, if_neg hi]
      exact hc
  · rw [hfrom]
    split_ifs with hi
    · subst hi
      exact hfirst rfl
    · exact h.first
  · intro c
    rw [hfrom]
    split_ifs with hi
    · subst hi
      exact hnext (Fin.succ_ne_zero c)
    · exact h.next c
  · rw [hfrom]
    exact h.printed.trans (Nat.le_add_right ..)
  · exact h.counter
  · exact h.announced

theorem Counted.printed_last (h : Counted content size s) {out : List Byte}
    (hroom : s.traffic.toStdout.length + out.length ≤
      (s.traffic.fromClient (Fin.last last)).length) :
    Counted content size (s.printed (Fin.last last) out) := by
  constructor
  · intro c
    have hch : (s.printed (Fin.last last) out).channels c.castSucc = s.channels c.castSucc :=
      Function.update_of_ne (Fin.castSucc_ne_last c) ..
    rw [hch]
    exact h.stored c
  · exact h.first
  · exact h.next
  · simpa [State.printed] using hroom
  · have hcounter := h.counter
    simp only [State.printed, List.length_append]
    omega
  · exact h.announced

theorem Counted.forwarded (h : Counted content size s) (hs : ∀ j, 0 ≤ (s.channels j).mSize)
    (c : Fin last) {d : Drained}
    (hsent : d.sent ++ slice s.totalBuffer d.buf.toNat d.size.toNat =
      slice s.totalBuffer (s.channels c.castSucc).mCurPos.toNat
        (s.channels c.castSucc).mSize.toNat) (hnonneg : 0 ≤ d.size) :
    Counted content size (s.forwarded c.succ c d) := by
  have hlen := congrArg List.length hsent
  simp only [List.length_append, slice_length] at hlen
  have hto : ∀ j, ((s.forwarded c.succ c d).traffic.toClient j).length =
      (s.traffic.toClient j).length + if j = c.succ then d.sent.length else 0 := by
    intro j
    by_cases hj : j = c.succ
    · subst hj
      simp [State.forwarded]
    · simp [State.forwarded, hj]
  constructor
  · intro c'
    have hc' := h.stored c'
    have hsize := hs c'.castSucc
    rw [forwarded_channels, hto]
    by_cases hc : c' = c
    · subst hc
      rw [Function.update_self, if_pos rfl]
      change _ + d.size = ((s.traffic.fromClient c'.castSucc).length : ℤ)
      omega
    · have hne : c'.castSucc ≠ c.castSucc := fun he => hc (Fin.castSucc_injective _ he)
      have hne' : c'.succ ≠ c.succ := fun he => hc (Fin.succ_injective _ he)
      rw [Function.update_of_ne hne, if_neg hne']
      exact hc'
  · exact h.first
  · intro c'
    rw [hto]
    exact (h.next c').trans (Nat.le_add_right ..)
  · exact h.printed
  · exact h.counter
  · exact h.announced

/-- The channels from `k` on are still as at the top of the pass. -/
structure Underway (content : List Byte) (size : Option ℤ) (s : State last total) (k : ℕ)
    (u : State last total) : Prop where
  counted : Counted content size u
  same : SameFrom k s u

/-- A read of the pass: the client's pipe bounds it, and what is printed of it
was just read. -/
theorem Underway.received {u v : State last total} (hd : Delivers content size s e)
    (hempty : (u.channels i).mSize = 0) (h : Underway content size s i u)
    (hread : Received e i u v) : Counted content size v := by
  obtain ⟨offered, bytes, m', hoffered, hbytes, -, hend⟩ := hread
  have hle : bytes.length ≤ offered.length := hbytes ▸ List.length_take_le' ..
  have hfrom := congrArg List.length (h.same.fromClient i (le_refl _))
  have hto := congrArg List.length (h.same.toClient i (le_refl _))
  have hfirst : i = 0 → (u.traffic.fromClient i).length + bytes.length ≤ content.length := by
    rintro rfl
    have hpre := (hd.first offered hoffered).length_le
    rw [List.length_append] at hpre
    omega
  have hnext : i ≠ 0 → (u.traffic.fromClient i).length + bytes.length ≤
      (u.traffic.toClient i).length := by
    intro hi
    obtain ⟨c, rfl⟩ := Fin.exists_succ_eq.mpr hi
    obtain ⟨splices, hpre⟩ := hd.next c offered hoffered
    have hmoved := (hpre.trans (spliceLoop_moves ..)).length_le
    rw [List.length_append] at hmoved
    omega
  have hrec := h.counted.received hempty m' bytes hfirst hnext
  split_ifs at hend with hlast
  · obtain ⟨k, rfl⟩ := hend
    subst hlast
    apply hrec.printed_last
    have hk := List.length_take_le' k bytes
    have hp := h.counted.printed
    simp only [State.received, Function.update_self, List.length_append]
    omega
  · exact hend ▸ hrec

theorem Underway.turn {u v : State last total} (hd : Delivers content size s e)
    (hready : Ready e i u) (h : Underway content size s i u) (ht : Turn e i u v) :
    Underway content size s (i + 1) v := by
  obtain ⟨mid, hread, hwrite⟩ := ht
  have hsame : SameFrom (i + 1) s u := h.same.trans (.refl ..) (Nat.le_succ _)
  have hmid : Underway content size s (i + 1) mid ∧ ∀ j, 0 ≤ (mid.channels j).mSize := by
    split_ifs at hread with hin
    · exact ⟨⟨h.received hd (hready.empty i (le_refl _) hin) hread,
        hsame.trans hread.sameFrom (le_refl _)⟩, hread.size_all_nonneg hready.size_nonneg⟩
    · subst hread
      exact ⟨⟨h.counted, hsame⟩, hready.size_nonneg⟩
  split_ifs at hwrite
  · refine ⟨?_, hmid.1.same.trans hwrite.sameFrom (le_refl _)⟩
    obtain ⟨c, d, rfl, rfl, hsent, -, hnonneg, -⟩ := hwrite
    exact hmid.1.counted.forwarded hmid.2 c hsent hnonneg
  · exact hwrite ▸ hmid.1

theorem Counted.opened (h : Counted content size s) (hd : Delivers content size s e)
    (ho : Opened e s t) : Underway content size s 0 t := by
  rcases ho with rfl | ⟨v, hv, rfl⟩
  · exact ⟨⟨h.stored, h.first, h.next, h.printed, h.counter, h.announced⟩,
      ⟨fun _ _ => rfl, fun _ _ => rfl, fun _ _ => rfl⟩⟩
  · exact ⟨⟨h.stored, h.first, h.next, h.printed, h.counter,
      .inr ⟨v, rfl, rfl, hd.message v hv⟩⟩, ⟨fun _ _ => rfl, fun _ _ => rfl, fun _ _ => rfl⟩⟩

/-- When the loop is over everything has arrived. -/
theorem Counted.complete (h : Counted content size s) (hs : ∀ j, 0 ≤ (s.channels j).mSize)
    (hlen : content.length < longMax) (hsize : ∀ v, size = some v → v = content.length)
    (hend : s.sizeFile ≤ s.counter) : Complete s := by
  have hcounter := h.counter
  have hprinted := h.printed.trans (h.given_le hs _)
  rcases h.announced with ⟨-, hmax⟩ | ⟨v, hv, hfile, hmessage⟩
  · omega
  · have hcontent := hsize v hmessage
    exact ⟨v, hv, by omega⟩

/-- One pass without `POLLHUP` keeps the books, and returns 0 only when
everything has arrived. -/
theorem pass_counted (h : Counted content size s) (hs : ∀ j, 0 ≤ (s.channels j).mSize)
    (hlen : content.length < longMax) (hsize : ∀ v, size = some v → v = content.length)
    (hp : PollHonest e s) (hd : Delivers content size s e) (hhup : ∀ j, e.hungUp j = false) :
    Ends (Stops False Complete) (fun t => Counted content size t ∧ ∀ j, 0 ≤ (t.channels j).mSize)
      (onePass s e) := by
  have hspec : Ends (Stops False Complete) _ (onePass s e) :=
    pass_spec (J := Underway content size s) hs hp (fun u hu => h.opened hd hu)
      (fun j u v hready hu ht => hu.turn hd hready ht) (fun _ _ _ hsafe => hsafe.elim)
      (fun j u hj => absurd hj (by rw [hhup j]; decide)) (h.complete hs hlen hsize)
  exact hspec.mono (fun _ => id) fun t ht => ⟨ht.2.choose_spec.counted, ht.1⟩

theorem eventLoop_counted (h : Counted content size s) (hs : ∀ j, 0 ≤ (s.channels j).mSize)
    (hlen : content.length < longMax) (hsize : ∀ v, size = some v → v = content.length)
    {passes : List (Pass last)} (hrun : RunHonest content size s passes)
    (hhup : ∀ e ∈ passes, ∀ j, e.hungUp j = false) :
    Ends (Stops False Complete) (fun _ => False) (eventLoop s passes) := by
  induction passes generalizing s with
  | nil => trivial
  | cons e passes ih =>
      obtain ⟨hp, hd, hrest⟩ := hrun
      have hpass := pass_counted h hs hlen hsize hp hd (hhup e (by simp))
      unfold eventLoop
      cases hnext : onePass s e with
      | error stop => rwa [hnext] at hpass
      | ok t =>
          rw [hnext] at hpass
          exact ih hpass.1 hpass.2 (hrest t hnext) fun e' he' => hhup e' (by simp [he'])

theorem counted_start (content path : List Byte) (size : Option ℤ) :
    Counted content size ((start last).asked path) := by
  constructor
  · intro c
    simp [State.asked, start, startChannel]
  · simp [State.asked, start]
  · simp [State.asked, start]
  · simp [State.asked, start]
  · simp [State.asked, start]
  · exact .inl ⟨rfl, rfl⟩

end

/-- In a run in which no pass reports `POLLHUP`, a `SendFile` that returns 0 has
received the size message and written that many bytes to standard output. -/
theorem sendFile_complete {last : ℕ} {splices : List (Option ℕ)} {file content : List Byte}
    {size : Option ℤ} (hclient : startFirstClient splices file = (content, size))
    (hlen : content.length < longMax) {verified : Bool} {path : List Byte} {written : Option ℕ}
    {passes : List (Pass last)}
    (hrun : ∀ ret, written = some ret →
      RunHonest content size ((start last).asked (path.take ret)) passes)
    (hhup : ∀ e ∈ passes, ∀ j, e.hungUp j = false) {t : State last _}
    (hret : sendFile verified path written (start last) passes = .error (.returned 0 t)) :
    Complete t := by
  have hsize : ∀ v, size = some v → v = content.length := by
    rintro v rfl
    exact startFirstClient_size hclient
  unfold sendFile at hret
  split_ifs at hret
  · cases hret
  · cases written with
    | none => cases hret
    | some ret =>
        simp only at hret
        split_ifs at hret
        · cases hret
        · have hspec := eventLoop_counted (counted_start content (path.take ret) size)
            (fun _ => Int.le_refl 0) hlen hsize (hrun ret rfl) hhup
          rw [hret] at hspec
          rcases hspec with hneg | ⟨-, hdone⟩
          · exact absurd hneg (by decide)
          · exact hdone

/-- A pass of one channel in which `poll` reports `revents` and the client has
`bytes` ready. -/
def passOne (revents : PollPair) (sizeRead : SizeReply) (bytes : Option (List Byte)) : Pass 0 where
  stray := 0
  numPolls := 1
  revents _ := revents
  sizeRead := sizeRead
  reads _ := bytes
  writes _ := []
  stdout := some 16

/-- Two bytes and their size message come in together. -/
def passArrive : Pass 0 :=
  passOne ⟨⟨true, false, false⟩, ⟨true, false, false⟩⟩ (.message 2) (some [7, 9])

def passQuiet : Pass 0 :=
  passOne ⟨⟨false, false, false⟩, ⟨false, false, false⟩⟩ .ended none

/-- The client is gone. -/
def passHungUp : Pass 0 :=
  passOne ⟨⟨false, false, false⟩, ⟨false, false, true⟩⟩ .ended none

theorem sendFile_complete_two : ∃ t, sendFile true [47] (some 1) (start 0)
    [passArrive, passQuiet] = .error (.returned 0 t) ∧ Complete t := by
  obtain ⟨t, hret⟩ : ∃ t, sendFile true [47] (some 1) (start 0) [passArrive, passQuiet] =
      .error (.returned 0 t) := ⟨_, by with_unfolding_all rfl⟩
  refine ⟨t, hret, sendFile_complete
    (show startFirstClient [some 2, some 0] [7, 9] = ([7, 9], some 2) from rfl) (by decide)
    ?_ ?_ hret⟩
  · rintro ret ⟨⟩
    refine ⟨?_, ?_, fun t _ => ⟨?_, ?_, fun _ _ => trivial⟩⟩
    · constructor <;> decide
    · exact ⟨fun _ h => (by cases h; decide), fun c => c.elim0, fun _ h => (by cases h; rfl)⟩
    · constructor <;> simp [passQuiet, passOne]
    · exact ⟨fun _ h => (by cases h), fun c => c.elim0, fun _ h => (by cases h)⟩
  · decide

/-- The client of a two-byte file hangs up first: `SendFile` returns 0 with
nothing received. -/
theorem hungUp_returns_zero : ∃ t,
    sendFile true [47] (some 1) (start 0) [passHungUp] = .error (.returned 0 t) ∧
    RunHonest [7, 9] (some 2) ((start 0).asked [47]) [passHungUp] ∧
    startFirstClient [some 2, some 0] [7, 9] = ([7, 9], some 2) ∧
    t.traffic.sizeMessage = none ∧ t.traffic.toStdout = [] ∧ ¬ Complete t := by
  refine ⟨_, rfl, ⟨?_, ?_, fun _ _ => trivial⟩, rfl, rfl, rfl, ?_⟩
  · constructor <;> decide
  · exact ⟨fun _ h => (by cases h), fun c => c.elim0, fun _ h => (by cases h)⟩
  · rintro ⟨size, ⟨⟩, -⟩

end TaskLunev.ProxySuccess
