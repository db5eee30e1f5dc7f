import TaskLunev.ProxyPaths
import TaskLunev.ProxyRelay
import TaskLunev.ProxyReturns
import TaskLunev.ProxySuccess

/-!
# Files through the proxy

The clients and the channels between them make one long queue from the files to
standard output. Every descriptor carries a first part of what the one before it
carried, so whatever a call returns, and wherever, standard output has a first
part of the files. When a call ends with its loop there is nothing left on the
way, and the next file can follow on the same channels. Standard output is the
bytes of the files only: the program's own messages, which it prints there about
a hang-up or an error, are left out.
-/
namespace TaskLunev.ProxySession
open ByteMemory ProxyModel ProxyTurns ProxyRelay ProxyReturns ProxySuccess ExceptRules FifoLedger
open ProxyPaths (ClientPass Opens Sendable holds_empty serve)

section
variable {last total : ℕ}

/-- Along the way from the first client to standard output each descriptor got a
first part of what the one before it gave, and what was cut off is stored. -/
structure Ordered (content : List Byte) (s : State last total) : Prop where
  relayed : Relayed s
  first : s.traffic.fromClient 0 <+: content
  next : ∀ c : Fin last, s.traffic.fromClient c.succ <+: s.traffic.toClient c.succ
  outlet : ∃ left, s.traffic.toStdout ++ left = s.traffic.fromClient (Fin.last last) ∧
    (left.length : ℤ) = (s.channels (Fin.last last)).mSize

/-- The same of the descriptors alone, whatever the channels count. -/
structure Piped (content : List Byte) (s : State last total) : Prop where
  first : s.traffic.fromClient 0 <+: content
  next : ∀ c : Fin last, s.traffic.fromClient c.succ <+: s.traffic.toClient c.succ
  sent : ∀ c : Fin last, s.traffic.toClient c.succ <+: s.traffic.fromClient c.castSucc
  outlet : s.traffic.toStdout <+: s.traffic.fromClient (Fin.last last)

variable {content before : List Byte} {size : Option ℤ} {s t u v : State last total}
  {e : Pass last} {i : Fin (last + 1)}

theorem Piped.mono (h : Piped content s) (more : List Byte) : Piped (content ++ more) s :=
  { h with first := h.first.trans (List.prefix_append content more) }

theorem Piped.given_prefix (h : Piped content s) (i : Fin (last + 1)) :
    s.traffic.fromClient i <+: content := by
  induction i using Fin.induction with
  | zero => exact h.first
  | succ c ih => exact (h.next c).trans ((h.sent c).trans ih)

theorem Piped.stdout_prefix (h : Piped content s) : s.traffic.toStdout <+: content :=
  h.outlet.trans (h.given_prefix _)

theorem Ordered.mono (h : Ordered content s) (more : List Byte) : Ordered (content ++ more) s :=
  { h with first := h.first.trans (List.prefix_append content more) }

theorem Ordered.sent_prefix (h : Ordered content s) (c : Fin last) :
    s.traffic.toClient c.succ <+: s.traffic.fromClient c.castSucc :=
  ⟨_, (h.relayed.held c).balanced⟩

theorem Ordered.piped (h : Ordered content s) : Piped content s := by
  obtain ⟨left, hleft, -⟩ := h.outlet
  exact ⟨h.first, h.next, h.sent_prefix, ⟨left, hleft⟩⟩

theorem Ordered.given_prefix (h : Ordered content s) (i : Fin (last + 1)) :
    s.traffic.fromClient i <+: content := h.piped.given_prefix i

theorem Ordered.stdout_prefix (h : Ordered content s) : s.traffic.toStdout <+: content :=
  h.piped.stdout_prefix

theorem Ordered.size_nonneg (h : Ordered content s) (i : Fin (last + 1)) :
    0 ≤ (s.channels i).mSize := by
  cases i using Fin.lastCases with
  | last =>
      obtain ⟨left, -, hsize⟩ := h.outlet
      omega
  | cast c => exact (h.relayed.held c).size_nonneg

/-- An empty last channel has been printed whole. -/
theorem Ordered.printed_all (h : Ordered content s)
    (hempty : (s.channels (Fin.last last)).mSize = 0) :
    s.traffic.toStdout = s.traffic.fromClient (Fin.last last) := by
  obtain ⟨left, hleft, hlen⟩ := h.outlet
  have hnil : left = [] := List.length_eq_zero_iff.mp (by omega)
  rw [← hleft, hnil, List.append_nil]

/-! ## The steps of a pass -/

theorem Ordered.received (h : Ordered content s) (hempty : (s.channels i).mSize = 0)
    {m' : Memory total} {bytes : List Byte} (hlen : bytes.length ≤ (s.channels i).mCapacity)
    (hw : writeBytes s.totalBuffer (s.channels i).mBuf.toNat bytes = some m')
    (hfirst : i = 0 → s.traffic.fromClient i ++ bytes <+: content)
    (hnext : i ≠ 0 → s.traffic.fromClient i ++ bytes <+: s.traffic.toClient i) :
    Ordered content (s.received i m' bytes) := by
  have hfrom : (s.received i m' bytes).traffic.fromClient i = s.traffic.fromClient i ++ bytes :=
    Function.update_self ..
  have hother : ∀ j, j ≠ i →
      (s.received i m' bytes).traffic.fromClient j = s.traffic.fromClient j :=
    fun j hj => Function.update_of_ne hj ..
  refine ⟨h.relayed.received hempty hlen hw, ?_, fun c => ?_, ?_⟩
  · by_cases hi : i = 0
    · subst hi
      exact hfrom ▸ hfirst rfl
    · rw [hother 0 (Ne.symm hi)]
      exact h.first
  · by_cases hi : c.succ = i
    · subst hi
      rw [hfrom]
      exact hnext (Fin.succ_ne_zero c)
    · rw [hother _ hi]
      exact h.next c
  · by_cases hi : Fin.last last = i
    · subst hi
      refine ⟨bytes, ?_, by simp [State.received]⟩
      rw [hfrom, ← h.printed_all hempty]
      rfl
    · obtain ⟨left, hleft, hsize⟩ := h.outlet
      refine ⟨left, ?_, ?_⟩
      · rw [hother _ hi]
        exact hleft
      · rw [hsize]
        simp [State.received, Function.update_of_ne hi]

theorem Ordered.printed (h : Ordered content s) {out : List Byte}
    (hout : s.traffic.toStdout ++ out <+: s.traffic.fromClient (Fin.last last)) :
    Ordered content (s.printed (Fin.last last) out) := by
  refine ⟨h.relayed.printed out, h.first, h.next, ?_⟩
  obtain ⟨left, hleft, hsize⟩ := h.outlet
  rw [← hleft, List.prefix_append_right_inj] at hout
  obtain ⟨rest, rfl⟩ := hout
  refine ⟨rest, ?_, ?_⟩
  · rw [← List.append_assoc] at hleft
    exact hleft
  · rw [List.length_append] at hsize
    simp only [State.printed, Function.update_self]
    omega

theorem Ordered.forwarded (h : Ordered content s) (c : Fin last) {d : Drained}
    (hsent : d.sent ++ slice s.totalBuffer d.buf.toNat d.size.toNat =
      slice s.totalBuffer (s.channels c.castSucc).mCurPos.toNat
        (s.channels c.castSucc).mSize.toNat)
    (hge : (s.channels c.castSucc).mCurPos ≤ d.buf) (hnonneg : 0 ≤ d.size)
    (hend : d.buf + d.size = (s.channels c.castSucc).mCurPos + (s.channels c.castSucc).mSize) :
    Ordered content (s.forwarded c.succ c d) := by
  refine ⟨h.relayed.forwarded c hsent hge hnonneg hend, h.first, fun c' => ?_, ?_⟩
  · by_cases hc : c'.succ = c.succ
    · rw [hc]
      have hto : (s.forwarded c.succ c d).traffic.toClient c.succ =
          s.traffic.toClient c.succ ++ d.sent := Function.update_self ..
      rw [hto]
      exact (h.next c).trans (List.prefix_append ..)
    · have hto : (s.forwarded c.succ c d).traffic.toClient c'.succ =
          s.traffic.toClient c'.succ := Function.update_of_ne hc ..
      rw [hto]
      exact h.next c'
  · obtain ⟨left, hleft, hsize⟩ := h.outlet
    refine ⟨left, hleft, ?_⟩
    rw [forwarded_channels, Function.update_of_ne (Fin.castSucc_lt_last c).ne']
    exact hsize

/-- What a client can have in its pipe follows what it gave before. -/
theorem Ordered.readOnly (h : Ordered content u) (hd : Delivers content size s e)
    (hsame : SameFrom i s u) (hempty : (u.channels i).mSize = 0) (hread : ReadOnly e i u v) :
    Ordered content v := by
  obtain ⟨offered, m', hoffered, hw, rfl⟩ := hread
  have hlen := List.length_take_le (sizeT (u.channels i).mCapacity) offered
  have hcap := sizeT_le (h.relayed.layout.capacity_nonneg i)
  have hfrom := hsame.fromClient i (le_refl _)
  have htake : u.traffic.fromClient i ++ offered.take (sizeT (u.channels i).mCapacity) <+:
      u.traffic.fromClient i ++ offered :=
    (List.prefix_append_right_inj _).mpr (List.take_prefix ..)
  refine h.received hempty (by omega) hw ?_ ?_
  · rintro rfl
    exact htake.trans (hfrom ▸ hd.first offered hoffered)
  · intro hi
    obtain ⟨c, rfl⟩ := Fin.exists_succ_eq.mpr hi
    obtain ⟨splices, hpre⟩ := hd.next c offered hoffered
    rw [← hfrom, ← hsame.toClient _ (le_refl _)] at hpre
    exact htake.trans (hpre.trans (spliceLoop_moves ..))

/-- A read and what is printed of it at once. -/
theorem Ordered.read (h : Ordered content u) (hd : Delivers content size s e)
    (hsame : SameFrom i s u) (hempty : (u.channels i).mSize = 0) (hread : Received e i u v) :
    Ordered content v := by
  obtain ⟨offered, bytes, m', hoffered, rfl, hw, hend⟩ := hread
  have hmid := h.readOnly hd hsame hempty ⟨offered, m', hoffered, hw, rfl⟩
  split_ifs at hend with hlast
  · obtain ⟨k, rfl⟩ := hend
    subst hlast
    apply hmid.printed
    have hall := h.printed_all hempty
    simp only [State.received, Function.update_self, hall]
    exact (List.prefix_append_right_inj _).mpr (List.take_prefix ..)
  · exact hend ▸ hmid

theorem Ordered.turn (h : Ordered content u) (hd : Delivers content size s e)
    (hsame : SameFrom i s u) (hready : Ready e i u) (ht : Turn e i u v) : Ordered content v := by
  obtain ⟨mid, hread, hwrite⟩ := ht
  have hmid : Ordered content mid := by
    split_ifs at hread with hin
    · exact h.read hd hsame (hready.empty i (le_refl _) hin) hread
    · exact hread ▸ h
  split_ifs at hwrite
  · obtain ⟨c, d, rfl, rfl, hsent, hge, hnonneg, hend⟩ := hwrite
    exact hmid.forwarded c hsent hge hnonneg hend
  · exact hwrite ▸ hmid

/-! ## The locals of a call -/

/-- `before` was printed by former calls. What this one printed it has counted,
and it knows the size once the message is in. -/
structure Account (before : List Byte) (size : Option ℤ) (s : State last total) : Prop where
  counter : s.traffic.toStdout.length = before.length + s.counter
  announced : s.sizeFile = longMax ∨ size = some s.sizeFile

theorem Account.received (h : Account before size s) (hread : Received e i s t) :
    Account before size t := by
  obtain ⟨offered, bytes, m', -, -, -, hend⟩ := hread
  have hrec : Account before size (s.received i m' bytes) := ⟨h.counter, h.announced⟩
  split_ifs at hend
  · obtain ⟨k, rfl⟩ := hend
    refine ⟨?_, hrec.announced⟩
    have hcounter := hrec.counter
    simp only [State.printed, List.length_append]
    omega
  · exact hend ▸ hrec

theorem Account.turn (h : Account before size s) (ht : Turn e i s t) :
    Account before size t := by
  obtain ⟨mid, hread, hwrite⟩ := ht
  have hmid : Account before size mid := by
    split_ifs at hread
    · exact h.received hread
    · exact hread ▸ h
  split_ifs at hwrite
  · obtain ⟨c, d, -, rfl, -⟩ := hwrite
    exact ⟨hmid.counter, hmid.announced⟩
  · exact hwrite ▸ hmid

theorem Account.opened (h : Account before size s) (hd : Delivers content size s e)
    (ho : Opened e s t) : Account before size t := by
  rcases ho with rfl | ⟨v, hv, rfl⟩
  · exact ⟨h.counter, h.announced⟩
  · exact ⟨h.counter, .inr (hd.message v hv)⟩

/-! ## When nothing is on the way -/

/-- All of the stream went through every descriptor. -/
structure Settled (content : List Byte) (s : State last total) : Prop where
  ordered : Ordered content s
  empty : ∀ i, (s.channels i).mSize = 0
  given : ∀ i, s.traffic.fromClient i = content
  printed : s.traffic.toStdout = content

/-- When standard output has all, every client gave all. -/
theorem Ordered.settled (h : Ordered content s)
    (hall : content.length ≤ s.traffic.toStdout.length) :
    Settled content s := by
  have hprinted : s.traffic.toStdout = content := h.stdout_prefix.eq_of_length_le hall
  have hgiven : ∀ i, s.traffic.fromClient i = content := by
    intro i
    induction i using Fin.reverseInduction with
    | last =>
        obtain ⟨left, hleft, -⟩ := h.outlet
        have hlen := congrArg List.length hleft
        rw [List.length_append] at hlen
        exact (h.given_prefix _).eq_of_length_le (by omega)
    | cast c ih =>
        have hle := ((h.next c).trans (h.sent_prefix c)).length_le
        rw [ih] at hle
        exact (h.given_prefix _).eq_of_length_le hle
  refine ⟨h, fun i => ?_, hgiven, hprinted⟩
  cases i using Fin.lastCases with
  | last =>
      obtain ⟨left, hleft, hsize⟩ := h.outlet
      have hlen := congrArg List.length hleft
      rw [hprinted, hgiven, List.length_append] at hlen
      omega
  | cast c =>
      have hheld := h.relayed.held c
      have hlen := congrArg List.length hheld.balanced
      have hle := (h.next c).length_le
      rw [hgiven] at hle
      simp only [link, hgiven, List.length_append, slice_length] at hlen
      have := hheld.size_nonneg
      omega

/-- A call is over: its size was sent and all of it is out. -/
structure Finished (content : List Byte) (size : Option ℤ) (s : State last total) : Prop where
  settled : Settled content s
  announced : ∃ v, size = some v

/-- The loop ends with the whole stream printed. -/
theorem Account.finished (h : Account before size s) (ho : Ordered (before ++ content) s)
    (hlen : content.length < longMax) (hsize : ∀ v, size = some v → v = content.length)
    (hend : s.sizeFile ≤ s.counter) : Finished (before ++ content) size s := by
  have hcounter := h.counter
  have hle := ho.stdout_prefix.length_le
  rw [List.length_append] at hle
  rcases h.announced with hmax | hmessage
  · omega
  · have hcontent := hsize _ hmessage
    refine ⟨ho.settled ?_, _, hmessage⟩
    rw [List.length_append]
    omega

/-! ## A call -/

/-- What a pass of the call that moves `size` bytes keeps. -/
structure Flowing (before content : List Byte) (size : Option ℤ) (s : State last total) : Prop where
  ordered : Ordered content s
  account : Account before size s
  size_nonneg : ∀ j, 0 ≤ (s.channels j).mSize

/-- The channels from `k` on are still as at the top of the pass. -/
structure Amid (before content : List Byte) (size : Option ℤ) (s : State last total) (k : ℕ)
    (u : State last total) : Prop where
  ordered : Ordered content u
  account : Account before size u
  same : SameFrom k s u

theorem Flowing.opened (h : Flowing before content size s) (hd : Delivers content size s e)
    (ho : Opened e s u) : Amid before content size s 0 u := by
  refine ⟨?_, h.account.opened hd ho, ?_⟩
  · have hk := h.ordered
    rcases ho with rfl | ⟨v, -, rfl⟩
    · exact ⟨⟨hk.relayed.layout, hk.relayed.held⟩, hk.first, hk.next, hk.outlet⟩
    · exact ⟨⟨hk.relayed.layout, hk.relayed.held⟩, hk.first, hk.next, hk.outlet⟩
  · rcases ho with rfl | ⟨v, -, rfl⟩
    · exact ⟨fun _ _ => rfl, fun _ _ => rfl, fun _ _ => rfl⟩
    · exact ⟨fun _ _ => rfl, fun _ _ => rfl, fun _ _ => rfl⟩

theorem Amid.turn (hd : Delivers content size s e) (hready : Ready e i u)
    (h : Amid before content size s i u) (ht : Turn e i u v) :
    Amid before content size s (i + 1) v := by
  refine ⟨h.ordered.turn hd h.same hready ht, h.account.turn ht, ?_⟩
  obtain ⟨mid, hread, hwrite⟩ := ht
  have hmid : SameFrom (i + 1) s mid := by
    split_ifs at hread
    · exact h.same.trans hread.sameFrom (Nat.le_succ _)
    · exact hread ▸ h.same.trans (.refl ..) (Nat.le_succ _)
  split_ifs at hwrite
  · exact hmid.trans hwrite.sameFrom (le_refl _)
  · exact hwrite ▸ hmid

/-- A pass without `POLLHUP` returns 0 only when everything has gone through. -/
theorem pass_finished (h : Flowing before (before ++ content) size s) (hp : PollHonest e s)
    (hd : Delivers (before ++ content) size s e) (hlen : content.length < longMax)
    (hsize : ∀ v, size = some v → v = content.length) (hhup : ∀ j, e.hungUp j = false) :
    Ends (Stops False (Finished (before ++ content) size))
      (Flowing before (before ++ content) size) (onePass s e) := by
  have hspec : Ends (Stops False (Finished (before ++ content) size)) _ (onePass s e) :=
    pass_spec (J := Amid before (before ++ content) size s) h.size_nonneg hp
      (fun u hu => h.opened hd hu) (fun j u v hready hu ht => hu.turn hd hready ht)
      (fun _ _ _ hsafe => hsafe.elim) (fun j u hj => absurd hj (by rw [hhup j]; decide))
      (h.account.finished h.ordered hlen hsize)
  exact hspec.mono (fun _ => id)
    fun t ht => ⟨ht.2.choose_spec.ordered, ht.2.choose_spec.account, ht.1⟩

theorem eventLoop_finished (h : Flowing before (before ++ content) size s)
    (hlen : content.length < longMax) (hsize : ∀ v, size = some v → v = content.length)
    {passes : List (Pass last)} (hrun : RunHonest (before ++ content) size s passes)
    (hhup : ∀ e ∈ passes, ∀ j, e.hungUp j = false) :
    Ends (Stops False (Finished (before ++ content) size)) (fun _ => False)
      (eventLoop s passes) := by
  induction passes generalizing s with
  | nil => trivial
  | cons e passes ih =>
      obtain ⟨hp, hd, hrest⟩ := hrun
      rw [List.forall_mem_cons] at hhup
      have hpass := pass_finished h hp hd hlen hsize hhup.1
      unfold eventLoop
      cases hnext : onePass s e with
      | error stop => rwa [hnext] at hpass
      | ok t =>
          rw [hnext] at hpass
          exact ih hpass (hrest t hnext) hhup.2

/-! ## Calls one behind the other -/

/-- One file: the path, the answer of its `write`, the passes of the event loop,
and what the calls of the first client answer meanwhile. -/
structure Call (last : ℕ) where
  path : List Byte
  written : Option ℕ
  passes : List (Pass last)
  client : ClientPass

def Call.moved (call : Call last) : List Byte := (serve call.client).1

def Call.message (call : Call last) : Option ℤ := (serve call.client).2.1

/-- A size message is sent for a file that was opened and moved to its end. -/
theorem serve_message {e : ClientPass} {v : ℤ} (h : (serve e).2.1 = some v) :
    ∃ file, e.opened = some file ∧ startFirstClient e.splices file = ((serve e).1, some v) := by
  unfold serve at h ⊢
  unfold startFirstClient
  cases hopened : e.opened with
  | none =>
      rw [hopened] at h
      cases h
  | some file =>
      simp only [hopened] at h ⊢
      rcases hloop : spliceLoop 1280 e.splices file with ⟨moved, ending⟩
      rw [hloop] at h
      cases ending with
      | running => cases h
      | failed => cases h
      | finished =>
          simp only at h
          split_ifs at h with hwritten
          refine ⟨file, rfl, ?_⟩
          simp only [hloop, if_pos hwritten, if_true]
          exact congrArg (Prod.mk moved) h

theorem serve_moved {e : ClientPass} {file : List Byte} (hopened : e.opened = some file) :
    (serve e).1 <+: file := by
  have hmoves := spliceLoop_moves 1280 e.splices file
  unfold serve
  simp only [hopened]
  rcases hloop : spliceLoop 1280 e.splices file with ⟨moved, ending⟩
  rw [hloop] at hmoves
  cases ending with
  | finished =>
      simp only
      split_ifs <;> exact hmoves
  | _ => exact hmoves

/-- The locals `SendFile` sets up before its loop. -/
def called (s : State last total) : State last total :=
  { s with
    events := fun _ => ⟨⟨false, false, true⟩, ⟨false, false, true⟩⟩
    counter := 0
    sizeFile := longMax
    traffic := { s.traffic with sizeMessage := none } }

/-- `SendFile` on the same proxy as long as it returns 0. -/
def session : State last total → List (Call last) →
    Except (Stop (State last total)) (State last total)
  | s, [] => .ok s
  | s, call :: calls =>
      match sendFile true call.path call.written (called s) call.passes with
      | .error (.returned code t) =>
          if code = 0 then session t calls else .error (.returned code t)
      | stop => stop

/-- Every call keeps to what `poll` and the clients can answer. The clients go
on from what they moved before. -/
def SessionHonest : List Byte → State last total → List (Call last) → Prop
  | _, _, [] => True
  | before, s, call :: calls =>
      (∀ ret, call.written = some ret → RunHonest (before ++ call.moved) call.message
        ((called s).asked (call.path.take ret)) call.passes) ∧
      ∀ t, sendFile true call.path call.written (called s) call.passes =
        .error (.returned 0 t) → SessionHonest (before ++ call.moved) t calls

variable {call : Call last}

theorem Ordered.called (h : Ordered content s) : Ordered content (called s) :=
  ⟨⟨h.relayed.layout, h.relayed.held⟩, h.first, h.next, h.outlet⟩

/-- The path goes to the first client, and no link carries it. -/
theorem Ordered.asked (h : Ordered content s) (path : List Byte) :
    Ordered content (s.asked path) := by
  have hto : ∀ c : Fin last, (s.asked path).traffic.toClient c.succ = s.traffic.toClient c.succ :=
    fun c => by simp [State.asked]
  refine ⟨⟨h.relayed.layout, fun c => ?_⟩, h.first, fun c => ?_, h.outlet⟩
  · have hlink : link (s.asked path) c = link s c := by simp only [link, hto]; rfl
    rw [hlink]
    exact h.relayed.held c
  · rw [hto]
    exact h.next c

/-- The loop of a call begins in order, with nothing counted. -/
theorem Ordered.flowing (h : Ordered content s) (path : List Byte) (size : Option ℤ) :
    Flowing s.traffic.toStdout content size ((ProxySession.called s).asked path) where
  ordered := h.called.asked path
  account := ⟨(Int.add_zero _).symm, .inl rfl⟩
  size_nonneg := h.size_nonneg

/-- A call without `POLLHUP` that returns 0 leaves nothing on the way. -/
theorem sendFile_finished (h : Settled before s) (hlen : call.moved.length < longMax)
    (hrun : ∀ ret, call.written = some ret → RunHonest (before ++ call.moved) call.message
      ((ProxySession.called s).asked (call.path.take ret)) call.passes)
    (hhup : ∀ e ∈ call.passes, ∀ j, e.hungUp j = false) :
    Ends (Stops False (Finished (before ++ call.moved) call.message)) (fun _ => False)
      (sendFile true call.path call.written (ProxySession.called s) call.passes) := by
  have hsize : ∀ v, call.message = some v → v = call.moved.length := by
    intro v hv
    obtain ⟨file, -, hclient⟩ := serve_message hv
    exact startFirstClient_size hclient
  unfold sendFile
  refine Ends.ite (fun hfalse => by cases hfalse) fun _ => ?_
  cases hwritten : call.written with
  | none => exact .inl rfl
  | some ret =>
      refine Ends.ite (fun _ => .inl rfl) fun _ => ?_
      have hflow := (h.ordered.mono call.moved).flowing (call.path.take ret) call.message
      rw [h.printed] at hflow
      exact eventLoop_finished hflow hlen hsize (hrun ret hwritten) hhup

/-! ## A session -/

theorem session_finished {calls : List (Call last)} (h : Settled before s)
    (hlen : ∀ call ∈ calls, call.moved.length < longMax)
    (hhup : ∀ call ∈ calls, ∀ e ∈ call.passes, ∀ j, e.hungUp j = false)
    (hrun : SessionHonest before s calls) (hret : session s calls = .ok t) :
    Settled (before ++ calls.flatMap Call.moved) t ∧ ∀ call ∈ calls, ∃ v, call.message = some v := by
  induction calls generalizing before s with
  | nil =>
      obtain rfl := Except.ok.inj hret
      rw [List.flatMap_nil, List.append_nil]
      exact ⟨h, by simp⟩
  | cons call calls ih =>
      obtain ⟨hcall, hrest⟩ := hrun
      rw [List.forall_mem_cons] at hlen hhup
      have hspec := sendFile_finished h hlen.1 hcall hhup.1
      unfold session at hret
      rw [List.flatMap_cons, ← List.append_assoc, List.forall_mem_cons]
      cases hsent : sendFile true call.path call.written (ProxySession.called s) call.passes with
      | ok u =>
          rw [hsent] at hspec
          exact hspec.elim
      | error stop =>
          rw [hsent] at hret hspec
          cases stop with
          | returned code u =>
              simp only at hret
              split_ifs at hret with hcode
              rcases hspec with hneg | ⟨-, hu⟩
              · omega
              · have hlast := ih hu.settled hlen.2 hhup.2 (hrest u (hcode ▸ hsent)) hret
                exact ⟨hlast.1, hu.announced, hlast.2⟩
          | outside => cases hret
          | starved => cases hret

end

/-! ## The whole files -/

/-- `splice` gives 0 at the end of its input and nowhere else. -/
def SplicesHonest (chunk : ℕ) : List (Option ℕ) → List Byte → Prop
  | [], _ => True
  | none :: _, _ => True
  | some ret :: rest, input =>
      (ret = 0 → input = []) ∧ (ret ≠ 0 → SplicesHonest chunk rest (input.drop (min ret chunk)))

theorem spliceLoop_finished {chunk : ℕ} {splices : List (Option ℕ)} {input : List Byte}
    (h : SplicesHonest chunk splices input) (hend : (spliceLoop chunk splices input).2 = .finished) :
    (spliceLoop chunk splices input).1 = input := by
  induction splices generalizing input with
  | nil => cases hend
  | cons reply rest ih =>
      cases reply with
      | none => cases hend
      | some ret =>
          obtain ⟨hzero, hmore⟩ := h
          unfold spliceLoop at hend ⊢
          split_ifs at hend ⊢ with hret
          · exact (hzero hret).symm
          · change _ ++ (spliceLoop chunk rest (input.drop (min ret chunk))).1 = input
            rw [ih (hmore hret) hend]
            exact List.take_append_drop ..

/-- With its size the first client has moved the whole file. -/
theorem startFirstClient_moved {splices : List (Option ℕ)} {file : List Byte} {v : ℤ}
    (h : SplicesHonest 1280 splices file) (hsize : (startFirstClient splices file).2 = some v) :
    (startFirstClient splices file).1 = file := by
  unfold startFirstClient at hsize ⊢
  simp only at hsize ⊢
  split_ifs at hsize with hend
  exact spliceLoop_finished h hend

section
variable {last : ℕ} {calls : List (Call last)}

theorem ordered_start (h : CapacitiesFit last) : Ordered [] (start last) :=
  ⟨h.relayed, List.prefix_rfl, fun _ => List.prefix_rfl, [], rfl, rfl⟩

/-- The first client reads each path as it was sent, none shorter than the one
before it, and opens the file that has this name. -/
structure FilesServed (files : List Byte → Option (List Byte)) (calls : List (Call last)) :
    Prop where
  sendable : ∀ call ∈ calls, Sendable call.path
  growing : (calls.map Call.path).IsChain fun path next => path.length ≤ next.length
  asked : ∀ call ∈ calls,
    call.written = some call.path.length ∧ call.client.read = some call.path
  opens : Opens files (fun _ => 0) (calls.map Call.client)
  splices : ∀ call ∈ calls, ∀ file ∈ call.client.opened,
    SplicesHonest 1280 call.client.splices file
  short : ∀ call ∈ calls, ∀ file ∈ call.client.opened, file.length < longMax

variable {files : List Byte → Option (List Byte)}

theorem FilesServed.opened (h : FilesServed files calls) {call : Call last} (hcall : call ∈ calls) :
    call.client.opened = files call.path := by
  have hreads : (calls.map Call.client).map ClientPass.read = (calls.map Call.path).map some := by
    rw [List.map_map, List.map_map]
    exact List.map_congr_left fun call hcall => (h.asked call hcall).2
  have hchain : List.IsChain (fun path next => path.length ≤ next.length)
      ([] :: calls.map Call.path) := by
    have hgrowing := h.growing
    cases hpaths : calls.map Call.path with
    | nil => exact List.isChain_singleton _
    | cons path paths =>
        rw [hpaths] at hgrowing
        exact List.isChain_cons_cons.mpr ⟨Nat.zero_le _, hgrowing⟩
  have hall := h.opens.opened holds_empty (List.forall_mem_map.mpr h.sendable) hreads hchain
  rw [List.map_map, List.map_map] at hall
  exact List.map_inj_left.mp hall call hcall

theorem FilesServed.moved_short (h : FilesServed files calls) {call : Call last}
    (hcall : call ∈ calls) : call.moved.length < longMax := by
  cases hopened : call.client.opened with
  | none =>
      have hnothing : call.moved = [] := by simp only [Call.moved, serve, hopened]
      rw [hnothing]
      decide
  | some file =>
      have hle := (serve_moved hopened).length_le
      exact lt_of_le_of_lt (Int.ofNat_le.mpr hle) (h.short call hcall file hopened)

/-- With its size the first client has moved the whole file of the path. -/
theorem FilesServed.moved (h : FilesServed files calls) {call : Call last} (hcall : call ∈ calls)
    {v : ℤ} (hv : call.message = some v) : files call.path = some call.moved := by
  obtain ⟨file, hopened, hclient⟩ := serve_message hv
  have hmoved := startFirstClient_moved (h.splices call hcall file hopened)
    (congrArg Prod.snd hclient)
  rw [hclient] at hmoved
  rw [← h.opened hcall, hopened]
  exact congrArg some hmoved.symm

/-- A session in which no pass reports `POLLHUP` and every call returns 0 has
printed the files of its paths, whole and in their order, and left nothing in a
channel. -/
theorem session_prints_files (hfit : CapacitiesFit last) (hserved : FilesServed files calls)
    (hhup : ∀ call ∈ calls, ∀ e ∈ call.passes, ∀ j, e.hungUp j = false)
    (hrun : SessionHonest [] (start last) calls) {t : State last _}
    (hret : session (start last) calls = .ok t) :
    ∃ contents : List (List Byte),
      calls.map (fun call => files call.path) = contents.map some ∧
      t.traffic.toStdout = contents.flatten ∧
      ∀ i, t.traffic.fromClient i = contents.flatten ∧ (t.channels i).mSize = 0 := by
  have hstart : Settled [] (start last) := ⟨ordered_start hfit, fun _ => rfl, fun _ => rfl, rfl⟩
  obtain ⟨hsettled, hmessages⟩ :=
    session_finished hstart (fun _ hcall => hserved.moved_short hcall) hhup hrun hret
  have hcontents : calls.map (fun call => files call.path) = (calls.map Call.moved).map some := by
    rw [List.map_map]
    apply List.map_congr_left
    intro call hcall
    obtain ⟨v, hv⟩ := hmessages call hcall
    exact hserved.moved hcall hv
  rw [List.nil_append, List.flatMap_def] at hsettled
  exact ⟨_, hcontents, hsettled.printed, fun i => ⟨hsettled.given i, hsettled.empty i⟩⟩

end

/-- An empty file, and its size. -/
def passEmpty : Pass 0 := passOne ⟨⟨true, false, false⟩, ⟨false, false, false⟩⟩ (.message 0) none

/-- A file of two bytes, then an empty one. -/
def twoFiles : List (Call 0) :=
  [⟨[47], some 1, [passArrive, passQuiet], ⟨some [47], some [7, 9], [some 2, some 0], true⟩⟩,
    ⟨[48], some 1, [passEmpty, passQuiet], ⟨some [48], some [], [some 0], true⟩⟩]

/-- Where they lie. -/
def twoNames (name : List Byte) : Option (List Byte) :=
  if name = [47] then some [7, 9] else if name = [48] then some [] else none

theorem sessionHonest_twoFiles : SessionHonest [] (start 0) twoFiles := by
  refine ⟨?_, fun t _ => ⟨?_, fun _ _ => trivial⟩⟩
  · rintro ret ⟨⟩
    refine ⟨?_, ?_, fun t _ => ⟨?_, ?_, fun _ _ => trivial⟩⟩
    · constructor <;> decide
    · exact ⟨fun _ h => (by cases h; decide), fun c => c.elim0, fun _ h => (by cases h; rfl)⟩
    · constructor <;> simp [passQuiet, passOne]
    · exact ⟨fun _ h => (by cases h), fun c => c.elim0, fun _ h => (by cases h)⟩
  · rintro ret ⟨⟩
    refine ⟨?_, ?_, fun t _ => ⟨?_, ?_, fun _ _ => trivial⟩⟩
    · constructor <;> simp [passEmpty, passOne, setEvents]
    · exact ⟨fun _ h => (by cases h), fun c => c.elim0, fun _ h => (by cases h; rfl)⟩
    · constructor <;> simp [passQuiet, passOne]
    · exact ⟨fun _ h => (by cases h), fun c => c.elim0, fun _ h => (by cases h)⟩

theorem filesServed_twoFiles : FilesServed twoNames twoFiles where
  sendable := by unfold Sendable; decide
  growing := by decide
  asked := by decide
  opens := by
    rintro bytes ⟨⟩
    refine ⟨by decide +kernel, ?_⟩
    rintro bytes ⟨⟩
    exact ⟨by decide +kernel, trivial⟩
  splices := by simp [twoFiles, SplicesHonest]
  short := by simp [twoFiles, longMax]

theorem session_prints_twoFiles : ∃ t, session (start 0) twoFiles = .ok t ∧
    ∃ contents : List (List Byte),
      twoFiles.map (fun call => twoNames call.path) = contents.map some ∧
      t.traffic.toStdout = contents.flatten ∧
      ∀ i, t.traffic.fromClient i = contents.flatten ∧ (t.channels i).mSize = 0 := by
  obtain ⟨t, hret⟩ : ∃ t, session (start 0) twoFiles = .ok t := ⟨_, by with_unfolding_all rfl⟩
  exact ⟨t, hret, session_prints_files (by unfold CapacitiesFit; decide) filesServed_twoFiles
    (by decide) sessionHonest_twoFiles hret⟩

end TaskLunev.ProxySession
