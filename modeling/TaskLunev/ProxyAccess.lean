import TaskLunev.ProxyModel
import TaskLunev.RecordedRuns

/-!
# The records that `SendFile` touches

`SendFile` once more, with the indices of the channels and of the `pollfd`s it
reads and writes, statement by statement. Without the record it is the function
of the model. The masks of the first channel are set from `channels[-1]`, in
every pass, so the loop never runs without leaving the array.
-/
namespace TaskLunev.ProxyAccess
open ByteMemory ProxyModel RecordedRuns RecordedRuns.Recorded

/-- An index into `channels` or into `polls`. -/
inductive Access where
  | channel (i : ℤ)
  | pollfd (i : ℤ)
  deriving DecidableEq, Repr

/-- The record exists, with `n` channels. -/
def Access.Inside (n : ℕ) : Access → Prop
  | .channel i => 0 ≤ i ∧ i < n
  | .pollfd i => 0 ≤ i ∧ i < 2 * n

/-- The record exists or is the one in front of the channels. -/
def Access.AlmostInside (n : ℕ) : Access → Prop
  | .channel i => -1 ≤ i ∧ i < n
  | .pollfd i => 0 ≤ i ∧ i < 2 * n

section
variable {last total : ℕ} {σ : Type}

abbrev Tracked (last total : ℕ) (α : Type) := Recorded Access (Stop (State last total)) α

/-- The descriptors and events of the `polls`, for channel `i`. -/
def setupAccesses (i : ℕ) : List Access :=
  [.pollfd (2 * i), .channel i, .pollfd (2 * i),
    .pollfd (2 * i + 1), .channel i, .pollfd (2 * i + 1)]

/-- The events of channel `i` at the top of a pass. -/
def maskAccesses (i : ℕ) : List Access :=
  [.channel (i - 1), .pollfd (2 * i), .channel i, .pollfd (2 * i + 1)]

/-- A loop over all channels, then `polls[0]`. -/
def overChannels (n : ℕ) (accesses : ℕ → List Access) : List Access :=
  (List.range n).flatMap accesses ++ [.pollfd 0]

def trackedPrint (e : Pass last) (i : Fin (last + 1)) (ret : ℤ) (s : State last total) :
    Tracked last total (State last total) := do
  touch [.channel i]
  match e.stdout with
  | none => stop (.returned (-1) s)
  | some k => do
      let bytes ← lift (readAt s.totalBuffer (s.channels i).mBuf ret)
      touch [.channel i]
      pure (s.printed i (bytes.take k))

def trackedReceive (e : Pass last) (i : Fin (last + 1)) (s : State last total) :
    Tracked last total (State last total) := do
  touch [.channel i]
  match e.reads i with
  | none => stop (.returned (-1) s)
  | some offered => do
      let bytes := offered.take (sizeT (s.channels i).mCapacity)
      let totalBuffer ← lift (writeAt s.totalBuffer (s.channels i).mBuf bytes)
      touch [.channel i]
      let s := s.received i totalBuffer bytes
      if i = Fin.last last then trackedPrint e i bytes.length s else pure s

/-- Every write takes its descriptor from channel `i`. -/
def trackedDrain (i : Fin (last + 1)) (m : Memory total) (s : List Byte → σ) :
    List WriteReply → ℤ → ℤ → ℤ → Recorded Access (Stop σ) Drained
  | [], buf, size, _ =>
      if size > 0 then do
        touch [.channel i]
        stop .starved
      else pure ⟨buf, size, false, []⟩
  | reply :: rest, buf, size, len =>
      if size > 0 then do
        let len := if size < len then size else len
        touch [.channel i]
        match reply with
        | .failed => stop (.returned (-1) (s []))
        | .again => do
            touch [.channel i]
            pure ⟨buf, size, true, []⟩
        | .wrote k => do
            let chunk ← lift (readAt m buf len)
            let sent := chunk.take k
            let d ← trackedDrain i m (fun more => s (sent ++ more)) rest (buf + sent.length)
              (size - sent.length) len
            pure { d with sent := sent ++ d.sent }
      else pure ⟨buf, size, false, []⟩

def trackedForward (e : Pass last) (i : Fin (last + 1)) (s : State last total) :
    Tracked last total (State last total) := do
  touch [.channel (i - 1), .channel (i - 1)]
  match previous i with
  | none => stop .outside
  | some c => do
      let from_ := s.channels c.castSucc
      let d ← trackedDrain i s.totalBuffer (s.sent i) (e.writes i) from_.mCurPos from_.mSize 16
      touch [.channel (i - 1), .channel (i - 1)]
      pure (s.forwarded i c d)

def trackedReadTurn (e : Pass last) (i : Fin (last + 1)) (s : State last total) (numPolls : ℤ) :
    Tracked last total (State last total × ℤ) := do
  touch [.pollfd (2 * i + 1)]
  if (e.revents i).read.pollIn then do
    let s ← trackedReceive e i s
    pure (s, numPolls - 1)
  else pure (s, numPolls)

def trackedWriteTurn (e : Pass last) (i : Fin (last + 1)) (s : State last total) (numPolls : ℤ) :
    Tracked last total (State last total × ℤ) := do
  touch [.pollfd (2 * i)]
  if (e.revents i).write.pollOut then do
    let s ← trackedForward e i s
    pure (s, numPolls - 1)
  else pure (s, numPolls)

/-- One channel of the event loop. The second test for a hang-up is made only
when the first one fails. -/
def trackedHandle (e : Pass last) (i : Fin (last + 1)) (s : State last total) (numPolls : ℤ) :
    Tracked last total (State last total × ℤ) := do
  touch [.pollfd (2 * i)]
  touch (if (e.revents i).write.pollHup then [] else [.pollfd (2 * i + 1)])
  if e.hungUp i then stop (.returned 0 s)
  else do
    let (s, numPolls) ← trackedReadTurn e i s numPolls
    let left ← trackedWriteTurn e i s numPolls
    touch [.pollfd (2 * i), .pollfd (2 * i + 1)]
    pure left

theorem turn_lt {i : ℕ} {numPolls : ℤ} (h : i < last + 1 ∧ numPolls ≠ 0) : i < last + 1 := h.1

def trackedHandleFrom (e : Pass last) :
    ℕ → ℕ → State last total → ℤ → Tracked last total (State last total)
  | 0, _, s, _ => pure s
  | rest + 1, i, s, numPolls =>
      if h : i < last + 1 ∧ numPolls ≠ 0 then do
        let (s, numPolls) ← trackedHandle e ⟨i, turn_lt h⟩ s numPolls
        trackedHandleFrom e rest (i + 1) s numPolls
      else pure s

def trackedSizeTurn (e : Pass last) (s : State last total) :
    Tracked last total (State last total) := do
  touch [.pollfd 0]
  if (e.revents 0).write.pollIn then do
    touch [.pollfd 0]
    lift (readSize e s)
  else pure s

def trackedPass (s : State last total) (e : Pass last) : Tracked last total (State last total) :=
  if s.counter < s.sizeFile then do
    touch (overChannels (last + 1) maskAccesses)
    let s := { s with events := setEvents e.stray s }
    if e.numPolls = -1 ∨ e.numPolls = 0 then stop (.returned (-1) s)
    else do
      let s ← trackedSizeTurn e s
      trackedHandleFrom e (last + 1) 0 s e.numPolls
  else stop (.returned 0 s)

/-- Without an answer of `poll` the last pass still sets its events. -/
def trackedLoop : State last total → List (Pass last) → Tracked last total (State last total)
  | s, [] => do
      touch (if s.counter < s.sizeFile then overChannels (last + 1) maskAccesses else [])
      stop .starved
  | s, e :: passes => do
      let s ← trackedPass s e
      trackedLoop s passes

def trackedSendFile (verified : Bool) (path : List Byte) (written : Option ℕ)
    (s : State last total) (passes : List (Pass last)) : Tracked last total (State last total) :=
  if verified = false then stop (.returned (-1) s)
  else do
    touch [.channel 0]
    match written with
    | none => stop (.returned (-1) s)
    | some ret =>
        if ret = path.length + 1 then stop (.returned (-1) s)
        else do
          touch (overChannels (last + 1) setupAccesses)
          trackedLoop (s.asked (path.take ret)) passes

/-- A proxy in any state, with the locals that `SendFile` sets up before its
loop. -/
def State.entered (s : State last total) : State last total :=
  { s with
    events := fun _ => ⟨⟨false, false, true⟩, ⟨false, false, true⟩⟩
    counter := 0
    sizeFile := longMax }

/-! ## Without the record -/

theorem trackedPrint_result (e : Pass last) (i : Fin (last + 1)) (ret : ℤ)
    (s : State last total) : (trackedPrint e i ret s).result = printRead e i ret s := by
  unfold trackedPrint printRead
  rw [result_bind, result_touch]
  cases e.stdout with
  | none => rfl
  | some k => simp only [result_bind, result_lift, result_touch, result_pure, pure_bind]

theorem trackedReceive_result (e : Pass last) (i : Fin (last + 1)) (s : State last total) :
    (trackedReceive e i s).result = receive e i s := by
  unfold trackedReceive receive
  rw [result_bind, result_touch]
  cases e.reads i with
  | none => rfl
  | some offered =>
      simp only [result_bind, result_lift, result_touch, result_pure, result_ite, pure_bind,
        trackedPrint_result]

theorem trackedDrain_result (i : Fin (last + 1)) (m : Memory total) (s : List Byte → σ)
    (replies : List WriteReply) (buf size len : ℤ) :
    (trackedDrain i m s replies buf size len).result = drain m s replies buf size len := by
  induction replies generalizing s buf size len with
  | nil =>
      simp only [trackedDrain, drain, result_ite, result_bind, result_touch, result_stop,
        result_pure, pure_bind]
      rfl
  | cons reply rest ih =>
      simp only [trackedDrain, drain, result_ite, result_bind, result_touch, result_pure, pure_bind]
      cases reply with
      | failed => rfl
      | again => rfl
      | wrote k =>
          simp only [result_bind, result_lift, result_pure, ih]
          rfl

theorem trackedForward_result (e : Pass last) (i : Fin (last + 1)) (s : State last total) :
    (trackedForward e i s).result = forward e i s := by
  unfold trackedForward forward
  rw [result_bind, result_touch]
  cases previous i with
  | none => rfl
  | some c =>
      simp only [result_bind, result_touch, result_pure, pure_bind, trackedDrain_result]

theorem trackedReadTurn_result (e : Pass last) (i : Fin (last + 1)) (s : State last total)
    (numPolls : ℤ) : (trackedReadTurn e i s numPolls).result = readTurn e i s numPolls := by
  simp only [trackedReadTurn, readTurn, result_bind, result_touch, result_pure, result_ite,
    pure_bind, trackedReceive_result]

theorem trackedWriteTurn_result (e : Pass last) (i : Fin (last + 1)) (s : State last total)
    (numPolls : ℤ) : (trackedWriteTurn e i s numPolls).result = writeTurn e i s numPolls := by
  simp only [trackedWriteTurn, writeTurn, result_bind, result_touch, result_pure, result_ite,
    pure_bind, trackedForward_result]

theorem trackedHandle_result (e : Pass last) (i : Fin (last + 1)) (s : State last total)
    (numPolls : ℤ) : (trackedHandle e i s numPolls).result = handle e i s numPolls := by
  simp only [trackedHandle, handle, result_bind, result_touch, result_pure, result_ite,
    result_stop, pure_bind, bind_pure, trackedReadTurn_result, trackedWriteTurn_result]

theorem trackedHandleFrom_result (e : Pass last) (rest i : ℕ) (s : State last total)
    (numPolls : ℤ) :
    (trackedHandleFrom e rest i s numPolls).result = handleFrom e rest i s numPolls := by
  induction rest generalizing i s numPolls with
  | zero => rfl
  | succ rest ih =>
      unfold trackedHandleFrom handleFrom
      split_ifs with h
      · simp only [result_bind, trackedHandle_result, ih]
      · rfl

theorem trackedPass_result (s : State last total) (e : Pass last) :
    (trackedPass s e).result = onePass s e := by
  simp only [trackedPass, trackedSizeTurn, onePass, sizeTurn, result_ite, result_bind,
    result_touch, result_stop, result_pure, result_lift, pure_bind, trackedHandleFrom_result]

theorem trackedLoop_result (s : State last total) (passes : List (Pass last)) :
    (trackedLoop s passes).result = eventLoop s passes := by
  induction passes generalizing s with
  | nil => rfl
  | cons e passes ih => simp only [trackedLoop, eventLoop, result_bind, trackedPass_result, ih]

/-- Without the record the function is the one of the model. -/
theorem trackedSendFile_result (verified : Bool) (path : List Byte) (written : Option ℕ)
    (s : State last total) (passes : List (Pass last)) :
    (trackedSendFile verified path written s passes).result =
      sendFile verified path written s passes := by
  unfold trackedSendFile sendFile
  simp only [result_ite, result_bind, result_touch, result_stop, pure_bind]
  cases written with
  | none => rfl
  | some ret =>
      simp only [result_ite, result_bind, result_touch, result_stop, pure_bind, trackedLoop_result]

/-! ## The record -/

theorem almostInside_channel (i : Fin (last + 1)) :
    (Access.channel i).AlmostInside (last + 1) ∧ (Access.channel (i - 1)).AlmostInside (last + 1) := by
  have hi := i.isLt
  unfold Access.AlmostInside
  omega

theorem almostInside_pollfd (i : Fin (last + 1)) :
    (Access.pollfd (2 * i)).AlmostInside (last + 1) ∧
      (Access.pollfd (2 * i + 1)).AlmostInside (last + 1) := by
  have hi := i.isLt
  unfold Access.AlmostInside
  omega

theorem almostInside_pollfd_zero : (Access.pollfd 0).AlmostInside (last + 1) :=
  (almostInside_pollfd (0 : Fin (last + 1))).1

/-- What a loop over the channels touches, when each of its passes stays inside. -/
theorem overChannels_almost {accesses : ℕ → List Access}
    (h : ∀ i : Fin (last + 1), ∀ a ∈ accesses i, a.AlmostInside (last + 1)) :
    ∀ a ∈ overChannels (last + 1) accesses, a.AlmostInside (last + 1) := by
  intro a ha
  unfold overChannels at ha
  rw [List.mem_append, List.mem_flatMap, List.mem_singleton] at ha
  rcases ha with ⟨i, hi, ha⟩ | rfl
  · exact h ⟨i, List.mem_range.mp hi⟩ a ha
  · exact almostInside_pollfd_zero

theorem setupAccesses_almost (i : Fin (last + 1)) :
    ∀ a ∈ setupAccesses i, a.AlmostInside (last + 1) := by
  have hchannel := almostInside_channel i
  have hpollfd := almostInside_pollfd i
  simp only [setupAccesses, List.forall_mem_cons]
  exact ⟨hpollfd.1, hchannel.1, hpollfd.1, hpollfd.2, hchannel.1, hpollfd.2, List.forall_mem_nil _⟩

theorem maskAccesses_almost (i : Fin (last + 1)) :
    ∀ a ∈ maskAccesses i, a.AlmostInside (last + 1) := by
  have hchannel := almostInside_channel i
  have hpollfd := almostInside_pollfd i
  simp only [maskAccesses, List.forall_mem_cons]
  exact ⟨hchannel.2, hpollfd.1, hchannel.1, hpollfd.2, List.forall_mem_nil _⟩

/-- The events of the first channel are set from the record in front of it. -/
theorem maskAccesses_outside (last : ℕ) :
    ∃ a ∈ overChannels (last + 1) maskAccesses, ¬ a.Inside (last + 1) := by
  refine ⟨.channel (-1), ?_, fun h => absurd h.1 (by decide)⟩
  unfold overChannels
  rw [List.mem_append, List.mem_flatMap]
  exact .inl ⟨0, List.mem_range.mpr (Nat.succ_pos last), List.mem_cons_self⟩

theorem trackedReceive_almost (e : Pass last) (i : Fin (last + 1)) (s : State last total) :
    (trackedReceive e i s).All (Access.AlmostInside (last + 1)) := by
  have hchannel : ∀ a ∈ [Access.channel i], a.AlmostInside (last + 1) :=
    List.forall_mem_singleton.mpr (almostInside_channel i).1
  unfold trackedReceive
  apply All.touch hchannel
  cases e.reads i with
  | none => exact all_stop _
  | some offered =>
      apply All.bind (all_lift _)
      intro totalBuffer
      apply All.touch hchannel
      apply All.ite
      · intro _
        apply All.touch hchannel
        cases e.stdout with
        | none => exact all_stop _
        | some k =>
            apply All.bind (all_lift _)
            intro bytes
            exact All.touch hchannel (all_pure _)
      · exact fun _ => all_pure _

theorem trackedDrain_almost (i : Fin (last + 1)) (m : Memory total) (s : List Byte → σ)
    (replies : List WriteReply) (buf size len : ℤ) :
    (trackedDrain i m s replies buf size len).All (Access.AlmostInside (last + 1)) := by
  have hchannel : ∀ a ∈ [Access.channel i], a.AlmostInside (last + 1) :=
    List.forall_mem_singleton.mpr (almostInside_channel i).1
  induction replies generalizing s buf size len with
  | nil =>
      apply All.ite
      · exact fun _ => All.touch hchannel (all_stop _)
      · exact fun _ => all_pure _
  | cons reply rest ih =>
      apply All.ite
      · intro _
        apply All.touch hchannel
        cases reply with
        | failed => exact all_stop _
        | again => exact All.touch hchannel (all_pure _)
        | wrote k =>
            apply All.bind (all_lift _)
            intro chunk
            exact All.bind (ih ..) fun d => all_pure _
      · exact fun _ => all_pure _

theorem trackedForward_almost (e : Pass last) (i : Fin (last + 1)) (s : State last total) :
    (trackedForward e i s).All (Access.AlmostInside (last + 1)) := by
  have hbefore : ∀ a ∈ [Access.channel (i - 1), Access.channel (i - 1)],
      a.AlmostInside (last + 1) := by
    simp only [List.forall_mem_cons]
    exact ⟨(almostInside_channel i).2, (almostInside_channel i).2, List.forall_mem_nil _⟩
  unfold trackedForward
  apply All.touch hbefore
  cases previous i with
  | none => exact all_stop _
  | some c =>
      apply All.bind (trackedDrain_almost ..)
      intro d
      exact All.touch hbefore (all_pure _)

theorem trackedHandle_almost (e : Pass last) (i : Fin (last + 1)) (s : State last total)
    (numPolls : ℤ) : (trackedHandle e i s numPolls).All (Access.AlmostInside (last + 1)) := by
  have hwrite : ∀ a ∈ [Access.pollfd (2 * i)], a.AlmostInside (last + 1) :=
    List.forall_mem_singleton.mpr (almostInside_pollfd i).1
  have hread : ∀ a ∈ [Access.pollfd (2 * i + 1)], a.AlmostInside (last + 1) :=
    List.forall_mem_singleton.mpr (almostInside_pollfd i).2
  unfold trackedHandle trackedReadTurn trackedWriteTurn
  apply All.touch hwrite
  apply All.touch
  · split_ifs
    · exact List.forall_mem_nil _
    · exact hread
  apply All.ite
  · exact fun _ => all_stop _
  · intro _
    apply All.bind
    · apply All.touch hread
      apply All.ite
      · exact fun _ => All.bind (trackedReceive_almost ..) fun _ => all_pure _
      · exact fun _ => all_pure _
    intro r
    apply All.bind
    · apply All.touch hwrite
      apply All.ite
      · exact fun _ => All.bind (trackedForward_almost ..) fun _ => all_pure _
      · exact fun _ => all_pure _
    intro r
    exact All.touch (List.forall_mem_cons.mpr ⟨(almostInside_pollfd i).1, hread⟩) (all_pure _)

theorem trackedHandleFrom_almost (e : Pass last) (rest i : ℕ) (s : State last total)
    (numPolls : ℤ) :
    (trackedHandleFrom e rest i s numPolls).All (Access.AlmostInside (last + 1)) := by
  induction rest generalizing i s numPolls with
  | zero => exact all_pure _
  | succ rest ih =>
      unfold trackedHandleFrom
      split_ifs with h
      · exact All.bind (trackedHandle_almost ..) fun r => ih ..
      · exact all_pure _

theorem trackedPass_almost (s : State last total) (e : Pass last) :
    (trackedPass s e).All (Access.AlmostInside (last + 1)) := by
  have hzero : ∀ a ∈ [Access.pollfd 0], a.AlmostInside (last + 1) :=
    List.forall_mem_singleton.mpr almostInside_pollfd_zero
  unfold trackedPass trackedSizeTurn
  apply All.ite
  · intro _
    apply All.touch (overChannels_almost maskAccesses_almost)
    apply All.ite
    · exact fun _ => all_stop _
    · intro _
      apply All.bind
      · apply All.touch hzero
        apply All.ite
        · exact fun _ => All.touch hzero (all_lift _)
        · exact fun _ => all_pure _
      exact fun s => trackedHandleFrom_almost ..
  · exact fun _ => all_stop _

theorem trackedLoop_almost (s : State last total) (passes : List (Pass last)) :
    (trackedLoop s passes).All (Access.AlmostInside (last + 1)) := by
  induction passes generalizing s with
  | nil =>
      apply All.touch
      · split_ifs
        · exact overChannels_almost maskAccesses_almost
        · exact List.forall_mem_nil _
      · exact all_stop _
  | cons e passes ih => exact All.bind (trackedPass_almost s e) fun t => ih t

/-- Whatever the loop is given, its first pass leaves the array. -/
theorem trackedLoop_outside {s : State last total} (h : s.counter < s.sizeFile)
    (passes : List (Pass last)) : ¬ (trackedLoop s passes).All (Access.Inside (last + 1)) := by
  obtain ⟨a, ha, hout⟩ := maskAccesses_outside last
  intro hall
  cases passes with
  | nil =>
      unfold trackedLoop at hall
      rw [if_pos h] at hall
      exact hout ((all_touch_bind.mp hall).1 a ha)
  | cons e passes =>
      have hpass := All.of_bind hall
      unfold trackedPass at hpass
      rw [if_pos h] at hpass
      exact hout ((all_touch_bind.mp hpass).1 a ha)

theorem trackedSendFile_almost (verified : Bool) (path : List Byte) (written : Option ℕ)
    (s : State last total) (passes : List (Pass last)) :
    (trackedSendFile verified path written s passes).All (Access.AlmostInside (last + 1)) := by
  have hfirst : ∀ a ∈ [Access.channel 0], a.AlmostInside (last + 1) :=
    List.forall_mem_singleton.mpr (almostInside_channel (0 : Fin (last + 1))).1
  unfold trackedSendFile
  apply All.ite
  · exact fun _ => all_stop _
  · intro _
    apply All.touch hfirst
    cases written with
    | none => exact all_stop _
    | some ret =>
        apply All.ite
        · exact fun _ => all_stop _
        · exact fun _ => All.touch (overChannels_almost setupAccesses_almost)
            (trackedLoop_almost ..)

/-- The call gets to its loop. -/
def Enters (verified : Bool) (path : List Byte) (written : Option ℕ) : Prop :=
  verified = true ∧ ∃ ret, written = some ret ∧ ret ≠ path.length + 1

theorem trackedSendFile_inside_iff (verified : Bool) (path : List Byte) (written : Option ℕ)
    (s : State last total) (passes : List (Pass last)) :
    (trackedSendFile verified path written (State.entered s) passes).All
      (Access.Inside (last + 1)) ↔ ¬ Enters verified path written := by
  have hfirst : ∀ a ∈ [Access.channel 0], a.Inside (last + 1) :=
    List.forall_mem_singleton.mpr ⟨le_rfl, Int.natCast_pos.mpr (Nat.succ_pos last)⟩
  unfold trackedSendFile Enters
  cases verified with
  | false => exact iff_of_true (all_stop _) fun h => absurd h.1 (by decide)
  | true =>
      rw [if_neg (by decide), all_touch_bind]
      cases written with
      | none => exact iff_of_true ⟨hfirst, all_stop _⟩ fun ⟨_, _, h, _⟩ => nomatch h
      | some ret =>
          simp only [Option.some.injEq, exists_eq_left', true_and, not_not]
          by_cases hret : ret = path.length + 1
          · rw [if_pos hret]
            exact iff_of_true ⟨hfirst, all_stop _⟩ hret
          · rw [if_neg hret]
            refine iff_of_false (fun h => ?_) hret
            exact trackedLoop_outside (show (0 : ℤ) < longMax by decide) passes
              (all_touch_bind.mp h.2).2

/-- In every run of `SendFile` on a proxy in any state, every `pollfd` exists and
every channel does or is the one in front of the first. All exist exactly when
the call returns before its loop. -/
theorem sendFile_inside_iff (verified : Bool) (path : List Byte) (written : Option ℕ)
    (s : State last total) (passes : List (Pass last)) :
    (∀ a ∈ (trackedSendFile verified path written (State.entered s) passes).log,
      a.AlmostInside (last + 1)) ∧
    ((∀ a ∈ (trackedSendFile verified path written (State.entered s) passes).log,
      a.Inside (last + 1)) ↔ ¬ Enters verified path written) := by
  refine ⟨(trackedSendFile_almost ..).forall_log, ?_⟩
  rw [← trackedSendFile_inside_iff verified path written s passes]
  exact ⟨fun h => ⟨h⟩, fun h => h.forall_log⟩

end

/-- One channel, a path of one byte and no answer of `poll`: the first pass reads
`channels[-1]`. -/
theorem sendFile_reads_before : Access.channel (-1) ∈
    (trackedSendFile true [0x61] (some 1) (State.entered (start 0)) []).log ∧
    ¬ (Access.channel (-1)).Inside 1 := by
  refine ⟨?_, fun h => absurd h.1 (by decide)⟩
  decide +kernel

end TaskLunev.ProxyAccess
