import TaskLunev.ProxyModel
import TaskLunev.ExceptRules

/-!
# What one turn of the event loop can do

The computations of the proxy are read as relations between the state before
and the state after, once, with everything they check. The events of a pass are
asked for at its top, where a channel is read into only when it is empty. A
channel is drained by the turn of the client behind it, so nothing changes it
between the top of the pass and its own turn, and a read always lands in an
empty channel.

None of this needs the buffers to lie where they should. Where they do is the
condition `Safe` below, under which no byte outside the block is touched.
-/
namespace TaskLunev.ProxyTurns
open ByteMemory ProxyModel ExceptRules

section
variable {last total : ℕ}

/-- What `receive` does at channel `i`. -/
def Received (e : Pass last) (i : Fin (last + 1)) (s t : State last total) : Prop :=
  ∃ offered bytes m', e.reads i = some offered ∧
    bytes = offered.take (sizeT (s.channels i).mCapacity) ∧
    writeBytes s.totalBuffer (s.channels i).mBuf.toNat bytes = some m' ∧
    if i = Fin.last last then ∃ k, t = (s.received i m' bytes).printed i (bytes.take k)
    else t = s.received i m' bytes

/-- The same for `forward`: a first part of the bytes went out, the rest stayed
where it was. -/
def Forwarded (i : Fin (last + 1)) (s t : State last total) : Prop :=
  ∃ c d, i = c.succ ∧ t = s.forwarded i c d ∧
    d.sent ++ slice s.totalBuffer d.buf.toNat d.size.toNat =
      slice s.totalBuffer (s.channels c.castSucc).mCurPos.toNat
        (s.channels c.castSucc).mSize.toNat ∧
    (s.channels c.castSucc).mCurPos ≤ d.buf ∧ 0 ≤ d.size ∧
    d.buf + d.size = (s.channels c.castSucc).mCurPos + (s.channels c.castSucc).mSize

/-- A whole turn. -/
def Turn (e : Pass last) (i : Fin (last + 1)) (s t : State last total) : Prop :=
  ∃ mid, (if (e.revents i).read.pollIn then Received e i s mid else mid = s) ∧
    if (e.revents i).write.pollOut then Forwarded i mid t else t = mid

/-- The ways a pass may end early: an error return, a `return 0` in a state
with `Done`, no answer left, and a byte outside the block unless all is `Safe`. -/
def Stops {σ : Type} (Safe : Prop) (Done : σ → Prop) : Stop σ → Prop
  | .returned code s => code = -1 ∨ (code = 0 ∧ Done s)
  | .outside => ¬ Safe
  | .starved => True

/-- Every access the loop makes next lies in the block. -/
structure Bounded (s : State last total) : Prop where
  buf_nonneg : ∀ i, 0 ≤ (s.channels i).mBuf
  capacity_nonneg : ∀ i, 0 ≤ (s.channels i).mCapacity
  read_inside : ∀ i, (s.channels i).mBuf + (s.channels i).mCapacity ≤ total
  pos_nonneg : ∀ c : Fin last, 0 ≤ (s.channels c.castSucc).mCurPos
  write_inside : ∀ c : Fin last,
    (s.channels c.castSucc).mCurPos + (s.channels c.castSucc).mSize ≤ total

/-- From channel `k` on the two states agree. -/
structure SameFrom (k : ℕ) (s t : State last total) : Prop where
  channels : ∀ j : Fin (last + 1), k ≤ j → t.channels j = s.channels j
  fromClient : ∀ j : Fin (last + 1), k ≤ j → t.traffic.fromClient j = s.traffic.fromClient j
  toClient : ∀ j : Fin (last + 1), k ≤ j → t.traffic.toClient j = s.traffic.toClient j

theorem SameFrom.refl (k : ℕ) (s : State last total) : SameFrom k s s :=
  ⟨fun _ _ => rfl, fun _ _ => rfl, fun _ _ => rfl⟩

theorem SameFrom.trans {k l : ℕ} {s t u : State last total} (h : SameFrom k s t)
    (h' : SameFrom l t u) (hkl : k ≤ l) : SameFrom l s u where
  channels j hj := (h'.channels j hj).trans (h.channels j (hkl.trans hj))
  fromClient j hj := (h'.fromClient j hj).trans (h.fromClient j (hkl.trans hj))
  toClient j hj := (h'.toClient j hj).trans (h.toClient j (hkl.trans hj))

@[simp] theorem previous_succ (c : Fin last) : previous c.succ = some c := by
  simp [previous]

theorem sizeT_le {x : ℤ} (h : 0 ≤ x) : sizeT x ≤ x := by
  unfold sizeT
  omega

/-! ## The steps and what they leave alone -/

theorem SameFrom.received (s : State last total) (i : Fin (last + 1)) (m' : Memory total)
    (bytes : List Byte) : SameFrom (i + 1) s (s.received i m' bytes) := by
  have hne : ∀ j : Fin (last + 1), (i : ℕ) + 1 ≤ j → j ≠ i := fun j hj he => by subst he; omega
  constructor <;> intro j hj
  · exact Function.update_of_ne (hne j hj) ..
  · exact Function.update_of_ne (hne j hj) ..
  · rfl

theorem SameFrom.printed (s : State last total) (i : Fin (last + 1)) (bytes : List Byte) :
    SameFrom (i + 1) s (s.printed i bytes) := by
  constructor <;> intro j hj
  · exact Function.update_of_ne (fun he => by subst he; omega) ..
  · rfl
  · rfl

theorem SameFrom.forwarded (s : State last total) (c : Fin last) (d : Drained) :
    SameFrom (c.succ + 1) s (s.forwarded c.succ c d) := by
  have hne : ∀ j : Fin (last + 1), (c.succ : ℕ) + 1 ≤ j → j ≠ c.succ ∧ j ≠ c.castSucc := by
    intro j hj
    constructor <;> rintro rfl <;> simp at hj
  constructor <;> intro j hj
  · exact (Function.update_of_ne (hne j hj).1 ..).trans (Function.update_of_ne (hne j hj).2 ..)
  · rfl
  · exact Function.update_of_ne (hne j hj).1 ..

/-- The channels after `forward`, apart from the mark of a full pipe. -/
theorem forwarded_channels (s : State last total) (c : Fin last) (d : Drained)
    (j : Fin (last + 1)) :
    (s.forwarded c.succ c d).channels j =
      { Function.update s.channels c.castSucc { s.channels c.castSucc with
          mSize := d.size
          mCurPos := if d.size = 0 then (s.channels c.castSucc).mBuf else d.buf } j with
        mFull := ((s.forwarded c.succ c d).channels j).mFull } := by
  unfold State.forwarded
  by_cases hj : j = c.succ
  · subst hj
    simp only [Function.update_self]
  · simp only [Function.update_of_ne hj]

variable {s t : State last total} {e : Pass last} {i : Fin (last + 1)}

theorem Received.sameFrom (h : Received e i s t) : SameFrom (i + 1) s t := by
  obtain ⟨offered, bytes, m', -, -, -, hend⟩ := h
  split_ifs at hend
  · obtain ⟨k, rfl⟩ := hend
    exact (SameFrom.received s i m' bytes).trans (.printed ..) (le_refl _)
  · exact hend ▸ .received s i m' bytes

/-- The other channels keep their place and their bytes. -/
theorem Received.channels_ne (h : Received e i s t) {j : Fin (last + 1)} (hj : j ≠ i) :
    t.channels j = s.channels j := by
  obtain ⟨offered, bytes, m', -, -, -, hend⟩ := h
  have hrec : (s.received i m' bytes).channels j = s.channels j := Function.update_of_ne hj ..
  split_ifs at hend
  · obtain ⟨k, rfl⟩ := hend
    exact (Function.update_of_ne hj ..).trans hrec
  · exact hend ▸ hrec

theorem Received.size_nonneg (h : Received e i s t) : 0 ≤ (t.channels i).mSize := by
  obtain ⟨offered, bytes, m', -, -, -, hend⟩ := h
  have hrec : ((s.received i m' bytes).channels i).mSize = bytes.length := by
    simp [State.received]
  split_ifs at hend
  · obtain ⟨k, rfl⟩ := hend
    have hlen := List.length_take_le' k bytes
    have hpri : (((s.received i m' bytes).printed i (bytes.take k)).channels i).mSize =
        ((s.received i m' bytes).channels i).mSize - (bytes.take k).length := by
      simp [State.printed]
    omega
  · subst hend
    omega

theorem Forwarded.sameFrom (h : Forwarded i s t) : SameFrom (i + 1) s t := by
  obtain ⟨c, d, rfl, rfl, -⟩ := h
  exact .forwarded s c d

/-- The events still to come find their channels as the top of the pass did. -/
structure Ready (e : Pass last) (k : ℕ) (s : State last total) : Prop where
  size_nonneg : ∀ j, 0 ≤ (s.channels j).mSize
  empty : ∀ j : Fin (last + 1), k ≤ j → (e.revents j).read.pollIn → (s.channels j).mSize = 0

theorem Received.size_all_nonneg (h : Received e i s t) (hs : ∀ j, 0 ≤ (s.channels j).mSize)
    (j : Fin (last + 1)) : 0 ≤ (t.channels j).mSize := by
  by_cases hj : j = i
  · exact hj ▸ h.size_nonneg
  · rw [h.channels_ne hj]
    exact hs j

theorem Forwarded.size_all_nonneg (h : Forwarded i s t) (hs : ∀ j, 0 ≤ (s.channels j).mSize)
    (j : Fin (last + 1)) : 0 ≤ (t.channels j).mSize := by
  obtain ⟨c, d, rfl, rfl, -, -, hnonneg, -⟩ := h
  rw [forwarded_channels]
  by_cases hj : j = c.castSucc
  · subst hj
    simpa only [Function.update_self] using hnonneg
  · simpa only [Function.update_of_ne hj] using hs j

theorem Ready.turn (h : Ready e i s) (ht : Turn e i s t) : Ready e (i + 1) t := by
  obtain ⟨mid, hread, hwrite⟩ := ht
  have hmid : SameFrom (i + 1) s mid ∧ ∀ j, 0 ≤ (mid.channels j).mSize := by
    split_ifs at hread
    · exact ⟨hread.sameFrom, hread.size_all_nonneg h.size_nonneg⟩
    · subst hread
      exact ⟨.refl .., h.size_nonneg⟩
  have hlast : SameFrom (i + 1) mid t ∧ ∀ j, 0 ≤ (t.channels j).mSize := by
    split_ifs at hwrite
    · exact ⟨hwrite.sameFrom, hwrite.size_all_nonneg hmid.2⟩
    · subst hwrite
      exact ⟨.refl .., hmid.2⟩
  refine ⟨hlast.2, fun j hj hin => ?_⟩
  rw [(hmid.1.trans hlast.1 (le_refl _)).channels j hj]
  exact h.empty j (by omega) hin

/-! ## The computations take these steps -/

section
variable {σ α : Type} {Safe : Prop} {Done : σ → Prop}

theorem orOutside_spec {x : Option α} {P : α → Prop} (hP : ∀ a, x = some a → P a)
    (hsafe : Safe → x ≠ none) : Ends (Stops Safe Done) P (orOutside x) := by
  cases x with
  | none => exact fun hs => hsafe hs rfl
  | some a => exact hP a rfl

theorem readAt_spec (m : Memory total) {pos count : ℤ}
    (hsafe : Safe → 0 ≤ pos ∧ 0 ≤ count ∧ pos + count ≤ total) :
    Ends (Stops Safe Done) (fun bytes => 0 ≤ pos ∧ bytes = slice m pos.toNat count.toNat)
      (readAt m pos count) := by
  apply orOutside_spec
  · intro bytes hb
    obtain ⟨off, hoff, hread⟩ := Option.bind_eq_some_iff.mp hb
    obtain rfl : pos = off := Int.mem_toNat?.mp hoff
    unfold readBytes at hread
    split_ifs at hread
    cases hread
    exact ⟨Int.natCast_nonneg off, rfl⟩
  · intro hs
    obtain ⟨hpos, hcount, hle⟩ := hsafe hs
    have hr : readBytes m pos.toNat count.toNat = some _ := if_pos (by omega)
    rw [Int.mem_toNat?.mpr (Int.toNat_of_nonneg hpos).symm, Option.bind_some, hr]
    exact Option.some_ne_none _

theorem writeAt_spec (m : Memory total) {pos : ℤ} {bytes : List Byte}
    (hsafe : Safe → 0 ≤ pos ∧ pos + bytes.length ≤ total) :
    Ends (Stops Safe Done) (fun m' => writeBytes m pos.toNat bytes = some m')
      (writeAt m pos bytes) := by
  apply orOutside_spec
  · intro m' hm
    obtain ⟨off, hoff, hwrite⟩ := Option.bind_eq_some_iff.mp hm
    obtain rfl : pos = off := Int.mem_toNat?.mp hoff
    exact hwrite
  · intro hs
    obtain ⟨hpos, hle⟩ := hsafe hs
    have hw : writeBytes m pos.toNat bytes = some _ := if_pos (by omega)
    rw [Int.mem_toNat?.mpr (Int.toNat_of_nonneg hpos).symm, Option.bind_some, hw]
    exact Option.some_ne_none _

/-- Draining sends a first part of the bytes and keeps the rest in place. -/
theorem drain_spec (m : Memory total) (s : List Byte → σ) (replies : List WriteReply) {buf size len : ℤ}
    (hsize : 0 ≤ size) (hlen : 0 ≤ len) (hsafe : Safe → 0 ≤ buf ∧ buf + size ≤ total) :
    Ends (Stops Safe Done)
      (fun d => d.sent ++ slice m d.buf.toNat d.size.toNat = slice m buf.toNat size.toNat ∧
        buf ≤ d.buf ∧ 0 ≤ d.size ∧ d.buf + d.size = buf + size)
      (drain m s replies buf size len) := by
  induction replies generalizing s buf size len with
  | nil =>
      unfold drain
      exact Ends.ite (fun _ => trivial) fun _ => ⟨rfl, le_refl _, hsize, rfl⟩
  | cons reply rest ih =>
      unfold drain
      refine Ends.ite (fun _ => ?_) fun _ => ⟨rfl, le_refl _, hsize, rfl⟩
      obtain ⟨part, hpart, hpart_le⟩ : ∃ part : ℕ, (if size < len then size else len) = part ∧
          part ≤ size.toNat := by
        split_ifs
        · exact ⟨size.toNat, by omega, le_refl _⟩
        · exact ⟨len.toNat, by omega, by omega⟩
      simp only [hpart]
      cases reply with
      | failed => exact .inl rfl
      | again => exact ⟨rfl, le_refl _, hsize, rfl⟩
      | wrote k =>
          apply Ends.bind (readAt_spec m fun hs => by have := hsafe hs; omega)
          rintro chunk ⟨hbuf, rfl⟩
          have hsplit := take_slice_append m buf.toNat k hpart_le
          have hq : min k part ≤ size.toNat := (min_le_right ..).trans hpart_le
          simp only [Int.toNat_natCast, List.length_take, slice_length]
          generalize min k part = q at hsplit hq ⊢
          apply Ends.bind (ih _ (by omega) (Int.natCast_nonneg part)
            fun hs => by have := hsafe hs; omega)
          rintro d ⟨hsent, hge, hnonneg, hend⟩
          refine ⟨?_, show buf ≤ d.buf by omega, hnonneg,
            show d.buf + d.size = buf + size by omega⟩
          change ((slice m buf.toNat part).take k ++ d.sent) ++ _ = _
          rw [List.append_assoc, hsent, ← hsplit]
          congr 2 <;> omega

end

variable {Safe : Prop} {Done : State last total → Prop}

theorem receive_spec (hsafe : Safe → Bounded s) :
    Ends (Stops Safe Done) (Received e i s) (receive e i s) := by
  unfold receive
  cases hread : e.reads i with
  | none => exact .inl rfl
  | some offered =>
      have hlen := List.length_take_le (sizeT (s.channels i).mCapacity) offered
      simp only
      generalize hbytes : offered.take (sizeT (s.channels i).mCapacity) = bytes at hlen
      have hin : Safe → 0 ≤ (s.channels i).mBuf ∧
          (s.channels i).mBuf + bytes.length ≤ total := by
        intro hs
        have hb := hsafe hs
        have := sizeT_le (hb.capacity_nonneg i)
        have := hb.read_inside i
        exact ⟨hb.buf_nonneg i, by omega⟩
      apply Ends.bind (writeAt_spec _ hin)
      intro m' hw
      have hch : ((s.received i m' bytes).channels i).mBuf = (s.channels i).mBuf := by
        simp [State.received]
      refine Ends.ite (fun hlast => ?_) fun hlast => ?_
      · unfold printRead
        cases e.stdout with
        | none => exact .inl rfl
        | some k =>
            apply Ends.bind (readAt_spec _ fun hs => by
              rw [hch]
              exact ⟨(hin hs).1, Int.natCast_nonneg _, (hin hs).2⟩)
            rintro out ⟨-, rfl⟩
            refine ⟨offered, bytes, m', hread, hbytes.symm, hw, ?_⟩
            have hout : slice (s.received i m' bytes).totalBuffer (s.channels i).mBuf.toNat
                bytes.length = bytes := slice_writeBytes_self hw
            rw [if_pos hlast, hch, Int.toNat_natCast, hout]
            exact ⟨k, rfl⟩
      · exact ⟨offered, bytes, m', hread, hbytes.symm, hw, by rw [if_neg hlast]⟩

theorem forward_spec (hi : i ≠ 0) (hsize : ∀ j, 0 ≤ (s.channels j).mSize)
    (hsafe : Safe → ∀ c : Fin last, i = c.succ → 0 ≤ (s.channels c.castSucc).mCurPos ∧
      (s.channels c.castSucc).mCurPos + (s.channels c.castSucc).mSize ≤ total) :
    Ends (Stops Safe Done) (Forwarded i s) (forward e i s) := by
  obtain ⟨c, rfl⟩ := Fin.exists_succ_eq.mpr hi
  unfold forward
  rw [previous_succ]
  apply Ends.bind (drain_spec _ _ _ (hsize _) (by decide) fun hs => hsafe hs c rfl)
  rintro d ⟨hsent, hbufs, hnonneg, hend⟩
  exact ⟨c, d, rfl, rfl, hsent, hbufs, hnonneg, hend⟩

theorem readTurn_spec (hsafe : Safe → Bounded s) (numPolls : ℤ) :
    Ends (Stops Safe Done)
      (fun p => if (e.revents i).read.pollIn then Received e i s p.1 else p.1 = s)
      (readTurn e i s numPolls) := by
  unfold readTurn
  split_ifs with hin
  · exact Ends.bind (receive_spec hsafe) fun mid hmid => hmid
  · exact rfl

/-- A turn of the loop at channel `i`, where `POLLHUP` ends the call. -/
theorem handle_spec (h : Ready e i s) (hsafe : Safe → Bounded s)
    (hout : (e.revents i).write.pollOut → i ≠ 0) (hdone : e.hungUp i → Done s) (numPolls : ℤ) :
    Ends (Stops Safe Done) (fun p => Turn e i s p.1) (handle e i s numPolls) := by
  unfold handle
  refine Ends.ite (fun hhup => .inr ⟨rfl, hdone hhup⟩) fun _ => ?_
  apply Ends.bind (readTurn_spec hsafe numPolls)
  rintro ⟨mid, n⟩ hmid
  have hkeep : (∀ j, 0 ≤ (mid.channels j).mSize) ∧
      ∀ j, j ≠ i → mid.channels j = s.channels j := by
    split_ifs at hmid
    · exact ⟨hmid.size_all_nonneg h.size_nonneg, fun j => hmid.channels_ne⟩
    · obtain rfl : mid = s := hmid
      exact ⟨h.size_nonneg, fun _ _ => rfl⟩
  unfold writeTurn
  split_ifs with ho
  · have hin : Safe → ∀ c : Fin last, i = c.succ → 0 ≤ (mid.channels c.castSucc).mCurPos ∧
        (mid.channels c.castSucc).mCurPos + (mid.channels c.castSucc).mSize ≤ total := by
      rintro hs c rfl
      rw [hkeep.2 _ (Fin.castSucc_lt_succ ..).ne]
      exact ⟨(hsafe hs).pos_nonneg c, (hsafe hs).write_inside c⟩
    apply Ends.bind (forward_spec (hout ho) hkeep.1 hin)
    intro t ht
    exact ⟨mid, hmid, by rwa [if_pos ho]⟩
  · exact ⟨mid, hmid, by rw [if_neg ho]⟩

/-- The loop over the channels, with any further fact `J` that the turns carry
from channel to channel. -/
theorem handleFrom_spec {J : ℕ → State last total → Prop}
    (hJ : ∀ (j : Fin (last + 1)) u v, Ready e j u → J j u → Turn e j u v → J (j + 1) v)
    (hsafe : ∀ k u, J k u → Safe → Bounded u)
    (hout : ∀ j, (e.revents j).write.pollOut → j ≠ 0)
    (hdone : ∀ j u, e.hungUp j → Done u) (rest k : ℕ) (numPolls : ℤ) (h : Ready e k s)
    (hs : J k s) :
    Ends (Stops Safe Done) (fun t => (∀ j, 0 ≤ (t.channels j).mSize) ∧ ∃ l, J l t)
      (handleFrom e rest k s numPolls) := by
  induction rest generalizing k s numPolls with
  | zero => exact ⟨h.size_nonneg, k, hs⟩
  | succ rest ih =>
      unfold handleFrom
      split_ifs with hk
      · apply Ends.bind (handle_spec (i := ⟨k, hk.1⟩) h (hsafe k s hs) (hout _) (hdone _ _)
          numPolls)
        rintro ⟨t, n⟩ ht
        exact ih (k + 1) n (h.turn ht) (hJ _ _ _ h hs ht)
      · exact ⟨h.size_nonneg, k, hs⟩

/-! ## A pass -/

/-- What `poll` may report: events that were asked for or `POLLHUP`, and never
that the read end of the size pipe can be written. -/
structure PollHonest (e : Pass last) (s : State last total) : Prop where
  readIn : ∀ i, (e.revents i).read.pollIn → (setEvents e.stray s i).read.pollIn
  readOut : ∀ i, (e.revents i).read.pollOut → (setEvents e.stray s i).read.pollOut
  writeIn : ∀ i, (e.revents i).write.pollIn → (setEvents e.stray s i).write.pollIn
  writeOut : ∀ i, (e.revents i).write.pollOut → (setEvents e.stray s i).write.pollOut
  sizePipe : (e.revents 0).write.pollOut = false

theorem PollHonest.empty (h : PollHonest e s) (hin : (e.revents i).read.pollIn) :
    (s.channels i).mSize = 0 := of_decide_eq_true (h.readIn i hin)

theorem PollHonest.not_first (h : PollHonest e s) (hout : (e.revents i).write.pollOut) :
    i ≠ 0 := by
  rintro rfl
  exact absurd hout (by rw [h.sizePipe]; decide)

/-- The state in which a pass starts on its channels: the events are set and a
size message may have come in. -/
def Opened (e : Pass last) (s t : State last total) : Prop :=
  let s' := { s with events := setEvents e.stray s }
  t = s' ∨ ∃ size, e.sizeRead = .message size ∧ t = s'.announced size

theorem Opened.ready (hs : ∀ j, 0 ≤ (s.channels j).mSize) (hp : PollHonest e s)
    (ho : Opened e s t) : Ready e 0 t := by
  rcases ho with rfl | ⟨size, -, rfl⟩
  · exact ⟨hs, fun j _ hin => hp.empty hin⟩
  · exact ⟨hs, fun j _ hin => hp.empty hin⟩

theorem pass_spec {J : ℕ → State last total → Prop} (hs : ∀ j, 0 ≤ (s.channels j).mSize)
    (hp : PollHonest e s) (hopen : ∀ u, Opened e s u → J 0 u)
    (hJ : ∀ (j : Fin (last + 1)) u v, Ready e j u → J j u → Turn e j u v → J (j + 1) v)
    (hsafe : ∀ k u, J k u → Safe → Bounded u)
    (hdone : ∀ j u, e.hungUp j → Done u) (hloop : s.sizeFile ≤ s.counter → Done s) :
    Ends (Stops Safe Done) (fun t => (∀ j, 0 ≤ (t.channels j).mSize) ∧ ∃ l, J l t)
      (onePass s e) := by
  unfold onePass
  refine Ends.ite (fun _ => ?_) fun hend => .inr ⟨rfl, hloop (by omega)⟩
  refine Ends.ite (fun _ => .inl rfl) fun _ => ?_
  apply Ends.bind (P := Opened e s)
  · unfold sizeTurn readSize
    split_ifs
    · cases hsize : e.sizeRead with
      | message size => exact .inr ⟨size, hsize, rfl⟩
      | ended => exact .inl rfl
      | failed => exact .inl rfl
    · exact .inl rfl
  · intro u hu
    exact handleFrom_spec hJ hsafe (fun j => hp.not_first) hdone _ 0 _ (hu.ready hs hp)
      (hopen u hu)

end

end TaskLunev.ProxyTurns
