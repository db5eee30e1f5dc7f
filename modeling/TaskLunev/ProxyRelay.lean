import TaskLunev.ProxyTurns
import TaskLunev.FifoLedger
import TaskLunev.TransitionRuns
import Mathlib.Algebra.Order.BigOperators.Group.Finset
import Mathlib.Tactic.Positivity

/-!
# What the proxy passes on

Link `c` of a proxy carries bytes from client `c` to client `c + 1` through the
buffer of channel `c`. When the buffers lie apart from each other, every turn
of the event loop keeps the books of every link.
-/
namespace TaskLunev.ProxyRelay
open ByteMemory ProxyModel ProxyTurns ExceptRules FifoLedger TransitionRuns

section
variable {last total : ℕ}

/-- The buffers lie in the block and apart from each other. -/
structure Layout (channels : Fin (last + 1) → ProxyChannel) (total : ℕ) : Prop where
  buf_nonneg : ∀ i, 0 ≤ (channels i).mBuf
  capacity_nonneg : ∀ i, 0 ≤ (channels i).mCapacity
  inside : ∀ i, (channels i).mBuf + (channels i).mCapacity ≤ total
  apart : ∀ i j, i ≠ j → (channels i).mBuf + (channels i).mCapacity ≤ (channels j).mBuf ∨
    (channels j).mBuf + (channels j).mCapacity ≤ (channels i).mBuf

/-- The `mSize` bytes at `mCurPos` are what the ledger has still in store, and
they lie in the channel's own buffer. -/
structure Held (m : Memory total) (ch : ProxyChannel) (l : Ledger Byte) : Prop where
  balanced : l.Balanced (slice m ch.mCurPos.toNat ch.mSize.toNat)
  size_nonneg : 0 ≤ ch.mSize
  pos_ge : ch.mBuf ≤ ch.mCurPos
  pos_le : ch.mCurPos + ch.mSize ≤ ch.mBuf + ch.mCapacity
  rewound : ch.mSize = 0 → ch.mCurPos = ch.mBuf

/-- What client `c` gave and what client `c + 1` got. -/
def link (s : State last total) (c : Fin last) : Ledger Byte :=
  ⟨s.traffic.fromClient c.castSucc, s.traffic.toClient c.succ⟩

structure Relayed (s : State last total) : Prop where
  layout : Layout s.channels total
  held : ∀ c : Fin last, Held s.totalBuffer (s.channels c.castSucc) (link s c)

theorem Layout.update {channels : Fin (last + 1) → ProxyChannel} (h : Layout channels total)
    (i : Fin (last + 1)) {ch : ProxyChannel} (hb : ch.mBuf = (channels i).mBuf)
    (hc : ch.mCapacity = (channels i).mCapacity) :
    Layout (Function.update channels i ch) total := by
  have hbuf : ∀ j, (Function.update channels i ch j).mBuf = (channels j).mBuf := by
    intro j
    rw [Function.update_apply]
    split_ifs with hj
    · rw [hb, hj]
    · rfl
  have hcap : ∀ j, (Function.update channels i ch j).mCapacity = (channels j).mCapacity := by
    intro j
    rw [Function.update_apply]
    split_ifs with hj
    · rw [hc, hj]
    · rfl
  constructor <;> simp only [hbuf, hcap]
  · exact h.buf_nonneg
  · exact h.capacity_nonneg
  · exact h.inside
  · exact h.apart

theorem Held.of_eq {m m' : Memory total} {ch ch' : ProxyChannel} {l : Ledger Byte}
    (h : Held m ch l) (hch : ch' = { ch with mFull := ch'.mFull })
    (hm : slice m' ch.mCurPos.toNat ch.mSize.toNat = slice m ch.mCurPos.toNat ch.mSize.toNat) :
    Held m' ch' l := by
  rw [hch]
  exact ⟨hm ▸ h.balanced, h.size_nonneg, h.pos_ge, h.pos_le, h.rewound⟩

/-! ## The steps of a pass -/

/-- A read into an empty channel. -/
theorem Relayed.received {s : State last total} (h : Relayed s) {i : Fin (last + 1)}
    (hempty : (s.channels i).mSize = 0) {m' : Memory total} {bytes : List Byte}
    (hlen : bytes.length ≤ (s.channels i).mCapacity)
    (hw : writeBytes s.totalBuffer (s.channels i).mBuf.toNat bytes = some m') :
    Relayed (s.received i m' bytes) := by
  refine ⟨h.layout.update i rfl rfl, fun c => ?_⟩
  have hc := h.held c
  by_cases hi : c.castSucc = i
  · subst hi
    have hstart := hc.rewound hempty
    have hbal := hc.balanced.produce bytes
    rw [hempty, Int.toNat_zero, slice_zero, List.nil_append] at hbal
    have hlink : link (s.received c.castSucc m' bytes) c = (link s c).produce bytes := by
      simp [link, State.received, Ledger.produce]
    have hch : (s.received c.castSucc m' bytes).channels c.castSucc =
        { s.channels c.castSucc with mSize := bytes.length } := Function.update_self ..
    rw [hlink, hch]
    refine ⟨?_, Int.natCast_nonneg _, hstart.ge, ?_, fun _ => hstart⟩
    · change Ledger.Balanced _ (slice m' (s.channels c.castSucc).mCurPos.toNat bytes.length)
      rwa [hstart, slice_writeBytes_self hw]
    · change (s.channels c.castSucc).mCurPos + (bytes.length : ℤ) ≤
        (s.channels c.castSucc).mBuf + (s.channels c.castSucc).mCapacity
      omega
  · have hlink : link (s.received i m' bytes) c = link s c := by
      simp [link, State.received, Function.update_of_ne hi]
    have hch : (s.received i m' bytes).channels c.castSucc = s.channels c.castSucc :=
      Function.update_of_ne hi ..
    rw [hlink, hch]
    refine hc.of_eq rfl (slice_writeBytes_disjoint hw ?_)
    have := hc.size_nonneg
    have := hc.pos_ge
    have := hc.pos_le
    have := h.layout.buf_nonneg i
    have := h.layout.buf_nonneg c.castSucc
    rcases h.layout.apart _ _ hi with hlt | hgt <;> omega

theorem Relayed.printed {s : State last total} (h : Relayed s) (bytes : List Byte) :
    Relayed (s.printed (Fin.last last) bytes) := by
  refine ⟨h.layout.update _ rfl rfl, fun c => ?_⟩
  have hch : (s.printed (Fin.last last) bytes).channels c.castSucc = s.channels c.castSucc :=
    Function.update_of_ne (Fin.castSucc_ne_last c) ..
  rw [hch]
  exact (h.held c).of_eq rfl rfl

theorem Relayed.forwarded {s : State last total} (h : Relayed s) (c : Fin last) {d : Drained}
    (hsent : d.sent ++ slice s.totalBuffer d.buf.toNat d.size.toNat =
      slice s.totalBuffer (s.channels c.castSucc).mCurPos.toNat
        (s.channels c.castSucc).mSize.toNat)
    (hge : (s.channels c.castSucc).mCurPos ≤ d.buf) (hnonneg : 0 ≤ d.size)
    (hend : d.buf + d.size = (s.channels c.castSucc).mCurPos + (s.channels c.castSucc).mSize) :
    Relayed (s.forwarded c.succ c d) := by
  refine ⟨(h.layout.update _ (by rfl) (by rfl)).update _ (by rfl) (by rfl), fun c' => ?_⟩
  rw [forwarded_channels]
  by_cases hc : c' = c
  · subst hc
    have hlink : link (s.forwarded c'.succ c' d) c' = (link s c').consume d.sent := by
      simp [link, State.forwarded, Ledger.consume]
    have hheld := h.held c'
    have := hheld.pos_ge
    have := hheld.pos_le
    rw [hlink, Function.update_self]
    constructor
    · refine hheld.balanced.consume_iff.mpr ?_
      rw [← hsent]
      by_cases hz : d.size = 0
      · simp [hz]
      · simp only [hz, if_false]
        rfl
    · exact hnonneg
    · change (s.channels c'.castSucc).mBuf ≤ if d.size = 0 then _ else d.buf
      split_ifs <;> omega
    · change (if d.size = 0 then (s.channels c'.castSucc).mBuf else d.buf) + d.size ≤
        (s.channels c'.castSucc).mBuf + (s.channels c'.castSucc).mCapacity
      have := h.layout.capacity_nonneg c'.castSucc
      split_ifs <;> omega
    · exact fun hz => if_pos hz
  · have hlink : link (s.forwarded c.succ c d) c' = link s c' := by
      simp [link, State.forwarded, hc]
    have hne : c'.castSucc ≠ c.castSucc := fun he => hc (Fin.castSucc_injective _ he)
    rw [hlink, Function.update_of_ne hne]
    exact (h.held c').of_eq rfl rfl

variable {s t : State last total} {e : Pass last} {i : Fin (last + 1)}

theorem Relayed.bounded (h : Relayed s) : Bounded s where
  buf_nonneg := h.layout.buf_nonneg
  capacity_nonneg := h.layout.capacity_nonneg
  read_inside := h.layout.inside
  pos_nonneg c := (h.layout.buf_nonneg _).trans (h.held c).pos_ge
  write_inside c := (h.held c).pos_le.trans (h.layout.inside _)

theorem Relayed.turn (h : Relayed s) (hready : Ready e i s) (ht : Turn e i s t) : Relayed t := by
  obtain ⟨mid, hread, hwrite⟩ := ht
  have hmid : Relayed mid := by
    split_ifs at hread with hin
    · obtain ⟨offered, bytes, m', -, rfl, hw, hend⟩ := hread
      have hlen := List.length_take_le (sizeT (s.channels i).mCapacity) offered
      have hcap := sizeT_le (h.layout.capacity_nonneg i)
      have hrel := h.received (hready.empty i (le_refl _) hin) (by omega) hw
      split_ifs at hend with hlast
      · obtain ⟨k, rfl⟩ := hend
        subst hlast
        exact hrel.printed _
      · exact hend ▸ hrel
    · exact hread ▸ h
  split_ifs at hwrite
  · obtain ⟨c, d, rfl, rfl, hsent, hge, hnonneg, hend⟩ := hwrite
    exact hmid.forwarded c hsent hge hnonneg hend
  · exact hwrite ▸ hmid

def Step (s : State last total) (e : Pass last) (t : State last total) : Prop :=
  PollHonest e s ∧ onePass s e = .ok t

/-- What a run keeps. -/
structure Kept (s : State last total) : Prop where
  relayed : Relayed s
  size_nonneg : ∀ j, 0 ≤ (s.channels j).mSize

theorem pass_kept (h : Kept s) (hp : PollHonest e s) :
    Ends (Stops True fun _ => True) Kept (onePass s e) := by
  have hspec : Ends (Stops True fun _ => True) _ (onePass s e) :=
    pass_spec (J := fun _ u => Relayed u) h.size_nonneg hp ?_
      (fun j u v hready hu ht => hu.turn hready ht) (fun _ _ hu _ => hu.bounded)
      (fun _ _ _ => trivial) fun _ => trivial
  · exact hspec.mono (fun _ => id) fun _ ht => ⟨ht.2.choose_spec, ht.1⟩
  · rintro u (rfl | ⟨size, -, rfl⟩)
    · exact ⟨h.relayed.layout, h.relayed.held⟩
    · exact ⟨h.relayed.layout, h.relayed.held⟩

theorem Step.kept (h : Kept s) (hst : Step s e t) : Kept t := by
  have hspec := pass_kept h hst.1
  rw [hst.2] at hspec
  exact hspec

end

/-! ## The start -/

/-- The capacities and their sum fit in `int`. -/
def CapacitiesFit (last : ℕ) : Prop :=
  ∑ i ∈ Finset.range (last + 1), 3 ^ (last + 1 - i) * 1000 < (2 : ℤ) ^ 31

section
variable {last : ℕ}

theorem CapacitiesFit.calcSizeBuf (h : CapacitiesFit last) {i : ℕ} (hi : i < last + 1) :
    calcSizeBuf i (last + 1) = 3 ^ (last + 1 - i) * 1000 := by
  have hle : (3 : ℤ) ^ (last + 1 - i) * 1000 ≤
      ∑ j ∈ Finset.range (last + 1), 3 ^ (last + 1 - j) * 1000 :=
    Finset.single_le_sum (f := fun j => (3 : ℤ) ^ (last + 1 - j) * 1000)
      (fun j _ => by positivity) (Finset.mem_range.mpr hi)
  have hpos : (0 : ℤ) ≤ 3 ^ (last + 1 - i) * 1000 := by positivity
  unfold CapacitiesFit at h
  rw [ProxyModel.calcSizeBuf, doubleToInt, if_pos ⟨by omega, by omega⟩]

theorem CapacitiesFit.calcSizeBuf_nonneg (h : CapacitiesFit last) {i : ℕ} (hi : i < last + 1) :
    0 ≤ ProxyModel.calcSizeBuf i (last + 1) := by
  rw [h.calcSizeBuf hi]
  positivity

/-- A loop of `int` additions that never passes the bound is the sum. -/
theorem foldl_addInt {f : ℕ → ℤ} {n : ℕ} (hf : ∀ i < n, 0 ≤ f i)
    (hsum : ∑ i ∈ Finset.range n, f i < 2 ^ 31) :
    (List.range n).foldl (fun total i => Int.bmod (total + f i) (2 ^ 32)) 0 =
      ∑ i ∈ Finset.range n, f i := by
  induction n with
  | zero => rfl
  | succ n ih =>
      have hlast := hf n (Nat.lt_succ_self n)
      have hnonneg : 0 ≤ ∑ i ∈ Finset.range n, f i :=
        Finset.sum_nonneg fun i hi => hf i ((Finset.mem_range.mp hi).trans (Nat.lt_succ_self n))
      rw [Finset.sum_range_succ] at hsum ⊢
      rw [List.range_succ, List.foldl_append,
        ih (fun i hi => hf i (hi.trans (Nat.lt_succ_self n))) (by omega)]
      exact Int.bmod_eq_of_le (by omega) (by omega)

theorem CapacitiesFit.totalSizeBuf (h : CapacitiesFit last) :
    totalSizeBuf (last + 1) =
      ∑ i ∈ Finset.range (last + 1), ProxyModel.calcSizeBuf i (last + 1) := by
  apply foldl_addInt fun i hi => h.calcSizeBuf_nonneg hi
  rw [Finset.sum_congr rfl fun i hi => h.calcSizeBuf (Finset.mem_range.mp hi)]
  exact h

/-- The buffer of channel `i` ends where or before a later one begins. -/
theorem CapacitiesFit.buffer_end (h : CapacitiesFit last) {i k : ℕ} (hik : i < k)
    (hk : k ≤ last + 1) :
    (startChannel (last + 1) i).mBuf + (startChannel (last + 1) i).mCapacity ≤
      ∑ j ∈ Finset.range k, ProxyModel.calcSizeBuf j (last + 1) := by
  rw [startChannel_mBuf, startChannel_mCapacity, ← Finset.sum_range_succ]
  apply Finset.sum_le_sum_of_subset_of_nonneg (Finset.range_mono hik)
  intro j hj _
  exact h.calcSizeBuf_nonneg ((Finset.mem_range.mp hj).trans_le hk)

theorem CapacitiesFit.relayed (h : CapacitiesFit last) : Relayed (start last) := by
  have hsum : ∀ k ≤ last + 1,
      0 ≤ ∑ j ∈ Finset.range k, ProxyModel.calcSizeBuf j (last + 1) := fun k hk =>
    Finset.sum_nonneg fun j hj => h.calcSizeBuf_nonneg ((Finset.mem_range.mp hj).trans_le hk)
  have htotal : ((ProxyModel.totalSizeBuf (last + 1)).toNat : ℤ) = _ :=
    (Int.toNat_of_nonneg (h.totalSizeBuf ▸ hsum _ (le_refl _))).trans h.totalSizeBuf
  have hcap : ∀ i : Fin (last + 1), 0 ≤ ProxyModel.calcSizeBuf i (last + 1) :=
    fun i => h.calcSizeBuf_nonneg i.isLt
  constructor
  · constructor <;> simp only [start_channels]
    · exact fun i => hsum i i.isLt.le
    · exact fun i => (startChannel_mCapacity ..).symm ▸ hcap i
    · exact fun i => (h.buffer_end i.isLt (le_refl _)).trans_eq htotal.symm
    · intro i j hij
      rcases Nat.lt_or_gt_of_ne (fun he => hij (Fin.ext he)) with hlt | hgt
      · exact .inl (h.buffer_end hlt j.isLt.le)
      · exact .inr (h.buffer_end hgt i.isLt.le)
  · intro c
    simp only [start_channels]
    refine ⟨rfl, Int.le_refl 0, Int.le_refl _, ?_, fun _ => rfl⟩
    exact Int.add_le_add_left (hcap c.castSucc) _

theorem CapacitiesFit.kept (h : CapacitiesFit last) : Kept (start last) :=
  ⟨h.relayed, fun _ => Int.le_refl 0⟩

/-- The bytes written to client `c + 1`, then the bytes stored, are the bytes
read from client `c`, and the stored bytes lie in the channel's own buffer. -/
structure LinkInOrder {total : ℕ} (s : State last total) (c : Fin last) : Prop where
  bytes : s.traffic.toClient c.succ ++
    slice s.totalBuffer (s.channels c.castSucc).mCurPos.toNat (s.channels c.castSucc).mSize.toNat =
      s.traffic.fromClient c.castSucc
  size_nonneg : 0 ≤ (s.channels c.castSucc).mSize
  inside : (s.channels c.castSucc).mBuf ≤ (s.channels c.castSucc).mCurPos ∧
    (s.channels c.castSucc).mCurPos + (s.channels c.castSucc).mSize ≤
      (s.channels c.castSucc).mBuf + (s.channels c.castSucc).mCapacity

/-- After every pass every link is in order, and no pass touches bytes outside
the block. -/
theorem relay_runs (hfit : CapacitiesFit last) {trace : List (Pass last × State last _)}
    (hrun : Path Step (start last) trace) :
    (∀ p ∈ trace, ∀ c, LinkInOrder p.2 c) ∧
    ∀ e, PollHonest e (final (start last) trace) →
      onePass (final (start last) trace) e ≠ .error .outside := by
  constructor
  · intro p hp c
    have hkept := hrun.invariant (fun _ _ _ hs hst => hst.kept hs) hfit.kept p hp
    have hheld := hkept.relayed.held c
    exact ⟨hheld.balanced, hheld.size_nonneg, hheld.pos_ge, hheld.pos_le⟩
  · intro e he hout
    have hspec := pass_kept (hrun.final_invariant (fun _ _ _ hs hst => hst.kept hs) hfit.kept) he
    rw [hout] at hspec
    exact hspec trivial

end

/-- Client 0 gives two bytes. -/
def passRead : Pass 1 where
  stray := 0
  numPolls := 1
  revents i := ⟨⟨false, false, false⟩, ⟨decide (i = 0), false, false⟩⟩
  sizeRead := .ended
  reads _ := some [7, 9]
  writes _ := []
  stdout := none

/-- Client 1 takes one of them, then has no room. -/
def passWrite : Pass 1 where
  stray := 0
  numPolls := 1
  revents i := ⟨⟨false, decide (i = 1), false⟩, ⟨false, false, false⟩⟩
  sizeRead := .ended
  reads _ := none
  writes _ := [.wrote 1, .again]
  stdout := none

theorem relay_runs_two : ∃ t u : State 1 (totalSizeBuf 2).toNat,
    (∀ p ∈ [(passRead, t), (passWrite, u)], ∀ c, LinkInOrder p.2 c) ∧
    ∀ e, PollHonest e u → onePass u e ≠ .error .outside := by
  have hfit : CapacitiesFit 1 := by unfold CapacitiesFit; decide
  refine ⟨_, _, relay_runs hfit (.cons ⟨?_, by with_unfolding_all rfl⟩
    (.cons ⟨?_, by with_unfolding_all rfl⟩ .nil))⟩
  · constructor <;> decide
  · constructor <;> with_unfolding_all decide

end TaskLunev.ProxyRelay
