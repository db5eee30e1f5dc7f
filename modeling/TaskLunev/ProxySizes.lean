import TaskLunev.ProxyCleanup
import TaskLunev.ProxyRelay
import Mathlib.Algebra.BigOperators.Ring.Finset

/-!
# The sizes of the buffers

The capacities are powers of three and their sum a geometric one. Up to twelve
clients they fit in `int`. With thirteen the sum does not, and with fourteen the
first capacity does not either: its conversion gives the least `int`, with which
the sum is positive again, so the buffer may well be allocated.
-/
namespace TaskLunev.ProxySizes
open DescriptorTable ExceptRules ProxyModel ProxyStartModel ProxyCleanup ProxyRelay

/-! ## A block in consecutive parts -/

/-- Parts of sizes `f` one behind the other are the whole. -/
theorem mem_parts_iff {f : ℕ → ℤ} {n : ℕ} (hf : ∀ i < n, 0 ≤ f i) (x : ℤ) :
    0 ≤ x ∧ x < ∑ i ∈ Finset.range n, f i ↔
      ∃ i < n, ∑ j ∈ Finset.range i, f j ≤ x ∧ x < ∑ j ∈ Finset.range i, f j + f i := by
  induction n with
  | zero =>
      simp only [Finset.range_zero, Finset.sum_empty, Nat.not_lt_zero, false_and, exists_false,
        iff_false]
      omega
  | succ n ih =>
      have hlast := hf n (Nat.lt_succ_self n)
      have hsum : 0 ≤ ∑ i ∈ Finset.range n, f i :=
        Finset.sum_nonneg fun i hi => hf i ((Finset.mem_range.mp hi).trans (Nat.lt_succ_self n))
      rw [Nat.exists_lt_succ_right, ← ih fun i hi => hf i (hi.trans (Nat.lt_succ_self n)),
        Finset.sum_range_succ]
      omega

/-! ## The geometric sum -/

theorem sum_pow_three (n : ℕ) :
    2 * ∑ i ∈ Finset.range n, (3 : ℤ) ^ (n - i) + 3 = 3 ^ (n + 1) := by
  induction n with
  | zero => rfl
  | succ n ih =>
      have hshift : ∀ i ∈ Finset.range n, (3 : ℤ) ^ (n + 1 - (i + 1)) = 3 ^ (n - i) :=
        fun i _ => by rw [Nat.add_sub_add_right]
      rw [Finset.sum_range_succ', Finset.sum_congr rfl hshift, Nat.sub_zero, pow_succ 3 (n + 1)]
      omega

/-- Twelve clients are the most whose buffers have a size in `int`. -/
theorem capacitiesFit_iff {last : ℕ} : CapacitiesFit last ↔ last + 1 ≤ 12 := by
  have hsum := sum_pow_three (last + 1)
  unfold CapacitiesFit
  rw [← Finset.sum_mul]
  constructor
  · intro hfit
    by_contra hmany
    have hpow : (3 : ℤ) ^ 14 ≤ 3 ^ (last + 1 + 1) := pow_le_pow_right₀ (by decide) (by omega)
    omega
  · intro hfew
    have hpow : (3 : ℤ) ^ (last + 1 + 1) ≤ 3 ^ 13 := pow_le_pow_right₀ (by decide) (by omega)
    omega

/-! ## What a start leaves -/

/-- Position `x` of the block belongs to the channel. -/
def InBuffer (channel : ServerChannel) (x : ℤ) : Prop :=
  channel.mBuf ≤ x ∧ x < channel.mBuf + channel.mCapacity

/-- All sizes are what they are over the integers, and the buffers are the block
cut into consecutive parts. -/
structure SizesExact (n : ℕ) (server : ProxyServer) (ch : ℕ → ServerChannel) : Prop where
  channels : server.mChannels = some ch
  powers_fit : ∀ i < n, (3 : ℤ) ^ (n - i) * 1000 < 2 ^ 31
  sums_fit : ∀ k ≤ n, ∑ i ∈ Finset.range k, (3 : ℤ) ^ (n - i) * 1000 < 2 ^ 31
  capacity : ∀ i < n, (ch i).mCapacity = 3 ^ (n - i) * 1000
  total : server.mTotalSizeBuf = ∑ i ∈ Finset.range n, (ch i).mCapacity
  first : (ch 0).mBuf = 0
  next : ∀ i, i + 1 < n → (ch (i + 1)).mBuf = (ch i).mBuf + (ch i).mCapacity
  disjoint : ∀ i < n, ∀ j < n, i ≠ j → ∀ x, InBuffer (ch i) x → ¬ InBuffer (ch j) x
  covers : ∀ x, 0 ≤ x ∧ x < server.mTotalSizeBuf ↔ ∃ i < n, InBuffer (ch i) x

section
variable {a : Answers} {n last : ℕ} {p q : Process}

theorem started_channels (i : ℕ) (p : Process) (fds : Descriptors) (sc cs add : ℕ × ℕ) :
    (started i p fds sc cs add).server.mChannels.isSome = p.server.mChannels.isSome := by
  unfold started
  split_ifs
  · exact Option.isSome_map
  · exact Option.isSome_map

/-- Starting a client keeps the array of channels. -/
theorem startOne_channels (a : Answers) (i : ℕ) (hp : p.server.mChannels.isSome) :
    Ends (fun _ => True) (fun q => q.server.mChannels.isSome) (startOne a i p) := by
  by_cases hs : Starts a i
  · obtain ⟨sc, cs, add, d₁, d₂, d₃, -, -, -, hone⟩ := startOne_eq p hs
    rw [hone]
    exact (started_channels i p d₃ sc cs add).trans hp
  · obtain ⟨fds, hone, -⟩ := startOne_stop p hs
    rw [hone]
    trivial

theorem startClients_channels (a : Answers) (left i : ℕ) (hp : p.server.mChannels.isSome) :
    Ends (fun _ => True) (fun q => q.server.mChannels.isSome) (startClients a left i p) := by
  induction left generalizing i p with
  | zero => exact hp
  | succ left ih => exact Ends.bind (startOne_channels a i hp) fun q hq => ih (i + 1) hq

/-- A call that returns 0 got through its loop and laid out the buffers. -/
theorem startProxy_zero (h : (startProxy a n p).code = 0) : ∃ q ch,
    q.server.mChannels = some ch ∧
      (startProxy a n p).process = setBuffers n (setCapacities n q) := by
  have hne : (-1 : ℤ) ≠ 0 := by decide
  unfold startProxy at h ⊢
  by_cases hverify : verifierProxy p.server = true
  · rw [if_pos hverify] at h
    exact absurd h hne
  · rw [if_neg hverify] at h ⊢
    by_cases halloc : a.callocChannels = false
    · rw [if_pos halloc] at h
      exact absurd h hne
    · rw [if_neg halloc] at h ⊢
      dsimp only at h ⊢
      have hclients := startClients_channels a n 0 (p := { p with server := { p.server with
        mChannels := some fun _ => zeroChannel
        mNumberChannels := n } }) rfl
      generalize startClients a n 0 _ = r at h hclients ⊢
      cases r with
      | error q => exact absurd h hne
      | ok q =>
          obtain ⟨ch, hch⟩ := Option.isSome_iff_exists.mp hclients
          dsimp only at h ⊢
          by_cases hbuffer : a.callocBuffer = false
          · rw [if_pos hbuffer] at h
            exact absurd h hne
          · rw [if_neg hbuffer]
            exact ⟨q, ch, hch, rfl⟩

/-- The capacities and the buffers are those of the model. -/
theorem startProxy_channels (h : (startProxy a n p).code = 0) : ∃ ch,
    (startProxy a n p).process.server.mChannels = some ch ∧
    (startProxy a n p).process.server.mTotalSizeBuf = totalSizeBuf n ∧
    ∀ i < n, (ch i).mCapacity = calcSizeBuf i n ∧
      (ch i).mBuf = ∑ j ∈ Finset.range i, calcSizeBuf j n := by
  obtain ⟨q, ch, hch, hprocess⟩ := startProxy_zero h
  rw [hprocess]
  simp only [setBuffers, setCapacities, hch, Option.map_some, Option.some.injEq,
    exists_eq_left', true_and]
  intro i hi
  simp only [if_pos hi, startChannel_mBuf, and_self]

theorem totalSizeBuf_lt (last : ℕ) : totalSizeBuf (last + 1) < 2 ^ 31 := by
  unfold totalSizeBuf
  rw [List.range_succ, List.foldl_append]
  exact Int.bmod_lt (by decide)

/-- The parts of the sum fit as the whole does. -/
theorem sums_fit (hfit : CapacitiesFit last) {k : ℕ} (hk : k ≤ last + 1) :
    ∑ i ∈ Finset.range k, (3 : ℤ) ^ (last + 1 - i) * 1000 < 2 ^ 31 := by
  apply lt_of_le_of_lt _ hfit
  apply Finset.sum_le_sum_of_subset_of_nonneg (Finset.range_mono hk)
  intro i _ _
  positivity

theorem powers_fit (hfit : CapacitiesFit last) {i : ℕ} (hi : i < last + 1) :
    (3 : ℤ) ^ (last + 1 - i) * 1000 < 2 ^ 31 := by
  have hsum := sums_fit hfit (show i + 1 ≤ last + 1 from hi)
  have hnonneg : (0 : ℤ) ≤ ∑ j ∈ Finset.range i, 3 ^ (last + 1 - j) * 1000 :=
    Finset.sum_nonneg fun j _ => by positivity
  rw [Finset.sum_range_succ] at hsum
  omega

/-- Channels laid out one behind the other, with sizes that fit. -/
theorem sizesExact_of_fit (hfit : CapacitiesFit last) {server : ProxyServer}
    {ch : ℕ → ServerChannel} (hch : server.mChannels = some ch)
    (htotal : server.mTotalSizeBuf = totalSizeBuf (last + 1))
    (heach : ∀ i < last + 1, (ch i).mCapacity = calcSizeBuf i (last + 1) ∧
      (ch i).mBuf = ∑ j ∈ Finset.range i, calcSizeBuf j (last + 1)) :
    SizesExact (last + 1) server ch := by
  have hbuffer : ∀ i < last + 1, ∀ x, InBuffer (ch i) x ↔
      ∑ j ∈ Finset.range i, calcSizeBuf j (last + 1) ≤ x ∧
        x < ∑ j ∈ Finset.range i, calcSizeBuf j (last + 1) + calcSizeBuf i (last + 1) := by
    intro i hi x
    rw [InBuffer, (heach i hi).1, (heach i hi).2]
  constructor
  · exact hch
  · exact fun i hi => powers_fit hfit hi
  · exact fun k hk => sums_fit hfit hk
  · exact fun i hi => (heach i hi).1.trans (hfit.calcSizeBuf hi)
  · rw [htotal, hfit.totalSizeBuf]
    exact Finset.sum_congr rfl fun i hi => (heach i (Finset.mem_range.mp hi)).1.symm
  · rw [(heach 0 (Nat.succ_pos last)).2, Finset.range_zero, Finset.sum_empty]
  · intro i hi
    rw [(heach (i + 1) hi).2, (heach i (by omega)).2, (heach i (by omega)).1,
      Finset.sum_range_succ]
  · intro i hi j hj hij x hix hjx
    rw [hbuffer i hi] at hix
    rw [hbuffer j hj] at hjx
    rcases Nat.lt_or_gt_of_ne hij with hlt | hgt
    · have hend := hfit.buffer_end hlt hj.le
      rw [startChannel_mBuf, startChannel_mCapacity] at hend
      omega
    · have hend := hfit.buffer_end hgt hi.le
      rw [startChannel_mBuf, startChannel_mCapacity] at hend
      omega
  · intro x
    rw [htotal, hfit.totalSizeBuf, mem_parts_iff fun i hi => hfit.calcSizeBuf_nonneg hi]
    apply exists_congr
    intro i
    apply and_congr_right
    intro hi
    rw [hbuffer i hi]

/-- Exact sizes have their sum in `int`. -/
theorem fit_of_sizesExact (h : (startProxy a (last + 1) p).code = 0) {ch : ℕ → ServerChannel}
    (hexact : SizesExact (last + 1) (startProxy a (last + 1) p).process.server ch) :
    CapacitiesFit last := by
  obtain ⟨-, -, htotal, -⟩ := startProxy_channels h
  have hsum := hexact.total
  rw [htotal, Finset.sum_congr rfl fun i hi =>
    hexact.capacity i (Finset.mem_range.mp hi)] at hsum
  unfold CapacitiesFit
  rw [← hsum]
  exact totalSizeBuf_lt last

/-- Where the start returns 0, its sizes are right and its buffers are the block
cut into parts exactly for at most twelve clients. -/
theorem sizesExact_iff (h : (startProxy a (last + 1) p).code = 0) :
    (∃ ch, SizesExact (last + 1) (startProxy a (last + 1) p).process.server ch) ↔
      last + 1 ≤ 12 := by
  obtain ⟨ch, hch, htotal, heach⟩ := startProxy_channels h
  rw [← capacitiesFit_iff]
  constructor
  · rintro ⟨ch', hexact⟩
    exact fit_of_sizesExact h hexact
  · intro hfit
    exact ⟨ch, sizesExact_of_fit hfit hch htotal heach⟩

end

/-- Every call succeeds. -/
def allGranted : Answers := ⟨true, fun _ => true, fun _ => true, true, fun _ => true, true⟩

theorem sizesExact_two : (startProxy allGranted 2 (mainStart ∅)).code = 0 ∧
    ((∃ ch, SizesExact 2 (startProxy allGranted 2 (mainStart ∅)).process.server ch) ↔ 2 ≤ 12) :=
  ⟨by decide +kernel, sizesExact_iff (by decide +kernel)⟩

/-- With fourteen clients the first capacity leaves `int`, the sum is positive
again, and the call returns 0. -/
theorem fourteen_overflow : (startProxy allGranted 14 (mainStart ∅)).code = 0 ∧
    (3 : ℤ) ^ (14 - 0) * 1000 = 4782969000 ∧ calcSizeBuf 0 14 = -2147483648 ∧
    totalSizeBuf 14 = 243999352 ∧
    ¬ ∃ ch, SizesExact 14 (startProxy allGranted 14 (mainStart ∅)).process.server ch := by
  have hcode : (startProxy allGranted 14 (mainStart ∅)).code = 0 := by decide +kernel
  refine ⟨hcode, rfl, by decide +kernel, by decide +kernel, ?_⟩
  rintro ⟨ch, hexact⟩
  exact absurd (capacitiesFit_iff.mp (fit_of_sizesExact hcode hexact)) (by decide)

end TaskLunev.ProxySizes
