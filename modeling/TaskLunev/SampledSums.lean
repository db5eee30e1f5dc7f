import Mathlib.Algebra.Order.Floor.Semiring
import Mathlib.Algebra.BigOperators.Intervals
import Mathlib.Algebra.Order.Field.Basic
import Mathlib.Algebra.Order.Floor.Ring
import Mathlib.Tactic.FieldSimp
import Mathlib.Tactic.Linarith
import Mathlib.Tactic.Ring

/-!
# Loops that sample a function at equal steps

The loop adds up a function at `a`, `a + dx`, ... as long as the point is below
`b`. With a positive step it takes one pass for each point, and the sum over
equal chunks laid end to end depends only on where the first one starts.
-/
namespace TaskLunev.SampledSums

section
variable {K M : Type*} [Field K] [LinearOrder K] [AddCommMonoid M]

/-- `none` when the passes run out. -/
def sampleLoop (f : K → M) (dx b : K) : ℕ → K → M → Option M
  | 0, a, acc => if a < b then none else some acc
  | fuel + 1, a, acc => if a < b then sampleLoop f dx b fuel (a + dx) (acc + f a) else some acc

/-- A loop that starts at its end or behind it takes no pass. -/
theorem sampleLoop_of_le (f : K → M) (dx : K) {a b : K} (hba : b ≤ a) (fuel : ℕ) (acc : M) :
    sampleLoop f dx b fuel a acc = some acc := by
  cases fuel with
  | zero => rw [sampleLoop, if_neg (not_lt.mpr hba)]
  | succ fuel => rw [sampleLoop, if_neg (not_lt.mpr hba)]

variable [IsStrictOrderedRing K] [FloorSemiring K]

/-- The sum of `f` over the points of a chunk of length `len`. -/
def chunkSum (f : K → M) (dx len a : K) : M :=
  ∑ k ∈ Finset.range ⌈len / dx⌉₊, f (a + k * dx)

theorem chunkSum_of_nonpos (f : K → M) {dx len : K} (hdx : 0 < dx) (hlen : len ≤ 0) (a : K) :
    ⌈len / dx⌉₊ = 0 ∧ chunkSum f dx len a = 0 := by
  have hzero : ⌈len / dx⌉₊ = 0 :=
    Nat.ceil_eq_zero.mpr (div_nonpos_of_nonpos_of_nonneg hlen hdx.le)
  exact ⟨hzero, by rw [chunkSum, hzero, Finset.sum_range_zero]⟩

/-- The first point of a chunk, and the chunk that is left. -/
theorem chunkSum_of_pos (f : K → M) {dx len : K} (hdx : 0 < dx) (hlen : 0 < len) (a : K) :
    ⌈len / dx⌉₊ = ⌈(len - dx) / dx⌉₊ + 1 ∧
      chunkSum f dx len a = f a + chunkSum f dx (len - dx) (a + dx) := by
  have hcount : ⌈len / dx⌉₊ = ⌈(len - dx) / dx⌉₊ + 1 := by
    have hpos : 0 < ⌈len / dx⌉₊ := Nat.ceil_pos.mpr (div_pos hlen hdx)
    rw [sub_div, div_self hdx.ne', Nat.ceil_sub_one]
    omega
  refine ⟨hcount, ?_⟩
  rw [chunkSum, hcount, Finset.sum_range_succ', add_comm]
  congr 1
  · rw [Nat.cast_zero, zero_mul, add_zero]
  · apply Finset.sum_congr rfl
    intro k _
    rw [Nat.cast_succ, add_mul, one_mul, add_comm ((k : K) * dx), add_assoc]

theorem sampleLoop_eq (f : K → M) {dx : K} (hdx : 0 < dx) (b : K) (fuel : ℕ) (a : K) (acc : M) :
    sampleLoop f dx b fuel a acc =
      if ⌈(b - a) / dx⌉₊ ≤ fuel then some (acc + chunkSum f dx (b - a) a) else none := by
  induction fuel generalizing a acc with
  | zero =>
      unfold sampleLoop
      by_cases hab : a < b
      · have hpos : 0 < ⌈(b - a) / dx⌉₊ := Nat.ceil_pos.mpr (div_pos (sub_pos.mpr hab) hdx)
        rw [if_pos hab, if_neg (by omega)]
      · obtain ⟨hzero, hsum⟩ := chunkSum_of_nonpos f hdx (sub_nonpos.mpr (not_lt.mp hab)) a
        rw [if_neg hab, if_pos hzero.le, hsum, add_zero]
  | succ fuel ih =>
      unfold sampleLoop
      by_cases hab : a < b
      · obtain ⟨hcount, hsum⟩ := chunkSum_of_pos f hdx (sub_pos.mpr hab) a
        rw [if_pos hab, ih, hcount, hsum, ← sub_sub, add_assoc]
        simp only [Nat.add_le_add_iff_right]
      · obtain ⟨hzero, hsum⟩ := chunkSum_of_nonpos f hdx (sub_nonpos.mpr (not_lt.mp hab)) a
        rw [if_neg hab, if_pos (hzero.trans_le (Nat.zero_le _)), hsum, add_zero]

/-- A chunk of a whole number of steps. -/
theorem chunkSum_natCast_mul (f : K → M) {dx : K} (hdx : 0 < dx) (steps : ℕ) (a : K) :
    chunkSum f dx (steps * dx) a = ∑ k ∈ Finset.range steps, f (a + k * dx) := by
  rw [chunkSum, mul_div_cancel_right₀ _ hdx.ne', Nat.ceil_natCast]

/-- Chunks of whole steps laid end to end are one chunk. -/
theorem sum_chunkSum (f : K → M) {dx : K} (hdx : 0 < dx) (steps count : ℕ) (a : K) :
    ∑ i ∈ Finset.range count, chunkSum f dx (steps * dx) (a + i * (steps * dx)) =
      chunkSum f dx ((count * steps : ℕ) * dx) a := by
  induction count with
  | zero => simp [chunkSum]
  | succ count ih =>
      rw [Finset.sum_range_succ, ih, chunkSum_natCast_mul f hdx, chunkSum_natCast_mul f hdx,
        chunkSum_natCast_mul f hdx, Nat.succ_mul, Finset.sum_range_add]
      congr 1
      apply Finset.sum_congr rfl
      intro k _
      push_cast
      congr 1
      ring

/-- The points of a loop that are below its end. -/
theorem point_lt_iff {dx : K} (hdx : 0 < dx) (a b : K) (k : ℕ) :
    a + k * dx < b ↔ k < ⌈(b - a) / dx⌉₊ := by
  rw [Nat.lt_ceil, lt_div_iff₀ hdx, lt_sub_iff_add_lt']

/-! ## Unrolled loops -/

/-- A loop with `m + 1` points at a time, which stops when the last of them has
reached the end. Each lane adds up on its own. -/
def unrolledLoop {m : ℕ} (f : K → M) (step b : K) :
    ℕ → (Fin (m + 1) → K) → (Fin (m + 1) → M) → Option (Fin (m + 1) → M)
  | 0, x, res => if x (Fin.last m) < b then none else some res
  | fuel + 1, x, res =>
      if x (Fin.last m) < b then
        unrolledLoop f step b fuel (fun i => x i + step) fun i => res i + f (x i)
      else some res

/-- A row further on there are as many points fewer. -/
theorem ceil_behind {dx : K} (hdx : 0 < dx) (a b : K) (count : ℕ) :
    ⌈(b - (a + count * dx)) / dx⌉₊ = ⌈(b - a) / dx⌉₊ - count := by
  rw [← sub_sub, sub_div, mul_div_cancel_right₀ _ hdx.ne', Nat.ceil_sub_natCast]

omit [LinearOrder K] [IsStrictOrderedRing K] [FloorSemiring K] in
/-- The first point of a lane and those it has a row further on. -/
theorem sum_lane_succ (f : K → M) (dx a : K) (width rows i : ℕ) :
    f (a + i * dx) + ∑ k ∈ Finset.range rows, f (a + width * dx + (width * k + i : ℕ) * dx) =
      ∑ k ∈ Finset.range (rows + 1), f (a + (width * k + i : ℕ) * dx) := by
  rw [Finset.sum_range_succ', add_comm (Finset.sum _ _), Nat.mul_zero, Nat.zero_add]
  congr 1
  apply Finset.sum_congr rfl
  intro k _
  congr 1
  push_cast
  ring

/-- The loop takes a pass for every full row of points. -/
theorem unrolledLoop_eq {m : ℕ} (f : K → M) {dx : K} (hdx : 0 < dx) (b : K) (fuel : ℕ) (a : K)
    (res : Fin (m + 1) → M) :
    unrolledLoop f ((m + 1 : ℕ) * dx) b fuel (fun i => a + (i : ℕ) * dx) res =
      if ⌈(b - a) / dx⌉₊ / (m + 1) ≤ fuel then
        some fun i => res i + ∑ k ∈ Finset.range (⌈(b - a) / dx⌉₊ / (m + 1)),
          f (a + ((m + 1) * k + i : ℕ) * dx)
      else none := by
  induction fuel generalizing a res with
  | zero =>
      rw [unrolledLoop]
      simp only [Fin.val_last, point_lt_iff hdx]
      by_cases hrow : m < ⌈(b - a) / dx⌉₊
      · have hpos : 0 < ⌈(b - a) / dx⌉₊ / (m + 1) := Nat.div_pos hrow (Nat.succ_pos m)
        rw [if_pos hrow, if_neg (by omega)]
      · have hzero : ⌈(b - a) / dx⌉₊ / (m + 1) = 0 := Nat.div_eq_of_lt (by omega)
        simp [if_neg hrow, hzero]
  | succ fuel ih =>
      rw [unrolledLoop]
      simp only [Fin.val_last, point_lt_iff hdx]
      by_cases hrow : m < ⌈(b - a) / dx⌉₊
      · have hrows : ⌈(b - a) / dx⌉₊ / (m + 1) = (⌈(b - a) / dx⌉₊ - (m + 1)) / (m + 1) + 1 :=
          Nat.div_eq_sub_div (Nat.succ_pos m) hrow
        have hnext : (fun i : Fin (m + 1) => a + (i : ℕ) * dx + (m + 1 : ℕ) * dx) =
            fun i : Fin (m + 1) => a + (m + 1 : ℕ) * dx + (i : ℕ) * dx := by
          funext i
          exact add_right_comm _ _ _
        rw [if_pos hrow, hnext, ih, ceil_behind hdx, hrows]
        simp only [Nat.add_le_add_iff_right, add_assoc (res _), sum_lane_succ]
      · have hzero : ⌈(b - a) / dx⌉₊ / (m + 1) = 0 := Nat.div_eq_of_lt (by omega)
        simp [if_neg hrow, hzero]

/-- The lanes together have the points of all full rows. -/
theorem sum_lanes (f : ℕ → M) (m rows : ℕ) :
    ∑ i : Fin (m + 1), ∑ k ∈ Finset.range rows, f ((m + 1) * k + i) =
      ∑ j ∈ Finset.range ((m + 1) * rows), f j := by
  induction rows with
  | zero => simp
  | succ rows ih =>
      simp only [Finset.sum_range_succ, Finset.sum_add_distrib, ih]
      rw [Nat.mul_succ, Finset.sum_range_add, Fin.sum_univ_eq_sum_range fun i => f ((m + 1) * rows + i)]

end

end TaskLunev.SampledSums
