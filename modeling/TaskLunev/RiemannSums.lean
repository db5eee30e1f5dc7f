import Mathlib
import TaskLunev.SampledSums

/-!
# How far sampled chunks are from the integral

A chunk is sampled at equal steps from its start, and its last cell may reach
behind its end. For a Lipschitz function each cell costs the square of its
width, and the part of the last one behind the end costs at most a step times
the bound on the function. Chunks laid end to end add up.
-/
namespace TaskLunev.RiemannSums
open SampledSums Set
open scoped NNReal

section
variable {F : ℝ → ℝ} {K : ℝ≥0} {M u v p q : ℝ}

theorem intervalIntegrable_of_lipschitz (hF : LipschitzOnWith K F (Icc p q)) (hpu : p ≤ u)
    (huv : u ≤ v) (hvq : v ≤ q) : IntervalIntegrable F MeasureTheory.volume u v := by
  apply ContinuousOn.intervalIntegrable
  rw [uIcc_of_le huv]
  exact hF.continuousOn.mono (Icc_subset_Icc hpu hvq)

/-- A cell sampled at its start. -/
theorem cell_error (hF : LipschitzOnWith K F (Icc p q)) (hpu : p ≤ u) (huv : u ≤ v) (hvq : v ≤ q) :
    |F u * (v - u) - ∫ x in u..v, F x| ≤ K * (v - u) ^ 2 / 2 := by
  have hint := intervalIntegrable_of_lipschitz hF hpu huv hvq
  have hdiff : F u * (v - u) - ∫ x in u..v, F x = ∫ x in u..v, (F u - F x) := by
    rw [intervalIntegral.integral_sub intervalIntegrable_const hint, intervalIntegral.integral_const,
      smul_eq_mul, mul_comm]
  have hpoint : ∀ x ∈ Ioc u v, ‖F u - F x‖ ≤ K * (x - u) := by
    intro x hx
    have hdist := hF.dist_le_mul u ⟨hpu, huv.trans hvq⟩ x ⟨hpu.trans hx.1.le, hx.2.trans hvq⟩
    rwa [Real.dist_eq, Real.dist_eq, abs_sub_comm u x, abs_of_nonneg (sub_nonneg.mpr hx.1.le)]
      at hdist
  have hline : IntervalIntegrable (fun x => (K : ℝ) * (x - u)) MeasureTheory.volume u v :=
    Continuous.intervalIntegrable (by fun_prop) u v
  have hwidth : ∫ x in u..v, (K : ℝ) * (x - u) = K * (v - u) ^ 2 / 2 := by
    rw [intervalIntegral.integral_const_mul,
      intervalIntegral.integral_sub intervalIntegral.intervalIntegrable_id intervalIntegrable_const,
      integral_id, intervalIntegral.integral_const, smul_eq_mul]
    ring
  rw [hdiff, ← hwidth, ← Real.norm_eq_abs]
  exact intervalIntegral.norm_integral_le_of_norm_le huv
    (Filter.Eventually.of_forall hpoint) hline

/-- A chunk: the induction is on the number of its cells, and the last one may
be cut. -/
theorem chunk_error (hF : LipschitzOnWith K F (Icc p q)) (hM : ∀ x ∈ Icc p q, |F x| ≤ M)
    {δ : ℝ} (hδ : 0 < δ) (n : ℕ) {len α : ℝ} (hlen : 0 ≤ len) (hn : ⌈len / δ⌉₊ = n) (hpα : p ≤ α)
    (hαq : α + len ≤ q) :
    |chunkSum F δ len α * δ - ∫ x in α..α + len, F x| ≤ K * δ * len / 2 + M * δ := by
  induction n generalizing len α with
  | zero =>
      have hzero : len = 0 := by
        have hle : len / δ ≤ 0 := Nat.ceil_eq_zero.mp hn
        rw [div_le_iff₀ hδ, zero_mul] at hle
        exact le_antisymm hle hlen
      subst hzero
      have hbound : 0 ≤ M := (abs_nonneg _).trans (hM α ⟨hpα, by linarith⟩)
      rw [(chunkSum_of_nonpos F hδ le_rfl α).2, add_zero, intervalIntegral.integral_same]
      simpa using mul_nonneg hbound hδ.le
  | succ n ih =>
      have hpos : 0 < len := by
        rcases hlen.eq_or_lt with hzero | hpos
        · rw [← hzero, zero_div, Nat.ceil_zero] at hn
          cases hn
        · exact hpos
      obtain ⟨hcount, hsum⟩ := chunkSum_of_pos F hδ hpos α
      have hrest : ⌈(len - δ) / δ⌉₊ = n := by omega
      rw [hsum]
      by_cases hwhole : δ ≤ len
      · -- A whole cell, then the chunk that is left.
        have hcell := cell_error hF hpα (by linarith : α ≤ α + δ) (by linarith)
        have hih := ih (sub_nonneg.mpr hwhole) hrest (by linarith : p ≤ α + δ) (by linarith)
        have hend : α + δ + (len - δ) = α + len := by ring
        have hadd : (∫ x in α..α + δ, F x) + ∫ x in α + δ..α + len, F x = ∫ x in α..α + len, F x :=
          intervalIntegral.integral_add_adjacent_intervals
            (intervalIntegrable_of_lipschitz hF hpα (by linarith) (by linarith))
            (intervalIntegrable_of_lipschitz hF (by linarith) (by linarith) hαq)
        rw [hend] at hih
        rw [add_sub_cancel_left] at hcell
        have hsplit : (F α + chunkSum F δ (len - δ) (α + δ)) * δ - ∫ x in α..α + len, F x =
            (F α * δ - ∫ x in α..α + δ, F x) +
              (chunkSum F δ (len - δ) (α + δ) * δ - ∫ x in α + δ..α + len, F x) := by
          rw [← hadd]
          ring
        calc |(F α + chunkSum F δ (len - δ) (α + δ)) * δ - ∫ x in α..α + len, F x|
            ≤ K * δ ^ 2 / 2 + (K * δ * (len - δ) / 2 + M * δ) := by
              rw [hsplit]
              exact (abs_add_le _ _).trans (add_le_add hcell hih)
          _ = K * δ * len / 2 + M * δ := by ring
      · -- One cell, which reaches behind the end.
        have hshort := not_le.mp hwhole
        have hcell := cell_error hF hpα (by linarith : α ≤ α + len) hαq
        rw [add_sub_cancel_left] at hcell
        rw [(chunkSum_of_nonpos F hδ (by linarith) (α + δ)).2, add_zero]
        have hover : |F α * (δ - len)| ≤ M * δ := by
          rw [abs_mul, abs_of_pos (sub_pos.mpr hshort)]
          have hbound := hM α ⟨hpα, by linarith⟩
          have hbound_nonneg : 0 ≤ M := (abs_nonneg _).trans hbound
          exact mul_le_mul hbound (by linarith) (by linarith) hbound_nonneg
        have hsplit : F α * δ - ∫ x in α..α + len, F x =
            (F α * len - ∫ x in α..α + len, F x) + F α * (δ - len) := by ring
        have hsquare : K * len ^ 2 / 2 ≤ K * δ * len / 2 := by
          have hlen_le : len * len ≤ δ * len := mul_le_mul_of_nonneg_right hshort.le hlen
          have hK := mul_le_mul_of_nonneg_left hlen_le K.coe_nonneg
          linarith [sq len]
        rw [hsplit]
        exact (abs_add_le _ _).trans (add_le_add (hcell.trans hsquare) hover)

/-- Chunks of one length laid end to end. -/
theorem chunks_error (hF : LipschitzOnWith K F (Icc p q)) (hM : ∀ x ∈ Icc p q, |F x| ≤ M)
    {δ : ℝ} (hδ : 0 < δ) {len : ℝ} (hlen : 0 ≤ len) (count : ℕ) (hcount : p + count * len ≤ q) :
    |(∑ i ∈ Finset.range count, chunkSum F δ len (p + i * len)) * δ -
        ∫ x in p..p + count * len, F x| ≤ count * (K * δ * len / 2 + M * δ) := by
  induction count with
  | zero => simp
  | succ count ih =>
      push_cast at hcount ⊢
      have hfront : 0 ≤ count * len := mul_nonneg (Nat.cast_nonneg _) hlen
      have hend : p + count * len + len = p + (count + 1) * len := by ring
      have hih := ih (by linarith)
      have hchunk := chunk_error hF hM hδ _ hlen rfl (by linarith : p ≤ p + count * len)
        (hend.trans_le hcount)
      rw [hend] at hchunk
      have hadd : (∫ x in p..p + count * len, F x) +
          ∫ x in p + count * len..p + (count + 1) * len, F x =
            ∫ x in p..p + (count + 1) * len, F x :=
        intervalIntegral.integral_add_adjacent_intervals
          (intervalIntegrable_of_lipschitz hF le_rfl (by linarith) (by linarith))
          (intervalIntegrable_of_lipschitz hF (by linarith) (by linarith) hcount)
      rw [Finset.sum_range_succ, ← hadd]
      have hsplit : ∀ s c i j : ℝ, (s + c) * δ - (i + j) = (s * δ - i) + (c * δ - j) := by
        intro s c i j
        ring
      rw [hsplit]
      exact (abs_add_le _ _).trans ((add_le_add hih hchunk).trans_eq (by ring))

end

section
variable {f : ℚ → ℚ} {F : ℝ → ℝ}

/-- Sampled at rational points, a real function has the sum of the rational one. -/
theorem cast_chunkSum (hf : ∀ x : ℚ, F x = f x) (δ len a : ℚ) :
    ((chunkSum f δ len a : ℚ) : ℝ) = chunkSum F δ len a := by
  have hceil : ⌈(len : ℝ) / δ⌉₊ = ⌈len / δ⌉₊ := by
    rw [← Rat.cast_div, ← Int.ceil_toNat, ← Int.ceil_toNat, Rat.ceil_cast]
  rw [chunkSum, chunkSum, hceil, Rat.cast_sum]
  apply Finset.sum_congr rfl
  intro k _
  rw [← hf]
  push_cast
  rfl

end

end TaskLunev.RiemannSums
