import TaskLunev.RiemannSums
import TaskLunev.IntegralVariants
import TaskLunev.HpcNetIntegral

/-!
# How far a call is from the integral

A call samples every chunk from its start, and the last cell of a chunk may
reach behind its end. For a Lipschitz function the value is off by at most the
step times half the Lipschitz constant times the width, and another step times
the bound of the function for each thread. The distributed call is off by no
more than a local one with all its threads.
-/
namespace TaskLunev.IntegralError
open SampledSums RiemannSums IntegralModel IntegralVariants HpcNetModel HpcNetProtocol
  HpcNetIntegral Set
open scoped NNReal

/-- The value is at most `error` away from the integral. -/
def Approximates (F : ℝ → ℝ) (a b : ℚ) (error : ℝ) (value : ℚ) : Prop :=
  |(value : ℝ) - ∫ x in (a : ℝ)..b, F x| ≤ error

/-- The bound for an interval cut into so many chunks with steps of `dx`. -/
noncomputable def cutError (K : ℝ≥0) (M : ℝ) (a b dx : ℚ) (chunks : ℕ) : ℝ :=
  dx * (K * |b - a| / 2 + chunks * M)

section
variable {func : ℚ → ℚ} {F : ℝ → ℝ} {K : ℝ≥0} {M : ℝ} {a b : ℚ}

theorem cast_threadSum (hf : ∀ x : ℚ, F x = func x) (dx len p : ℚ) (count : ℕ) :
    ((threadSum func dx len p count : ℚ) : ℝ) =
      ∑ i ∈ Finset.range count, chunkSum F dx len (p + i * len) := by
  rw [threadSum, Rat.cast_sum]
  apply Finset.sum_congr rfl
  intro i _
  rw [cast_chunkSum hf]
  push_cast
  rfl

/-- Limits in either order: the sign of the source turns the sum as the integral
is turned. -/
theorem integral_min_max (F : ℝ → ℝ) (a b : ℚ) :
    ∫ x in (a : ℝ)..b, F x =
      (((if a ≤ b then 1 else -1 : ℚ) : ℚ) : ℝ) * ∫ x in ((min a b : ℚ) : ℝ)..(max a b : ℚ), F x := by
  by_cases hab : a ≤ b
  · simp only [if_pos hab, min_eq_left hab, max_eq_right hab, Rat.cast_one, one_mul]
  · have hba : b ≤ a := (not_le.mp hab).le
    simp only [if_neg hab, min_eq_right hba, max_eq_left hba, Rat.cast_neg, Rat.cast_one, neg_mul,
      one_mul]
    exact intervalIntegral.integral_symm _ _

theorem cut_error (hf : ∀ x : ℚ, F x = func x) (hF : LipschitzOnWith K F (uIcc (a : ℝ) b))
    (hM : ∀ x ∈ uIcc (a : ℝ) b, |F x| ≤ M) {dx : ℚ} (hdx : 0 < dx) {count : ℕ} (hcount : 0 < count) :
    Approximates F a b (cutError K M a b dx count)
      (threadSum func dx (|b - a| / count) (min a b) count * (if a ≤ b then 1 else -1) * dx) := by
  have hcount_ne : (count : ℝ) ≠ 0 := by exact_mod_cast hcount.ne'
  have hwidth : ((max a b : ℚ) : ℝ) = ((min a b : ℚ) : ℝ) + count * ((|b - a| / count : ℚ) : ℝ) := by
    rw [← max_sub_min_eq_abs]
    push_cast
    field_simp
    ring
  have hIcc : uIcc (a : ℝ) b = Icc ((min a b : ℚ) : ℝ) ((max a b : ℚ) : ℝ) := by
    rw [uIcc, Rat.cast_min, Rat.cast_max]
  rw [hIcc] at hF hM
  have hlen : (0 : ℝ) ≤ ((|b - a| / count : ℚ) : ℝ) := by positivity
  have herror := chunks_error hF hM (by exact_mod_cast hdx : (0 : ℝ) < dx) hlen count hwidth.ge
  rw [← hwidth] at herror
  have hbound : count * (K * (dx : ℝ) * ((|b - a| / count : ℚ) : ℝ) / 2 + M * dx) =
      cutError K M a b dx count := by
    unfold cutError
    push_cast
    field_simp
  have hsign : |(((if a ≤ b then 1 else -1 : ℚ) : ℚ) : ℝ)| = 1 := by
    split_ifs <;> norm_num
  rw [hbound, ← cast_threadSum hf] at herror
  unfold Approximates
  rw [integral_min_max]
  generalize (if a ≤ b then 1 else -1 : ℚ) = σ at hsign ⊢
  generalize threadSum func dx (|b - a| / count) (min a b) count = total at herror ⊢
  have hsplit : ((total * σ * dx : ℚ) : ℝ) -
      σ * ∫ x in ((min a b : ℚ) : ℝ)..(max a b : ℚ), F x =
        σ * (total * dx - ∫ x in ((min a b : ℚ) : ℝ)..(max a b : ℚ), F x) := by
    push_cast
    ring
  rw [hsplit, abs_mul, hsign, one_mul]
  exact herror

/-- The value of a call with a positive step. -/
theorem integralValue_error (hf : ∀ x : ℚ, F x = func x)
    (hF : LipschitzOnWith K F (uIcc (a : ℝ) b)) (hM : ∀ x ∈ uIcc (a : ℝ) b, |F x| ≤ M) {eps : ℚ}
    (heps : 0 < eps) (hab : a ≠ b) {numThreads : ℕ} (hpos : 0 < numThreads) :
    Approximates F a b (cutError K M a b (|b - a| * eps) numThreads)
      (integralValue func a b eps numThreads) := by
  have hdx : 0 < |b - a| * eps := mul_pos (abs_pos.mpr (sub_ne_zero.mpr hab.symm)) heps
  have herror := cut_error hf hF hM hdx hpos
  simp only [integralValue, localSplit_eq, Int.cast_natCast]
  exact herror

/-- Without an interval the value 0 is exact. -/
theorem zero_error (F : ℝ → ℝ) (K : ℝ≥0) (M : ℝ) (a eps : ℚ) (chunks : ℕ) :
    Approximates F a a (cutError K M a a (|a - a| * eps) chunks) 0 := by
  simp [Approximates, cutError]

end

/-- Every call on valid arguments comes back, on one value whichever way its
threads are placed, and so does the version without threads. Both values are as
close to the integral as the step allows, for limits in either order. -/
theorem calls_approximate (func : ℚ → ℚ) {F : ℝ → ℝ} (hf : ∀ x : ℚ, F x = func x) {a b : ℚ}
    {K : ℝ≥0} {M : ℝ} (hF : LipschitzOnWith K F (uIcc (a : ℝ) b))
    (hM : ∀ x ∈ uIcc (a : ℝ) b, |F x| ≤ M) {eps : ℚ} (heps : 0 < eps) {numThreads : ℕ}
    (hpos : 0 < numThreads) (hlt : numThreads < 2 ^ 31) {numLogicCpu : ℤ}
    (hcpu : numLogicCpu < 2 ^ 31) :
    (∃ value,
      (∀ v, Computes numLogicCpu ⟨a, b, some func, eps, numThreads⟩ v ↔ v = some value) ∧
      (∃ passes, ∀ fuel, passes ≤ fuel → integral fuel a b func eps numThreads = some value) ∧
      Approximates F a b (cutError K M a b (|b - a| * eps) numThreads) value) ∧
    ∃ value,
      (∃ passes, ∀ fuel, passes ≤ fuel → hpcSimpleIntegral fuel a b func eps = some value) ∧
      Approximates F a b (cutError K M a b (|b - a| * eps) 1) value := by
  by_cases hab : a = b
  · subst hab
    have hvalid : verifierIntArg ⟨a, a, some func, eps, numThreads⟩ = true := by
      simp [verifierIntArg, hpos, heps.ne']
    have hint : toInt numThreads = numThreads :=
      toInt_of_lt (Int.natCast_nonneg _) (by exact_mod_cast hlt)
    have hcall : ∀ fuel, hpcIntegral fuel numLogicCpu ⟨a, a, some func, eps, numThreads⟩ =
        some (some 0) := by
      intro fuel
      unfold hpcIntegral
      rw [if_pos hvalid, hint]
      simp only [integralLinear_self fuel a func eps (Int.natCast_pos.mpr hpos), Option.map_some]
    refine ⟨⟨0, fun v => ?_, ⟨0, fun fuel _ => integral_self fuel a func eps numThreads⟩,
      zero_error F K M a eps numThreads⟩,
      0, ⟨0, fun fuel _ => hpcSimpleIntegral_self fuel a func eps⟩, zero_error F K M a eps 1⟩
    simp only [Computes, hcall, exists_const, Option.some.injEq, eq_comm]
  · have hwidth : 0 < |b - a| := abs_pos.mpr (sub_ne_zero.mpr (Ne.symm hab))
    obtain ⟨passes, hpasses⟩ := integral_eq func numThreads hab heps hpos
    obtain ⟨simplePasses, hsimple⟩ := hpcSimpleIntegral_pos_eq func 1 hab heps
    have herror := cut_error hf hF hM (mul_pos hwidth heps) one_pos
    refine ⟨⟨integralValue func a b eps numThreads,
      fun v => computes_iff func hab heps hpos hlt hcpu,
      ⟨passes, fun fuel hfuel => (hpasses fuel).trans (if_pos hfuel)⟩,
      integralValue_error hf hF hM heps hab hpos⟩,
      _, ⟨simplePasses, fun fuel hfuel => (hsimple fuel).trans (if_pos hfuel)⟩, ?_⟩
    simp only [threadSum, Finset.sum_range_one, Nat.cast_one, div_one, Nat.cast_zero, zero_mul,
      add_zero] at herror
    simp only [localSplit_eq]
    exact herror

/-- `funcX` on the unit interval, whose integral is a half. -/
theorem calls_approximate_funcX :
    (∃ value,
      (∀ v, Computes 8 ⟨0, 1, some funcX, 1 / 10, 2⟩ v ↔ v = some value) ∧
      (∃ passes, ∀ fuel, passes ≤ fuel → integral fuel 0 1 funcX (1 / 10) (2 : ℕ) = some value) ∧
      Approximates id 0 1 (cutError 1 1 0 1 (|1 - 0| * (1 / 10)) 2) value) ∧
    ∃ value,
      (∃ passes, ∀ fuel, passes ≤ fuel → hpcSimpleIntegral fuel 0 1 funcX (1 / 10) = some value) ∧
      Approximates id 0 1 (cutError 1 1 0 1 (|1 - 0| * (1 / 10)) 1) value := by
  have hM : ∀ x ∈ uIcc (((0 : ℚ) : ℚ) : ℝ) ((1 : ℚ) : ℝ), |id x| ≤ 1 := by
    intro x hx
    rw [Rat.cast_zero, Rat.cast_one, uIcc_of_le zero_le_one] at hx
    exact abs_le.mpr ⟨by linarith [hx.1, id_eq x], hx.2⟩
  exact calls_approximate funcX (fun _ => rfl) LipschitzWith.id.lipschitzOnWith hM (by norm_num)
    (by norm_num) (by norm_num) (by norm_num)

end TaskLunev.IntegralError
