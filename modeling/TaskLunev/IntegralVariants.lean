import TaskLunev.IntegralModel

/-!
# Three ways to one integral

`hpc.c` computes an integral with threads, with threads and dummies beside
them, and with one loop. When the chunk of a thread is a whole number of steps,
the chunks laid end to end are the points of the one loop.
-/
namespace TaskLunev.IntegralVariants
open SampledSums IntegralModel

/-- The threads without dummies. -/
def integral (fuel : ℕ) (a b : ℚ) (func : ℚ → ℚ) (eps : ℚ) (numThreads : ℤ) : Option ℚ := do
  let s := localSplit a b eps numThreads
  let (res, _) ← runThreads fuel func s.dx s.len numThreads.toNat s.a
  return res * s.sign * s.dx

def hpcSimpleIntegral (fuel : ℕ) (a b : ℚ) (func : ℚ → ℚ) (eps : ℚ) : Option ℚ := do
  let signInt := decide (a ≤ b)
  let (a, b) := if signInt then (a, b) else (b, a)
  let dx := (b - a) * eps
  let res ← sampleLoop func dx b fuel a 0
  return res * (2 * (if signInt then 1 else 0) - 1) * dx

/-- The one loop runs over the interval that the threads share. -/
theorem hpcSimpleIntegral_eq (fuel : ℕ) (a b : ℚ) (func : ℚ → ℚ) (eps : ℚ) (numThreads : ℤ) :
    hpcSimpleIntegral fuel a b func eps =
      let s := localSplit a b eps numThreads
      (sampleLoop func s.dx (s.a + |b - a|) fuel s.a 0).map fun res => res * s.sign * s.dx := by
  unfold hpcSimpleIntegral localSplit
  by_cases hab : a ≤ b
  · simp only [hab, decide_true, if_true, abs_of_nonneg (sub_nonneg.mpr hab), add_sub_cancel]
    cases sampleLoop func ((b - a) * eps) b fuel a 0 <;> rfl
  · have hba : b ≤ a := (not_le.mp hab).le
    simp only [hab, decide_false, if_false, abs_sub_comm b a,
      abs_of_nonneg (sub_nonneg.mpr hba), Bool.false_eq_true, add_sub_cancel]
    cases sampleLoop func ((a - b) * eps) a fuel b 0 <;> rfl

/-! ## An empty interval -/

/-- Threads with chunks of no length take no pass. -/
theorem runThreads_zero_len (fuel : ℕ) (func : ℚ → ℚ) (dx : ℚ) (count : ℕ) (a : ℚ) :
    runThreads fuel func dx 0 count a = some (0, a) := by
  induction count with
  | zero => rfl
  | succ count ih =>
      rw [runThreads, pthreadCalcIntegral, sampleLoop_of_le func dx (add_zero a).le, add_zero, ih]
      simp only [Option.bind_eq_bind, Option.bind_some, add_zero, Option.pure_def]

theorem localSplit_self (a eps : ℚ) (numThreads : ℤ) :
    localSplit a a eps numThreads = ⟨a, 1, 0, 0⟩ := by
  rw [localSplit_eq, if_pos (le_refl a), min_self, sub_self, abs_zero, zero_mul, zero_div]

theorem integral_self (fuel : ℕ) (a : ℚ) (func : ℚ → ℚ) (eps : ℚ) (numThreads : ℤ) :
    integral fuel a a func eps numThreads = some 0 := by
  unfold integral
  simp only [localSplit_self, runThreads_zero_len, Option.bind_eq_bind, Option.bind_some,
    mul_zero, Option.pure_def]

theorem integralLinear_self (fuel : ℕ) (a : ℚ) (func : ℚ → ℚ) (eps : ℚ) {numThreads : ℤ}
    (hpos : 0 < numThreads) (numLogicCpu : ℤ) :
    integralLinear fuel a a func eps numThreads numLogicCpu = some 0 := by
  have hsign : ¬ (numThreads < 0) := by omega
  unfold integralLinear
  simp only [localSplit_self, runThreads_zero_len, hsign, false_and, if_false, zero_mul,
    zero_div, Option.bind_eq_bind, Option.bind_some, mul_zero, Option.pure_def, ite_self]

theorem hpcSimpleIntegral_self (fuel : ℕ) (a : ℚ) (func : ℚ → ℚ) (eps : ℚ) :
    hpcSimpleIntegral fuel a a func eps = some 0 := by
  rw [hpcSimpleIntegral_eq fuel a a func eps 1, localSplit_self]
  simp only [sub_self, abs_zero, add_zero, sampleLoop_of_le func 0 (le_refl a), Option.map_some,
    mul_zero]

/-! ## An interval with points -/

section
variable (func : ℚ → ℚ) (numThreads : ℕ) {a b eps : ℚ}

theorem localSplit_dx_pos (hab : a ≠ b) (heps : 0 < eps) :
    0 < (localSplit a b eps numThreads).dx := by
  rw [localSplit_eq]
  exact mul_pos (abs_pos.mpr (sub_ne_zero.mpr hab.symm)) heps

theorem integral_eq (hab : a ≠ b) (heps : 0 < eps) (hpos : 0 < numThreads) :
    ∃ passes, ∀ fuel, integral fuel a b func eps numThreads =
      if passes ≤ fuel then some (integralValue func a b eps numThreads) else none := by
  have hdx : 0 < (localSplit a b eps numThreads).dx :=
    localSplit_dx_pos numThreads hab heps
  have hcount : ((numThreads : ℤ).toNat = 0) = False := by
    rw [Int.toNat_natCast]
    exact eq_false hpos.ne'
  unfold integralValue integral
  simp only
  generalize localSplit a b eps numThreads = s at hdx ⊢
  refine ⟨⌈s.len / s.dx⌉₊, fun fuel => ?_⟩
  simp only [runThreads_eq func hdx, hcount, false_or]
  by_cases hfuel : ⌈s.len / s.dx⌉₊ ≤ fuel
  · simp [hfuel]
  · simp [hfuel]

theorem hpcSimpleIntegral_pos_eq (hab : a ≠ b) (heps : 0 < eps) :
    ∃ passes, ∀ fuel, hpcSimpleIntegral fuel a b func eps =
      if passes ≤ fuel then
        let s := localSplit a b eps numThreads
        some (chunkSum func s.dx |b - a| s.a * s.sign * s.dx)
      else none := by
  have hdx : 0 < (localSplit a b eps numThreads).dx :=
    localSplit_dx_pos numThreads hab heps
  refine ⟨⌈|b - a| / (localSplit a b eps numThreads).dx⌉₊, fun fuel => ?_⟩
  rw [hpcSimpleIntegral_eq fuel a b func eps numThreads]
  simp only [sampleLoop_eq func hdx, add_sub_cancel_left, zero_add]
  split_ifs <;> rfl

/-- Chunks of whole steps: the threads sample the points of the one loop. -/
theorem integralValue_eq (hab : a ≠ b) (heps : 0 < eps) (hpos : 0 < numThreads) {steps : ℕ}
    (hsteps : 1 / (numThreads * eps) = steps) :
    integralValue func a b eps numThreads =
      let s := localSplit a b eps numThreads
      chunkSum func s.dx |b - a| s.a * s.sign * s.dx := by
  have hdx : 0 < (localSplit a b eps numThreads).dx :=
    localSplit_dx_pos numThreads hab heps
  have hthreads : (numThreads : ℚ) ≠ 0 := by exact_mod_cast hpos.ne'
  have hlen : (localSplit a b eps numThreads).len =
      steps * (localSplit a b eps numThreads).dx := by
    simp only [localSplit_eq, ← hsteps, Int.cast_natCast]
    field_simp
  have hwidth : |b - a| = (numThreads * steps : ℕ) * (localSplit a b eps numThreads).dx := by
    simp only [localSplit_eq, Nat.cast_mul, ← hsteps]
    field_simp
  simp only [integralValue, threadSum]
  rw [hlen, sum_chunkSum func hdx, ← hwidth]

end

/-- For each function, for limits in either order, for a step that cuts the
chunk of a thread into whole parts and on any number of logical CPUs (an
`int`), the three come back with one value. -/
theorem variants_agree (func : ℚ → ℚ) (a b : ℚ) {eps : ℚ} (heps : 0 < eps) {numThreads : ℤ}
    (hpos : 1 ≤ numThreads) (hsteps : ∃ steps : ℤ, 1 / (numThreads * eps) = steps)
    {numLogicCpu : ℤ} (hcpu : numLogicCpu < 2 ^ 31) :
    ∃ value passes, ∀ fuel, passes ≤ fuel →
      integral fuel a b func eps numThreads = some value ∧
      integralLinear fuel a b func eps numThreads numLogicCpu = some value ∧
      hpcSimpleIntegral fuel a b func eps = some value := by
  by_cases hab : a = b
  · subst hab
    exact ⟨0, 0, fun fuel _ => ⟨integral_self fuel a func eps numThreads,
      integralLinear_self fuel a func eps (by omega) numLogicCpu,
      hpcSimpleIntegral_self fuel a func eps⟩⟩
  · lift numThreads to ℕ using by omega
    have hthreads : 0 < numThreads := by omega
    obtain ⟨steps, hsteps⟩ := hsteps
    have hsteps_nonneg : 0 ≤ steps := by
      have hthreads_pos : (0 : ℚ) < ((numThreads : ℤ) : ℚ) := by exact_mod_cast hthreads
      have hsteps_pos : (0 : ℚ) < steps := hsteps ▸ one_div_pos.mpr (mul_pos hthreads_pos heps)
      exact_mod_cast hsteps_pos.le
    lift steps to ℕ using hsteps_nonneg
    obtain ⟨passes₁, hintegral⟩ := integral_eq func numThreads hab heps hthreads
    obtain ⟨passes₂, hlinear⟩ := integralLinear_eq func hab heps hthreads hcpu
    obtain ⟨passes₃, hsimple⟩ := hpcSimpleIntegral_pos_eq func numThreads hab heps
    refine ⟨integralValue func a b eps numThreads, max passes₁ (max passes₂ passes₃),
      fun fuel hfuel => ?_⟩
    simp only [max_le_iff] at hfuel
    refine ⟨(hintegral fuel).trans (if_pos hfuel.1), (hlinear fuel).trans (if_pos hfuel.2.1), ?_⟩
    rw [hsimple fuel, if_pos hfuel.2.2, integralValue_eq func numThreads hab heps hthreads (by
      simpa only [Int.cast_natCast] using hsteps)]

/-- Two threads and two dummies on four CPUs, with the upper limit first. -/
theorem variants_agree_two_threads :
    ∃ value passes, ∀ fuel, passes ≤ fuel →
      integral fuel 3 1 (fun x => x * x) (1 / 4) 2 = some value ∧
      integralLinear fuel 3 1 (fun x => x * x) (1 / 4) 2 4 = some value ∧
      hpcSimpleIntegral fuel 3 1 (fun x => x * x) (1 / 4) = some value :=
  variants_agree (fun x => x * x) 3 1 (by norm_num) (by omega) ⟨2, by norm_num⟩ (by norm_num)

end TaskLunev.IntegralVariants
