import TaskLunev.IntegralVariants

/-!
# What the threads sample past their chunks

Every thread goes on until it has passed the end of its own chunk, so all
together take up to one step more each than the interval is long. For a constant
function this is the whole error of the integral.
-/
namespace TaskLunev.IntegralOvershoot
open SampledSums IntegralModel IntegralVariants

section
variable {a b eps : ℚ} {numThreads : ℕ}

/-- The number of steps in the chunk of a thread does not depend on the interval. -/
theorem chunk_steps (hab : a < b) (numThreads : ℕ) (eps : ℚ) :
    (localSplit a b eps numThreads).len / (localSplit a b eps numThreads).dx =
      1 / (numThreads * eps) := by
  have hwidth : |b - a| ≠ 0 := abs_ne_zero.mpr (sub_pos.mpr hab).ne'
  rw [localSplit_eq]
  simp only [Int.cast_natCast]
  rw [div_div, mul_left_comm, ← div_div, div_self hwidth]

/-- Every thread adds the constant once for each of its steps. -/
theorem threadSum_const (c dx len a : ℚ) (count : ℕ) :
    threadSum (fun _ => c) dx len a count = count * ⌈len / dx⌉₊ * c := by
  simp only [threadSum, chunkSum, Finset.sum_const, Finset.card_range, nsmul_eq_mul]
  ring

theorem integralValue_const (hab : a < b) (c : ℚ) :
    integralValue (fun _ => c) a b eps numThreads =
      c * (b - a) * (numThreads * eps * ⌈1 / (numThreads * eps)⌉₊) := by
  have habs : |b - a| = b - a := abs_of_pos (sub_pos.mpr hab)
  simp only [integralValue, threadSum_const, chunk_steps hab]
  rw [localSplit_eq, if_pos hab.le, habs]
  ring

/-- Steps rounded up to a whole number cover the chunk, and less than one step more. -/
theorem ceil_steps {step : ℚ} (hstep : 0 < step) :
    1 ≤ step * ⌈1 / step⌉₊ ∧ step * ⌈1 / step⌉₊ < 1 + step := by
  have hone : step * (1 / step) = 1 := mul_one_div_cancel hstep.ne'
  constructor
  · calc (1 : ℚ) = step * (1 / step) := hone.symm
      _ ≤ step * ⌈1 / step⌉₊ := mul_le_mul_of_nonneg_left (Nat.le_ceil _) hstep.le
  · calc step * (⌈1 / step⌉₊ : ℚ) < step * (1 / step + 1) :=
          mul_lt_mul_of_pos_left (Nat.ceil_lt_add_one (one_div_pos.mpr hstep).le) hstep
      _ = 1 + step := by rw [mul_add, hone, mul_one]

/-- The integral of a constant is never too small, and too large by less than
one step for each thread. -/
theorem constant_overshoot (hab : a < b) (hpos : 1 ≤ numThreads) (heps : 0 < eps) {c : ℚ}
    (hc : 0 < c) :
    ∃ passes result, (∀ fuel, passes ≤ fuel →
        integral fuel a b (fun _ => c) eps numThreads = some result) ∧
      c * (b - a) ≤ result ∧ result < c * (b - a) * (1 + numThreads * eps) := by
  obtain ⟨passes, hpasses⟩ := integral_eq (fun _ => c) numThreads hab.ne heps hpos
  have hthreads : (0 : ℚ) < numThreads := by exact_mod_cast hpos
  obtain ⟨hlow, hhigh⟩ := ceil_steps (mul_pos hthreads heps)
  have harea : 0 < c * (b - a) := mul_pos hc (sub_pos.mpr hab)
  refine ⟨passes, integralValue (fun _ => c) a b eps numThreads,
    fun fuel hfuel => (hpasses fuel).trans (if_pos hfuel), ?_, ?_⟩
  · rw [integralValue_const hab]
    exact le_mul_of_one_le_right harea.le hlow
  · rw [integralValue_const hab]
    exact mul_lt_mul_of_pos_left hhigh harea

end

/-- Three threads with chunks of half a step. -/
theorem constant_overshoot_three :
    ∃ passes result, (∀ fuel, passes ≤ fuel →
        integral fuel 0 6 (fun _ => 5) (2 / 3) (3 : ℕ) = some result) ∧
      (5 : ℚ) * (6 - 0) ≤ result ∧ result < 5 * (6 - 0) * (1 + (3 : ℕ) * (2 / 3)) :=
  constant_overshoot (by norm_num) (by norm_num) (by norm_num) (by norm_num)

end TaskLunev.IntegralOvershoot
