import TaskLunev.IntegralModel
import Mathlib.Algebra.BigOperators.Fin

/-!
# The vector loop

Built with `VECT_CALC` a thread samples four points at a time and stops as soon
as the fourth is not below the end. Both loops are meant to sample the points
`a`, `a + dx`, ... below `b`, but the points of a row that is not full are left
out.
-/
namespace TaskLunev.IntegralVector
open SampledSums IntegralModel

/-- `_pthread_calc_integral` with `VECT_CALC`, four sums at a time. -/
def pthreadCalcIntegralVect (fuel : ℕ) (func : ℚ → ℚ) (dx a b : ℚ) : Option ℚ := do
  let x := fun i : Fin 4 => a + (i : ℕ) * dx
  let res ← unrolledLoop func ((4 : ℕ) * dx) b fuel x fun _ => 0
  return res 0 + res 1 + res 2 + res 3

section
variable {a b dx : ℚ}

/-- The sum over so many points. -/
def pointSum (func : ℚ → ℚ) (dx a : ℚ) (count : ℕ) : ℚ :=
  ∑ k ∈ Finset.range count, func (a + k * dx)

theorem pthreadCalcIntegral_eq (fuel : ℕ) (func : ℚ → ℚ) (hdx : 0 < dx) :
    pthreadCalcIntegral fuel func dx a b =
      if ⌈(b - a) / dx⌉₊ ≤ fuel then some (pointSum func dx a ⌈(b - a) / dx⌉₊) else none := by
  rw [pthreadCalcIntegral, sampleLoop_eq func hdx, zero_add]
  rfl

/-- The full rows of four. -/
theorem pthreadCalcIntegralVect_eq (fuel : ℕ) (func : ℚ → ℚ) (hdx : 0 < dx) :
    pthreadCalcIntegralVect fuel func dx a b =
      if ⌈(b - a) / dx⌉₊ / 4 ≤ fuel then
        some (pointSum func dx a (4 * (⌈(b - a) / dx⌉₊ / 4)))
      else none := by
  have hloop := unrolledLoop_eq func hdx b fuel a (fun _ : Fin 4 => 0)
  have hlanes := sum_lanes (fun j => func (a + j * dx)) 3 (⌈(b - a) / dx⌉₊ / 4)
  rw [pthreadCalcIntegralVect]
  simp only [hloop]
  split_ifs
  · rw [pointSum, ← hlanes, Fin.sum_univ_four]
    simp only [zero_add]
    rfl
  · rfl

/-- For every function both variants give the sum over exactly the points below
the end, if and only if the number of these points is a multiple of four. -/
theorem variants_sample_iff (a b : ℚ) (hdx : 0 < dx) :
    (∀ func : ℚ → ℚ, ∃ passes, ∀ fuel, passes ≤ fuel →
        pthreadCalcIntegralVect fuel func dx a b =
            some (pointSum func dx a ⌈(b - a) / dx⌉₊) ∧
          pthreadCalcIntegral fuel func dx a b =
            some (pointSum func dx a ⌈(b - a) / dx⌉₊)) ↔
      4 ∣ ⌈(b - a) / dx⌉₊ := by
  constructor
  · intro h
    -- the constant one counts the points
    obtain ⟨passes, hpasses⟩ := h fun _ => 1
    obtain ⟨hvect, -⟩ := hpasses (max passes ⌈(b - a) / dx⌉₊) (le_max_left _ _)
    have hfuel : ⌈(b - a) / dx⌉₊ ≤ max passes ⌈(b - a) / dx⌉₊ := le_max_right _ _
    rw [pthreadCalcIntegralVect_eq _ _ hdx, if_pos (by omega)] at hvect
    have hcount := Option.some.inj hvect
    simp only [pointSum, Finset.sum_const, Finset.card_range, nsmul_eq_mul, mul_one,
      Nat.cast_inj] at hcount
    exact ⟨⌈(b - a) / dx⌉₊ / 4, hcount.symm⟩
  · intro hfull func
    refine ⟨⌈(b - a) / dx⌉₊, fun fuel hfuel => ?_⟩
    rw [pthreadCalcIntegralVect_eq _ _ hdx, pthreadCalcIntegral_eq _ _ hdx,
      Nat.mul_div_cancel' hfull, if_pos hfuel, if_pos (by omega)]
    exact ⟨rfl, rfl⟩

end

/-- Eight points. -/
theorem variants_sample_eight :
    (∀ func : ℚ → ℚ, ∃ passes, ∀ fuel, passes ≤ fuel →
        pthreadCalcIntegralVect fuel func (1 / 4) 1 3 =
            some (pointSum func (1 / 4) 1 ⌈((3 : ℚ) - 1) / (1 / 4)⌉₊) ∧
          pthreadCalcIntegral fuel func (1 / 4) 1 3 =
            some (pointSum func (1 / 4) 1 ⌈((3 : ℚ) - 1) / (1 / 4)⌉₊)) ↔
      4 ∣ ⌈((3 : ℚ) - 1) / (1 / 4)⌉₊ :=
  variants_sample_iff 1 3 (by norm_num)

/-- One point, which the vector loop leaves out. -/
theorem vect_one_point : pthreadCalcIntegralVect 5 (fun _ => 1) 1 0 1 = some 0 ∧
    pthreadCalcIntegral 5 (fun _ => 1) 1 0 1 = some 1 := by
  decide +kernel

end TaskLunev.IntegralVector
