import TaskLunev.SampledSums
import Mathlib.Data.Rat.Floor

/-!
# The local integral

`hpc.c` over exact rationals, built as it is configured: scalar loops and
dummy threads. A `double` is a rational or NaN, and every loop has a number of
passes it may take. Threads are created in order and joined in order, so their
loops are run one after the other. The topology functions only choose the CPUs
the threads run on. They are taken to succeed, and what they leave here is the
number of logical CPUs.
-/
namespace TaskLunev.IntegralModel
open SampledSums

/-- `none` is NaN. -/
abbrev Double := Option ℚ

/-- A value converted to `int`, which wraps at 2^32. -/
@[irreducible] def toInt (x : ℤ) : ℤ := Int.bmod x (2 ^ 32)

/-- A value converted to `unsigned`. -/
@[irreducible] def toUnsigned (x : ℤ) : ℕ := (x % 2 ^ 32).toNat

theorem toInt_range (x : ℤ) : -2 ^ 31 ≤ toInt x ∧ toInt x < 2 ^ 31 := by
  have hlo : -(((2 ^ 32 : ℕ) : ℤ) / 2) ≤ Int.bmod x (2 ^ 32) := Int.le_bmod (by decide)
  have hhi : Int.bmod x (2 ^ 32) < (((2 ^ 32 : ℕ) : ℤ) + 1) / 2 := Int.bmod_lt (by decide)
  unfold toInt
  omega

theorem toInt_of_range {x : ℤ} (hlo : -2 ^ 31 ≤ x) (hhi : x < 2 ^ 31) : toInt x = x := by
  unfold toInt
  exact Int.bmod_eq_of_le (by omega) (by omega)

theorem toInt_of_lt {x : ℤ} (hlo : 0 ≤ x) (hhi : x < 2 ^ 31) : toInt x = x :=
  toInt_of_range (by omega) hhi

theorem toInt_wrapped {x : ℤ} (hlo : 2 ^ 31 ≤ x) (hhi : x < 2 ^ 32) : toInt x = x - 2 ^ 32 := by
  have hsub : Int.bmod (x - ((2 ^ 32 : ℕ) : ℤ)) (2 ^ 32) = Int.bmod x (2 ^ 32) :=
    Int.sub_bmod_right ..
  unfold toInt
  rw [← hsub]
  exact Int.bmod_eq_of_le (by omega) (by omega)

theorem toInt_add_toInt (x y : ℤ) : toInt (x + toInt y) = toInt (x + y) := by
  unfold toInt
  exact Int.add_bmod_bmod

/-- An `unsigned` value survives the way through `int`. -/
theorem toUnsigned_toInt {k : ℕ} (hk : k < 2 ^ 32) : toUnsigned (toInt k) = k := by
  have hmod : Int.bmod k (2 ^ 32) % ((2 ^ 32 : ℕ) : ℤ) = k % ((2 ^ 32 : ℕ) : ℤ) := Int.bmod_emod
  have hcast : ((2 ^ 32 : ℕ) : ℤ) = 2 ^ 32 := by norm_num
  rw [hcast] at hmod
  unfold toUnsigned toInt
  rw [hmod]
  omega

theorem toInt_eq_zero_iff {k : ℕ} (hk : k < 2 ^ 32) : toInt k = 0 ↔ k = 0 := by
  constructor
  · intro hzero
    rw [← toUnsigned_toInt hk, hzero]
    simp [toUnsigned]
  · rintro rfl
    exact toInt_of_lt le_rfl (by norm_num)

/-- `func` is `none` for a null pointer. -/
structure HpcIntArg where
  a : ℚ
  b : ℚ
  func : Option (ℚ → ℚ)
  eps : ℚ
  numThreads : ℕ

def verifierIntArg (arg : HpcIntArg) : Bool :=
  arg.func.isSome && decide (arg.numThreads > 0) && decide (arg.eps ≠ 0)

/-- The scalar loop of one thread. -/
def pthreadCalcIntegral (fuel : ℕ) (func : ℚ → ℚ) (dx a b : ℚ) : Option ℚ :=
  sampleLoop func dx b fuel a 0

/-- The threads of one creation loop, which moves `a` on by `len` for each.
The sum of their results, and the `a` the loop leaves. -/
def runThreads (fuel : ℕ) (func : ℚ → ℚ) (dx len : ℚ) : ℕ → ℚ → Option (ℚ × ℚ)
  | 0, a => some (0, a)
  | count + 1, a => do
      let result ← pthreadCalcIntegral fuel func dx a (a + len)
      let (rest, last) ← runThreads fuel func dx len count (a + len)
      return (result + rest, last)

/-- The interval with its lower end first, and how it is cut. -/
structure LocalSplit where
  a : ℚ
  sign : ℚ
  dx : ℚ
  len : ℚ
  deriving DecidableEq, Repr

def localSplit (a b eps : ℚ) (numThreads : ℤ) : LocalSplit :=
  let signInt := decide (a ≤ b)
  let (a, b) := if signInt then (a, b) else (b, a)
  { a
    sign := 2 * (if signInt then 1 else 0) - 1
    dx := (b - a) * eps
    len := (b - a) / numThreads }

/-- `none` when a loop takes too many passes or a record outside `int_args` is
written. The records of the dummy threads start at index `num_threads`. -/
def integralLinear (fuel : ℕ) (a b : ℚ) (func : ℚ → ℚ) (eps : ℚ) (numThreads numLogicCpu : ℤ) :
    Option ℚ := do
  let numDummy := if numThreads < numLogicCpu then toInt (numLogicCpu - numThreads) else 0
  let s := localSplit a b eps numThreads
  let (res, a) ← runThreads fuel func s.dx s.len numThreads.toNat s.a
  if numDummy ≠ 0 then
    if numThreads < 0 ∧ numThreads < toInt (numThreads + numDummy) then none
    else
      let dxDummy := s.dx * numThreads / numDummy
      let lenDummy := s.len * numThreads / numDummy
      let _ ← runThreads fuel func dxDummy lenDummy numDummy.toNat (a - s.len * numThreads)
      return res * s.sign * s.dx
  else return res * s.sign * s.dx

def hpcIntegral (fuel : ℕ) (numLogicCpu : ℤ) (arg : HpcIntArg) : Option Double :=
  if verifierIntArg arg then
    match arg.func with
    | none => some none
    | some func =>
        (integralLinear fuel arg.a arg.b func arg.eps (toInt arg.numThreads) numLogicCpu).map some
  else some none

/-- A call on a machine with so many CPUs comes back with `value`. -/
def Computes (numLogicCpu : ℤ) (arg : HpcIntArg) (value : Double) : Prop :=
  ∃ fuel, hpcIntegral fuel numLogicCpu arg = some value

/-! ## What a call computes -/

theorem localSplit_eq (a b eps : ℚ) (numThreads : ℤ) :
    localSplit a b eps numThreads =
      ⟨min a b, if a ≤ b then 1 else -1, |b - a| * eps, |b - a| / numThreads⟩ := by
  unfold localSplit
  by_cases hab : a ≤ b
  · simp only [hab, decide_true, if_true, min_eq_left, abs_of_nonneg (sub_nonneg.mpr hab)]
    norm_num
  · have hba : b ≤ a := (not_le.mp hab).le
    simp only [hab, decide_false, if_false, min_eq_right hba, abs_sub_comm b a,
      abs_of_nonneg (sub_nonneg.mpr hba), Bool.false_eq_true]
    norm_num

/-- The sum over the chunks of `count` threads, the first one at `a`. -/
def threadSum (func : ℚ → ℚ) (dx len a : ℚ) (count : ℕ) : ℚ :=
  ∑ i ∈ Finset.range count, chunkSum func dx len (a + i * len)

/-- The value of a call that comes back. -/
def integralValue (func : ℚ → ℚ) (a b eps : ℚ) (numThreads : ℕ) : ℚ :=
  let s := localSplit a b eps numThreads
  threadSum func s.dx s.len s.a numThreads * s.sign * s.dx

theorem runThreads_eq (func : ℚ → ℚ) {dx : ℚ} (hdx : 0 < dx) (len : ℚ) (fuel count : ℕ)
    (a : ℚ) :
    runThreads fuel func dx len count a =
      if count = 0 ∨ ⌈len / dx⌉₊ ≤ fuel then
        some (threadSum func dx len a count, a + count * len)
      else none := by
  induction count generalizing a with
  | zero => simp [runThreads, threadSum]
  | succ count ih =>
      have hchunk : a + len - a = len := by ring
      have hsum : threadSum func dx len a (count + 1) =
          chunkSum func dx len a + threadSum func dx len (a + len) count := by
        unfold threadSum
        rw [Finset.sum_range_succ', add_comm]
        congr 1
        · simp
        · apply Finset.sum_congr rfl
          intro i _
          push_cast
          congr 1
          ring
      simp only [runThreads, pthreadCalcIntegral, sampleLoop_eq func hdx, hchunk, ih]
      by_cases hfuel : ⌈len / dx⌉₊ ≤ fuel
      · simp only [hfuel, or_true, if_true, zero_add, Option.bind_eq_bind, Option.bind_some,
          Option.pure_def, hsum]
        push_cast
        congr 2
        ring
      · simp [hfuel]

/-- With a positive step the loops of a call take some number of passes, and a
call that has them comes back. -/
theorem integralLinear_eq (func : ℚ → ℚ) {a b eps : ℚ} (hab : a ≠ b) (heps : 0 < eps)
    {numThreads : ℕ} (hpos : 0 < numThreads) {numLogicCpu : ℤ} (hcpu : numLogicCpu < 2 ^ 31) :
    ∃ passes, ∀ fuel, integralLinear fuel a b func eps numThreads numLogicCpu =
      if passes ≤ fuel then some (integralValue func a b eps numThreads) else none := by
  have hwidth : 0 < |b - a| := abs_pos.mpr (sub_ne_zero.mpr hab.symm)
  have hdx : 0 < (localSplit a b eps numThreads).dx := by
    rw [localSplit_eq]
    exact mul_pos hwidth heps
  have hcount : ((numThreads : ℤ).toNat = 0) = False := by
    rw [Int.toNat_natCast]
    exact eq_false hpos.ne'
  unfold integralValue integralLinear
  simp only
  generalize localSplit a b eps numThreads = s at hdx ⊢
  by_cases hdummy : (numThreads : ℤ) < numLogicCpu
  · have hnum : toInt (numLogicCpu - numThreads) = numLogicCpu - numThreads :=
      toInt_of_lt (by omega) (by omega)
    have hnum_pos : (0 : ℚ) < ((numLogicCpu - numThreads : ℤ) : ℚ) := by
      exact_mod_cast (show (0 : ℤ) < numLogicCpu - numThreads by omega)
    have hdx_dummy : 0 < s.dx * ((numThreads : ℤ) : ℚ) / ((numLogicCpu - numThreads : ℤ) : ℚ) :=
      div_pos (mul_pos hdx (by exact_mod_cast hpos)) hnum_pos
    have hnum_ne : numLogicCpu - numThreads ≠ 0 := by omega
    have hnum_count : ((numLogicCpu - numThreads : ℤ).toNat = 0) = False :=
      eq_false (by omega)
    have hsign : ¬ ((numThreads : ℤ) < 0 ∧
        (numThreads : ℤ) < toInt (numThreads + (numLogicCpu - numThreads))) := by omega
    simp only [if_pos hdummy, hnum, hnum_ne, ne_eq, not_false_iff, if_true, if_neg hsign,
      runThreads_eq func hdx, runThreads_eq func hdx_dummy, hcount, hnum_count, false_or]
    generalize ⌈s.len / s.dx⌉₊ = real
    generalize ⌈s.len * ((numThreads : ℤ) : ℚ) / ((numLogicCpu - numThreads : ℤ) : ℚ) /
      (s.dx * ((numThreads : ℤ) : ℚ) / ((numLogicCpu - numThreads : ℤ) : ℚ))⌉₊ = dummy
    refine ⟨max real dummy, fun fuel => ?_⟩
    by_cases hreal : real ≤ fuel
    · by_cases hd : dummy ≤ fuel
      · simp [hreal, hd]
      · simp [hreal, hd]
    · simp [hreal]
  · simp only [if_neg hdummy, ne_eq, not_true_eq_false, if_false, runThreads_eq func hdx, hcount,
      false_or]
    refine ⟨⌈s.len / s.dx⌉₊, fun fuel => ?_⟩
    by_cases hreal : ⌈s.len / s.dx⌉₊ ≤ fuel
    · simp [hreal]
    · simp [hreal]

/-- What a valid call comes back with. -/
theorem computes_iff (func : ℚ → ℚ) {a b eps : ℚ} (hab : a ≠ b) (heps : 0 < eps)
    {numThreads : ℕ} (hpos : 0 < numThreads) (hlt : numThreads < 2 ^ 31) {numLogicCpu : ℤ}
    (hcpu : numLogicCpu < 2 ^ 31) {value : Double} :
    Computes numLogicCpu ⟨a, b, some func, eps, numThreads⟩ value ↔
      value = some (integralValue func a b eps numThreads) := by
  obtain ⟨passes, hpasses⟩ := integralLinear_eq func hab heps hpos hcpu
  have hvalid : verifierIntArg ⟨a, b, some func, eps, numThreads⟩ = true := by
    simp [verifierIntArg, hpos, heps.ne']
  have hcall : ∀ fuel, hpcIntegral fuel numLogicCpu ⟨a, b, some func, eps, numThreads⟩ =
      if passes ≤ fuel then some (some (integralValue func a b eps numThreads)) else none := by
    intro fuel
    unfold hpcIntegral
    rw [if_pos hvalid, toInt_of_lt (Int.natCast_nonneg _) (by exact_mod_cast hlt)]
    simp only [hpasses]
    split_ifs <;> rfl
  constructor
  · rintro ⟨fuel, hfuel⟩
    rw [hcall] at hfuel
    split_ifs at hfuel
    exact (Option.some.inj hfuel).symm
  · rintro rfl
    exact ⟨passes, (hcall passes).trans (if_pos (le_refl _))⟩

/-- With a negative thread count the records of the dummy threads lie in front
of `int_args`. -/
theorem integralLinear_of_neg (fuel : ℕ) (a b : ℚ) (func : ℚ → ℚ) (eps : ℚ) {numThreads : ℤ}
    (hlo : -2 ^ 31 ≤ numThreads) (hneg : numThreads < 0) {numLogicCpu : ℤ}
    (hcpu_pos : 0 < numLogicCpu) (hcpu : numLogicCpu < 2 ^ 31) :
    integralLinear fuel a b func eps numThreads numLogicCpu = none := by
  have hdummy : toInt (numLogicCpu - numThreads) ≠ 0 := by
    by_cases hsmall : numLogicCpu - numThreads < 2 ^ 31
    · rw [toInt_of_lt (by omega) hsmall]
      omega
    · rw [toInt_wrapped (by omega) (by omega)]
      omega
  have htotal : toInt (numThreads + toInt (numLogicCpu - numThreads)) = numLogicCpu := by
    rw [toInt_add_toInt, add_sub_cancel]
    exact toInt_of_lt hcpu_pos.le hcpu
  have hlt : numThreads < numLogicCpu := by omega
  unfold integralLinear
  simp only [hlt, if_true, hdummy, ne_eq, not_false_iff, hneg, htotal, and_self]
  generalize localSplit a b eps numThreads = s
  cases runThreads fuel func s.dx s.len numThreads.toNat s.a <;> rfl

/-- From 2^31 threads on the thread count is negative as an `int`, and no call
comes back. -/
theorem not_computes (func : ℚ → ℚ) (a b : ℚ) {eps : ℚ} (heps : eps ≠ 0) {numThreads : ℕ}
    (hge : 2 ^ 31 ≤ numThreads) (hlt : numThreads < 2 ^ 32) {numLogicCpu : ℤ}
    (hcpu_pos : 0 < numLogicCpu) (hcpu : numLogicCpu < 2 ^ 31) (value : Double) :
    ¬ Computes numLogicCpu ⟨a, b, some func, eps, numThreads⟩ value := by
  rintro ⟨fuel, hfuel⟩
  have hvalid : verifierIntArg ⟨a, b, some func, eps, numThreads⟩ = true := by
    have hpos : 0 < numThreads := by omega
    simp [verifierIntArg, hpos, heps]
  have hint : toInt numThreads = numThreads - 2 ^ 32 :=
    toInt_wrapped (by exact_mod_cast hge) (by exact_mod_cast hlt)
  unfold hpcIntegral at hfuel
  rw [if_pos hvalid, hint] at hfuel
  simp only [integralLinear_of_neg fuel a b func eps
    (show (-2 ^ 31 : ℤ) ≤ numThreads - 2 ^ 32 by omega)
    (show (numThreads : ℤ) - 2 ^ 32 < 0 by omega) hcpu_pos hcpu, Option.map_none,
    reduceCtorEq] at hfuel

end TaskLunev.IntegralModel
