import TaskLunev.IntegralVariants

/-!
# When the sampling loops end

Every loop that the three integrals start is listed here with its limits and its
step, in the order of its start. The functions come back exactly when all their
loops end. A loop over an interval with points ends when its step is positive,
and the check of the arguments only asks that the step is not zero.
-/
namespace TaskLunev.IntegralTermination
open SampledSums IntegralModel IntegralVariants

/-- A sampling loop at its start. -/
structure Loop where
  a : ℚ
  b : ℚ
  dx : ℚ
  deriving DecidableEq, Repr

def Loop.Ends (func : ℚ → ℚ) (fuel : ℕ) (loop : Loop) : Prop :=
  (sampleLoop func loop.dx loop.b fuel loop.a 0).isSome = true

def Loop.Terminates (func : ℚ → ℚ) (loop : Loop) : Prop := ∃ fuel, loop.Ends func fuel

/-- The loops of one creation loop. -/
def threadLoops (dx len : ℚ) : ℕ → ℚ → List Loop
  | 0, _ => []
  | count + 1, a => ⟨a, a + len, dx⟩ :: threadLoops dx len count (a + len)

def integralLoops (a b eps : ℚ) (numThreads : ℤ) : List Loop :=
  let s := localSplit a b eps numThreads
  threadLoops s.dx s.len numThreads.toNat s.a

/-- Real and dummy threads. No dummy starts when its record is outside `int_args`. -/
def integralLinearLoops (a b eps : ℚ) (numThreads numLogicCpu : ℤ) : List Loop :=
  let numDummy := if numThreads < numLogicCpu then toInt (numLogicCpu - numThreads) else 0
  let s := localSplit a b eps numThreads
  let last := s.a + numThreads.toNat * s.len
  integralLoops a b eps numThreads ++
    if numDummy ≠ 0 then
      if numThreads < 0 ∧ numThreads < toInt (numThreads + numDummy) then []
      else threadLoops (s.dx * numThreads / numDummy) (s.len * numThreads / numDummy)
        numDummy.toNat (last - s.len * numThreads)
    else []

def simpleLoop (a b eps : ℚ) : Loop := ⟨min a b, max a b, |b - a| * eps⟩

/-- All loops that are started for an argument. -/
def startedLoops (arg : HpcIntArg) (numLogicCpu : ℤ) : List Loop :=
  integralLoops arg.a arg.b arg.eps (toInt arg.numThreads) ++
    integralLinearLoops arg.a arg.b arg.eps (toInt arg.numThreads) numLogicCpu ++
    [simpleLoop arg.a arg.b arg.eps]

/-! ## One loop -/

section
variable {func : ℚ → ℚ} {loop : Loop}

/-- Passes that are not needed are not taken. -/
theorem sampleLoop_mono {dx b result : ℚ} {fuel fuel' : ℕ} (hle : fuel ≤ fuel') {a acc : ℚ}
    (h : sampleLoop func dx b fuel a acc = some result) :
    sampleLoop func dx b fuel' a acc = some result := by
  induction fuel generalizing fuel' a acc with
  | zero =>
      rw [sampleLoop] at h
      split_ifs at h with hab
      rw [sampleLoop_of_le func dx (not_lt.mp hab), h]
  | succ fuel ih =>
      obtain ⟨fuel', rfl⟩ : ∃ m, fuel' = m + 1 := ⟨fuel' - 1, by omega⟩
      rw [sampleLoop] at h ⊢
      split_ifs at h ⊢ with hab
      · exact ih (by omega) h
      · exact h

theorem Loop.Ends.mono {fuel fuel' : ℕ} (h : loop.Ends func fuel) (hle : fuel ≤ fuel') :
    loop.Ends func fuel' := by
  obtain ⟨result, hresult⟩ := Option.isSome_iff_exists.mp h
  rw [Loop.Ends, sampleLoop_mono hle hresult, Option.isSome_some]

/-- A loop over points never ends with a step that leads nowhere or back. -/
theorem sampleLoop_stuck {dx a b : ℚ} (hdx : dx ≤ 0) (hab : a < b) (fuel : ℕ) (acc : ℚ) :
    sampleLoop func dx b fuel a acc = none := by
  induction fuel generalizing a acc with
  | zero => rw [sampleLoop, if_pos hab]
  | succ fuel ih =>
      rw [sampleLoop, if_pos hab]
      exact ih (by linarith) _

theorem Loop.terminates_iff : loop.Terminates func ↔ 0 < loop.dx ∨ loop.b ≤ loop.a := by
  constructor
  · intro h
    rcases h with ⟨fuel, hfuel⟩
    by_contra hno
    push Not at hno
    rw [Loop.Ends, sampleLoop_stuck hno.1 hno.2] at hfuel
    cases hfuel
  · intro h
    cases h with
    | inl hdx =>
        exact ⟨_, by rw [Loop.Ends, sampleLoop_eq func hdx, if_pos le_rfl, Option.isSome_some]⟩
    | inr hba =>
        exact ⟨0, by rw [Loop.Ends, sampleLoop_of_le func loop.dx hba, Option.isSome_some]⟩

/-- Finitely many loops end within the passes of the longest. -/
theorem exists_fuel_iff {loops : List Loop} :
    (∃ fuel, ∀ loop ∈ loops, loop.Ends func fuel) ↔ ∀ loop ∈ loops, loop.Terminates func := by
  constructor
  · intro h loop hloop
    rcases h with ⟨fuel, hfuel⟩
    exact ⟨fuel, hfuel loop hloop⟩
  · intro h
    induction loops with
    | nil => exact ⟨0, fun _ h => (nomatch h)⟩
    | cons loop loops ih =>
        rw [List.forall_mem_cons] at h
        obtain ⟨first, hfirst⟩ := h.1
        obtain ⟨fuel, hfuel⟩ := ih h.2
        refine ⟨max first fuel, List.forall_mem_cons.mpr ⟨hfirst.mono (le_max_left _ _), ?_⟩⟩
        exact fun other hother => (hfuel other hother).mono (le_max_right _ _)

end

/-! ## The loops are those of the functions -/

section
variable {func : ℚ → ℚ} {a b eps : ℚ}

theorem runThreads_isSome {fuel : ℕ} {dx len : ℚ} {count : ℕ} {a : ℚ} :
    (runThreads fuel func dx len count a).isSome = true ↔
      ∀ loop ∈ threadLoops dx len count a, loop.Ends func fuel := by
  induction count generalizing a with
  | zero => simp [runThreads, threadLoops]
  | succ count ih =>
      rw [threadLoops, List.forall_mem_cons, ← ih, Loop.Ends, runThreads, pthreadCalcIntegral]
      cases sampleLoop func dx (a + len) fuel a 0 with
      | none => simp
      | some result => cases runThreads fuel func dx len count (a + len) <;> simp

/-- The creation loop leaves `a` at the end of its last chunk. -/
theorem runThreads_last {fuel : ℕ} {dx len : ℚ} {count : ℕ} {a res last : ℚ}
    (h : runThreads fuel func dx len count a = some (res, last)) : last = a + count * len := by
  induction count generalizing a res with
  | zero =>
      cases h
      simp
  | succ count ih =>
      rw [runThreads, Option.bind_eq_bind, Option.bind_eq_some_iff] at h
      obtain ⟨result, -, h⟩ := h
      rw [Option.bind_eq_bind, Option.bind_eq_some_iff] at h
      obtain ⟨⟨rest, other⟩, hrest, h⟩ := h
      cases h
      rw [ih hrest]
      push_cast
      ring

theorem integral_isSome {fuel : ℕ} {numThreads : ℤ} :
    (integral fuel a b func eps numThreads).isSome = true ↔
      ∀ loop ∈ integralLoops a b eps numThreads, loop.Ends func fuel := by
  rw [integralLoops, ← runThreads_isSome, integral]
  simp only
  cases runThreads fuel func _ _ numThreads.toNat _ <;> simp

theorem hpcSimpleIntegral_isSome {fuel : ℕ} :
    (hpcSimpleIntegral fuel a b func eps).isSome = true ↔
      (simpleLoop a b eps).Ends func fuel := by
  have hend : min a b + |b - a| = max a b := by
    rw [← max_sub_min_eq_abs, add_sub_cancel]
  rw [hpcSimpleIntegral_eq fuel a b func eps 1, localSplit_eq]
  simp only [Option.isSome_map, hend]
  rfl

/-- The call comes back from its loops when it keeps its records. -/
theorem integralLinear_isSome {fuel : ℕ} {numThreads numLogicCpu : ℤ} (hpos : 0 ≤ numThreads) :
    (integralLinear fuel a b func eps numThreads numLogicCpu).isSome = true ↔
      ∀ loop ∈ integralLinearLoops a b eps numThreads numLogicCpu, loop.Ends func fuel := by
  have hinside : ¬ numThreads < 0 := by omega
  rw [integralLinearLoops, integralLinear]
  simp only [integralLoops, List.forall_mem_append, hinside, false_and, if_false]
  generalize localSplit a b eps numThreads = s
  generalize (if numThreads < numLogicCpu then toInt (numLogicCpu - numThreads) else 0) = numDummy
  rw [← runThreads_isSome]
  cases hreal : runThreads fuel func s.dx s.len numThreads.toNat s.a with
  | none => simp
  | some outcome =>
      obtain ⟨res, last⟩ := outcome
      have hlast := runThreads_last hreal
      split_ifs with hdummy
      · simp only [Option.bind_eq_bind, Option.bind_some, Option.isSome_some, true_and]
        rw [← hlast, ← runThreads_isSome]
        cases runThreads fuel func _ _ numDummy.toNat _ <;> simp
      · simp

/-- The functions come back exactly when all loops they start terminate. -/
theorem returns_iff {numThreads numLogicCpu : ℤ} (hpos : 0 ≤ numThreads) :
    ((∃ fuel, (integral fuel a b func eps numThreads).isSome = true) ↔
        ∀ loop ∈ integralLoops a b eps numThreads, loop.Terminates func) ∧
      ((∃ fuel, (integralLinear fuel a b func eps numThreads numLogicCpu).isSome = true) ↔
        ∀ loop ∈ integralLinearLoops a b eps numThreads numLogicCpu, loop.Terminates func) ∧
      ((∃ fuel, (hpcSimpleIntegral fuel a b func eps).isSome = true) ↔
        (simpleLoop a b eps).Terminates func) := by
  simp only [integral_isSome, integralLinear_isSome hpos, hpcSimpleIntegral_isSome,
    exists_fuel_iff, Loop.Terminates, and_self]

end

/-! ## All loops of a call -/

section
variable {loop : Loop}

theorem of_mem_threadLoops {dx len : ℚ} {count : ℕ} {a : ℚ}
    (h : loop ∈ threadLoops dx len count a) : 0 < count ∧ loop.dx = dx ∧ loop.b = loop.a + len := by
  induction count generalizing a with
  | zero => cases h
  | succ count ih =>
      rw [threadLoops, List.mem_cons] at h
      rcases h with rfl | h
      · exact ⟨Nat.succ_pos count, rfl, rfl⟩
      · exact ⟨Nat.succ_pos count, (ih h).2⟩

/-- The loop cuts off a part of an interval, with a positive part of its step. -/
def Cuts (a b eps : ℚ) (loop : Loop) : Prop :=
  ∃ ratio part : ℚ, 0 < ratio ∧ loop.dx = |b - a| * eps * ratio ∧
    loop.b = loop.a + |b - a| * part

variable {a b eps : ℚ} {numThreads numLogicCpu : ℤ}

theorem cuts_of_mem_integralLoops (h : loop ∈ integralLoops a b eps numThreads) :
    Cuts a b eps loop := by
  obtain ⟨-, hdx, hb⟩ := of_mem_threadLoops h
  rw [localSplit_eq] at hdx hb
  exact ⟨1, 1 / numThreads, one_pos, by rw [hdx, mul_one], by rw [hb, mul_one_div]⟩

/-- A dummy is started only beside real threads, and there are fewer than 2^31. -/
theorem cuts_of_mem_integralLinearLoops (hlo : -2 ^ 31 ≤ numThreads) (hne : numThreads ≠ 0)
    (h : loop ∈ integralLinearLoops a b eps numThreads numLogicCpu) : Cuts a b eps loop := by
  unfold integralLinearLoops at h
  simp only [List.mem_append] at h
  generalize hdummy : (if numThreads < numLogicCpu then toInt (numLogicCpu - numThreads) else 0) =
    numDummy at h
  rcases h with h | h
  · exact cuts_of_mem_integralLoops h
  · split_ifs at h with hsome hfault
    · cases h
    · obtain ⟨hcount, hdx, hb⟩ := of_mem_threadLoops h
      have hlt : numDummy < 2 ^ 31 := by
        rw [← hdummy]
        split_ifs
        · exact (toInt_range _).2
        · norm_num
      have hsign : 0 < numThreads := by
        by_contra hneg
        rw [toInt_of_range (by omega) (by omega)] at hfault
        omega
      have hratio : (0 : ℚ) < numThreads / numDummy :=
        div_pos (by exact_mod_cast hsign) (by exact_mod_cast (by omega : 0 < numDummy))
      rw [localSplit_eq] at hdx hb
      refine ⟨numThreads / numDummy, 1 / numThreads * (numThreads / numDummy), hratio, ?_, ?_⟩
      · rw [hdx, mul_div_assoc]
      · rw [hb, mul_div_assoc, ← mul_assoc, mul_one_div]
    · cases h

theorem cuts_simpleLoop : Cuts a b eps (simpleLoop a b eps) := by
  refine ⟨1, 1, one_pos, (mul_one _).symm, ?_⟩
  rw [simpleLoop, mul_one, ← max_sub_min_eq_abs, add_sub_cancel]

/-- With a positive `eps`, or where there are no points. -/
theorem Cuts.terminates (h : Cuts a b eps loop) (hgood : 0 < eps ∨ a = b) {func : ℚ → ℚ} :
    loop.Terminates func := by
  obtain ⟨ratio, part, hratio, hdx, hb⟩ := h
  rw [Loop.terminates_iff]
  by_cases hab : a = b
  · right
    rw [hb, hab, sub_self, abs_zero, zero_mul, add_zero]
  · left
    rw [hdx]
    exact mul_pos (mul_pos (abs_pos.mpr (sub_ne_zero.mpr (Ne.symm hab)))
      (hgood.resolve_right hab)) hratio

end

/-- For an argument that the check accepts, with any function, every loop that is
started terminates exactly when `eps` is positive or the interval is empty. -/
theorem loops_terminate_iff (arg : HpcIntArg) (hvalid : verifierIntArg arg = true)
    (hthreads : arg.numThreads < 2 ^ 32) (numLogicCpu : ℤ) :
    (∀ func ∈ arg.func, ∀ loop ∈ startedLoops arg numLogicCpu, loop.Terminates func) ↔
      0 < arg.eps ∨ arg.a = arg.b := by
  simp only [verifierIntArg, Bool.and_eq_true, decide_eq_true_eq] at hvalid
  obtain ⟨⟨hfunc, hpos⟩, -⟩ := hvalid
  obtain ⟨func, hfunc⟩ := Option.isSome_iff_exists.mp hfunc
  constructor
  · intro h
    have hsimple : (simpleLoop arg.a arg.b arg.eps).Terminates func :=
      h func hfunc _ (List.mem_append_right _ List.mem_cons_self)
    rw [Loop.terminates_iff] at hsimple
    by_cases hab : arg.a = arg.b
    · exact .inr hab
    · have hwidth : 0 < |arg.b - arg.a| := abs_pos.mpr (sub_ne_zero.mpr (Ne.symm hab))
      rcases hsimple with hdx | hend
      · exact .inl ((mul_pos_iff_of_pos_left hwidth).mp hdx)
      · exact absurd hend (not_le.mpr (min_lt_max.mpr hab))
  · intro hgood func _ loop hloop
    have hne : toInt arg.numThreads ≠ 0 := (toInt_eq_zero_iff hthreads).not.mpr (by omega)
    have hcuts : Cuts arg.a arg.b arg.eps loop := by
      simp only [startedLoops, List.mem_append, List.mem_singleton] at hloop
      rcases hloop with (hloop | hloop) | rfl
      · exact cuts_of_mem_integralLoops hloop
      · exact cuts_of_mem_integralLinearLoops (toInt_range _).1 hne hloop
      · exact cuts_simpleLoop
    exact hcuts.terminates hgood

/-- Two threads beside two dummies. -/
theorem loops_terminate_two :
    (∀ func ∈ (some fun x : ℚ => x * x),
        ∀ loop ∈ startedLoops ⟨3, 1, some fun x => x * x, 1 / 4, 2⟩ 4, loop.Terminates func) ↔
      (0 : ℚ) < 1 / 4 ∨ (3 : ℚ) = 1 :=
  loops_terminate_iff ⟨3, 1, some fun x => x * x, 1 / 4, 2⟩ (by decide +kernel) (by decide) 4

/-- The check accepts a negative `eps`, with which the points move away from the end. -/
theorem negative_eps : verifierIntArg ⟨0, 1, some id, -1 / 2, 1⟩ = true ∧
    ∃ loop ∈ startedLoops ⟨0, 1, some id, -1 / 2, 1⟩ 4, ¬ loop.Terminates id := by
  refine ⟨by decide +kernel, simpleLoop 0 1 (-1 / 2),
    List.mem_append_right _ List.mem_cons_self, ?_⟩
  rw [Loop.terminates_iff, simpleLoop]
  norm_num

end TaskLunev.IntegralTermination
