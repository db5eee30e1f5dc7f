import TaskLunev.ForkJoin
import TaskLunev.IntegralTermination

/-!
# The threads of the integral

`hpc.c` with its threads at the same time: the caller creates them one by one,
each samples on its own copy of its record and leaves its sum there, and the
caller joins them in order. Whatever the order of the passes, a call returns what
it would return if each thread ran to its end when it is created, and no thread
is left at work behind it unless a creation failed.
-/
namespace TaskLunev.IntegralThreads
open SampledSums IntegralModel IntegralVariants IntegralTermination ForkJoin CompletedRuns
  TransitionRuns

/-- `int_pth_arg_t` without the function, which is the same for all. -/
structure IntPthArg where
  a : ℚ
  b : ℚ
  dx : ℚ
  result : ℚ
  deriving DecidableEq, Repr

/-- A pass of the loop of `_pthread_calc_integral`, or its end. -/
def pthreadPass (func : ℚ → ℚ) (arg : IntPthArg) : IntPthArg ⊕ ℚ :=
  if arg.a < arg.b then
    .inl { arg with a := arg.a + arg.dx, result := arg.result + func arg.a }
  else .inr arg.result

/-- The records as the creation loops fill them in. -/
def intArgs (loops : List Loop) : List IntPthArg := loops.map fun loop => ⟨loop.a, loop.b, loop.dx, 0⟩

/-- What the caller makes of the results it has joined; those of the dummy
threads do not count. -/
def joinedValue (a b eps : ℚ) (numThreads : ℤ) (got : List ℚ) : ℚ :=
  let s := localSplit a b eps numThreads
  (got.take numThreads.toNat).foldl (· + ·) 0 * s.sign * s.dx

/-! ## One thread -/

/-- The sum a thread comes to. -/
def argResult (func : ℚ → ℚ) (arg : IntPthArg) : ℚ :=
  arg.result + if arg.a < arg.b then chunkSum func arg.dx (arg.b - arg.a) arg.a else 0

def argCost (arg : IntPthArg) : ℕ := if arg.a < arg.b then ⌈(arg.b - arg.a) / arg.dx⌉₊ else 0

/-- The points lead to the end, or there are none. -/
def Leads (arg : IntPthArg) : Prop := 0 < arg.dx ∨ arg.b ≤ arg.a

theorem measured (func : ℚ → ℚ) : Measured (pthreadPass func) Leads argCost (argResult func) where
  goes := by
    rintro ⟨a, b, dx, result⟩ arg' hleads hpass
    by_cases hab : a < b
    · have hdx : 0 < dx := hleads.resolve_right (not_le.mpr hab)
      obtain ⟨hcount, hsum⟩ := chunkSum_of_pos func hdx (sub_pos.mpr hab) a
      rw [sub_sub] at hcount hsum
      simp only [pthreadPass, if_pos hab, Sum.inl.injEq] at hpass
      subst hpass
      refine ⟨.inl hdx, ?_, ?_⟩
      · simp only [argCost, if_pos hab, hcount]
        split_ifs <;> omega
      · simp only [argResult, if_pos hab, hsum, add_assoc]
        split_ifs with hnext
        · rfl
        · rw [(chunkSum_of_nonpos func hdx (sub_nonpos.mpr (not_lt.mp hnext)) (a + dx)).2]
    · simp [pthreadPass, if_neg hab] at hpass
  ends := by
    rintro ⟨a, b, dx, result⟩ r - hpass
    by_cases hab : a < b
    · simp [pthreadPass, if_pos hab] at hpass
    · simp only [pthreadPass, if_neg hab, Sum.inr.injEq] at hpass
      simp only [argResult, if_neg hab, add_zero, hpass]

section
variable {func : ℚ → ℚ} {fuel : ℕ}

/-- The loop run on its own comes to the same sum. -/
theorem sampleLoop_of_ends {loop : Loop} (h : loop.Ends func fuel) :
    sampleLoop func loop.dx loop.b fuel loop.a 0 =
      some (argResult func ⟨loop.a, loop.b, loop.dx, 0⟩) := by
  by_cases hab : loop.a < loop.b
  · have hterm := Loop.terminates_iff.mp ⟨fuel, h⟩
    have hdx : 0 < loop.dx := hterm.resolve_right (not_le.mpr hab)
    rw [Loop.Ends, sampleLoop_eq func hdx] at h
    rw [sampleLoop_eq func hdx]
    split_ifs at h ⊢ with hfuel
    · simp only [argResult, if_pos hab]
    · cases h
  · rw [sampleLoop_of_le func loop.dx (not_lt.mp hab)]
    simp only [argResult, if_neg hab, add_zero]

theorem runThreads_of_ends {dx len : ℚ} {count : ℕ} {a : ℚ}
    (h : ∀ loop ∈ threadLoops dx len count a, loop.Ends func fuel) :
    runThreads fuel func dx len count a =
      some (((intArgs (threadLoops dx len count a)).map (argResult func)).sum, a + count * len) := by
  induction count generalizing a with
  | zero => simp [runThreads, threadLoops, intArgs]
  | succ count ih =>
      rw [threadLoops, List.forall_mem_cons] at h
      rw [runThreads, pthreadCalcIntegral, sampleLoop_of_ends h.1, ih h.2]
      simp only [Option.bind_eq_bind, Option.bind_some, Option.pure_def, threadLoops, intArgs,
        List.map_cons, List.sum_cons, Option.some.injEq, Prod.mk.injEq, true_and]
      push_cast
      ring

theorem length_threadLoops (dx len : ℚ) (count : ℕ) (a : ℚ) :
    (threadLoops dx len count a).length = count := by
  induction count generalizing a with
  | zero => rfl
  | succ count ih => rw [threadLoops, List.length_cons, ih]

/-- Only the real threads count, and the caller adds them up in order. -/
theorem joinedValue_append (a b eps : ℚ) (numThreads : ℤ) (dummies : List Loop) :
    joinedValue a b eps numThreads
        ((intArgs (integralLoops a b eps numThreads ++ dummies)).map (argResult func)) =
      let s := localSplit a b eps numThreads
      ((intArgs (threadLoops s.dx s.len numThreads.toNat s.a)).map (argResult func)).sum *
        s.sign * s.dx := by
  have hlen := length_threadLoops (localSplit a b eps numThreads).dx
    (localSplit a b eps numThreads).len numThreads.toNat (localSplit a b eps numThreads).a
  simp only [joinedValue, intArgs, integralLoops, List.map_append]
  rw [List.take_left' (by rw [List.length_map, List.length_map, hlen]), ← List.sum_eq_foldl]

variable {a b eps : ℚ} {numThreads numLogicCpu : ℤ}

theorem integral_of_ends (h : ∀ loop ∈ integralLoops a b eps numThreads, loop.Ends func fuel) :
    integral fuel a b func eps numThreads = some (joinedValue a b eps numThreads
      ((intArgs (integralLoops a b eps numThreads)).map (argResult func))) := by
  have hvalue : joinedValue a b eps numThreads
      ((intArgs (integralLoops a b eps numThreads ++ [])).map (argResult func)) = _ :=
    joinedValue_append a b eps numThreads []
  rw [List.append_nil] at hvalue
  rw [hvalue, integral]
  simp only [runThreads_of_ends h, Option.bind_eq_bind, Option.bind_some, Option.pure_def]

theorem integralLinear_of_ends (hpos : 0 < numThreads)
    (h : ∀ loop ∈ integralLinearLoops a b eps numThreads numLogicCpu, loop.Ends func fuel) :
    integralLinear fuel a b func eps numThreads numLogicCpu =
      some (joinedValue a b eps numThreads
        ((intArgs (integralLinearLoops a b eps numThreads numLogicCpu)).map (argResult func))) := by
  obtain ⟨value, hvalue⟩ := Option.isSome_iff_exists.mp ((integralLinear_isSome hpos.le).mpr h)
  have hreal : ∀ loop ∈ integralLoops a b eps numThreads, loop.Ends func fuel :=
    fun loop hloop => h loop (List.mem_append_left _ hloop)
  rw [hvalue, integralLinearLoops]
  simp only [joinedValue_append]
  have hinside : ¬ numThreads < 0 := by omega
  rw [integralLinear] at hvalue
  simp only [hinside, false_and, if_false, runThreads_of_ends hreal, Option.bind_eq_bind,
    Option.bind_some] at hvalue
  generalize (if numThreads < numLogicCpu then toInt (numLogicCpu - numThreads) else 0) =
    numDummy at hvalue
  split_ifs at hvalue with hdummy
  · simp only [Option.bind_eq_some_iff, Option.pure_def] at hvalue
    obtain ⟨-, -, hvalue⟩ := hvalue
    rw [← hvalue]
  · rw [← hvalue]
    rfl

end

/-! ## All threads -/

/-- The call is over: it has returned what the loops give one after the other,
or a creation failed and it has returned NaN. All threads have ended. -/
structure Computed (a b eps : ℚ) (numThreads : ℤ) (sequential : ℕ → Option ℚ)
    (s : State IntPthArg ℚ) : Prop where
  value : (∃ got fuel, s.parent = .returned got ∧
    sequential fuel = some (joinedValue a b eps numThreads got)) ∨ s.parent = .failed
  worker : ∀ i arg, s.worker i ≠ .running arg

/-- A call that has returned a number has left no thread at work. -/
def Tidy (s : State IntPthArg ℚ) : Prop :=
  ∀ got, s.parent = .returned got → ∀ i arg, s.worker i ≠ .running arg

/-- However the caller and its threads are scheduled, they come to an end with
the sequential value, and a number returned is returned behind all threads. -/
structure Sound (func : ℚ → ℚ) (loops : List Loop) (a b eps : ℚ) (numThreads : ℤ)
    (sequential : ℕ → Option ℚ) : Prop where
  completes : ∃ bound, Completes (Step (pthreadPass func) (intArgs loops)) own State.start bound
    (Computed a b eps numThreads sequential)
  tidy : ∀ trace, Path (Step (pthreadPass func) (intArgs loops)) State.start trace →
    Tidy (final State.start trace)

section
variable {func : ℚ → ℚ} {loops : List Loop}

theorem leads_of_terminates (h : ∀ loop ∈ loops, loop.Terminates func) :
    ∀ arg ∈ intArgs loops, Leads arg := by
  rintro arg harg
  obtain ⟨loop, hloop, rfl⟩ := List.mem_map.mp harg
  exact Loop.terminates_iff.mp (h loop hloop)

theorem tidy_run (h : ∀ loop ∈ loops, loop.Terminates func)
    {trace : List (Event × State IntPthArg ℚ)}
    (hrun : Path (Step (pthreadPass func) (intArgs loops)) State.start trace) :
    Tidy (final State.start trace) := by
  intro got hret i arg harg
  have hgood := leads_of_terminates h
  have hbooks := hrun.final_invariant (fun _ _ _ hs ht => hs.next (measured func) hgood ht)
    books_start
  have hserves := hbooks.worker i
  rw [harg] at hserves
  obtain ⟨-, job, hjob, -⟩ := hserves
  obtain ⟨r, hr⟩ := (returned_run (measured func) hgood hrun hret).2 i
    (List.getElem?_eq_some_iff.mp hjob).1
  rw [harg] at hr
  cases hr

theorem computed_completes {a b eps : ℚ} {numThreads : ℤ} {sequential : ℕ → Option ℚ}
    (h : ∀ loop ∈ loops, loop.Terminates func)
    (hvalue : ∀ fuel, (∀ loop ∈ loops, loop.Ends func fuel) →
      sequential fuel = some (joinedValue a b eps numThreads
        ((intArgs loops).map (argResult func)))) :
    Sound func loops a b eps numThreads sequential := by
  obtain ⟨fuel, hfuel⟩ := exists_fuel_iff.mpr h
  have hjoined := completes (measured func) (leads_of_terminates h)
  refine ⟨⟨_, hjoined.bounded, fun trace htrace hrest => ?_, hjoined.ends⟩, fun _ => tidy_run h⟩
  obtain ⟨hparent, hworker⟩ := hjoined.goal trace htrace hrest
  refine ⟨?_, hworker⟩
  rcases hparent with hret | hfailed
  · exact .inl ⟨_, fuel, hret, hvalue fuel hfuel⟩
  · exact .inr hfailed

end

/-- In every order of the passes of real and dummy threads the call of either
variant comes to an end, with the value of its loops run one after the other. -/
theorem threads_compute (func : ℚ → ℚ) {a b eps : ℚ} (hgood : 0 < eps ∨ a = b) {numThreads : ℤ}
    (hpos : 0 < numThreads) (numLogicCpu : ℤ) :
    Sound func (integralLinearLoops a b eps numThreads numLogicCpu) a b eps numThreads
        (fun fuel => integralLinear fuel a b func eps numThreads numLogicCpu) ∧
      Sound func (integralLoops a b eps numThreads) a b eps numThreads
        (fun fuel => integral fuel a b func eps numThreads) := by
  have hlinear : ∀ loop ∈ integralLinearLoops a b eps numThreads numLogicCpu,
      loop.Terminates func := fun loop hloop =>
    (cuts_of_mem_integralLinearLoops (by omega) hpos.ne' hloop).terminates hgood
  have hplain : ∀ loop ∈ integralLoops a b eps numThreads, loop.Terminates func :=
    fun loop hloop => (cuts_of_mem_integralLoops hloop).terminates hgood
  exact ⟨computed_completes hlinear fun _ => integralLinear_of_ends hpos,
    computed_completes hplain fun _ => integral_of_ends⟩

/-- Two threads beside two dummies, with the upper limit first. -/
theorem threads_compute_two :
    Sound (fun x => x * x) (integralLinearLoops 3 1 (1 / 4) 2 4) 3 1 (1 / 4) 2
        (fun fuel => integralLinear fuel 3 1 (fun x => x * x) (1 / 4) 2 4) ∧
      Sound (fun x => x * x) (integralLoops 3 1 (1 / 4) 2) 3 1 (1 / 4) 2
        (fun fuel => integral fuel 3 1 (fun x => x * x) (1 / 4) 2) :=
  threads_compute (fun x => x * x) (.inl (by norm_num)) (by decide) 4

end TaskLunev.IntegralThreads
