import TaskLunev.HpcNetModel
import Mathlib.Algebra.Order.BigOperators.Group.Finset

/-!
# The tasks of a distributed call

Quotient and remainder of the thread count by the number of units give every
unit its share. As long as no share is too large for an `int`, the tasks lie
end to end from `a` to `b`, and each of them is cut on its unit exactly as the
whole interval would be cut on one machine.
-/
namespace TaskLunev.HpcNetTasks
open IntegralModel HpcNetModel

section
variable (serv : ServParam) (call : Call)

/-- The threads of unit `i`; the server is the last unit. -/
def share (i : ℕ) : ℕ :=
  call.numThreads / (serv.numClients + 1) +
    if i < call.numThreads % (serv.numClients + 1) then 1 else 0

/-- The threads of the units in front of unit `i`. -/
def threadsBefore (i : ℕ) : ℕ := ∑ j ∈ Finset.range i, share serv call j

theorem extra_lt : call.numThreads % (serv.numClients + 1) < serv.numClients + 1 :=
  Nat.mod_lt _ (Nat.succ_pos _)

theorem threadsBefore_succ (i : ℕ) :
    threadsBefore serv call (i + 1) = threadsBefore serv call i + share serv call i :=
  Finset.sum_range_succ ..

theorem threadsBefore_eq {i : ℕ} (hi : i ≤ serv.numClients + 1) :
    threadsBefore serv call i = i * (call.numThreads / (serv.numClients + 1)) +
      min i (call.numThreads % (serv.numClients + 1)) := by
  induction i with
  | zero => simp [threadsBefore]
  | succ i ih =>
      rw [threadsBefore_succ, ih (by omega), share, Nat.succ_mul]
      split_ifs <;> omega

/-- The shares are all the threads. -/
theorem threadsBefore_all : threadsBefore serv call (serv.numClients + 1) = call.numThreads := by
  have hmod := extra_lt serv call
  rw [threadsBefore_eq serv call (le_refl _), min_eq_right hmod.le]
  exact Nat.div_add_mod ..

theorem share_le_first (i : ℕ) : share serv call i ≤ share serv call 0 := by
  unfold share
  split_ifs <;> omega

/-- The largest share is the thread count over the units, rounded up. -/
theorem share_first :
    share serv call 0 = (call.numThreads + serv.numClients) / (serv.numClients + 1) := by
  have hdiv := Nat.div_add_mod call.numThreads (serv.numClients + 1)
  have hmod := extra_lt serv call
  rw [mul_comm] at hdiv
  unfold share
  symm
  split_ifs with hr
  · apply Nat.div_eq_of_lt_le <;> simp only [Nat.succ_mul] <;> omega
  · apply Nat.div_eq_of_lt_le <;> simp only [Nat.add_zero, Nat.succ_mul] <;> omega

theorem share_last : share serv call serv.numClients = call.numThreads / (serv.numClients + 1) := by
  have hmod := extra_lt serv call
  unfold share
  rw [if_neg (by omega)]
  rfl

theorem share_le_total (i : ℕ) (hi : i ≤ serv.numClients) : share serv call i ≤ call.numThreads := by
  have hmono : threadsBefore serv call (i + 1) ≤ threadsBefore serv call (serv.numClients + 1) :=
    Finset.sum_le_sum_of_subset_of_nonneg (Finset.range_mono (by omega)) fun _ _ _ => Nat.zero_le _
  rw [threadsBefore_all, threadsBefore_succ] at hmono
  omega

theorem share_le_succ (i j : ℕ) : share serv call i ≤ share serv call j + 1 := by
  unfold share
  split_ifs <;> omega

/-! ## The variables of the source -/

theorem numFullThreads_eq :
    numFullThreads serv call = toInt (share serv call serv.numClients) := by
  rw [share_last, numFullThreads]

theorem numExtraThreads_eq :
    numExtraThreads serv call = (call.numThreads % (serv.numClients + 1) : ℕ) := by
  have hmod := extra_lt serv call
  have hlt := serv.numClients_lt
  exact toInt_of_lt (Int.natCast_nonneg _) (by omega)

theorem numLocalThreads_eq (i : ℕ) :
    numLocalThreads serv call i = toInt (share serv call i) := by
  unfold numLocalThreads share
  rw [numExtraThreads_eq, Nat.cast_add, Nat.cast_ite, Nat.cast_one, Nat.cast_zero]
  simp only [Nat.cast_lt]
  rw [add_comm, numFullThreads, toInt_add_toInt, add_comm]

theorem clientTask_numThreads (hT : call.numThreads < 2 ^ 32) {i : ℕ} (hi : i ≤ serv.numClients) :
    (clientTask serv call i).numThreads = share serv call i := by
  have hle := share_le_total serv call i hi
  change toUnsigned (numLocalThreads serv call i) = _
  rw [numLocalThreads_eq, toUnsigned_toInt (by omega)]

/-- The task of unit `i` when every share fits in `int`. -/
def fairTask (i : ℕ) : CompUnitTask where
  a := call.a + len call * threadsBefore serv call i
  b := call.a + len call * threadsBefore serv call (i + 1)
  dx := |call.b - call.a| * call.eps
  typeFunc := .x
  numThreads := share serv call i

variable {serv call}

theorem CompUnitTask.next_share {task : CompUnitTask} {i : ℕ}
    (hb : task.b = call.a + len call * threadsBefore serv call i)
    (hdx : task.dx = |call.b - call.a| * call.eps) (hx : task.typeFunc = .x)
    (hfit : share serv call i < 2 ^ 31) :
    task.next (len call) (toInt (share serv call i)) = fairTask serv call i := by
  have hint : toInt (share serv call i) = share serv call i :=
    toInt_of_lt (Int.natCast_nonneg _) (by exact_mod_cast hfit)
  have hround := toUnsigned_toInt (show share serv call i < 2 ^ 32 by omega)
  unfold CompUnitTask.next fairTask
  rw [hround, hint, hb, hdx, hx, threadsBefore_succ]
  push_cast
  congr 1
  ring

theorem clientTask_eq (hfit : share serv call 0 < 2 ^ 31) (i : ℕ) :
    clientTask serv call i = fairTask serv call i := by
  induction i with
  | zero =>
      unfold clientTask taskAfter
      rw [numLocalThreads_eq]
      apply CompUnitTask.next_share _ rfl rfl hfit
      simp [taskAfter, threadsBefore]
  | succ i ih =>
      have hlast : taskAfter serv call (i + 1) = fairTask serv call i := ih
      unfold clientTask taskAfter
      rw [numLocalThreads_eq, hlast]
      exact CompUnitTask.next_share rfl rfl rfl ((share_le_first serv call _).trans_lt hfit)

theorem ownTask_eq (hfit : share serv call 0 < 2 ^ 31) :
    ownTask serv call =
      if share serv call serv.numClients ≠ 0 then some (fairTask serv call serv.numClients)
      else none := by
  have hlast := (share_le_first serv call serv.numClients).trans_lt hfit
  have hint : toInt (share serv call serv.numClients) = share serv call serv.numClients :=
    toInt_of_lt (Int.natCast_nonneg _) (by exact_mod_cast hlast)
  have hzero : numFullThreads serv call ≠ 0 ↔ share serv call serv.numClients ≠ 0 := by
    rw [numFullThreads_eq, hint]
    exact_mod_cast Iff.rfl
  have hnext : (taskAfter serv call serv.numClients).next (len call) (numFullThreads serv call) =
      fairTask serv call serv.numClients := by
    have hlocal : clientTask serv call serv.numClients =
        (taskAfter serv call serv.numClients).next (len call)
          (numLocalThreads serv call serv.numClients) := rfl
    rw [numFullThreads_eq, ← numLocalThreads_eq, ← hlocal, clientTask_eq hfit]
  unfold ownTask
  simp only [hzero, hnext]

/-! ## The partition -/

/-- The tasks lie end to end from `a` to `b`, none of them against the
direction `dir`. -/
def Tiles (dir : ℚ) : ℚ → ℚ → List CompUnitTask → Prop
  | a, b, [] => a = b
  | a, b, task :: rest => task.a = a ∧ 0 ≤ (task.b - task.a) * dir ∧ Tiles dir task.b b rest

theorem Tiles.append {dir a m b : ℚ} {xs ys : List CompUnitTask} (hx : Tiles dir a m xs)
    (hy : Tiles dir m b ys) : Tiles dir a b (xs ++ ys) := by
  induction xs generalizing a with
  | nil =>
      obtain rfl : a = m := hx
      exact hy
  | cons task rest ih => exact ⟨hx.1, hx.2.1, ih hx.2.2⟩

/-- The thread counts add up and differ by at most one, the intervals tile the
whole one, and a unit cuts its task as one machine would cut the whole. -/
structure Partition (call : Call) (tasks : List CompUnitTask) : Prop where
  total : (tasks.map CompUnitTask.numThreads).sum = call.numThreads
  balanced : ∀ s ∈ tasks, ∀ t ∈ tasks, s.numThreads ≤ t.numThreads + 1
  tiles : Tiles (call.b - call.a) call.a call.b tasks
  split : ∀ task ∈ tasks, 0 < task.numThreads →
    let arg := compUnitTask2IntArg task
    let s := localSplit arg.a arg.b arg.eps (toInt arg.numThreads)
    s.dx = |call.b - call.a| * call.eps ∧ s.len = |call.b - call.a| / call.numThreads

theorem fairTask_width (i : ℕ) :
    (fairTask serv call i).b - (fairTask serv call i).a = len call * share serv call i := by
  unfold fairTask
  rw [threadsBefore_succ]
  push_cast
  ring

theorem fairTask_split (hpos : 0 < call.numThreads) (hab : call.a ≠ call.b) {i : ℕ}
    (hi : 0 < share serv call i) (hfit : share serv call i < 2 ^ 31) :
    let arg := compUnitTask2IntArg (fairTask serv call i)
    let s := localSplit arg.a arg.b arg.eps (toInt arg.numThreads)
    s.dx = |call.b - call.a| * call.eps ∧ s.len = |call.b - call.a| / call.numThreads := by
  have hint : toInt (share serv call i) = share serv call i :=
    toInt_of_lt (Int.natCast_nonneg _) (by exact_mod_cast hfit)
  have hshare : (0 : ℚ) < share serv call i := by exact_mod_cast hi
  have htotal : (0 : ℚ) < call.numThreads := by exact_mod_cast hpos
  have hwidth : |(fairTask serv call i).b - (fairTask serv call i).a| =
      |call.b - call.a| / call.numThreads * share serv call i := by
    rw [fairTask_width, abs_mul, len, abs_div, Nat.abs_cast, Nat.abs_cast]
  have hne : |call.b - call.a| ≠ 0 := abs_ne_zero.mpr (sub_ne_zero.mpr hab.symm)
  have hthreads : (fairTask serv call i).numThreads = share serv call i := rfl
  have hdx : (fairTask serv call i).dx = |call.b - call.a| * call.eps := rfl
  simp only [compUnitTask2IntArg, localSplit_eq, hwidth, hthreads, hint, hdx]
  constructor
  · field_simp
  · push_cast
    field_simp

theorem tasks_eq (hfit : share serv call 0 < 2 ^ 31) :
    tasks serv call = (List.range serv.numClients).map (fairTask serv call) ++
      if share serv call serv.numClients ≠ 0 then [fairTask serv call serv.numClients] else [] := by
  unfold tasks
  rw [ownTask_eq hfit, List.map_congr_left fun i _ => clientTask_eq hfit i]
  split_ifs <;> rfl

theorem mem_tasks (hfit : share serv call 0 < 2 ^ 31) {task : CompUnitTask}
    (h : task ∈ tasks serv call) : ∃ i, task = fairTask serv call i := by
  rw [tasks_eq hfit, List.mem_append, List.mem_map] at h
  rcases h with ⟨i, -, rfl⟩ | h
  · exact ⟨i, rfl⟩
  · split_ifs at h
    · exact ⟨_, List.mem_singleton.mp h⟩
    · cases h

theorem fairTask_forward (i : ℕ) :
    0 ≤ ((fairTask serv call i).b - (fairTask serv call i).a) * (call.b - call.a) := by
  have hsquare : ((fairTask serv call i).b - (fairTask serv call i).a) * (call.b - call.a) =
      (call.b - call.a) * (call.b - call.a) * (share serv call i / call.numThreads) := by
    rw [fairTask_width, len]
    ring
  rw [hsquare]
  exact mul_nonneg (mul_self_nonneg _) (by positivity)

theorem tiles_fairTasks (k : ℕ) :
    Tiles (call.b - call.a) call.a (call.a + len call * threadsBefore serv call k)
      ((List.range k).map (fairTask serv call)) := by
  induction k with
  | zero => simp [Tiles, threadsBefore]
  | succ k ih =>
      rw [List.range_succ, List.map_append]
      exact ih.append ⟨rfl, fairTask_forward k, rfl⟩

theorem partition_of_fit (hpos : 0 < call.numThreads) (hab : call.a ≠ call.b)
    (hfit : share serv call 0 < 2 ^ 31) : Partition call (tasks serv call) := by
  have htotal : (0 : ℚ) < call.numThreads := by exact_mod_cast hpos
  have hend : call.a + len call * threadsBefore serv call (serv.numClients + 1) = call.b := by
    rw [threadsBefore_all, len]
    field_simp
    ring
  constructor
  · rw [tasks_eq hfit, List.map_append, List.sum_append, List.map_map]
    have hclients : ((List.range serv.numClients).map
        (CompUnitTask.numThreads ∘ fairTask serv call)).sum =
          threadsBefore serv call serv.numClients := rfl
    rw [hclients]
    conv_rhs => rw [← threadsBefore_all serv call, threadsBefore_succ]
    split_ifs with hown
    · simp [fairTask]
    · simp [not_not.mp hown]
  · intro s hs t ht
    obtain ⟨i, rfl⟩ := mem_tasks hfit hs
    obtain ⟨j, rfl⟩ := mem_tasks hfit ht
    exact share_le_succ serv call i j
  · rw [tasks_eq hfit]
    apply (tiles_fairTasks serv.numClients).append
    split_ifs with hown
    · exact ⟨rfl, fairTask_forward _, hend⟩
    · rw [threadsBefore_succ, not_not.mp hown] at hend
      exact hend
  · intro task htask hthreads
    obtain ⟨i, rfl⟩ := mem_tasks hfit htask
    exact fairTask_split hpos hab hthreads ((share_le_first serv call i).trans_lt hfit)

/-! ## Shares that do not fit -/

/-- Where the last task ends. -/
def lastEnd (a : ℚ) (tasks : List CompUnitTask) : ℚ := tasks.foldl (fun _ task => task.b) a

theorem Tiles.lastEnd_eq {dir a b : ℚ} {tasks : List CompUnitTask} (h : Tiles dir a b tasks) :
    lastEnd a tasks = b := by
  induction tasks generalizing a with
  | nil => exact h
  | cons task rest ih => exact ih h.2.2

/-- A share of 2^31 threads or more needs a server with no client, or with one
client and every thread there is. -/
theorem large_share (hT : call.numThreads < 2 ^ 32) (hlarge : 2 ^ 31 ≤ share serv call 0) :
    (serv.numClients = 0 ∧ 2 ^ 31 ≤ call.numThreads) ∨
      (serv.numClients = 1 ∧ call.numThreads = 2 ^ 32 - 1) := by
  rw [share_first, Nat.le_div_iff_mul_le (Nat.succ_pos _)] at hlarge
  omega

/-- The end of the last task, from the thread counts of the loop. -/
theorem lastEnd_tasks : lastEnd call.a (tasks serv call) = call.a + len call *
    ((∑ i ∈ Finset.range serv.numClients, numLocalThreads serv call i : ℤ) +
      numFullThreads serv call) := by
  have hloop : ∀ k, (taskAfter serv call k).b =
      call.a + len call * (∑ i ∈ Finset.range k, numLocalThreads serv call i : ℤ) := by
    intro k
    induction k with
    | zero => simp [taskAfter]
    | succ k ih =>
        rw [Finset.sum_range_succ, taskAfter, CompUnitTask.next, ih]
        push_cast
        ring
  have hclients : ∀ k, lastEnd call.a ((List.range k).map (clientTask serv call)) =
      (taskAfter serv call k).b := by
    intro k
    cases k with
    | zero => rfl
    | succ k => rw [lastEnd, List.range_succ, List.map_append, List.foldl_append]; rfl
  have happend : lastEnd call.a (tasks serv call) =
      lastEnd (taskAfter serv call serv.numClients).b (ownTask serv call).toList := by
    rw [← hclients, lastEnd, lastEnd, lastEnd, tasks, List.foldl_append]
  rw [happend, ownTask]
  split_ifs with hfull
  · change (taskAfter serv call serv.numClients).b + len call * _ = _
    rw [hloop]
    ring
  · rw [not_not.mp hfull, Int.cast_zero, add_zero]
    exact hloop _

/-- The counts of the loop then lack 2^32 threads. -/
theorem counts_of_large (hT : call.numThreads < 2 ^ 32) (hlarge : 2 ^ 31 ≤ share serv call 0) :
    ∑ i ∈ Finset.range serv.numClients, numLocalThreads serv call i + numFullThreads serv call =
      call.numThreads - 2 ^ 32 := by
  have hlast := share_last serv call
  rcases large_share hT hlarge with ⟨hzero, hge⟩ | ⟨hone, hall⟩
  · rw [numFullThreads_eq, hlast, hzero, Finset.sum_range_zero, zero_add, Nat.div_one]
    exact toInt_wrapped (by exact_mod_cast hge) (by exact_mod_cast hT)
  · have hfirst : share serv call 0 = 2 ^ 31 := by
      rw [share_first, hone, hall]
      rfl
    rw [numFullThreads_eq, hlast, hone, Finset.sum_range_one, numLocalThreads_eq, hfirst, hall,
      toInt_wrapped (by norm_num) (by norm_num), toInt_of_lt (by norm_num) (by norm_num)]
    norm_num

theorem not_tiles_of_large (hpos : 0 < call.numThreads) (hT : call.numThreads < 2 ^ 32)
    (hab : call.a ≠ call.b) (hlarge : 2 ^ 31 ≤ share serv call 0) :
    ¬ Tiles (call.b - call.a) call.a call.b (tasks serv call) := by
  intro h
  have hend := h.lastEnd_eq
  have htotal : (call.numThreads : ℚ) ≠ 0 := by exact_mod_cast hpos.ne'
  have hwidth : call.b - call.a ≠ 0 := sub_ne_zero.mpr hab.symm
  rw [lastEnd_tasks, ← Int.cast_add, counts_of_large hT hlarge, len] at hend
  push_cast at hend
  have hscaled : (call.b - call.a) * 2 ^ 32 = 0 := by
    field_simp at hend
    linarith
  exact (mul_ne_zero hwidth (by norm_num)) hscaled

/-- The tasks of a call partition its work exactly when the largest share fits
in `int`. -/
theorem tasks_partition_iff (serv : ServParam) {call : Call} (hpos : 0 < call.numThreads)
    (hT : call.numThreads < 2 ^ 32) (hab : call.a ≠ call.b) :
    Partition call (tasks serv call) ↔
      (call.numThreads + serv.numClients) / (serv.numClients + 1) < 2 ^ 31 := by
  rw [← share_first]
  constructor
  · intro h
    by_contra hlarge
    exact not_tiles_of_large hpos hT hab (not_lt.mp hlarge) h.tiles
  · exact partition_of_fit hpos hab

end

theorem tasks_partition_three :
    Partition ⟨3, .x, 0, 1, 1 / 10⟩ (tasks ⟨1, by decide⟩ ⟨3, .x, 0, 1, 1 / 10⟩) ↔
      (3 + 1) / (1 + 1) < 2 ^ 31 :=
  tasks_partition_iff ⟨1, by decide⟩ (by decide) (by decide) (by decide)

/-- 2^31 threads and no client: the only task goes from 0 to -1 instead of 1. -/
theorem large_count_turns_back :
    (tasks ⟨0, by decide⟩ ⟨2 ^ 31, .x, 0, 1, 1 / 10⟩).map (fun task => (task.a, task.b)) =
        [(0, -1)] ∧
      ¬ Partition ⟨2 ^ 31, .x, 0, 1, 1 / 10⟩
        (tasks ⟨0, by decide⟩ ⟨2 ^ 31, .x, 0, 1, 1 / 10⟩) := by
  have hfull : numFullThreads ⟨0, by decide⟩ ⟨2 ^ 31, .x, 0, 1, 1 / 10⟩ = -2 ^ 31 := by
    rw [numFullThreads_eq, share_last, Nat.div_one]
    exact toInt_wrapped (by norm_num) (by norm_num)
  constructor
  · simp only [tasks, ownTask, hfull]
    norm_num [taskAfter, CompUnitTask.next, len]
  · exact fun h => not_tiles_of_large (by decide) (by decide) (by decide) (by decide) h.tiles

end TaskLunev.HpcNetTasks
