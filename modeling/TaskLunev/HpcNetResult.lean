import TaskLunev.HpcNetIntegral

/-!
# What is in the result before the call

The server assigns `*result` when it has a task of its own, and adds the answers
of the clients to it. Here the call is one function of what it is answered, with
NaN among the values. Without a task of its own the old contents stay in the sum.
The runs of the exchange that come back with 0 are calls of this function.
-/
namespace TaskLunev.HpcNetResult
open IntegralModel HpcNetModel HpcNetTasks HpcNetProtocol HpcNetIntegral

/-- Whether each task is written, what `hpcIntegral` gives for the server's own
one, and the answer read from each client, if there is one. -/
structure Answers where
  sent : ℕ → CompUnitTask → Bool
  own : CompUnitTask → Double
  replies : ℕ → Option Double

/-- The reading loop with so many clients to go. -/
def readReplies (replies : ℕ → Option Double) : ℕ → ℕ → Double → ℤ × Double
  | 0, _, result => (0, result)
  | left + 1, numcli, result =>
      match replies numcli with
      | none => (-1, result)
      | some cliRes => readReplies replies left (numcli + 1) (addDouble result cliRes)

/-- The value returned and what is left in `*result`. -/
def hpcnetCalcIntegral (serv : ServParam) (call : Call) (answers : Answers) (result : Double) :
    ℤ × Double :=
  if (List.range serv.numClients).all
      (fun numcli => answers.sent numcli (clientTask serv call numcli)) = false then
    (-1, result)
  else
    match ownTask serv call with
    | none => readReplies answers.replies serv.numClients 0 result
    | some task =>
        let result := answers.own task
        if result.isNone then (-1, result)
        else readReplies answers.replies serv.numClients 0 result

section
variable {serv : ServParam} {call : Call}

/-- Answers that are all numbers. -/
theorem readReplies_numbers (value : ℕ → ℚ) (left numcli : ℕ) (result : ℚ) :
    readReplies (fun i => some (some (value i))) left numcli (some result) =
      (0, some (result + ∑ k ∈ Finset.range left, value (numcli + k))) := by
  induction left generalizing numcli result with
  | zero => simp [readReplies]
  | succ left ih =>
      have hadd : addDouble (some result) (some (value numcli)) = some (result + value numcli) := rfl
      rw [readReplies]
      simp only [hadd, ih]
      rw [Finset.sum_range_succ', add_zero, add_assoc, add_comm (value numcli)]
      simp only [Nat.add_right_comm numcli 1, Nat.add_assoc]

/-- The server has a task exactly when there is a thread for every unit. -/
theorem ownTask_isSome_iff (hT : call.numThreads < 2 ^ 32) :
    (ownTask serv call).isSome = true ↔ serv.numClients + 1 ≤ call.numThreads := by
  have hlt : call.numThreads / (serv.numClients + 1) < 2 ^ 32 := (Nat.div_le_self _ _).trans_lt hT
  have hfull : numFullThreads serv call ≠ 0 ↔ serv.numClients + 1 ≤ call.numThreads := by
    rw [numFullThreads, ne_eq, toInt_eq_zero_iff hlt, Nat.div_eq_zero_iff]
    omega
  rw [← hfull, ownTask]
  split_ifs with h
  · exact iff_of_true rfl h
  · exact iff_of_false Bool.false_ne_true h

/-- With a task of its own the server writes over what was there. -/
theorem hpcnetCalcIntegral_own {answers : Answers} {task : CompUnitTask} {before after : Double}
    (htask : ownTask serv call = some task)
    (h : hpcnetCalcIntegral serv call answers before = (0, after)) :
    readReplies answers.replies serv.numClients 0 (answers.own task) = (0, after) := by
  unfold hpcnetCalcIntegral at h
  simp only [htask] at h
  split_ifs at h
  · cases h
  · cases h
  · exact h

/-- Without one, and when all clients answer 0, it leaves what was there. -/
theorem hpcnetCalcIntegral_rest (htask : ownTask serv call = none) (before : ℚ) :
    hpcnetCalcIntegral serv call ⟨fun _ _ => true, fun _ => none, fun _ => some (some 0)⟩
      (some before) = (0, some before) := by
  have hsent : ¬ ((List.range serv.numClients).all fun _ => true) = false := by simp
  have hreplies := readReplies_numbers (fun _ => 0) serv.numClients 0 before
  unfold hpcnetCalcIntegral
  simp only [htask, if_neg hsent, hreplies, Finset.sum_const_zero, add_zero]

/-- The reading loop adds up what the units compute. -/
theorem readReplies_collected {compute : ℕ → CompUnitTask → Option Double} (before : Double)
    (hback : ∀ i < serv.numClients, ∃ v, compute i (clientTask serv call i) = some v)
    {left numcli : ℕ} (hall : numcli + left = serv.numClients) :
    readReplies (fun i => compute i (clientTask serv call i)) left numcli
        (collected serv call compute before numcli) =
      (0, collected serv call compute before serv.numClients) := by
  induction left generalizing numcli with
  | zero => rw [readReplies, ← hall, Nat.add_zero]
  | succ left ih =>
      obtain ⟨v, hv⟩ := hback numcli (by omega)
      have hnext : collected serv call compute before (numcli + 1) =
          addDouble (collected serv call compute before numcli) v := by
        rw [collected, hv, Option.getD_some]
      rw [readReplies, hv, ← ih (show numcli + 1 + left = _ by omega), hnext]

/-- A run of the exchange that comes back with 0 is a call that is answered what
the units compute. -/
theorem run_is_call {compute : ℕ → CompUnitTask → Option Double} {before : Double}
    {s : State serv} (h : Reachable call compute before s) (hat : s.server = .returned 0) :
    hpcnetCalcIntegral serv call
      { sent := fun _ _ => true
        own := fun task => (compute serv.numClients task).getD none
        replies := fun i => compute i (clientTask serv call i) } before = (0, s.result) := by
  have hsent : ¬ ((List.range serv.numClients).all fun _ => true) = false := by simp
  have hanswer := answerable_of_returned h hat
  have hreplies := readReplies_collected before
    (fun i hi => (hanswer.client ⟨i, hi⟩).2) (Nat.zero_add serv.numClients)
  have hown := hanswer.own
  rw [result_of_returned h hat, ← hreplies, collected, ownResult, hpcnetCalcIntegral, if_neg hsent]
  cases htask : ownTask serv call with
  | none => simp only [Option.elim_none]
  | some task =>
      obtain ⟨r, hr⟩ := hown task htask
      simp only [hr, Option.elim_some, Option.getD_some, Option.isNone_some, Bool.false_eq_true,
        if_false]

end

/-- Whatever is answered, two calls that come back with 0 leave the same value
whatever was in `*result` before, exactly when there are more threads than
clients. -/
theorem result_independent_iff (serv : ServParam) (call : Call)
    (hT : call.numThreads < 2 ^ 32) :
    (∀ answers before before' after after',
        hpcnetCalcIntegral serv call answers before = (0, after) →
        hpcnetCalcIntegral serv call answers before' = (0, after') → after = after') ↔
      serv.numClients + 1 ≤ call.numThreads := by
  rw [← ownTask_isSome_iff hT]
  cases htask : ownTask serv call with
  | none =>
      refine iff_of_false (fun h => ?_) Bool.false_ne_true
      have heq : some (0 : ℚ) = some 1 := h _ _ _ _ _ (hpcnetCalcIntegral_rest htask 0)
        (hpcnetCalcIntegral_rest htask 1)
      exact zero_ne_one (Option.some.inj heq)
  | some task =>
      refine iff_of_true (fun answers before before' after after' h h' => ?_) rfl
      have heq := (hpcnetCalcIntegral_own htask h).symm.trans (hpcnetCalcIntegral_own htask h')
      exact congrArg Prod.snd heq

/-- Four threads for two clients and the server. -/
theorem result_independent_two_clients :
    (∀ answers before before' after after',
        hpcnetCalcIntegral ⟨2, by decide⟩ ⟨4, .x, 0, 3, 1 / 10⟩ answers before = (0, after) →
        hpcnetCalcIntegral ⟨2, by decide⟩ ⟨4, .x, 0, 3, 1 / 10⟩ answers before' = (0, after') →
          after = after') ↔
      2 + 1 ≤ 4 :=
  result_independent_iff ⟨2, by decide⟩ ⟨4, .x, 0, 3, 1 / 10⟩ (by decide)

/-- One thread for one client, and none for the server. -/
theorem result_left_over :
    hpcnetCalcIntegral ⟨1, by decide⟩ ⟨1, .x, 0, 2, 1 / 10⟩
        ⟨fun _ _ => true, fun _ => none, fun _ => some (some 2)⟩ (some 0) = (0, some 2) ∧
      hpcnetCalcIntegral ⟨1, by decide⟩ ⟨1, .x, 0, 2, 1 / 10⟩
        ⟨fun _ _ => true, fun _ => none, fun _ => some (some 2)⟩ (some 5) = (0, some 7) := by
  decide +kernel

end TaskLunev.HpcNetResult
