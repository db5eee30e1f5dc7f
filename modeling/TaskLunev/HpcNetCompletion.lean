import Mathlib
import TaskLunev.CompletedRuns
import TaskLunev.IntegralError

/-!
# Distributed calls come to their end

Every move of a party lowers the rank, and the books leave no state in which
nobody can move except the end of the call. With a thread for every client all
answers are then in, the sockets are empty, and the result is as close to the
integral of `funcX` as that of a local call. With fewer threads the call fails.

This is for an interval that is not empty, a positive step and a thread count
that fits in `int`: `hpcIntegral` comes back with a number on every unit then.
Numbers are exact throughout.
-/
namespace TaskLunev.HpcNetCompletion
open IntegralModel HpcNetModel HpcNetTasks HpcNetProtocol HpcNetIntegral IntegralError
  CompletedRuns Set

/-- The moves of all parties; there are no others. -/
def Move (call : Call) (compute : ℕ → CompUnitTask → Option Double) {serv : ServParam}
    (s : State serv)
    (_event : Unit) (t : State serv) : Prop := Step call compute s t

section
variable {serv : ServParam} {call : Call} {compute : ℕ → CompUnitTask → Option Double}
  {result : Double}
  {s t : State serv}

/-! ## Moves lower the rank -/

/-- After a failure only the clients are left. -/
theorem Failed.rank_lt (h : Failed s) (hstep : Step call compute s t) : rank t < rank s := by
  unfold Failed at h
  cases hstep with
  | clientRead i hat hpos hle =>
      apply rank_move_lt i
      rw [hat]
      exact Nat.add_lt_add_left (ClientPc.rank_gotPart _ hpos hle) _
  | clientCompute i hat _ =>
      apply rank_move_lt i
      rw [hat]
      exact Nat.add_lt_add_left (Nat.lt_succ_self 8) _
  | clientWrite i hat hpos hle =>
      apply rank_move_lt i
      rw [hat]
      exact Nat.add_lt_add_left (ClientPc.rank_wrote hpos hle) _
  | send _ hat | sendClosed _ hat | sent hat | own hat | receive _ hat | receiveEnd _ hat
    | done hat => exact absurd (h.symm.trans hat) (by simp)

theorem rank_lt_of_reachable (h : Reachable call compute result s) (hstep : Step call compute s t) :
    rank t < rank s := by
  rcases books_of_reachable h with hfailed | hbooks
  · exact Failed.rank_lt hfailed hstep
  · exact hbooks.rank_lt hstep

/-- Each client takes at most 83 moves of its own and of the server's. -/
theorem rank_start (result : Double) :
    rank (State.start result : State serv) = serv.numClients * 83 + 42 := by
  simp only [rank, State.start, ServerPc.rank, ClientPc.rank, sizeTask, Nat.sub_zero,
    Finset.sum_const, Finset.card_univ, Fintype.card_fin, smul_eq_mul]
  omega

/-! ## Rest is the end -/

/-- Nobody can move. -/
def Still (call : Call) (compute : ℕ → CompUnitTask → Option Double) (s : State serv) : Prop :=
  ∀ t, ¬ Step call compute s t

theorem Still.returned (h : Still call compute s) (hbooks : Books call s)
    (hreturns : Returns serv call compute) : s.server = .returned 0 := by
  rcases hbooks.progress hreturns with ⟨code, hat⟩ | ⟨t, hstep⟩
  · have hrange := hbooks.range
    rw [hat] at hrange
    rw [hat, show code = 0 from hrange]
  · exact absurd hstep (h t)

/-- A client left behind has closed its socket, and both streams are empty. -/
theorem Still.closed (h : Still call compute s) (hbooks : Books call s)
    (hreturns : Returns serv call compute) (i : Fin serv.numClients) :
    (s.clients i).pc = .closed ∧ (s.clients i).toClient = 0 ∧ (s.clients i).toServer = 0 := by
  have hclient := hbooks.client i
  rw [h.returned hbooks hreturns] at hclient
  have htask := hclient.task
  have hresult := hclient.result
  cases hpc : (s.clients i).pc with
  | reading left =>
      rw [hpc] at htask
      simp only [sentTask, sizeTask] at htask
      exact absurd (.clientRead i hpc htask.1 le_rfl (by omega)) (h _)
  | computing =>
      obtain ⟨value, hvalue⟩ := hreturns.client i (hclient.answers (.inl hpc))
      exact absurd (.clientCompute i hpc hvalue) (h _)
  | writing left => exact absurd (.clientWrite i hpc (hclient.writing _ hpc) le_rfl) (h _)
  | closed =>
      rw [hpc] at htask hresult
      simp only [gotResult, toWrite, sizeResult] at hresult
      refine ⟨rfl, htask.2, ?_⟩
      split_ifs at hresult <;> omega

end

/-! ## The value at the end -/

/-- The call is back with 0, the clients are done, no byte is left in a socket,
and the result is `value`. -/
structure Finished {serv : ServParam} (value : ℚ) (s : State serv) : Prop where
  returned : s.server = .returned 0
  clients : ∀ i, (s.clients i).pc = .closed ∧ (s.clients i).toClient = 0 ∧
    (s.clients i).toServer = 0
  result : s.result = some value

/-- What a call has come to: with a thread for every client the value, which is
close to the integral, and otherwise an error. -/
def Outcome (call : Call) {serv : ServParam} (s : State serv) : Prop :=
  if serv.numClients ≤ call.numThreads then
    Finished (integralValue funcX call.a call.b call.eps call.numThreads) s ∧
      Approximates id call.a call.b
        (cutError 1 (max |(call.a : ℝ)| |(call.b : ℝ)|) call.a call.b (wholeDx call) call.numThreads)
        (integralValue funcX call.a call.b call.eps call.numThreads)
  else Failed s

section
variable {serv : ServParam} {call : Call} {compute : ℕ → CompUnitTask → Option Double}
  {numLogicCpu : ℕ → ℤ}

theorem funcX_error (hpos : 0 < call.numThreads) (hab : call.a ≠ call.b) (heps : 0 < call.eps) :
    Approximates id call.a call.b
      (cutError 1 (max |(call.a : ℝ)| |(call.b : ℝ)|) call.a call.b (wholeDx call) call.numThreads)
      (integralValue funcX call.a call.b call.eps call.numThreads) := by
  have hf : ∀ x : ℚ, id (x : ℝ) = funcX x := fun _ => rfl
  have hM : ∀ x ∈ uIcc (call.a : ℝ) call.b, |id x| ≤ max |(call.a : ℝ)| |(call.b : ℝ)| := by
    intro x hx
    rcases mem_uIcc.mp hx with ⟨hax, hxb⟩ | ⟨hbx, hxa⟩
    · exact abs_le_max_abs_abs hax hxb
    · rw [max_comm]
      exact abs_le_max_abs_abs hbx hxa
  exact integralValue_error hf LipschitzWith.id.lipschitzOnWith hM heps hab hpos

/-- Every task that has threads is computed. -/
theorem returns_of_units (hunits : UnitsCompute serv call numLogicCpu compute)
    (hpos : 0 < call.numThreads) (hT : call.numThreads < 2 ^ 31) (hab : call.a ≠ call.b)
    (heps : 0 < call.eps) : Returns serv call compute := by
  have hfit : share serv call 0 < 2 ^ 31 := (share_le_total serv call 0 (Nat.zero_le _)).trans_lt hT
  have hlt : call.numThreads < 2 ^ 32 := hT.trans (by norm_num)
  refine ⟨fun task htask => ⟨_, ownTask_value hunits hpos hfit hab heps htask⟩, fun i hsends => ?_⟩
  exact ⟨_, clientTask_value hunits hpos hlt hfit hab heps i.isLt hsends⟩

theorem outcome_of_still (hunits : UnitsCompute serv call numLogicCpu compute)
    (hpos : 0 < call.numThreads) (hT : call.numThreads < 2 ^ 31) (hab : call.a ≠ call.b)
    (heps : 0 < call.eps) {s : State serv} (hs : Reachable call compute (some 0) s)
    (hstill : Still call compute s) : Outcome call s := by
  have hlt : call.numThreads < 2 ^ 32 := hT.trans (by norm_num)
  have hreturns := returns_of_units hunits hpos hT hab heps
  unfold Outcome
  split_ifs with hclients
  · have hfit : share serv call 0 < 2 ^ 31 :=
      (share_le_total serv call 0 (Nat.zero_le _)).trans_lt hT
    have hanswer := hunits.answerable hpos hlt hfit hab heps hclients
    have hbooks := (books_start call (some 0)).run_of_sends ((sends_iff hlt).mpr hclients)
      hanswer.finite hs
    have hat := hstill.returned hbooks hreturns
    have hvalue : s.result = some (integralValue funcX call.a call.b call.eps call.numThreads) := by
      rw [result_of_returned hs hat, collected_eq hunits hpos hT hab heps hclients]
    exact ⟨⟨hat, hstill.closed hbooks hreturns, hvalue⟩, funcX_error hpos hab heps⟩
  · rcases books_of_reachable hs with hfailed | hbooks
    · exact hfailed
    · exact absurd (hstill.returned hbooks hreturns) (not_returned hlt (not_le.mp hclients) hs)

theorem ranked (hunits : UnitsCompute serv call numLogicCpu compute)
    (hpos : 0 < call.numThreads) (hT : call.numThreads < 2 ^ 31) (hab : call.a ≠ call.b)
    (heps : 0 < call.eps) :
    Ranked (Move call compute) (fun _ => true)
      (fun s : State serv => Reachable call compute (some 0) s) rank (Outcome call) where
  keeps _ _ _ hs hstep := hs.tail hstep
  lowers _ _ _ hs hstep := by
    rw [if_pos rfl]
    exact rank_lt_of_reachable hs hstep
  goal _ hs hrest :=
    outcome_of_still hunits hpos hT hab heps hs fun t => hrest () t rfl

end

/-- However the sockets split the bytes and whoever moves next, a call comes to
its end: after at most 83 moves for each client and 42 more nobody can move, and
then it has its outcome. -/
theorem calls_complete {serv : ServParam} {call : Call} {compute : ℕ → CompUnitTask → Option Double}
    {numLogicCpu : ℕ → ℤ} (hunits : UnitsCompute serv call numLogicCpu compute)
    (hpos : 0 < call.numThreads) (hT : call.numThreads < 2 ^ 31) (hab : call.a ≠ call.b)
    (heps : 0 < call.eps) :
    Completes (Move call compute) (fun _ => true) (State.start (some 0) : State serv)
      (serv.numClients * 83 + 42) (Outcome call) := by
  have hcompletes : Completes (Move call compute) (fun _ => true) (State.start (some 0) : State serv)
      (rank (State.start (some 0) : State serv)) (Outcome call) :=
    (ranked hunits hpos hT hab heps).completes .refl
  rwa [rank_start] at hcompletes

/-- Two clients and the server share four threads from 3 down to 0. -/
theorem calls_complete_two_clients :
    Completes (Move ⟨4, .x, 3, 0, 1 / 10⟩ taskValue) (fun _ => true)
      (State.start (some 0) : State ⟨2, by decide⟩) (2 * 83 + 42) (Outcome ⟨4, .x, 3, 0, 1 / 10⟩) := by
  have hunits : UnitsCompute ⟨2, by decide⟩ ⟨4, .x, 3, 0, 1 / 10⟩ (fun _ => 8) taskValue :=
    unitsCompute_taskValue (by decide) (by decide) (by norm_num) (by norm_num) fun _ => by norm_num
  exact calls_complete hunits (by decide) (by decide) (by norm_num) (by norm_num)

end TaskLunev.HpcNetCompletion
