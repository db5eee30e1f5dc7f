import TaskLunev.HpcNetProtocol
import Mathlib.Algebra.BigOperators.Ring.Finset

/-!
# The value of a distributed call

The sample points of a unit are some of the points a single machine would take
for the whole interval, and the units together take each of them once. The
server adds the answers up in the order of its clients. So a call that comes
back with 0 holds the local value of the function its tasks name, which is
`funcX` whatever function was passed.
-/
namespace TaskLunev.HpcNetIntegral
open SampledSums IntegralModel HpcNetModel HpcNetTasks HpcNetProtocol

/-! ## Sums over the sample points -/

theorem threadSum_add (func : ℚ → ℚ) (dx len a : ℚ) (m n : ℕ) :
    threadSum func dx len a (m + n) =
      threadSum func dx len a m + threadSum func dx len (a + m * len) n := by
  unfold threadSum
  rw [Finset.sum_range_add]
  congr 1
  apply Finset.sum_congr rfl
  intro i _
  push_cast
  congr 1
  ring

/-- The step and the length of a thread's chunk when the whole interval is cut
on one machine. -/
def wholeDx (call : Call) : ℚ := |call.b - call.a| * call.eps

def wholeLen (call : Call) : ℚ := |call.b - call.a| / call.numThreads

/-- The sum of a function over the sample points of a local call. -/
def sampleSum (call : Call) (func : ℚ → ℚ) : ℚ :=
  threadSum func (wholeDx call) (wholeLen call) (min call.a call.b) call.numThreads

/-- The direction of the interval. -/
def sign (call : Call) : ℚ := if call.a ≤ call.b then 1 else -1

theorem integralValue_whole (call : Call) (func : ℚ → ℚ) :
    integralValue func call.a call.b call.eps call.numThreads =
      sampleSum call func * sign call * wholeDx call := by
  unfold integralValue
  rw [localSplit_eq]
  rfl

section
variable {serv : ServParam} {call : Call}

/-- The part of the sum that unit `i` takes. -/
def unitSum (serv : ServParam) (call : Call) (func : ℚ → ℚ) (i : ℕ) : ℚ :=
  threadSum func (wholeDx call) (wholeLen call)
    (min (fairTask serv call i).a (fairTask serv call i).b) (share serv call i)

/-- The end of the first `k` tasks. -/
def endOf (serv : ServParam) (call : Call) (k : ℕ) : ℚ :=
  call.a + len call * threadsBefore serv call k

theorem len_forward (hab : call.a ≤ call.b) : len call = wholeLen call := by
  unfold len wholeLen
  rw [abs_of_nonneg (sub_nonneg.mpr hab)]

theorem len_backward (hab : ¬ call.a ≤ call.b) : len call = -wholeLen call := by
  unfold len wholeLen
  rw [abs_of_neg (sub_neg.mpr (not_le.mp hab)), neg_div, neg_neg]

theorem wholeLen_nonneg (call : Call) : 0 ≤ wholeLen call :=
  div_nonneg (abs_nonneg _) (Nat.cast_nonneg _)

/-- The first units together take the points between the start and the end of
their tasks. -/
theorem sum_unitSum (func : ℚ → ℚ) (k : ℕ) :
    ∑ i ∈ Finset.range k, unitSum serv call func i =
      threadSum func (wholeDx call) (wholeLen call) (min call.a (endOf serv call k))
        (threadsBefore serv call k) := by
  have hlen := wholeLen_nonneg call
  induction k with
  | zero => simp [threadsBefore, threadSum]
  | succ k ih =>
      have hbefore : (0 : ℚ) ≤ threadsBefore serv call k := Nat.cast_nonneg _
      have hshare : (0 : ℚ) ≤ share serv call k := Nat.cast_nonneg _
      have hprod := mul_nonneg hlen hbefore
      have hprod' := mul_nonneg hlen hshare
      rw [Finset.sum_range_succ, ih, threadsBefore_succ]
      unfold unitSum fairTask endOf
      rw [threadsBefore_succ]
      push_cast
      by_cases hab : call.a ≤ call.b
      · -- The new chunks lie above the old ones.
        rw [len_forward hab, threadSum_add]
        simp only [mul_add]
        rw [min_eq_left (by linarith), min_eq_left (by linarith), min_eq_left (by linarith)]
        congr 2
        ring
      · rw [len_backward hab, add_comm (threadsBefore serv call k), threadSum_add, add_comm]
        simp only [mul_add]
        rw [min_eq_right (by linarith), min_eq_right (by linarith), min_eq_right (by linarith)]
        congr 2
        ring

/-- All units together take the points of the whole interval. -/
theorem sum_unitSum_all (hpos : 0 < call.numThreads) (func : ℚ → ℚ) :
    ∑ i ∈ Finset.range (serv.numClients + 1), unitSum serv call func i = sampleSum call func := by
  have htotal : (0 : ℚ) < call.numThreads := by exact_mod_cast hpos
  have hend : endOf serv call (serv.numClients + 1) = call.b := by
    unfold endOf len
    rw [threadsBefore_all]
    field_simp
    ring
  rw [sum_unitSum, threadsBefore_all, hend]
  rfl

/-- The value a unit comes back with. -/
def unitValue (serv : ServParam) (call : Call) (i : ℕ) : ℚ :=
  unitSum serv call funcX i * sign call * wholeDx call

theorem fairTask_le_iff (hpos : 0 < call.numThreads) (hab : call.a ≠ call.b) {i : ℕ}
    (hi : 0 < share serv call i) :
    (fairTask serv call i).a ≠ (fairTask serv call i).b ∧
      ((fairTask serv call i).a ≤ (fairTask serv call i).b ↔ call.a ≤ call.b) := by
  have hwidth : (fairTask serv call i).b - (fairTask serv call i).a =
      len call * share serv call i := fairTask_width i
  have hshare : (0 : ℚ) < share serv call i := by exact_mod_cast hi
  have htotal : (0 : ℚ) < call.numThreads := by exact_mod_cast hpos
  rcases lt_or_gt_of_ne hab with hlt | hgt
  · have hlen : 0 < len call := div_pos (sub_pos.mpr hlt) htotal
    have hprod := mul_pos hlen hshare
    exact ⟨by linarith, iff_of_true (by linarith) hlt.le⟩
  · have hlen : len call < 0 := div_neg_of_neg_of_pos (sub_neg.mpr hgt) htotal
    have hprod := mul_neg_of_neg_of_pos hlen hshare
    exact ⟨by linarith, iff_of_false (by linarith) (not_le.mpr hgt)⟩

/-- A unit cuts its task as the whole interval is cut. -/
theorem unit_integralValue (hpos : 0 < call.numThreads) (hab : call.a ≠ call.b) {i : ℕ}
    (hi : 0 < share serv call i) (hfit : share serv call i < 2 ^ 31) :
    integralValue funcX (fairTask serv call i).a (fairTask serv call i).b
      (compUnitTask2IntArg (fairTask serv call i)).eps (share serv call i) =
        unitValue serv call i := by
  obtain ⟨hdx, hlen⟩ := fairTask_split hpos hab hi hfit
  have hint : toInt (share serv call i) = share serv call i :=
    toInt_of_lt (Int.natCast_nonneg _) (by exact_mod_cast hfit)
  change (localSplit _ _ _ (toInt (share serv call i))).dx = wholeDx call at hdx
  change (localSplit _ _ _ (toInt (share serv call i))).len = wholeLen call at hlen
  have hsign : (localSplit (fairTask serv call i).a (fairTask serv call i).b
      (compUnitTask2IntArg (fairTask serv call i)).eps (share serv call i)).sign = sign call := by
    rw [localSplit_eq]
    exact if_congr (fairTask_le_iff hpos hab hi).2 rfl rfl
  have hstart : (localSplit (fairTask serv call i).a (fairTask serv call i).b
      (compUnitTask2IntArg (fairTask serv call i)).eps (share serv call i)).a =
        min (fairTask serv call i).a (fairTask serv call i).b := by
    rw [localSplit_eq]
  rw [hint] at hdx hlen
  unfold integralValue unitValue unitSum
  rw [← hdx, ← hlen, ← hsign, ← hstart]
  rfl

theorem unit_computes_iff (hpos : 0 < call.numThreads) (hab : call.a ≠ call.b)
    (heps : 0 < call.eps) {i : ℕ} (hi : 0 < share serv call i) (hfit : share serv call i < 2 ^ 31)
    {numLogicCpu : ℤ} (hcpu : numLogicCpu < 2 ^ 31) {v : Double} :
    Computes numLogicCpu (compUnitTask2IntArg (fairTask serv call i)) v ↔
      v = some (unitValue serv call i) := by
  have hne := (fairTask_le_iff hpos hab hi).1
  have hwidth : 0 < |(fairTask serv call i).b - (fairTask serv call i).a| :=
    abs_pos.mpr (sub_ne_zero.mpr hne.symm)
  have hwhole : 0 < |call.b - call.a| := abs_pos.mpr (sub_ne_zero.mpr hab.symm)
  have heps_unit : 0 < (compUnitTask2IntArg (fairTask serv call i)).eps :=
    div_pos (mul_pos hwhole heps) hwidth
  have hiff : Computes numLogicCpu (compUnitTask2IntArg (fairTask serv call i)) v ↔ _ :=
    computes_iff funcX hne heps_unit hi hfit hcpu
  rw [hiff]
  exact Eq.congr_right (congrArg some (unit_integralValue hpos hab hi hfit))

end

/-! ## The result of a run -/

section
variable {serv : ServParam} {call : Call} {compute : ℕ → CompUnitTask → Option Double}

/-- `*result` after the server's own task, if it has one. -/
def ownResult (serv : ServParam) (call : Call) (compute : ℕ → CompUnitTask → Option Double)
    (result : Double) : Double :=
  (ownTask serv call).elim result fun task => (compute serv.numClients task).getD none

/-- The value of `*result` when the answers of the first `k` clients are in. -/
def collected (serv : ServParam) (call : Call) (compute : ℕ → CompUnitTask → Option Double)
    (result : Double) : ℕ → Double
  | 0 => ownResult serv call compute result
  | k + 1 => addDouble (collected serv call compute result k)
      ((compute k (clientTask serv call k)).getD none)

def resultAt (serv : ServParam) (call : Call) (compute : ℕ → CompUnitTask → Option Double)
    (result : Double) : ServerPc → Double
  | .reading numcli _ => collected serv call compute result numcli
  | .returned _ => collected serv call compute result serv.numClients
  | _ => result

/-- A client knows its answer when it writes it and after that. -/
def Answered (call : Call) (compute : ℕ → CompUnitTask → Option Double) (i : Fin serv.numClients)
    (client : Client) : Prop :=
  match client.pc with
  | .reading _ | .computing => True
  | _ => Sends serv call i → compute i (clientTask serv call i) = some client.result

/-- The server's own task, if there is one, is a number. -/
def OwnNumber (serv : ServParam) (call : Call) (compute : ℕ → CompUnitTask → Option Double) :
    Prop :=
  ∀ task ∈ ownTask serv call, ∃ r : ℚ, compute serv.numClients task = some (some r)

structure Collected (call : Call) (compute : ℕ → CompUnitTask → Option Double) (result : Double)
    (s : State serv) : Prop where
  result : s.result = resultAt serv call compute result s.server
  answers : ∀ i, Answered call compute i (s.clients i)
  own : (∃ numcli left, s.server = .reading numcli left) ∨ (∃ code, s.server = .returned code) →
    OwnNumber serv call compute

theorem ownCall_value {result value : Double} {server : ServerPc}
    (h : ownCall serv call compute result = some (server, value)) (hserver : server ≠ .returned (-1)) :
    value = ownResult serv call compute result ∧ OwnNumber serv call compute := by
  cases htask : ownTask serv call with
  | none =>
      simp only [ownCall, htask, Option.elim_none, Option.some.injEq, Prod.mk.injEq] at h
      simp only [ownResult, OwnNumber, htask, Option.elim_none]
      exact ⟨h.2.symm, fun _ htask => absurd htask (Option.not_mem_none _)⟩
  | some task =>
      simp only [ownCall, htask, Option.elim_some, Option.map_eq_some_iff] at h
      obtain ⟨v, hv, hpair⟩ := h
      cases v with
      | none => exact absurd (congrArg Prod.fst hpair).symm hserver
      | some r =>
          simp only [ownResult, OwnNumber, htask, Option.elim_some, hv, Option.getD_some]
          refine ⟨(congrArg Prod.snd hpair).symm, fun task' htask' => ⟨r, ?_⟩⟩
          rw [← Option.mem_some_iff.mp htask', hv]

theorem resultAt_wrote (result : Double) (numcli left k : ℕ) :
    resultAt serv call compute result (.wrote numcli left k) = result := by
  unfold ServerPc.wrote
  split_ifs <;> rfl

theorem resultAt_gotPart (result : Double) (numcli left k : ℕ) :
    resultAt serv call compute result (.gotPart numcli left k) =
      if left - k = 0 then collected serv call compute result (numcli + 1)
      else collected serv call compute result numcli := by
  unfold ServerPc.gotPart
  split_ifs <;> rfl

theorem Answered.setClient {s : State serv} {i : Fin serv.numClients} {client : Client}
    (h : ∀ j, Answered call compute j (s.clients j)) (hi : Answered call compute i client)
    (j : Fin serv.numClients) : Answered call compute j ((s.setClient i client).clients j) := by
  by_cases hj : j = i
  · subst hj
    simpa only [State.setClient, Function.update_self] using hi
  · simpa only [State.setClient, Function.update_of_ne hj] using h j

/-- Bytes in flight come from a client that knows its answer. -/
theorem answer_of_sent {s : State serv} (hbooks : Books call s)
    (h : ∀ i, Answered call compute i (s.clients i)) {i : Fin serv.numClients}
    (hthere : 0 < (s.clients i).toServer) :
    compute i (clientTask serv call i) = some (s.clients i).result := by
  have hresult := (hbooks.client i).result
  have hanswer := h i
  have hsends : Sends serv call i := by
    by_contra hnot
    rw [if_neg (not_not.mpr hnot)] at hresult
    omega
  rw [if_pos hsends] at hresult
  unfold Answered at hanswer
  cases hpc : (s.clients i).pc with
  | reading left =>
      simp only [hpc, toWrite, if_pos hsends] at hresult
      omega
  | computing =>
      simp only [hpc, toWrite] at hresult
      omega
  | writing left =>
      simp only [hpc] at hanswer
      exact hanswer hsends
  | closed =>
      simp only [hpc] at hanswer
      exact hanswer hsends

theorem Collected.step {result : Double} {s s' : State serv} (h : Collected call compute result s)
    (hbooks : Books call s) (hbooks' : Books call s') (hstep : Step call compute s s') :
    Collected call compute result s' := by
  have hnot := hbooks'.not_failed
  have hresult := h.result
  have hown := h.own
  cases hstep with
  | @send i left k hat =>
      rw [hat] at hresult
      refine ⟨hresult.trans (resultAt_wrote ..).symm, Answered.setClient h.answers (h.answers i), ?_⟩
      intro hreading
      simp only [ServerPc.wrote] at hreading
      split_ifs at hreading <;> simp at hreading
  | sendClosed => exact absurd rfl hnot
  | sent hat =>
      rw [hat] at hresult
      exact ⟨hresult, h.answers, fun hreading => by simp at hreading⟩
  | own hat hback =>
      rw [hat] at hresult
      obtain ⟨hvalue, hnumber⟩ := ownCall_value hback hnot
      rcases ownCall_server hback with rfl | ⟨rfl, -⟩
      · refine ⟨?_, h.answers, fun _ => hnumber⟩
        rw [show s.result = result from hresult] at hvalue
        exact hvalue
      · exact absurd rfl hnot
  | @receive i left k hat hpos hle hthere =>
      rw [hat] at hresult
      refine ⟨?_, Answered.setClient h.answers (h.answers i), fun _ => hown (.inl ⟨_, _, hat⟩)⟩
      have hanswer := answer_of_sent hbooks h.answers (hpos.trans_le hthere)
      change (if left - k = 0 then addDouble s.result (s.clients i).result else s.result) = _
      rw [resultAt_gotPart, hresult, collected, hanswer]
      rfl
  | receiveEnd => exact absurd rfl hnot
  | done hat =>
      rw [hat] at hresult
      exact ⟨hresult, h.answers, fun _ => hown (.inl ⟨_, _, hat⟩)⟩
  | @clientRead i left k hat =>
      refine ⟨hresult, Answered.setClient h.answers ?_, hown⟩
      simp only [Answered, ClientPc.gotPart]
      split_ifs with hdone hzero
      · exact fun hsends => absurd hzero hsends
      · trivial
      · trivial
  | clientCompute i hat hback =>
      exact ⟨hresult, Answered.setClient h.answers fun _ => hback, hown⟩
  | @clientWrite i left k hat =>
      have hanswer := h.answers i
      simp only [Answered, hat] at hanswer
      refine ⟨hresult, Answered.setClient h.answers ?_, hown⟩
      simp only [Answered, ClientPc.wrote]
      split_ifs <;> exact hanswer

theorem collected_start (result : Double) :
    Collected call compute result (State.start result : State serv) :=
  ⟨rfl, fun _ => trivial, fun h => by simp [State.start] at h⟩

theorem collected_of_reachable {result : Double} {s : State serv}
    (h : Reachable call compute result s) :
    Failed s ∨ Books call s ∧ Collected call compute result s := by
  have hstart : Books call (State.start result : State serv) ∧
      Collected call compute result (State.start result : State serv) :=
    ⟨books_start call result, collected_start result⟩
  refine TransitionRuns.invariant_or_end (r := Step call compute)
    (fun s s' (h : Books call s ∧ Collected call compute result s) hstep => ?_)
    (fun s s' h hstep => ?_) h hstart
  · rcases h.1.step hstep with hfailed | hbooks
    · exact .inl hfailed
    · exact .inr ⟨hbooks, h.2.step h.1 hbooks hstep⟩
  · exact h.step hstep

theorem not_failed_of_returned {s : State serv} (hat : s.server = .returned 0) : ¬ Failed s := by
  intro hfailed
  unfold Failed at hfailed
  rw [hat] at hfailed
  cases hfailed

/-- What a call that came back with 0 has in `*result`. -/
theorem result_of_returned {result : Double} {s : State serv} (h : Reachable call compute result s)
    (hat : s.server = .returned 0) :
    s.result = collected serv call compute result serv.numClients := by
  have hboth := (collected_of_reachable h).resolve_left (not_failed_of_returned hat)
  have hresult := hboth.2.result
  rw [hat] at hresult
  exact hresult

/-! ## Which calls can come back -/

/-- Every client has threads, `hpcIntegral` comes back on it, and on the server
with a number. -/
structure Answerable (serv : ServParam) (call : Call) (compute : ℕ → CompUnitTask → Option Double) :
    Prop where
  client : ∀ i : Fin serv.numClients,
    Sends serv call i ∧ ∃ value, compute i (clientTask serv call i) = some value
  own : OwnNumber serv call compute

theorem Answerable.returns (h : Answerable serv call compute) : Returns serv call compute where
  own task htask := by
    obtain ⟨r, hr⟩ := h.own task htask
    exact ⟨some r, hr⟩
  client i _ := (h.client i).2

theorem Answerable.finite (h : Answerable serv call compute) : OwnFinite serv call compute := by
  intro task htask hnan
  obtain ⟨r, hr⟩ := h.own task htask
  simp [hr] at hnan

/-- When a call comes back with 0 everybody has answered. -/
theorem answerable_of_returned {result : Double} {s : State serv}
    (h : Reachable call compute result s) (hat : s.server = .returned 0) :
    Answerable serv call compute := by
  obtain ⟨hbooks, hcollected⟩ :=
    (collected_of_reachable h).resolve_left (not_failed_of_returned hat)
  refine ⟨fun i => ?_, hcollected.own (.inr ⟨0, hat⟩)⟩
  have hsends := hbooks.sends_of_returned hat i
  have hclient := hbooks.client i
  have hresult := hclient.result
  have hanswer := hcollected.answers i
  rw [hat, if_pos hsends] at hresult
  refine ⟨hsends, (s.clients i).result, ?_⟩
  unfold Answered at hanswer
  cases hpc : (s.clients i).pc with
  | reading left =>
      simp only [hpc, toWrite, if_pos hsends, gotResult, sizeResult] at hresult
      omega
  | computing =>
      simp only [hpc, toWrite, gotResult, sizeResult] at hresult
      omega
  | writing left =>
      simp only [hpc] at hanswer
      exact hanswer hsends
  | closed =>
      simp only [hpc] at hanswer
      exact hanswer hsends

theorem Answerable.exists_return (h : Answerable serv call compute) (result : Double) :
    ∃ s : State serv, Reachable call compute result s ∧ s.server = .returned 0 :=
  (books_start call result).exists_return (fun i => (h.client i).1) h.returns h.finite

end

/-! ## The value -/

/-- `compute` is `hpcIntegral` on every unit's task. -/
structure UnitsCompute (serv : ServParam) (call : Call) (numLogicCpu : ℕ → ℤ)
    (compute : ℕ → CompUnitTask → Option Double) : Prop where
  cpus : ∀ unit, numLogicCpu unit < 2 ^ 31
  value : ∀ unit, ∀ task ∈ tasks serv call, ∀ v,
    compute unit task = some v ↔ Computes (numLogicCpu unit) (compUnitTask2IntArg task) v

section
variable {serv : ServParam} {call : Call} {numLogicCpu : ℕ → ℤ}
  {compute : ℕ → CompUnitTask → Option Double}

/-- The values that `hpcIntegral` gives; a task without threads is not valid. -/
def taskValue (_unit : ℕ) (task : CompUnitTask) : Option Double :=
  let arg := compUnitTask2IntArg task
  if arg.numThreads = 0 then some none
  else some (some (integralValue task.typeFunc.func arg.a arg.b arg.eps arg.numThreads))

theorem unitsCompute_taskValue (hpos : 0 < call.numThreads) (hT : call.numThreads < 2 ^ 31)
    (hab : call.a ≠ call.b) (heps : 0 < call.eps) (hcpu : ∀ unit, numLogicCpu unit < 2 ^ 31) :
    UnitsCompute serv call numLogicCpu taskValue := by
  have hfit : share serv call 0 < 2 ^ 31 := (share_le_total serv call 0 (Nat.zero_le _)).trans_lt hT
  refine ⟨hcpu, fun unit task hmem v => ?_⟩
  obtain ⟨i, rfl⟩ := mem_tasks hfit hmem
  have hi_fit := (share_le_first serv call i).trans_lt hfit
  rcases Nat.eq_zero_or_pos (share serv call i) with hzero | hi
  · simp [taskValue, Computes, hpcIntegral, verifierIntArg, compUnitTask2IntArg, fairTask, hzero]
  · have hvalue : taskValue unit (fairTask serv call i) = some (some (unitValue serv call i)) :=
      (if_neg hi.ne').trans (congrArg (some ∘ some) (unit_integralValue hpos hab hi hi_fit))
    rw [hvalue, unit_computes_iff hpos hab heps hi hi_fit (hcpu unit), Option.some.injEq, eq_comm]

theorem UnitsCompute.compute_eq (h : UnitsCompute serv call numLogicCpu compute)
    (hpos : 0 < call.numThreads) (hab : call.a ≠ call.b) (heps : 0 < call.eps) {i : ℕ}
    (hi : 0 < share serv call i) (hfit : share serv call i < 2 ^ 31)
    (hmem : fairTask serv call i ∈ tasks serv call) :
    compute i (fairTask serv call i) = some (some (unitValue serv call i)) :=
  (h.value i _ hmem _).mpr ((unit_computes_iff hpos hab heps hi hfit (h.cpus i)).mpr rfl)

/-- The tasks of the clients and of the server, which is the last unit. -/
theorem mem_tasks_of_share (hfit : share serv call 0 < 2 ^ 31) {i : ℕ} (hi : i ≤ serv.numClients)
    (hshare : 0 < share serv call i) : fairTask serv call i ∈ tasks serv call := by
  rw [tasks_eq hfit]
  rcases hi.eq_or_lt with rfl | hlt
  · rw [if_pos hshare.ne']
    exact List.mem_append_right _ (List.mem_singleton_self _)
  · exact List.mem_append_left _ (List.mem_map_of_mem (List.mem_range.mpr hlt))

theorem clientTask_value (h : UnitsCompute serv call numLogicCpu compute)
    (hpos : 0 < call.numThreads) (hT : call.numThreads < 2 ^ 32)
    (hfit : share serv call 0 < 2 ^ 31) (hab : call.a ≠ call.b) (heps : 0 < call.eps) {i : ℕ}
    (hi : i < serv.numClients) (hsends : Sends serv call ⟨i, hi⟩) :
    compute i (clientTask serv call i) = some (some (unitValue serv call i)) := by
  have hthreads := clientTask_numThreads serv call hT hi.le
  have hshare : 0 < share serv call i := hthreads ▸ Nat.pos_of_ne_zero hsends
  rw [clientTask_eq hfit]
  exact h.compute_eq hpos hab heps hshare ((share_le_first serv call i).trans_lt hfit)
    (mem_tasks_of_share hfit hi.le hshare)

theorem ownTask_value (h : UnitsCompute serv call numLogicCpu compute) (hpos : 0 < call.numThreads)
    (hfit : share serv call 0 < 2 ^ 31) (hab : call.a ≠ call.b) (heps : 0 < call.eps)
    {task : CompUnitTask} (htask : task ∈ ownTask serv call) :
    compute serv.numClients task = some (some (unitValue serv call serv.numClients)) := by
  rw [ownTask_eq hfit] at htask
  split_ifs at htask with hown
  · obtain rfl := Option.mem_some_iff.mp htask
    exact h.compute_eq hpos hab heps (Nat.pos_of_ne_zero hown)
      ((share_le_first serv call _).trans_lt hfit)
      (mem_tasks_of_share hfit le_rfl (Nat.pos_of_ne_zero hown))
  · cases htask

/-- With a thread for every client, and not too many, everybody can answer. -/
theorem UnitsCompute.answerable (h : UnitsCompute serv call numLogicCpu compute)
    (hpos : 0 < call.numThreads) (hT : call.numThreads < 2 ^ 32)
    (hfit : share serv call 0 < 2 ^ 31) (hab : call.a ≠ call.b) (heps : 0 < call.eps)
    (hclients : serv.numClients ≤ call.numThreads) : Answerable serv call compute where
  client i := by
    have hsends := (sends_iff hT).mpr hclients i
    exact ⟨hsends, _, clientTask_value h hpos hT hfit hab heps i.isLt hsends⟩
  own task htask := ⟨_, ownTask_value h hpos hfit hab heps htask⟩

theorem unitValue_zero {i : ℕ} (hi : share serv call i = 0) : unitValue serv call i = 0 := by
  unfold unitValue unitSum threadSum
  rw [hi, Finset.sum_range_zero, zero_mul, zero_mul]

theorem ownResult_eq (h : UnitsCompute serv call numLogicCpu compute) (hpos : 0 < call.numThreads)
    (hab : call.a ≠ call.b) (heps : 0 < call.eps) (hfit : share serv call 0 < 2 ^ 31) :
    ownResult serv call compute (some 0) = some (unitValue serv call serv.numClients) := by
  unfold ownResult
  cases htask : ownTask serv call with
  | none =>
      have hnone := htask
      rw [ownTask_eq hfit] at hnone
      split_ifs at hnone with hown
      rw [Option.elim_none, unitValue_zero (not_not.mp hown)]
  | some task =>
      rw [Option.elim_some, ownTask_value h hpos hfit hab heps htask, Option.getD_some]

/-- The answers add up to the integral of `funcX`. -/
theorem collected_eq (h : UnitsCompute serv call numLogicCpu compute) (hpos : 0 < call.numThreads)
    (hT : call.numThreads < 2 ^ 31) (hab : call.a ≠ call.b) (heps : 0 < call.eps)
    (hclients : serv.numClients ≤ call.numThreads) :
    collected serv call compute (some 0) serv.numClients =
      some (integralValue funcX call.a call.b call.eps call.numThreads) := by
  have hfit : share serv call 0 < 2 ^ 31 := (share_le_total serv call 0 (Nat.zero_le _)).trans_lt hT
  have hlt : call.numThreads < 2 ^ 32 := hT.trans (by norm_num)
  have hsums : ∀ k ≤ serv.numClients, collected serv call compute (some 0) k =
      some (unitValue serv call serv.numClients + ∑ i ∈ Finset.range k, unitValue serv call i) := by
    intro k hk
    induction k with
    | zero => rw [collected, ownResult_eq h hpos hab heps hfit, Finset.sum_range_zero, add_zero]
    | succ k ih =>
        have hsends : Sends serv call ⟨k, hk⟩ := (sends_iff hlt).mpr hclients _
        rw [collected, ih (by omega), clientTask_value h hpos hlt hfit hab heps hk hsends,
          Finset.sum_range_succ, ← add_assoc]
        rfl
  have hall : ∑ i ∈ Finset.range (serv.numClients + 1), unitSum serv call funcX i =
      sampleSum call funcX := sum_unitSum_all hpos funcX
  rw [hsums _ le_rfl, add_comm, ← Finset.sum_range_succ, integralValue_whole, ← hall,
    Finset.sum_mul, Finset.sum_mul]
  rfl

/-- Two functions have one integral when their samples have one sum. -/
theorem integralValue_eq_iff (hab : call.a ≠ call.b) (heps : 0 < call.eps) (f g : ℚ → ℚ) :
    integralValue f call.a call.b call.eps call.numThreads =
        integralValue g call.a call.b call.eps call.numThreads ↔
      sampleSum call f = sampleSum call g := by
  have hsign : sign call ≠ 0 := by
    unfold sign
    split_ifs <;> norm_num
  have hdx : wholeDx call ≠ 0 :=
    (mul_pos (abs_pos.mpr (sub_ne_zero.mpr hab.symm)) heps).ne'
  rw [integralValue_whole, integralValue_whole, mul_left_inj' hdx, mul_left_inj' hsign]

/-- With fewer threads than clients no call comes back with 0. -/
theorem not_returned (hT : call.numThreads < 2 ^ 32) (hlt : call.numThreads < serv.numClients)
    {result : Double} {s : State serv} (hs : Reachable call compute result s) :
    s.server ≠ .returned 0 := by
  intro hat
  have hle := (sends_iff hT).mp (sends_of_reachable hs hat)
  omega

/-- When everybody can answer some call comes back with 0, and all that do hold
the same value. -/
theorem forall_result_iff (h : Answerable serv call compute) (result value : Double) :
    (∀ s : State serv, Reachable call compute result s → s.server = .returned 0 →
      s.result = value) ↔ collected serv call compute result serv.numClients = value := by
  constructor
  · intro hall
    obtain ⟨s, hrun, hat⟩ := h.exists_return result
    rw [← result_of_returned hrun hat]
    exact hall s hrun hat
  · intro heq s hs hat
    rw [result_of_returned hs hat, heq]

end

/-- A call that comes back with 0 has the value of a local call exactly when
the function was `funcX`, or the two functions have the same sum over the
sample points. With fewer threads than clients no call comes back with 0, and
from 2^31 threads on the local call has no value. -/
theorem distributed_value_iff {serv : ServParam} {call : Call} (hpos : 1 ≤ call.numThreads)
    (hT : call.numThreads < 2 ^ 32) (hab : call.a ≠ call.b) (heps : 0 < call.eps)
    {numLogicCpu : ℕ → ℤ} {compute : ℕ → CompUnitTask → Option Double}
    (hunits : UnitsCompute serv call numLogicCpu compute) {localCpu : ℤ}
    (hlocal : 0 < localCpu ∧ localCpu < 2 ^ 31) :
    (∀ s : State serv, Reachable call compute (some 0) s → s.server = .returned 0 → ∀ v,
        Computes localCpu ⟨call.a, call.b, some call.func.func, call.eps, call.numThreads⟩
          (some v) → s.result = some v) ↔
      call.numThreads < serv.numClients ∨ 2 ^ 31 ≤ call.numThreads ∨ call.func = .x ∨
        sampleSum call funcX = sampleSum call funcXMultX := by
  by_cases hclients : call.numThreads < serv.numClients
  · exact iff_of_true (fun s hs hat => absurd hat (not_returned hT hclients hs)) (.inl hclients)
  by_cases hlarge : 2 ^ 31 ≤ call.numThreads
  · exact iff_of_true (fun s _ _ v hv => absurd hv
      (not_computes _ _ _ heps.ne' hlarge hT hlocal.1 hlocal.2 _)) (.inr (.inl hlarge))
  have hvalue : ∀ v, Computes localCpu
      ⟨call.a, call.b, some call.func.func, call.eps, call.numThreads⟩ (some v) ↔
        v = integralValue call.func.func call.a call.b call.eps call.numThreads := by
    intro v
    rw [computes_iff _ hab heps hpos (not_le.mp hlarge) hlocal.2, Option.some.injEq]
  simp only [hvalue, forall_eq, hclients, hlarge, false_or]
  have hfit : share serv call 0 < 2 ^ 31 :=
    (share_le_total serv call 0 (Nat.zero_le _)).trans_lt (not_le.mp hlarge)
  rw [forall_result_iff (hunits.answerable hpos hT hfit hab heps (not_lt.mp hclients)),
    collected_eq hunits hpos (not_le.mp hlarge) hab heps (not_lt.mp hclients), Option.some.injEq,
    integralValue_eq_iff hab heps]
  cases call.func with
  | x => exact iff_of_true rfl (.inl rfl)
  | xMultX => simp only [reduceCtorEq, false_or, TypeFunc.func]

theorem distributed_value_two_clients :
    UnitsCompute ⟨2, by decide⟩ ⟨4, .x, 3, 0, 1 / 10⟩ (fun _ => 8) taskValue ∧
      ∀ s : State ⟨2, by decide⟩, Reachable ⟨4, .x, 3, 0, 1 / 10⟩ taskValue (some 0) s →
        s.server = .returned 0 →
          ∀ v, Computes 8 ⟨3, 0, some funcX, 1 / 10, 4⟩ (some v) → s.result = some v := by
  have hunits : UnitsCompute ⟨2, by decide⟩ ⟨4, .x, 3, 0, 1 / 10⟩ (fun _ => 8) taskValue :=
    unitsCompute_taskValue (by decide) (by decide) (by norm_num) (by norm_num) (fun _ => by norm_num)
  exact ⟨hunits, (distributed_value_iff (by decide) (by decide) (by norm_num) (by norm_num) hunits
    ⟨by norm_num, by norm_num⟩).mpr (.inr (.inr (.inl rfl)))⟩

/-- The server on its own integrates `x` in place of `x * x`. -/
theorem square_read_as_x :
    ¬ ∀ s : State ⟨0, by decide⟩, Reachable ⟨1, .xMultX, 0, 3, 1 / 3⟩ taskValue (some 0) s →
      s.server = .returned 0 →
        ∀ v, Computes 8 ⟨0, 3, some funcXMultX, 1 / 3, 1⟩ (some v) → s.result = some v := by
  intro h
  have hunits : UnitsCompute ⟨0, by decide⟩ ⟨1, .xMultX, 0, 3, 1 / 3⟩ (fun _ => 8) taskValue :=
    unitsCompute_taskValue (by decide) (by decide) (by norm_num) (by norm_num) (fun _ => by norm_num)
  have hlocal : Computes 8 ⟨0, 3, some funcXMultX, 1 / 3, 1⟩
      (some (integralValue funcXMultX 0 3 (1 / 3) 1)) :=
    (computes_iff _ (by norm_num) (by norm_num) (by decide) (by decide) (by norm_num)).mpr rfl
  have hcollected := (forall_result_iff (hunits.answerable (by decide) (by decide) (by decide)
    (by norm_num) (by norm_num) (by decide)) (some 0) _).mp fun s hs hat => h s hs hat _ hlocal
  rw [collected_eq hunits (by decide) (by decide) (by norm_num) (by norm_num) (by decide),
    Option.some.injEq] at hcollected
  have hsums : sampleSum ⟨1, .xMultX, 0, 3, 1 / 3⟩ funcX =
      sampleSum ⟨1, .xMultX, 0, 3, 1 / 3⟩ funcXMultX :=
    (integralValue_eq_iff (by norm_num) (by norm_num) _ _).mp hcollected
  norm_num [sampleSum, threadSum, chunkSum, wholeDx, wholeLen, funcX, funcXMultX,
    Finset.sum_range_succ] at hsums

end TaskLunev.HpcNetIntegral
