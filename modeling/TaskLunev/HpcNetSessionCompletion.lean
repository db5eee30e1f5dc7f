import TaskLunev.HpcNetSession

/-!
# What sessions come to

Every event takes the server or a client further, so a session comes to rest.
It is then over: the call has its outcome, the clients of the call are done and
the others were turned away. Only when too few clients came does the server
still wait for more, and then without a failure there were too few to begin with.
-/
namespace TaskLunev.HpcNetSessionCompletion
open HpcNetModel (Call CompUnitTask ServParam compUnitTask2IntArg funcX tasks)
open HpcNetSessionModel HpcNetSession IntegralModel HpcNetTasks HpcNetIntegral CompletedRuns
  TransitionRuns
open HpcNetProtocol (Failed Returns sends_iff sends_of_reachable)
open HpcNetCompletion (Outcome)

section
variable {ι : Type*} {serv : ServParam} {call : Call} {nprocs : ι → ℤ}
  {compute : Option ι → CompUnitTask → Option Double}

/-! ## Events take the session further -/

def clientRank : ClientMain → ℕ
  | .connecting => 6
  | .sending left => left + 1
  | .waiting => 1
  | .inCall | .ended => 0

/-- The moves of a call. -/
def callRank (n : ℕ) : ℕ := n * 83 + 42

def serverRank : ServerMain ι serv → ℕ
  | .accepting clifds =>
      serv.numClients - clifds.length + serv.numClients * 4 + callRank serv.numClients + 6
  | .initUnits _ numLogicCpus left =>
      (serv.numClients - numLogicCpus.length) * 4 + left + callRank serv.numClients + 1
  | .inCall _ _ state => HpcNetProtocol.rank state
  | .failed => 0

def rank [Fintype ι] (s : State ι serv) : ℕ := serverRank s.server + ∑ m, clientRank (s.client m)

theorem rank_start [Fintype ι] :
    rank (State.start : State ι serv) = Fintype.card ι * 6 + serv.numClients * 88 + 48 := by
  simp only [rank, State.start, serverRank, clientRank, callRank, List.length_nil, Finset.sum_const,
    Finset.card_univ, smul_eq_mul]
  omega

theorem clientRank_wrote {left k : ℕ} (hpos : 0 < k) (hle : k ≤ left) :
    clientRank (.wrote left k) < clientRank (.sending left) := by
  unfold ClientMain.wrote
  split_ifs <;> simp only [clientRank] <;> omega

theorem serverRank_gotPart {clifds : Fin serv.numClients → ι} {numLogicCpus : List ℤ} (number : ℤ)
    {left k : ℕ} (hmore : numLogicCpus.length < serv.numClients) (hpos : 0 < k) (hle : k ≤ left) :
    serverRank (.gotPart clifds numLogicCpus number left k) <
      serverRank (.initUnits clifds numLogicCpus left) := by
  unfold ServerMain.gotPart
  split_ifs
  · simp only [serverRank, List.length_append, List.length_singleton, sizeInt]
    omega
  · simp only [serverRank]
    omega

section
variable [Fintype ι] {s t : State ι serv} {e : Event}

theorem sum_clientRank_lt [DecidableEq ι] {client : ι → ClientMain} {m : ι} {c : ClientMain}
    (h : clientRank c < clientRank (client m)) :
    ∑ x, clientRank (Function.update client m c x) < ∑ x, clientRank (client x) := by
  refine Finset.sum_lt_sum (fun x _ => ?_) ⟨m, Finset.mem_univ m, by rwa [Function.update_self]⟩
  rcases eq_or_ne x m with rfl | hne
  · rw [Function.update_self]
    exact h.le
  · rw [Function.update_of_ne hne]

theorem sum_clientRank_serve [DecidableEq ι] (client : ι → ClientMain)
    (clifds : Fin serv.numClients → ι) :
    ∑ x, clientRank (serve client clifds x) ≤ ∑ x, clientRank (client x) := by
  refine Finset.sum_le_sum fun x _ => ?_
  unfold serve
  split_ifs
  · exact Nat.zero_le _
  · exact le_rfl

/-- A move of a call that runs or has failed. -/
theorem callRank_lt {compute : ℕ → CompUnitTask → Option Double} {state state' : HpcNetModel.State serv}
    (h : CallRuns call compute state) (hstep : HpcNetModel.Step call compute state state') :
    HpcNetProtocol.rank state' < HpcNetProtocol.rank state := by
  rcases h.run with hs | hfailed
  · exact HpcNetCompletion.rank_lt_of_reachable hs hstep
  · exact HpcNetCompletion.Failed.rank_lt hfailed.1 hstep

theorem callRank_drop {compute : ℕ → CompUnitTask → Option Double} {state : HpcNetModel.State serv}
    {i : Fin serv.numClients} (h : CallRuns call compute state)
    (hwaits : (∃ left, (state.clients i).pc = .reading left) ∨
      ∃ left, (state.clients i).pc = .writing left) :
    HpcNetProtocol.rank (state.setClient i { state.clients i with pc := .closed }) <
      HpcNetProtocol.rank state := by
  refine HpcNetProtocol.rank_move_lt i (Nat.add_lt_add_left ?_ _)
  rcases hwaits with ⟨left, hpc⟩ | ⟨left, hpc⟩
  · rw [hpc]
    simp only [HpcNetProtocol.ClientPc.rank]
    omega
  · rw [hpc]
    have hfits := h.clients i
    rwa [hpc] at hfits

theorem rank_lt [DecidableEq ι] (h : Inv call nprocs compute s)
    (hstep : Step call nprocs compute s e t) : rank t < rank s := by
  have hphase := h.phase
  unfold Phase at hphase
  unfold rank
  cases hstep with
  | connect m hat | refused m hat | connectFails m hat =>
      refine Nat.add_lt_add_left (sum_clientRank_lt ?_) _
      rw [hat]
      decide
  | dropped m hat =>
      refine Nat.add_lt_add_left (sum_clientRank_lt ?_) _
      rcases hat with ⟨left, hat⟩ | hat
      · rw [hat]
        exact Nat.succ_pos _
      · rw [hat]
        decide
  | write m hat hpos hle =>
      refine Nat.add_lt_add_left (sum_clientRank_lt ?_) _
      rw [hat]
      exact clientRank_wrote hpos hle
  | accept hat hmore =>
      refine Nat.add_lt_add_right ?_ _
      simp only [hat, serverRank, List.length_append, List.length_singleton]
      omega
  | accepted hat hall =>
      refine Nat.add_lt_add_right ?_ _
      simp only [hat, serverRank, hall, List.length_nil, sizeInt]
      omega
  | startFails hat =>
      refine Nat.add_lt_add_right ?_ _
      simp only [hat, serverRank]
      omega
  | read i hat hnext hpos hle =>
      refine Nat.add_lt_add_right ?_ _
      rw [hat]
      exact serverRank_gotPart _ (hnext ▸ i.isLt) hpos hle
  | start hat hall =>
      refine Nat.add_lt_add_of_lt_of_le ?_ (sum_clientRank_serve _ _)
      simp only [hat, serverRank, HpcNetCompletion.rank_start, callRank]
      omega
  | call hat hstep =>
      refine Nat.add_lt_add_right ?_ _
      simp only [hat] at hphase ⊢
      exact callRank_lt hphase.call hstep
  | callDropped i hat hclosed hwaits =>
      refine Nat.add_lt_add_right ?_ _
      simp only [hat] at hphase ⊢
      exact callRank_drop hphase.call hwaits

end

/-! ## Rest -/

/-- The failures of `connect` and `accept` need not come. -/
def Event.active : Event → Bool
  | .goes => true
  | .fails => false

/-- What a session has come to. -/
def Ended [DecidableEq ι] (call : Call) (s : State ι serv) : Prop :=
  match s.server with
  | .accepting clifds =>
      clifds.length < serv.numClients ∧ s.queue = [] ∧
        ∀ m, s.client m = if m ∈ clifds then .waiting else .ended
  | .initUnits _ _ _ => False
  | .inCall clifds _ state =>
      Outcome call state ∧ (∀ i, (state.clients i).pc = .closed) ∧
        ∀ m, s.client m = serve (fun _ => .ended) clifds m
  | .failed => ∀ m, s.client m = .ended

section
variable [DecidableEq ι] {s : State ι serv}

end

/-! ## The machines -/

/-- The server has each number from the client it keeps it for, no client twice,
and a call that is back with 0 has the value of a local one. -/
def Sound (call : Call) (nprocs : ι → ℤ) (s : State ι serv) : Prop :=
  match s.server with
  | .initUnits clifds numLogicCpus _ =>
      Function.Injective clifds ∧ numLogicCpus <+: List.ofFn (nprocs ∘ clifds)
  | .inCall clifds numLogicCpus state =>
      Function.Injective clifds ∧ numLogicCpus = List.ofFn (nprocs ∘ clifds) ∧
        (state.server = .returned 0 → serv.numClients ≤ call.numThreads ∧
          state.result = some (integralValue funcX call.a call.b call.eps call.numThreads))
  | _ => True

/-- Nobody was lost on the way to the call. -/
def Unhurt (s : State ι serv) : Prop :=
  match s.server with
  | .accepting _ | .initUnits _ _ _ => ∀ m, s.client m ≠ .ended
  | .inCall _ _ _ => True
  | .failed => False

theorem Unhurt.update [DecidableEq ι] {server : ServerMain ι serv} {queue queue' : List ι}
    {client : ι → ClientMain} {toServer toServer' : ι → ℕ}
    (h : Unhurt ⟨server, queue, client, toServer⟩) (m : ι) {c : ClientMain} (hc : c ≠ .ended) :
    Unhurt ⟨server, queue', Function.update client m c, toServer'⟩ := by
  have hclient (hall : ∀ x, client x ≠ .ended) (x : ι) : Function.update client m c x ≠ .ended := by
    rcases eq_or_ne x m with rfl | hne
    · rwa [Function.update_self]
    · rw [Function.update_of_ne hne]
      exact hall x
  cases server with
  | accepting | initUnits => exact hclient h
  | inCall => trivial
  | failed => exact h

theorem Unhurt.step [DecidableEq ι] {s t : State ι serv} (h : Unhurt s)
    (hstep : Step call nprocs compute s .goes t) : Unhurt t := by
  cases hstep with
  | connect m => exact h.update m (by simp)
  | write m =>
      refine h.update m ?_
      unfold ClientMain.wrote
      split_ifs <;> simp
  | refused m hat hclosed | dropped m hat hclosed =>
      unfold Unhurt at h ⊢
      unfold State.Closed at hclosed
      cases hserver : s.server with
      | accepting | initUnits =>
          simp only [hserver] at hclosed
      | inCall => trivial
      | failed =>
          simp only [hserver] at h
  | accept hat | accepted hat =>
      simp only [Unhurt, hat] at h
      exact h
  | read i hat =>
      simp only [Unhurt, hat] at h
      unfold ServerMain.gotPart
      split_ifs <;> exact h
  | start | call | callDropped => trivial

end

end TaskLunev.HpcNetSessionCompletion
