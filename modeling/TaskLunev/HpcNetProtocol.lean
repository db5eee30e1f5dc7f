import TaskLunev.HpcNetTasks
import TaskLunev.TransitionRuns

/-!
# The exchange with the compute units

The server decides from its loop bounds which results to wait for, a client
from the thread count it was sent whether to answer. The books below tie the
bytes of every stream to the places where the two parties stand. They hold in
every run. When every client has threads and the server's own integral is a
number they leave no room for a failure. A client without threads has nothing to
compute and closes its socket, and the server waits for it all the same.
-/
namespace TaskLunev.HpcNetProtocol
open IntegralModel HpcNetModel HpcNetTasks

section
variable {serv : ServParam} {call : Call} {compute : ℕ → CompUnitTask → Option Double}
  {result : Double}

/-- The bytes of the task that went out to client `i`. -/
def sentTask : ServerPc → ℕ → ℕ
  | .sending numcli left, i =>
      if i < numcli then sizeTask else if i = numcli then sizeTask - left else 0
  | _, _ => sizeTask

/-- The bytes of the answer of client `i` that came in. -/
def gotResult : ServerPc → ℕ → ℕ
  | .reading numcli left, i =>
      if i < numcli then sizeResult else if i = numcli then sizeResult - left else 0
  | .returned _, _ => sizeResult
  | _, _ => 0

/-- The bytes a client still has to write. -/
def toWrite (sends : Prop) [Decidable sends] : ClientPc → ℕ
  | .reading _ => if sends then sizeResult else 0
  | .computing => sizeResult
  | .writing left => left
  | .closed => 0

/-- A client answers when its task has threads. -/
abbrev Sends (serv : ServParam) (call : Call) (i : Fin serv.numClients) : Prop :=
  (clientTask serv call i).numThreads ≠ 0

/-- `hpcIntegral` comes back on every task that has threads. -/
structure Returns (serv : ServParam) (call : Call) (compute : ℕ → CompUnitTask → Option Double) :
    Prop where
  own : ∀ task ∈ ownTask serv call, ∃ value, compute serv.numClients task = some value
  client : ∀ i : Fin serv.numClients, Sends serv call i →
    ∃ value, compute i (clientTask serv call i) = some value

/-- If it comes back on the server's own task, it is not with NaN. -/
def OwnFinite (serv : ServParam) (call : Call) (compute : ℕ → CompUnitTask → Option Double) :
    Prop :=
  ∀ task ∈ ownTask serv call, compute serv.numClients task ≠ some none

/-- Where a client stands fits the bytes that went through its socket. -/
structure ClientBooks (sends : Prop) [Decidable sends] (sent got : ℕ) (client : Client) : Prop where
  task : match client.pc with
    | .reading left => 0 < left ∧ sent + left = sizeTask + client.toClient
    | _ => sent = sizeTask ∧ client.toClient = 0
  answers : client.pc = .computing ∨ (∃ left, client.pc = .writing left) → sends
  result : got + client.toServer + toWrite sends client.pc = if sends then sizeResult else 0
  writing : ∀ left, client.pc = .writing left → 0 < left

/-- The counters of the server stay in range. -/
def ServerPc.InRange (n : ℕ) : ServerPc → Prop
  | .sending numcli left => numcli ≤ n ∧ 0 < left ∧ left ≤ sizeTask
  | .reading numcli left => numcli ≤ n ∧ 0 < left ∧ left ≤ sizeResult
  | .own => True
  | .returned code => code = 0

structure Books (call : Call) (s : State serv) : Prop where
  range : ServerPc.InRange serv.numClients s.server
  client : ∀ i : Fin serv.numClients,
    ClientBooks (Sends serv call i) (sentTask s.server i) (gotResult s.server i) (s.clients i)

/-- The call came back with an error. -/
def Failed (s : State serv) : Prop := s.server = .returned (-1)

theorem sentTask_le (pc : ServerPc) (i : ℕ) : sentTask pc i ≤ sizeTask := by
  cases pc with
  | sending numcli left =>
      simp only [sentTask]
      split_ifs <;> omega
  | _ => exact le_refl _

/-! ## The server moves on -/

/-- Behind its own task the server reads answers, or it is back with an error. -/
theorem ownCall_server {server : ServerPc} {value : Double}
    (h : ownCall serv call compute result = some (server, value)) :
    server = .reading 0 sizeResult ∨ server = .returned (-1) ∧ ¬ OwnFinite serv call compute := by
  cases htask : ownTask serv call with
  | none =>
      simp only [ownCall, htask, Option.elim_none, Option.some.injEq, Prod.mk.injEq] at h
      exact .inl h.1.symm
  | some task =>
      simp only [ownCall, htask, Option.elim_some, Option.map_eq_some_iff] at h
      obtain ⟨v, hv, hpair⟩ := h
      cases v with
      | some r => exact .inl (congrArg Prod.fst hpair).symm
      | none =>
          exact .inr ⟨(congrArg Prod.fst hpair).symm, fun hfinite => hfinite task htask hv⟩

theorem Returns.exists_own (h : Returns serv call compute) (result : Double) :
    ∃ server value, ownCall serv call compute result = some (server, value) := by
  cases htask : ownTask serv call with
  | none =>
      refine ⟨.reading 0 sizeResult, result, ?_⟩
      simp only [ownCall, htask, Option.elim_none]
  | some task =>
      obtain ⟨v, hv⟩ := h.own task htask
      refine ⟨if v.isNone then .returned (-1) else .reading 0 sizeResult, v, ?_⟩
      simp only [ownCall, htask, hv, Option.elim_some, Option.map_some]
      split_ifs <;> rfl

theorem sentTask_wrote (numcli : ℕ) {left k : ℕ} (hleft : left ≤ sizeTask) (hk : k ≤ left) (i : ℕ) :
    sentTask (.wrote numcli left k) i =
      sentTask (.sending numcli left) i + if i = numcli then k else 0 := by
  unfold ServerPc.wrote
  split_ifs with hdone <;> simp only [sentTask] <;> split_ifs <;> omega

theorem gotResult_wrote (numcli left k i : ℕ) : gotResult (.wrote numcli left k) i = 0 := by
  unfold ServerPc.wrote
  split_ifs <;> rfl

theorem gotResult_gotPart (numcli : ℕ) {left k : ℕ} (hleft : left ≤ sizeResult) (hk : k ≤ left)
    (i : ℕ) :
    gotResult (.gotPart numcli left k) i =
      gotResult (.reading numcli left) i + if i = numcli then k else 0 := by
  unfold ServerPc.gotPart
  split_ifs with hdone <;> simp only [gotResult] <;> split_ifs <;> omega

theorem sentTask_gotPart (numcli left k i : ℕ) : sentTask (.gotPart numcli left k) i = sizeTask := by
  unfold ServerPc.gotPart
  split_ifs <;> rfl

theorem ServerPc.InRange.wrote {n numcli left k : ℕ} (h : InRange n (.sending numcli left))
    (hlt : numcli < n) : InRange n (.wrote numcli left k) := by
  obtain ⟨-, hpos, hle⟩ := h
  unfold HpcNetModel.ServerPc.wrote
  split_ifs
  · exact ⟨hlt, by decide, le_refl _⟩
  · exact ⟨hlt.le, by omega, by omega⟩

theorem ServerPc.InRange.gotPart {n numcli left k : ℕ} (h : InRange n (.reading numcli left))
    (hlt : numcli < n) : InRange n (.gotPart numcli left k) := by
  obtain ⟨-, hpos, hle⟩ := h
  unfold HpcNetModel.ServerPc.gotPart
  split_ifs
  · exact ⟨hlt, by decide, le_refl _⟩
  · exact ⟨hlt.le, by omega, by omega⟩

/-! ## The books of one client -/

section
variable {sends : Prop} [Decidable sends] {sent got k : ℕ} {client : Client}

theorem ClientBooks.send (h : ClientBooks sends sent got client) (hpos : 0 < k)
    (hle : sent + k ≤ sizeTask) :
    ClientBooks sends (sent + k) got { client with toClient := client.toClient + k } := by
  obtain ⟨pc, toClient, toServer, result⟩ := client
  refine ⟨?_, h.answers, h.result, h.writing⟩
  have htask := h.task
  cases pc with
  | reading left =>
      simp only at htask ⊢
      omega
  | _ =>
      simp only at htask
      omega

theorem ClientBooks.receive (h : ClientBooks sends sent got client) (hle : k ≤ client.toServer) :
    ClientBooks sends sent (got + k) { client with toServer := client.toServer - k } := by
  have hresult := h.result
  refine ⟨h.task, h.answers, ?_, h.writing⟩
  simp only
  omega

theorem ClientBooks.read {task : CompUnitTask} {left : ℕ}
    (h : ClientBooks (task.numThreads ≠ 0) sent got client) (hsent : sent ≤ sizeTask)
    (hpc : client.pc = .reading left) (hle : k ≤ left) (hthere : k ≤ client.toClient) :
    ClientBooks (task.numThreads ≠ 0) sent got
      { client with pc := .gotPart task left k, toClient := client.toClient - k } := by
  obtain ⟨pc, toClient, toServer, result⟩ := client
  obtain rfl : pc = .reading left := hpc
  have htask : 0 < left ∧ sent + left = sizeTask + toClient := h.task
  have hresult := h.result
  simp only [toWrite] at hresult hthere
  unfold ClientPc.gotPart
  split_ifs with hdone hzero
  · refine ⟨⟨?_, ?_⟩, ?_, ?_, ?_⟩
    · omega
    · simp only
      omega
    · simp
    · simp only [toWrite, hzero, ne_eq, not_true_eq_false, if_false] at hresult ⊢
      exact hresult
    · rintro _ ⟨⟩
  · refine ⟨⟨?_, ?_⟩, fun _ => hzero, ?_, ?_⟩
    · omega
    · simp only
      omega
    · simpa only [toWrite, ne_eq, hzero, not_false_iff, if_true] using hresult
    · rintro _ ⟨⟩
  · refine ⟨⟨?_, ?_⟩, ?_, hresult, ?_⟩
    · omega
    · simp only
      omega
    · simp
    · rintro _ ⟨⟩

theorem ClientBooks.computed (h : ClientBooks sends sent got client)
    (hpc : client.pc = .computing) (result : Double) :
    ClientBooks sends sent got { client with pc := .writing sizeResult, result } := by
  obtain ⟨pc, toClient, toServer, _⟩ := client
  obtain rfl : pc = .computing := hpc
  refine ⟨h.task, fun _ => h.answers (.inl rfl), h.result, ?_⟩
  rintro _ ⟨⟩
  decide

theorem ClientBooks.wrote {left : ℕ} (h : ClientBooks sends sent got client)
    (hpc : client.pc = .writing left) (hle : k ≤ left) :
    ClientBooks sends sent got
      { client with pc := .wrote left k, toServer := client.toServer + k } := by
  obtain ⟨pc, toClient, toServer, result⟩ := client
  obtain rfl : pc = .writing left := hpc
  have hsends : sends := h.answers (.inr ⟨left, rfl⟩)
  have hresult := h.result
  simp only [toWrite] at hresult
  unfold ClientPc.wrote
  split_ifs with hdone
  · refine ⟨h.task, fun _ => hsends, ?_, ?_⟩
    · simp only [toWrite]
      omega
    · rintro _ ⟨⟩
  · refine ⟨h.task, fun _ => hsends, ?_, ?_⟩
    · simp only [toWrite]
      omega
    · rintro _ ⟨⟩
      omega

end

/-! ## The books of a run -/

/-- The server moves on and touches at most the socket of client `i`. -/
theorem Books.move {s : State serv} (h : Books call s) (i : Fin serv.numClients) {client : Client}
    (server : ServerPc) (result : Double) (hrange : ServerPc.InRange serv.numClients server)
    (hi : ClientBooks (Sends serv call i) (sentTask server i) (gotResult server i) client)
    (hothers : ∀ j : Fin serv.numClients, j ≠ i →
      sentTask server j = sentTask s.server j ∧ gotResult server j = gotResult s.server j) :
    Books call { s.setClient i client with server, result } := by
  refine ⟨hrange, fun j => ?_⟩
  by_cases hj : j = i
  · subst hj
    simpa only [State.setClient, Function.update_self] using hi
  · obtain ⟨hsent, hgot⟩ := hothers j hj
    simpa only [State.setClient, Function.update_of_ne hj, hsent, hgot] using h.client j

/-- The server moves on from one loop to the next. -/
theorem Books.advance {s : State serv} (h : Books call s) (server : ServerPc) (result : Double)
    (hrange : ServerPc.InRange serv.numClients server)
    (hsame : ∀ j : Fin serv.numClients,
      sentTask server j = sentTask s.server j ∧ gotResult server j = gotResult s.server j) :
    Books call { s with server, result } := by
  refine ⟨hrange, fun j => ?_⟩
  obtain ⟨hsent, hgot⟩ := hsame j
  simpa only [hsent, hgot] using h.client j

theorem books_start (call : Call) (result : Double) :
    Books call (State.start result : State serv) := by
  refine ⟨⟨Nat.zero_le _, by decide, le_refl _⟩, fun i => ⟨?_, ?_, ?_, ?_⟩⟩
  · constructor
    · decide
    · simp only [sentTask, State.start, Nat.not_lt_zero, if_false, Nat.sub_self, ite_self,
        Nat.zero_add, Nat.add_zero]
  · simp [State.start]
  · simp only [gotResult, State.start, toWrite, Nat.zero_add]
  · rintro _ ⟨⟩

theorem Books.step {s s' : State serv} (h : Books call s) (hstep : Step call compute s s') :
    Failed s' ∨ Books call s' := by
  cases hstep with
  | @send i left k hat hopen hpos hle =>
      have hrange := h.range
      have hclient := h.client i
      rw [hat] at hrange hclient
      have hsent := sentTask_wrote i hrange.2.2 hle
      refine .inr (h.move i _ _ (hrange.wrote i.isLt) ?_ fun j hj => ?_)
      · rw [hsent, if_pos rfl, gotResult_wrote]
        apply hclient.send hpos
        have hafter := hsent i
        rw [if_pos rfl] at hafter
        exact hafter ▸ sentTask_le _ _
      · rw [hsent, if_neg (Fin.val_ne_of_ne hj), gotResult_wrote, hat]
        exact ⟨rfl, rfl⟩
  | sendClosed => exact .inl rfl
  | @sent left hat =>
      refine .inr (h.advance _ _ trivial fun j => ?_)
      rw [hat]
      exact ⟨(if_pos j.isLt).symm, rfl⟩
  | own hat hback =>
      rcases ownCall_server hback with rfl | ⟨rfl, -⟩
      · refine .inr (h.advance _ _ ⟨Nat.zero_le _, by decide, le_refl _⟩ fun j => ?_)
        rw [hat]
        simp only [sentTask, gotResult, Nat.not_lt_zero, if_false, Nat.sub_self, ite_self, and_self]
      · exact .inl rfl
  | @receive i left k hat hpos hle hthere =>
      have hrange := h.range
      have hclient := h.client i
      rw [hat] at hrange hclient
      have hgot := gotResult_gotPart i hrange.2.2 hle
      refine .inr (h.move i _ _ (hrange.gotPart i.isLt) ?_ fun j hj => ?_)
      · rw [hgot, if_pos rfl, sentTask_gotPart]
        exact hclient.receive hthere
      · rw [hgot, if_neg (Fin.val_ne_of_ne hj), sentTask_gotPart, hat]
        exact ⟨rfl, rfl⟩
  | receiveEnd => exact .inl rfl
  | @done left hat =>
      refine .inr (h.advance _ _ rfl fun j => ?_)
      rw [hat]
      exact ⟨rfl, (if_pos j.isLt).symm⟩
  | @clientRead i left k hat hpos hle hthere =>
      exact .inr (h.move i _ _ h.range ((h.client i).read (sentTask_le _ _) hat hle hthere)
        fun _ _ => ⟨rfl, rfl⟩)
  | clientCompute i hat _ =>
      exact .inr (h.move i _ _ h.range ((h.client i).computed hat _) fun _ _ => ⟨rfl, rfl⟩)
  | clientWrite i hat hpos hle =>
      exact .inr (h.move i _ _ h.range ((h.client i).wrote hat hle) fun _ _ => ⟨rfl, rfl⟩)

/-! ## Failures -/

theorem Books.not_failed {s : State serv} (h : Books call s) : ¬ Failed s := by
  intro hfailed
  have hrange := h.range
  rw [show s.server = _ from hfailed] at hrange
  cases hrange

theorem Failed.step {s s' : State serv} (h : Failed s) (hstep : Step call compute s s') :
    Failed s' := by
  unfold Failed at h ⊢
  cases hstep with
  | clientRead => exact h
  | clientCompute => exact h
  | clientWrite => exact h
  | send _ hat | sendClosed _ hat | sent hat | own hat | receive _ hat | receiveEnd _ hat
    | done hat => exact nomatch h.symm.trans hat

/-- A connection that the server finds closed belongs to a client without
threads. -/
theorem Books.step_of_sends {s s' : State serv} (h : Books call s)
    (hsends : ∀ i : Fin serv.numClients, Sends serv call i)
    (hfinite : OwnFinite serv call compute) (hstep : Step call compute s s') : Books call s' := by
  rcases h.step hstep with hfailed | h'
  swap
  · exact h'
  exfalso
  have hrange := h.range
  unfold Failed at hfailed
  cases hstep with
  | @sendClosed i left hat hclosed =>
      have htask := (h.client i).task
      rw [hat] at hrange htask
      obtain ⟨-, hpos, -⟩ := hrange
      simp only [hclosed, sentTask, Nat.lt_irrefl, if_false, if_true, sizeTask] at htask
      omega
  | @receiveEnd i left hat hnothing hclosed =>
      have hresult := (h.client i).result
      rw [hat] at hrange hresult
      obtain ⟨-, hpos, -⟩ := hrange
      rw [if_pos (hsends i), hnothing, hclosed] at hresult
      simp only [gotResult, toWrite, Nat.lt_irrefl, if_false, if_true, sizeResult] at hresult
      omega
  | send =>
      simp only [ServerPc.wrote] at hfailed
      split_ifs at hfailed
  | receive =>
      simp only [ServerPc.gotPart] at hfailed
      split_ifs at hfailed
  | done => cases hfailed
  | sent => cases hfailed
  | own hat hback =>
      rcases ownCall_server hback with rfl | ⟨-, hnan⟩
      · cases hfailed
      · exact hnan hfinite
  | _ => exact h.not_failed hfailed

/-! ## Every run ends -/

theorem Books.progress {s : State serv} (h : Books call s) (hreturns : Returns serv call compute) :
    (∃ code, s.server = .returned code) ∨ ∃ s', Step call compute s s' := by
  have hrange := h.range
  cases hat : s.server with
  | returned code => exact .inl ⟨code, rfl⟩
  | own =>
      obtain ⟨server, value, hback⟩ := hreturns.exists_own s.result
      exact .inr ⟨_, .own hat hback⟩
  | sending numcli left =>
      rw [hat] at hrange
      obtain ⟨hle, hpos, -⟩ := hrange
      right
      rcases hle.eq_or_lt with rfl | hlt
      · exact ⟨_, .sent hat⟩
      · by_cases hclosed : (s.clients ⟨numcli, hlt⟩).pc = .closed
        · exact ⟨_, .sendClosed ⟨numcli, hlt⟩ hat hclosed⟩
        · exact ⟨_, .send ⟨numcli, hlt⟩ hat hclosed hpos (le_refl _)⟩
  | reading numcli left =>
      rw [hat] at hrange
      obtain ⟨hle, hpos, -⟩ := hrange
      right
      rcases hle.eq_or_lt with rfl | hlt
      · exact ⟨_, .done hat⟩
      · -- Either bytes are waiting, or the client itself can move or has closed.
        have hclient := h.client ⟨numcli, hlt⟩
        rw [hat] at hclient
        by_cases hnothing : (s.clients ⟨numcli, hlt⟩).toServer = 0
        · cases hpc : (s.clients ⟨numcli, hlt⟩).pc with
          | reading want =>
              have htask := hclient.task
              simp only [hpc, sentTask] at htask
              exact ⟨_, .clientRead ⟨numcli, hlt⟩ hpc htask.1 (le_refl _) (by omega)⟩
          | computing =>
              obtain ⟨value, hvalue⟩ := hreturns.client ⟨numcli, hlt⟩ (hclient.answers (.inl hpc))
              exact ⟨_, .clientCompute ⟨numcli, hlt⟩ hpc hvalue⟩
          | writing rest =>
              exact ⟨_, .clientWrite ⟨numcli, hlt⟩ hpc (hclient.writing _ hpc) (le_refl _)⟩
          | closed => exact ⟨_, .receiveEnd ⟨numcli, hlt⟩ hat hnothing hpc⟩
        · exact ⟨_, .receive ⟨numcli, hlt⟩ hat Nat.one_pos hpos (Nat.pos_of_ne_zero hnothing)⟩

/-- What the server still has to do. -/
def ServerPc.rank (n : ℕ) : ServerPc → ℕ
  | .sending numcli left => n * 9 + 10 + (n - numcli) * 33 + left
  | .own => n * 9 + 9
  | .reading numcli left => (n - numcli) * 9 + left
  | .returned _ => 0

def ClientPc.rank : ClientPc → ℕ
  | .reading left => 9 + left
  | .computing => 9
  | .writing left => left
  | .closed => 0

def rank (s : State serv) : ℕ :=
  ServerPc.rank serv.numClients s.server + ∑ i, ClientPc.rank (s.clients i).pc

theorem ServerPc.rank_wrote {n numcli left k : ℕ} (hlt : numcli < n) (hpos : 0 < k)
    (hle : k ≤ left) :
    ServerPc.rank n (.wrote numcli left k) < ServerPc.rank n (.sending numcli left) := by
  unfold HpcNetModel.ServerPc.wrote
  split_ifs <;> simp only [rank, sizeTask] <;> omega

theorem ServerPc.rank_gotPart {n numcli left k : ℕ} (hlt : numcli < n) (hpos : 0 < k)
    (hle : k ≤ left) :
    ServerPc.rank n (.gotPart numcli left k) < ServerPc.rank n (.reading numcli left) := by
  unfold HpcNetModel.ServerPc.gotPart
  split_ifs <;> simp only [rank, sizeResult] <;> omega

theorem ClientPc.rank_gotPart (task : CompUnitTask) {left k : ℕ} (hpos : 0 < k) (hle : k ≤ left) :
    ClientPc.rank (.gotPart task left k) < ClientPc.rank (.reading left) := by
  unfold HpcNetModel.ClientPc.gotPart
  split_ifs <;> simp only [rank] <;> omega

theorem ClientPc.rank_wrote {left k : ℕ} (hpos : 0 < k) (hle : k ≤ left) :
    ClientPc.rank (.wrote left k) < ClientPc.rank (.writing left) := by
  unfold HpcNetModel.ClientPc.wrote
  split_ifs <;> simp only [rank] <;> omega

/-- Only the server and client `i` count in a move of these two. -/
theorem rank_move_lt {s : State serv} (i : Fin serv.numClients) {client : Client}
    {server : ServerPc} {result : Double}
    (hlt : ServerPc.rank serv.numClients server + ClientPc.rank client.pc <
      ServerPc.rank serv.numClients s.server + ClientPc.rank (s.clients i).pc) :
    rank { s.setClient i client with server, result } < rank s := by
  have hsplit : ∀ f : Fin serv.numClients → ℕ,
      ∑ j, f j = f i + ∑ j ∈ Finset.univ.erase i, f j :=
    fun f => (Finset.add_sum_erase _ f (Finset.mem_univ i)).symm
  have hrest :
      ∑ j ∈ Finset.univ.erase i, ClientPc.rank (Function.update s.clients i client j).pc =
        ∑ j ∈ Finset.univ.erase i, ClientPc.rank (s.clients j).pc := by
    apply Finset.sum_congr rfl
    intro j hj
    rw [Function.update_of_ne (Finset.ne_of_mem_erase hj)]
  have hself : (Function.update s.clients i client) i = client := Function.update_self ..
  simp only [rank, State.setClient]
  rw [hsplit fun j => ClientPc.rank (Function.update s.clients i client j).pc,
    hsplit fun j => ClientPc.rank (s.clients j).pc, hrest, hself]
  omega

theorem Books.rank_lt {s s' : State serv} (h : Books call s) (hstep : Step call compute s s') :
    rank s' < rank s := by
  have hrange := h.range
  cases hstep with
  | send i hat hopen hpos hle =>
      apply rank_move_lt i
      rw [hat]
      exact Nat.add_lt_add_right (ServerPc.rank_wrote i.isLt hpos hle) _
  | receive i hat hpos hle hthere =>
      apply rank_move_lt i
      rw [hat]
      exact Nat.add_lt_add_right (ServerPc.rank_gotPart i.isLt hpos hle) _
  | clientRead i hat hpos hle hthere =>
      apply rank_move_lt i
      rw [hat]
      exact Nat.add_lt_add_left (ClientPc.rank_gotPart _ hpos hle) _
  | clientCompute i hat _ =>
      apply rank_move_lt i
      rw [hat]
      exact Nat.add_lt_add_left (Nat.lt_succ_self 8) _
  | clientWrite i hat hpos hle =>
      apply rank_move_lt i
      rw [hat]
      exact Nat.add_lt_add_left (ClientPc.rank_wrote hpos hle) _
  | own hat hback =>
      apply Nat.add_lt_add_right
      rw [hat]
      rcases ownCall_server hback with rfl | ⟨rfl, -⟩ <;>
        simp only [ServerPc.rank, sizeResult] <;> omega
  | sendClosed _ hat | sent hat | receiveEnd _ hat | done hat =>
      -- The server leaves a loop or the call.
      apply Nat.add_lt_add_right
      rw [hat] at hrange ⊢
      simp only [ServerPc.InRange, ServerPc.rank, sizeResult] at hrange ⊢
      omega

/-- Every run can be brought to its end, and it ends in a failure or with every
client having answered. -/
theorem Books.exists_end (hreturns : Returns serv call compute) {s : State serv}
    (h : Books call s) :
    ∃ s', Relation.ReflTransGen (Step call compute) s s' ∧
      (Failed s' ∨ Books call s' ∧ s'.server = .returned 0) := by
  refine TransitionRuns.exists_end rank (fun s h => ?_) (fun s s' h hstep => ?_) h
  · rcases h.progress hreturns with ⟨code, hat⟩ | hnext
    · have hrange := h.range
      rw [hat] at hrange
      obtain rfl : code = 0 := hrange
      exact .inl (.inr ⟨h, hat⟩)
    · exact .inr hnext
  · rcases h.step hstep with hfailed | h'
    · exact .inl (.inl hfailed)
    · exact .inr ⟨h', h.rank_lt hstep⟩

theorem Books.sends_of_returned {s : State serv} (h : Books call s) (hat : s.server = .returned 0)
    (i : Fin serv.numClients) : Sends serv call i := by
  have hresult := (h.client i).result
  rw [hat] at hresult
  intro hnot
  rw [if_neg (not_not.mpr hnot)] at hresult
  simp only [gotResult, sizeResult] at hresult
  omega

theorem books_of_reachable {s : State serv} (h : Reachable call compute result s) :
    Failed s ∨ Books call s := by
  refine TransitionRuns.invariant_or_end (r := Step call compute) (fun s s' h hstep => ?_)
    (fun s s' h hstep => ?_) h (books_start call result)
  · exact h.step hstep
  · exact h.step hstep

/-- A call that came back with 0 has answers from all clients. -/
theorem sends_of_reachable {s : State serv} (h : Reachable call compute result s)
    (hat : s.server = .returned 0) (i : Fin serv.numClients) : Sends serv call i := by
  rcases books_of_reachable h with hfailed | hbooks
  · unfold Failed at hfailed
    rw [hat] at hfailed
    cases hfailed
  · exact hbooks.sends_of_returned hat i

theorem Books.run_of_sends {s s' : State serv} (h : Books call s)
    (hsends : ∀ i : Fin serv.numClients, Sends serv call i)
    (hfinite : OwnFinite serv call compute)
    (hrun : Relation.ReflTransGen (Step call compute) s s') : Books call s' := by
  induction hrun with
  | refl => exact h
  | tail _ hstep ih => exact ih.step_of_sends hsends hfinite hstep

/-! ## Agreement -/

/-- The bytes the server will still read from client `i`. -/
def awaited : ServerPc → ℕ → ℕ
  | .reading numcli left, i =>
      if i < numcli then 0 else if i = numcli then left else sizeResult
  | .returned _, _ => 0
  | _, _ => sizeResult

/-- Between the server and a client the call has not failed and can be brought to
its end. The server waits for the bytes that are on their way or will be
written, no more and no fewer. -/
structure Agrees (call : Call) (compute : ℕ → CompUnitTask → Option Double) (s : State serv)
    (i : Fin serv.numClients) : Prop where
  open_ : ¬ Failed s
  bytes : (s.clients i).toServer + toWrite (Sends serv call i) (s.clients i).pc = awaited s.server i
  ends : ∃ s', Relation.ReflTransGen (Step call compute) s s' ∧ s'.server = .returned 0

theorem Books.exists_return {s : State serv} (h : Books call s)
    (hsends : ∀ i : Fin serv.numClients, Sends serv call i) (hreturns : Returns serv call compute)
    (hfinite : OwnFinite serv call compute) :
    ∃ s', Relation.ReflTransGen (Step call compute) s s' ∧ s'.server = .returned 0 := by
  obtain ⟨s', hrun, hfailed | ⟨-, hat⟩⟩ := h.exists_end hreturns
  · exact absurd hfailed (h.run_of_sends hsends hfinite hrun).not_failed
  · exact ⟨s', hrun, hat⟩

/-- With fewer threads than clients the last clients get no thread. -/
theorem sends_iff (hT : call.numThreads < 2 ^ 32) :
    (∀ i : Fin serv.numClients, Sends serv call i) ↔ serv.numClients ≤ call.numThreads := by
  have hshare : ∀ i : Fin serv.numClients, Sends serv call i ↔ share serv call i ≠ 0 := fun i => by
    rw [← clientTask_numThreads serv call hT i.isLt.le]
  simp only [hshare]
  constructor
  · intro h
    by_contra hlt
    have hlt : call.numThreads < serv.numClients := not_le.mp hlt
    apply h ⟨call.numThreads, hlt⟩
    rw [share, Nat.div_eq_of_lt (by omega), Nat.mod_eq_of_lt (by omega), if_neg (lt_irrefl _)]
  · intro h i
    have hi := i.isLt
    unfold share
    rcases h.eq_or_lt with heq | hlt
    · rw [← heq, Nat.mod_eq_of_lt (Nat.lt_succ_self _), if_pos hi]
      exact Nat.succ_ne_zero _
    · have hdiv : 0 < call.numThreads / (serv.numClients + 1) :=
        Nat.div_pos hlt (Nat.succ_pos _)
      exact (Nat.add_pos_left hdiv _).ne'

end

end TaskLunev.HpcNetProtocol
