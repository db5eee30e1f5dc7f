import TaskLunev.HpcNetSessionModel
import TaskLunev.HpcNetCompletion

/-!
# Sessions come to their end

What a client still owes the server and what is in flight add up to the number
it announces. So the server reads every number from the client it belongs to,
and when it has read all of them those clients wait for their tasks. The call
then runs its own protocol. Every event lowers a rank, also the failures, and a
session at rest is over, unless too few clients ever came.
-/
namespace TaskLunev.HpcNetSession
open HpcNetModel (Call CompUnitTask ServParam sizeResult)
open HpcNetSessionModel IntegralModel HpcNetTasks HpcNetIntegral CompletedRuns TransitionRuns
open HpcNetProtocol (Failed OwnFinite Sends gotResult toWrite)

section
variable {ι : Type*} {serv : ServParam} {call : Call} {nprocs : ι → ℤ}
  {compute : Option ι → CompUnitTask → Option Double}

/-! ## The invariant -/

/-- The client has a connection and is not in the call. -/
def Connected : ClientMain → Prop
  | .sending _ | .waiting => True
  | _ => False

/-- The bytes of its number that a client still has to write. -/
def owes : ClientMain → ℕ
  | .sending left => left
  | _ => 0

/-- The bytes of the number of `m` that were not read yet. -/
def unread (s : State ι serv) (m : ι) : ℕ := owes (s.client m) + s.toServer m

/-- The same as `InitCompUnits` sees it, which has so many numbers. -/
def toRead (numbers left i : ℕ) : ℕ :=
  if i < numbers then 0 else if i = numbers then left else sizeInt

structure Accepting (s : State ι serv) (clifds : List ι) : Prop where
  few : clifds.length ≤ serv.numClients
  nodup : (clifds ++ s.queue).Nodup
  connected : ∀ m, m ∈ clifds ++ s.queue ↔ Connected (s.client m)
  bytes : ∀ m, Connected (s.client m) → unread s m = sizeInt

structure Reading (nprocs : ι → ℤ) (s : State ι serv) (clifds : Fin serv.numClients → ι)
    (numLogicCpus : List ℤ) (left : ℕ) : Prop where
  injective : Function.Injective clifds
  numbers : numLogicCpus = (List.ofFn (nprocs ∘ clifds)).take numLogicCpus.length
  pos : 0 < left
  le : left ≤ sizeInt
  connected : ∀ i, Connected (s.client (clifds i))
  bytes : ∀ i : Fin serv.numClients, unread s (clifds i) = toRead numLogicCpus.length left i

/-- A client computes when its task has threads, and writes while bytes are left. -/
def PcFits (call : Call) (i : Fin serv.numClients) : HpcNetModel.ClientPc → Prop
  | .computing => Sends serv call i
  | .writing left => 0 < left
  | _ => True

/-- A state of the call, or one in which a failed call has dropped some clients. -/
structure CallRuns (call : Call) (compute : ℕ → CompUnitTask → Option Double)
    (state : HpcNetModel.State serv) : Prop where
  run : HpcNetModel.Reachable call compute (some 0) state ∨
    Failed state ∧ (OwnFinite serv call compute → call.numThreads < serv.numClients)
  clients : ∀ i, PcFits call i (state.clients i).pc

structure Calling (call : Call) (nprocs : ι → ℤ) (compute : Option ι → CompUnitTask → Option Double)
    (s : State ι serv) (clifds : Fin serv.numClients → ι) (numLogicCpus : List ℤ)
    (state : HpcNetModel.State serv) : Prop where
  injective : Function.Injective clifds
  numbers : numLogicCpus = List.ofFn (nprocs ∘ clifds)
  there : ∀ i, s.client (clifds i) = .inCall
  call : CallRuns call (unitCompute compute clifds) state

def Phase (call : Call) (nprocs : ι → ℤ) (compute : Option ι → CompUnitTask → Option Double)
    (s : State ι serv) : Prop :=
  match s.server with
  | .accepting clifds => Accepting s clifds
  | .initUnits clifds numLogicCpus left => Reading nprocs s clifds numLogicCpus left
  | .inCall clifds numLogicCpus state => Calling call nprocs compute s clifds numLogicCpus state
  | .failed => True

/-- The server makes a call with this client. -/
def Calls : ServerMain ι serv → ι → Prop
  | .inCall clifds _ _, m => ∃ i, clifds i = m
  | _, _ => False

/-- What a client knows by itself. -/
def ClientFits (server : ServerMain ι serv) (m : ι) (client : ClientMain) (toServer : ℕ) : Prop :=
  match client with
  | .connecting => toServer = 0
  | .sending left => 0 < left
  | .inCall => Calls server m
  | _ => True

structure Inv (call : Call) (nprocs : ι → ℤ) (compute : Option ι → CompUnitTask → Option Double)
    (s : State ι serv) : Prop where
  phase : Phase call nprocs compute s
  client : ∀ m, ClientFits s.server m (s.client m) (s.toServer m)

theorem ClientFits.mono {server server' : ServerMain ι serv} {m : ι} {c : ClientMain} {k : ℕ}
    (h : ClientFits server m c k) (hcalls : Calls server m → Calls server' m) :
    ClientFits server' m c k := by
  cases c with
  | inCall => exact hcalls h
  | _ => exact h

theorem Reading.length_le {s : State ι serv} {clifds : Fin serv.numClients → ι}
    {numLogicCpus : List ℤ} {left : ℕ} (h : Reading nprocs s clifds numLogicCpus left) :
    numLogicCpus.length ≤ serv.numClients := by
  have hlength := congrArg List.length h.numbers
  rw [List.length_take, List.length_ofFn] at hlength
  omega

theorem inv_start (call : Call) (nprocs : ι → ℤ) (compute : Option ι → CompUnitTask → Option Double) :
    Inv call nprocs compute (State.start : State ι serv) where
  phase :=
    { few := Nat.zero_le _
      nodup := List.nodup_nil
      connected _ := iff_of_false List.not_mem_nil id
      bytes _ h := h.elim }
  client _ := rfl

/-! ## What the server does -/

section
variable {s : State ι serv} {clifds : Fin serv.numClients → ι} {numLogicCpus : List ℤ} {left : ℕ}
  {state : HpcNetModel.State serv}

theorem Inv.accept (h : Inv call nprocs compute s) {clifds rest : List ι} {m : ι}
    (hat : s.server = .accepting clifds) (hmore : clifds.length < serv.numClients)
    (hthere : s.queue = m :: rest) :
    Inv call nprocs compute
      ({ s with server := .accepting (clifds ++ [m]), queue := rest } : State ι serv) := by
  have hphase := h.phase
  unfold Phase at hphase
  simp only [hat] at hphase
  have hsame : clifds ++ [m] ++ rest = clifds ++ s.queue := by
    rw [hthere, List.append_assoc, List.singleton_append]
  constructor
  · refine ⟨?_, ?_, fun x => ?_, hphase.bytes⟩
    · rw [List.length_append, List.length_singleton]
      exact hmore
    · exact hsame ▸ hphase.nodup
    · rw [hsame]
      exact hphase.connected x
  · intro x
    exact (h.client x).mono fun hcalls => absurd hcalls (by simp [hat, Calls])

theorem Inv.accepted (h : Inv call nprocs compute s) {clifds : List ι}
    (hat : s.server = .accepting clifds) (hall : clifds.length = serv.numClients) :
    Inv call nprocs compute { s with
      server := .initUnits (fun i => clifds.get (i.cast hall.symm)) [] sizeInt } := by
  have hphase := h.phase
  unfold Phase at hphase
  simp only [hat] at hphase
  have hconn : ∀ i : Fin serv.numClients, Connected (s.client (clifds.get (i.cast hall.symm))) :=
    fun i => (hphase.connected _).mp (List.mem_append_left _ (List.get_mem ..))
  constructor
  · refine ⟨?_, rfl, by decide, le_rfl, hconn, fun i => ?_⟩
    · have hget := List.nodup_iff_injective_get.mp (List.Nodup.of_append_left hphase.nodup)
      exact hget.comp (Fin.cast_injective _)
    · have hbytes := hphase.bytes _ (hconn i)
      simpa [toRead, unread] using hbytes
  · intro x
    exact (h.client x).mono fun hcalls => absurd hcalls (by simp [hat, Calls])

theorem Inv.startFails (h : Inv call nprocs compute s) {clifds : List ι}
    (hat : s.server = .accepting clifds) :
    Inv call nprocs compute ({ s with server := .failed } : State ι serv) := by
  refine ⟨trivial, fun x => ?_⟩
  exact (h.client x).mono fun hcalls => absurd hcalls (by simp [hat, Calls])

/-- The numbers come in the order of the clients. -/
theorem take_succ_number {clifds : Fin serv.numClients → ι} {numLogicCpus : List ℤ}
    {i : Fin serv.numClients} (h : numLogicCpus = (List.ofFn (nprocs ∘ clifds)).take i) :
    numLogicCpus ++ [nprocs (clifds i)] = (List.ofFn (nprocs ∘ clifds)).take (i + 1) := by
  have hi : (i : ℕ) < (List.ofFn (nprocs ∘ clifds)).length := by
    rw [List.length_ofFn]
    exact i.isLt
  rw [← List.take_concat_get' _ _ hi, ← h, List.getElem_ofFn]
  rfl

theorem toRead_sub (numbers left k j : ℕ) :
    (if left - k = 0 then toRead (numbers + 1) sizeInt j else toRead numbers (left - k) j) =
      toRead numbers left j - if j = numbers then k else 0 := by
  unfold toRead
  split_ifs <;> omega

theorem Inv.read [DecidableEq ι] (h : Inv call nprocs compute s) {k : ℕ} {i : Fin serv.numClients}
    (hat : s.server = .initUnits clifds numLogicCpus left) (hnext : numLogicCpus.length = i)
    (hthere : k ≤ s.toServer (clifds i)) :
    Inv call nprocs compute { s with
      server := .gotPart clifds numLogicCpus (nprocs (clifds i)) left k
      toServer := Function.update s.toServer (clifds i) (s.toServer (clifds i) - k) } := by
  have hphase := h.phase
  unfold Phase at hphase
  simp only [hat] at hphase
  -- Only the client whose number is read has fewer bytes on their way.
  have hbytes : ∀ j : Fin serv.numClients, owes (s.client (clifds j)) +
      Function.update s.toServer (clifds i) (s.toServer (clifds i) - k) (clifds j) =
        toRead numLogicCpus.length left j - if (j : ℕ) = numLogicCpus.length then k else 0 := by
    intro j
    have hj := hphase.bytes j
    rw [← hj, unread, hnext]
    rcases eq_or_ne j i with rfl | hne
    · rw [Function.update_self, if_pos rfl]
      omega
    · rw [Function.update_of_ne (hphase.injective.ne hne), if_neg (Fin.val_ne_of_ne hne),
        Nat.sub_zero]
  have hnumbers := hphase.numbers
  rw [hnext] at hnumbers
  constructor
  · unfold ServerMain.gotPart
    split_ifs with hdone
    · refine ⟨hphase.injective, ?_, by decide, le_rfl, hphase.connected, fun j => ?_⟩
      · rw [List.length_append, List.length_singleton, hnext]
        exact take_succ_number hnumbers
      · have hsub := toRead_sub numLogicCpus.length left k j
        rw [if_pos hdone] at hsub
        rw [List.length_append, List.length_singleton, hsub]
        exact hbytes j
    · refine ⟨hphase.injective, hphase.numbers, Nat.pos_of_ne_zero hdone,
        (Nat.sub_le _ _).trans hphase.le, hphase.connected, fun j => ?_⟩
      have hsub := toRead_sub numLogicCpus.length left k j
      rw [if_neg hdone] at hsub
      rw [hsub]
      exact hbytes j
  · intro x
    have hx := h.client x
    rcases eq_or_ne x (clifds i) with rfl | hne
    · have hconn := hphase.connected i
      simp only
      cases hc : s.client (clifds i) with
      | connecting | inCall | ended =>
          rw [hc] at hconn
          exact hconn.elim
      | sending rest =>
          rw [hc] at hx
          exact hx
      | waiting => trivial
    · simp only [Function.update_of_ne hne]
      exact hx.mono fun hcalls => absurd hcalls (by simp [hat, Calls])

/-! ## The call -/

theorem failed_lt (hT : call.numThreads < 2 ^ 32) {compute : ℕ → CompUnitTask → Option Double}
    (h : HpcNetModel.Reachable call compute (some 0) state) (hfailed : Failed state)
    (hfinite : OwnFinite serv call compute) : call.numThreads < serv.numClients := by
  by_contra hle
  have hsends := (HpcNetProtocol.sends_iff hT).mpr (not_lt.mp hle)
  have hbooks := (HpcNetProtocol.books_start call (some 0)).run_of_sends hsends hfinite h
  exact hbooks.not_failed hfailed

theorem callRuns_start (call : Call) (compute : ℕ → CompUnitTask → Option Double) :
    CallRuns call compute (.start (some 0) : HpcNetModel.State serv) :=
  ⟨.inl .refl, fun _ => trivial⟩

theorem pcFits_setClient {i : Fin serv.numClients} {client : HpcNetModel.Client}
    (h : ∀ i, PcFits call i (state.clients i).pc) (hi : PcFits call i client.pc)
    (j : Fin serv.numClients) : PcFits call j ((state.setClient i client).clients j).pc := by
  unfold HpcNetModel.State.setClient
  rcases eq_or_ne j i with rfl | hne
  · simpa only [Function.update_self] using hi
  · simpa only [Function.update_of_ne hne] using h j

theorem CallRuns.step {compute : ℕ → CompUnitTask → Option Double}
    {state' : HpcNetModel.State serv} (h : CallRuns call compute state)
    (hstep : HpcNetModel.Step call compute state state') : CallRuns call compute state' where
  run := h.run.imp (fun hs => hs.tail hstep) fun hs => ⟨hs.1.step hstep, hs.2⟩
  clients := by
    cases hstep with
    | sendClosed | sent | own | receiveEnd | done => exact h.clients
    | send i | receive i => exact pcFits_setClient h.clients (h.clients i)
    | clientRead i =>
        refine pcFits_setClient h.clients ?_
        simp only [HpcNetModel.ClientPc.gotPart]
        split_ifs with hdone hzero
        · trivial
        · exact hzero
        · trivial
    | clientCompute i =>
        refine pcFits_setClient h.clients ?_
        simp only [PcFits]
        decide
    | clientWrite i =>
        refine pcFits_setClient h.clients ?_
        simp only [HpcNetModel.ClientPc.wrote]
        split_ifs with hmore
        · trivial
        · exact Nat.pos_of_ne_zero hmore

/-- A client of a call that is back waits for bytes only if the call failed. -/
theorem CallRuns.failed_of_waits {compute : ℕ → CompUnitTask → Option Double} {code : ℤ}
    {i : Fin serv.numClients} (hT : call.numThreads < 2 ^ 32) (h : CallRuns call compute state)
    (hat : state.server = .returned code)
    (hwaits : (∃ left, (state.clients i).pc = .reading left) ∨
      ∃ left, (state.clients i).pc = .writing left) :
    Failed state ∧ (OwnFinite serv call compute → call.numThreads < serv.numClients) := by
  rcases h.run with hs | hfailed
  swap
  · exact hfailed
  rcases HpcNetProtocol.books_of_reachable hs with hfailed | hbooks
  · exact ⟨hfailed, failed_lt hT hs hfailed⟩
  · exfalso
    have hresult := (hbooks.client i).result
    rw [hat] at hresult
    rcases hwaits with ⟨left, hpc⟩ | ⟨left, hpc⟩
    · rw [hpc] at hresult
      simp only [gotResult, toWrite, sizeResult] at hresult
      split_ifs at hresult <;> omega
    · have hpos := h.clients i
      rw [hpc] at hresult hpos
      simp only [gotResult, toWrite, sizeResult, PcFits] at hresult hpos
      split_ifs at hresult <;> omega

theorem CallRuns.drop {compute : ℕ → CompUnitTask → Option Double} {code : ℤ}
    {i : Fin serv.numClients} (hT : call.numThreads < 2 ^ 32) (h : CallRuns call compute state)
    (hat : state.server = .returned code)
    (hwaits : (∃ left, (state.clients i).pc = .reading left) ∨
      ∃ left, (state.clients i).pc = .writing left) :
    CallRuns call compute (state.setClient i { state.clients i with pc := .closed }) := by
  have hfailed := h.failed_of_waits hT hat hwaits
  exact ⟨.inr hfailed, pcFits_setClient h.clients trivial⟩

theorem Inv.start [DecidableEq ι] (h : Inv call nprocs compute s)
    (hat : s.server = .initUnits clifds numLogicCpus left)
    (hall : numLogicCpus.length = serv.numClients) :
    Inv call nprocs compute { s with
      server := .inCall clifds numLogicCpus (.start (some 0))
      client := serve s.client clifds } := by
  have hphase := h.phase
  unfold Phase at hphase
  simp only [hat] at hphase
  constructor
  · refine ⟨hphase.injective, ?_, fun i => if_pos ⟨i, rfl⟩, callRuns_start call _⟩
    rw [hphase.numbers, hall]
    exact List.take_of_length_le List.length_ofFn.le
  · intro x
    simp only [serve]
    split_ifs with hx
    · exact hx
    · exact (h.client x).mono fun hcalls => absurd hcalls (by simp [hat, Calls])

/-- The call goes on, and the session with it. -/
theorem Inv.callMoves (h : Inv call nprocs compute s)
    (hat : s.server = .inCall clifds numLogicCpus state) {state' : HpcNetModel.State serv}
    (hruns : CallRuns call (unitCompute compute clifds) state →
      CallRuns call (unitCompute compute clifds) state') :
    Inv call nprocs compute { s with server := .inCall clifds numLogicCpus state' } := by
  have hphase := h.phase
  unfold Phase at hphase
  simp only [hat] at hphase
  refine ⟨⟨hphase.injective, hphase.numbers, hphase.there, hruns hphase.call⟩, fun x => ?_⟩
  refine (h.client x).mono fun hcalls => ?_
  rw [hat] at hcalls
  exact hcalls

/-! ## What clients do -/

variable [DecidableEq ι]

/-- A fact about all clients is kept where only `m` changes. -/
theorem forall_update {P : ι → ClientMain → ℕ → Prop} {client : ι → ClientMain} {toServer : ι → ℕ}
    (h : ∀ m, P m (client m) (toServer m)) (m : ι) {c : ClientMain} {k : ℕ} (hm : P m c k) (x : ι) :
    P x (Function.update client m c x) (Function.update toServer m k x) := by
  rcases eq_or_ne x m with rfl | hne
  · rw [Function.update_self, Function.update_self]
    exact hm
  · rw [Function.update_of_ne hne, Function.update_of_ne hne]
    exact h x

theorem forall_update_client {P : ι → ClientMain → ℕ → Prop} {client : ι → ClientMain}
    {toServer : ι → ℕ} (h : ∀ m, P m (client m) (toServer m)) (m : ι) {c : ClientMain}
    (hm : P m c (toServer m)) (x : ι) : P x (Function.update client m c x) (toServer x) := by
  have hx := forall_update h m hm x
  rwa [Function.update_eq_self] at hx

/-- A server past `accept` does not care for the clients it has not accepted. -/
theorem Phase.bystander {server : ServerMain ι serv} {queue : List ι} {client : ι → ClientMain}
    {toServer : ι → ℕ} (h : Phase call nprocs compute ⟨server, queue, client, toServer⟩)
    (hnot : ∀ clifds, server ≠ .accepting clifds) {m : ι} (hout : client m ≠ .inCall)
    (hm : ¬ Connected (client m) ∨ State.Closed ⟨server, queue, client, toServer⟩)
    (queue' : List ι) (c : ClientMain) :
    Phase call nprocs compute ⟨server, queue', Function.update client m c, toServer⟩ := by
  cases server with
  | accepting clifds => exact absurd rfl (hnot clifds)
  | initUnits clifds numLogicCpus left =>
      have hread : Reading nprocs _ clifds numLogicCpus left := h
      have hne : ∀ i, clifds i ≠ m := fun i heq =>
        hm.resolve_right id (heq ▸ hread.connected i)
      refine { hread with connected := fun i => ?_, bytes := fun i => ?_ }
      · simp only [Function.update_of_ne (hne i)]
        exact hread.connected i
      · simp only [unread, Function.update_of_ne (hne i)]
        exact hread.bytes i
  | inCall clifds numLogicCpus state =>
      have hcall : Calling call nprocs compute _ clifds numLogicCpus state := h
      have hne : ∀ i, clifds i ≠ m := fun i heq => hout (heq ▸ hcall.there i)
      refine { hcall with there := fun i => ?_ }
      simp only [Function.update_of_ne (hne i)]
      exact hcall.there i
  | failed => trivial

theorem Inv.connect (h : Inv call nprocs compute s) {m : ι} (hat : s.client m = .connecting) :
    Inv call nprocs compute { s with
      queue := s.queue ++ [m]
      client := Function.update s.client m (.sending sizeInt) } := by
  have hfresh : s.toServer m = 0 := by
    have hm := h.client m
    rwa [hat] at hm
  have hnot : ¬ Connected (s.client m) := by
    rw [hat]
    exact id
  refine ⟨?_, forall_update_client h.client m (by decide : 0 < sizeInt)⟩
  by_cases haccept : ∃ clifds, s.server = .accepting clifds
  · obtain ⟨clifds, hserver⟩ := haccept
    have hphase := h.phase
    unfold Phase at hphase ⊢
    simp only [hserver] at hphase ⊢
    have hnew : m ∉ clifds ++ s.queue := fun hmem => hnot ((hphase.connected m).mp hmem)
    refine ⟨hphase.few, ?_, fun x => ?_, fun x hx => ?_⟩
    · rw [← List.append_assoc, ← List.concat_eq_append]
      exact List.Nodup.concat hnew hphase.nodup
    · rw [← List.append_assoc, List.mem_append, List.mem_singleton]
      rcases eq_or_ne x m with rfl | hne
      · simp only [Function.update_self]
        exact iff_of_true (.inr trivial) trivial
      · simp only [Function.update_of_ne hne, hne, or_false]
        exact hphase.connected x
    · rcases eq_or_ne x m with rfl | hne
      · simp only [unread, Function.update_self, hfresh, owes, Nat.add_zero]
      · simp only [unread, Function.update_of_ne hne] at hx ⊢
        exact hphase.bytes x hx
  · have hout : s.client m ≠ .inCall := by simp [hat]
    exact h.phase.bystander (fun clifds heq => haccept ⟨clifds, heq⟩) hout (.inl hnot) _ _

/-- A client that is not connected gives up. -/
theorem Inv.giveUp (h : Inv call nprocs compute s) {m : ι} (hat : s.client m = .connecting) :
    Inv call nprocs compute { s with client := Function.update s.client m .ended } := by
  have hnot : ¬ Connected (s.client m) := by
    rw [hat]
    exact id
  refine ⟨?_, forall_update_client h.client m trivial⟩
  by_cases haccept : ∃ clifds, s.server = .accepting clifds
  · obtain ⟨clifds, hserver⟩ := haccept
    have hphase := h.phase
    unfold Phase at hphase ⊢
    simp only [hserver] at hphase ⊢
    have hsame : ∀ x, Connected (Function.update s.client m .ended x) ↔ Connected (s.client x) := by
      intro x
      rcases eq_or_ne x m with rfl | hne
      · rw [Function.update_self]
        exact iff_of_false id hnot
      · rw [Function.update_of_ne hne]
    refine ⟨hphase.few, hphase.nodup, fun x => (hphase.connected x).trans (hsame x).symm,
      fun x hx => ?_⟩
    have hne : x ≠ m := by
      rintro rfl
      exact hnot ((hsame x).mp hx)
    simp only [unread, Function.update_of_ne hne]
    exact hphase.bytes x ((hsame x).mp hx)
  · have hout : s.client m ≠ .inCall := by simp [hat]
    exact h.phase.bystander (fun clifds heq => haccept ⟨clifds, heq⟩) hout (.inl hnot) _ _

/-- The server has closed the connection of a client that is not in the call. -/
theorem Inv.dropped (h : Inv call nprocs compute s) {m : ι}
    (hat : (∃ left, s.client m = .sending left) ∨ s.client m = .waiting) (hclosed : s.Closed) :
    Inv call nprocs compute { s with client := Function.update s.client m .ended } := by
  have hout : s.client m ≠ .inCall := by
    rcases hat with ⟨left, hat⟩ | hat <;> simp [hat]
  have hnot : ∀ clifds, s.server ≠ .accepting clifds := by
    intro clifds hserver
    simp only [State.Closed, hserver] at hclosed
  exact ⟨h.phase.bystander hnot hout (.inr hclosed) _ _, forall_update_client h.client m trivial⟩

/-- Bytes of a number leave the client, and none is lost. -/
theorem Inv.write (h : Inv call nprocs compute s) {m : ι} {left k : ℕ}
    (hat : s.client m = .sending left) (hle : k ≤ left) :
    Inv call nprocs compute { s with
      client := Function.update s.client m (.wrote left k)
      toServer := Function.update s.toServer m (s.toServer m + k) } := by
  have howes : owes (.wrote left k) = left - k := by
    unfold ClientMain.wrote
    split_ifs with hzero
    · exact hzero.symm
    · rfl
  have hconn : Connected (.wrote left k) := by
    unfold ClientMain.wrote
    split_ifs <;> trivial
  have hsame : ∀ x, Connected (Function.update s.client m (.wrote left k) x) ↔
      Connected (s.client x) := by
    intro x
    rcases eq_or_ne x m with rfl | hne
    · rw [Function.update_self, hat]
      exact iff_of_true hconn trivial
    · rw [Function.update_of_ne hne]
  have hbytes : ∀ x, owes (Function.update s.client m (.wrote left k) x) +
      Function.update s.toServer m (s.toServer m + k) x = unread s x := by
    intro x
    rcases eq_or_ne x m with rfl | hne
    · rw [Function.update_self, Function.update_self, howes, unread, hat, owes]
      omega
    · rw [Function.update_of_ne hne, Function.update_of_ne hne, unread]
  have hfits : ClientFits s.server m (.wrote left k) (s.toServer m + k) := by
    unfold ClientMain.wrote
    split_ifs with hzero
    · trivial
    · exact Nat.pos_of_ne_zero hzero
  refine ⟨?_, forall_update h.client m hfits⟩
  have hphase := h.phase
  unfold Phase at hphase ⊢
  cases hserver : s.server with
  | accepting clifds =>
      simp only [hserver] at hphase ⊢
      exact ⟨hphase.few, hphase.nodup, fun x => (hphase.connected x).trans (hsame x).symm,
        fun x hx => (hbytes x).trans (hphase.bytes x ((hsame x).mp hx))⟩
  | initUnits clifds numLogicCpus left =>
      simp only [hserver] at hphase ⊢
      exact { hphase with
        connected := fun i => (hsame _).mpr (hphase.connected i)
        bytes := fun i => (hbytes _).trans (hphase.bytes i) }
  | inCall clifds numLogicCpus state =>
      simp only [hserver] at hphase ⊢
      refine { hphase with there := fun i => ?_ }
      have hne : clifds i ≠ m := by
        rintro rfl
        simp [hphase.there i] at hat
      simp only [Function.update_of_ne hne]
      exact hphase.there i
  | failed => trivial

theorem Inv.step (hT : call.numThreads < 2 ^ 32) {t : State ι serv} {e : Event}
    (h : Inv call nprocs compute s) (hstep : Step call nprocs compute s e t) :
    Inv call nprocs compute t := by
  cases hstep with
  | connect m hat => exact h.connect hat
  | refused m hat => exact h.giveUp hat
  | connectFails m hat => exact h.giveUp hat
  | accept hat hmore hthere => exact h.accept hat hmore hthere
  | accepted hat hall => exact h.accepted hat hall
  | startFails hat => exact h.startFails hat
  | read i hat hnext hpos hle hthere => exact h.read hat hnext hthere
  | start hat hall => exact h.start hat hall
  | call hat hstep => exact h.callMoves hat fun hruns => hruns.step hstep
  | write m hat hpos hle => exact h.write hat hle
  | dropped m hat hclosed => exact h.dropped hat hclosed
  | callDropped i hat hclosed hwaits =>
      exact h.callMoves hat fun hruns => hruns.drop hT hclosed hwaits

end

end

end TaskLunev.HpcNetSession
