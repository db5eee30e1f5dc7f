import TaskLunev.HpcNetModel

/-!
# A session of the distributed integral

The two programs around a call. The server accepts a number of clients in the
order in which they connect, reads from each how many processors it has, makes
the call and closes all sockets. A client that has received the datagram with
the address connects, sends its number and waits for a task. Clients may connect
at any time, and more of them than the server wants. A call of `connect` may
fail, and so may the start of the server while it accepts, be it that nobody
connects for thirty seconds. A client that is connected stays until it is done
or its socket is closed at the other end.
-/
namespace TaskLunev.HpcNetSessionModel
open HpcNetModel IntegralModel

/-- `sizeof (int)` -/
def sizeInt : ℕ := 4

/-- Where `main` of a client is: in `connect`, in `writen` with so many bytes of
its number left, waiting for a task, in the call, or back. -/
inductive ClientMain where
  | connecting
  | sending (left : ℕ)
  | waiting
  | inCall
  | ended
  deriving DecidableEq, Repr

/-- Where the server is: in `AcceptAndInitClients` with the clients accepted so
far, in `InitCompUnits` with the numbers read and what is left of the next one,
in the call or behind it, or back from a start that failed. -/
inductive ServerMain (ι : Type*) (serv : ServParam) where
  | accepting (clifds : List ι)
  | initUnits (clifds : Fin serv.numClients → ι) (numLogicCpus : List ℤ) (left : ℕ)
  | inCall (clifds : Fin serv.numClients → ι) (numLogicCpus : List ℤ)
      (state : HpcNetModel.State serv)
  | failed

/-- `queue` has the connections that were not accepted yet, `toServer` the bytes
of the numbers in flight. -/
structure State (ι : Type*) (serv : ServParam) where
  server : ServerMain ι serv
  queue : List ι
  client : ι → ClientMain
  toServer : ι → ℕ

section
variable {ι : Type*} {serv : ServParam}

def State.start : State ι serv where
  server := .accepting []
  queue := []
  client _ := .connecting
  toServer _ := 0

/-- The server has ended and its sockets are closed. -/
def State.Closed (s : State ι serv) : Prop :=
  match s.server with
  | .inCall _ _ state => ∃ code, state.server = .returned code
  | .failed => True
  | _ => False

/-- `InitCompUnits` after a `read`. -/
def ServerMain.gotPart (clifds : Fin serv.numClients → ι) (numLogicCpus : List ℤ) (number : ℤ)
    (left k : ℕ) : ServerMain ι serv :=
  if left - k = 0 then .initUnits clifds (numLogicCpus ++ [number]) sizeInt
  else .initUnits clifds numLogicCpus (left - k)

/-- `hpcnetStartComputeUnit` after a `write` of its number. -/
def ClientMain.wrote (left k : ℕ) : ClientMain :=
  if left - k = 0 then .waiting else .sending (left - k)

/-- The machine behind a unit of a call; `none` is the server. -/
def machine (clifds : Fin serv.numClients → ι) (unit : ℕ) : Option ι :=
  if h : unit < serv.numClients then some (clifds ⟨unit, h⟩) else none

/-- What `hpcIntegral` gives on the units of a call. -/
def unitCompute (compute : Option ι → CompUnitTask → Option Double)
    (clifds : Fin serv.numClients → ι) (unit : ℕ) : CompUnitTask → Option Double :=
  compute (machine clifds unit)

inductive Event where
  | goes
  | fails
  deriving DecidableEq, Repr

variable [DecidableEq ι]

/-- The clients of a call wait for its tasks. -/
def serve (client : ι → ClientMain) (clifds : Fin serv.numClients → ι) (m : ι) : ClientMain :=
  if ∃ i, clifds i = m then .inCall else client m

/-- `nprocs` is what `get_nprocs` gives on a client. -/
inductive Step (call : Call) (nprocs : ι → ℤ) (compute : Option ι → CompUnitTask → Option Double) :
    State ι serv → Event → State ι serv → Prop
  | connect {s : State ι serv} (m : ι) (at_ : s.client m = .connecting) (open_ : ¬ s.Closed) :
      Step call nprocs compute s .goes { s with
        queue := s.queue ++ [m]
        client := Function.update s.client m (.sending sizeInt) }
  | refused {s : State ι serv} (m : ι) (at_ : s.client m = .connecting) (closed : s.Closed) :
      Step call nprocs compute s .goes { s with client := Function.update s.client m .ended }
  | connectFails {s : State ι serv} (m : ι) (at_ : s.client m = .connecting) :
      Step call nprocs compute s .fails { s with client := Function.update s.client m .ended }
  | accept {s : State ι serv} {clifds rest : List ι} {m : ι} (at_ : s.server = .accepting clifds)
      (more : clifds.length < serv.numClients) (there : s.queue = m :: rest) :
      Step call nprocs compute s .goes
        { s with server := .accepting (clifds ++ [m]), queue := rest }
  | accepted {s : State ι serv} {clifds : List ι} (at_ : s.server = .accepting clifds)
      (all : clifds.length = serv.numClients) :
      Step call nprocs compute s .goes { s with
        server := .initUnits (fun i => clifds.get (i.cast all.symm)) [] sizeInt }
  | startFails {s : State ι serv} {clifds : List ι} (at_ : s.server = .accepting clifds) :
      Step call nprocs compute s .fails { s with server := .failed }
  | read {s : State ι serv} {clifds : Fin serv.numClients → ι} {numLogicCpus : List ℤ}
      {left k : ℕ} (i : Fin serv.numClients)
      (at_ : s.server = .initUnits clifds numLogicCpus left) (next : numLogicCpus.length = i)
      (pos : 0 < k) (le : k ≤ left) (there : k ≤ s.toServer (clifds i)) :
      Step call nprocs compute s .goes { s with
        server := .gotPart clifds numLogicCpus (nprocs (clifds i)) left k
        toServer := Function.update s.toServer (clifds i) (s.toServer (clifds i) - k) }
  | start {s : State ι serv} {clifds : Fin serv.numClients → ι} {numLogicCpus : List ℤ} {left : ℕ}
      (at_ : s.server = .initUnits clifds numLogicCpus left)
      (all : numLogicCpus.length = serv.numClients) (there : ∀ i, s.client (clifds i) = .waiting) :
      Step call nprocs compute s .goes { s with
        server := .inCall clifds numLogicCpus (.start (some 0))
        client := serve s.client clifds }
  | call {s : State ι serv} {clifds : Fin serv.numClients → ι} {numLogicCpus : List ℤ}
      {state state' : HpcNetModel.State serv} (at_ : s.server = .inCall clifds numLogicCpus state)
      (step : HpcNetModel.Step call (unitCompute compute clifds) state state') :
      Step call nprocs compute s .goes { s with server := .inCall clifds numLogicCpus state' }
  | write {s : State ι serv} {left k : ℕ} (m : ι) (at_ : s.client m = .sending left)
      (pos : 0 < k) (le : k ≤ left) :
      Step call nprocs compute s .goes { s with
        client := Function.update s.client m (.wrote left k)
        toServer := Function.update s.toServer m (s.toServer m + k) }
  | dropped {s : State ι serv} (m : ι)
      (at_ : (∃ left, s.client m = .sending left) ∨ s.client m = .waiting) (closed : s.Closed) :
      Step call nprocs compute s .goes { s with client := Function.update s.client m .ended }
  | callDropped {s : State ι serv} {clifds : Fin serv.numClients → ι} {numLogicCpus : List ℤ}
      {state : HpcNetModel.State serv} {code : ℤ} (i : Fin serv.numClients)
      (at_ : s.server = .inCall clifds numLogicCpus state)
      (closed : state.server = .returned code)
      (waits : (∃ left, (state.clients i).pc = .reading left) ∨
        ∃ left, (state.clients i).pc = .writing left) :
      Step call nprocs compute s .goes { s with
        server := .inCall clifds numLogicCpus
          (state.setClient i { state.clients i with pc := .closed }) }

end

end TaskLunev.HpcNetSessionModel
