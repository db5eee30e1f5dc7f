import TaskLunev.IntegralModel

/-!
# The distributed integral

`hpcnetCalcIntegral` cuts the interval into one task for each client and one
for itself, sends the tasks out, and adds up what comes back. The first half
below is the arithmetic of the cut, with the conversions of its `int` and
`unsigned` variables. The second half is the exchange over the sockets, where
any party may move next and a `read` or `write` may carry any part of what is
left. A socket is a reliable stream that carries one message each way, so the
number of bytes in flight says all about it.

What `hpcIntegral` gives on a unit is an argument of the exchange. It may be a
number, or NaN, or the call may never come back, as it does for some steps and
thread counts that it accepts. Numbers are exact. The division by `fabs (b - a)`
in a task gives zero when the limits are equal, where a `double` has NaN; with
either of the two as its step a count of threads that fits in `int` gives NaN.
-/
namespace TaskLunev.HpcNetModel
open IntegralModel

def funcX (x : ℚ) : ℚ := x

def funcXMultX (x : ℚ) : ℚ := x * x

inductive TypeFunc where
  | x
  | xMultX
  deriving DecidableEq, Repr

/-- The function a type code stands for. -/
def TypeFunc.func : TypeFunc → ℚ → ℚ
  | x => funcX
  | xMultX => funcXMultX

structure CompUnitTask where
  a : ℚ
  b : ℚ
  dx : ℚ
  typeFunc : TypeFunc
  numThreads : ℕ
  deriving DecidableEq, Repr

def compUnitTask2IntArg (task : CompUnitTask) : HpcIntArg where
  a := task.a
  b := task.b
  func := some task.typeFunc.func
  eps := task.dx / |task.b - task.a|
  numThreads := task.numThreads

/-- A full server: its clients are numbered by `int` descriptors. -/
structure ServParam where
  numClients : ℕ
  numClients_lt : numClients < 2 ^ 31 - 1

/-- The arguments of a call. -/
structure Call where
  numThreads : ℕ
  func : TypeFunc
  a : ℚ
  b : ℚ
  eps : ℚ

/-! ## The tasks -/

section
variable (serv : ServParam) (call : Call)

def len : ℚ := (call.b - call.a) / call.numThreads

/-- The quotient and the remainder are taken of `unsigned` values. -/
def numExtraThreads : ℤ := toInt (call.numThreads % (serv.numClients + 1) : ℕ)

def numFullThreads : ℤ := toInt (call.numThreads / (serv.numClients + 1) : ℕ)

def numLocalThreads (numcli : ℕ) : ℤ :=
  toInt (numFullThreads serv call + if (numcli : ℤ) < numExtraThreads serv call then 1 else 0)

/-- The next task begins where the last one ended. -/
def CompUnitTask.next (task : CompUnitTask) (len : ℚ) (numThreads : ℤ) : CompUnitTask :=
  { task with
    a := task.b
    b := task.b + len * numThreads
    numThreads := toUnsigned numThreads }

/-- The variable `task` after so many passes of the sending loop. The type code
does not depend on the function that was passed. -/
def taskAfter : ℕ → CompUnitTask
  | 0 =>
      { a := call.a
        b := call.a
        dx := |call.b - call.a| * call.eps
        typeFunc := .x
        numThreads := 0 }
  | numcli + 1 => (taskAfter numcli).next (len call) (numLocalThreads serv call numcli)

def clientTask (numcli : ℕ) : CompUnitTask := taskAfter serv call (numcli + 1)

def ownTask : Option CompUnitTask :=
  if numFullThreads serv call ≠ 0 then
    some ((taskAfter serv call serv.numClients).next (len call) (numFullThreads serv call))
  else none

/-- One task for each client in order, then the server's own. -/
def tasks : List CompUnitTask :=
  (List.range serv.numClients).map (clientTask serv call) ++ (ownTask serv call).toList

end

/-! ## The exchange -/

/-- The sum of two values of type `double`. -/
def addDouble (x y : Double) : Double := Option.map₂ (· + ·) x y

/-- `sizeof (comp_unit_task_t)` -/
def sizeTask : ℕ := 32

/-- `sizeof (double)` -/
def sizeResult : ℕ := 8

/-- Where the server is: in `writen` or `readn` with so many bytes left for a
client, at its own task between the loops, or back from the call. -/
inductive ServerPc where
  | sending (numcli left : ℕ)
  | own
  | reading (numcli left : ℕ)
  | returned (code : ℤ)
  deriving DecidableEq, Repr

inductive ClientPc where
  | reading (left : ℕ)
  | computing
  | writing (left : ℕ)
  | closed
  deriving DecidableEq, Repr

/-- `toClient` and `toServer` are the bytes in flight, `result` the answer the
client computed. -/
structure Client where
  pc : ClientPc
  toClient : ℕ
  toServer : ℕ
  result : Double
  deriving DecidableEq, Repr

structure State (serv : ServParam) where
  server : ServerPc
  result : Double
  clients : Fin serv.numClients → Client

/-- The loops of the server after a call of `write` or `read` moved `k` bytes. -/
def ServerPc.wrote (numcli left k : ℕ) : ServerPc :=
  if left - k = 0 then .sending (numcli + 1) sizeTask else .sending numcli (left - k)

def ServerPc.gotPart (numcli left k : ℕ) : ServerPc :=
  if left - k = 0 then .reading (numcli + 1) sizeResult else .reading numcli (left - k)

/-- `hpcnetStartComputeUnit` after a `read` of its task, and after a `write` of
its answer. A task without threads ends it. -/
def ClientPc.gotPart (task : CompUnitTask) (left k : ℕ) : ClientPc :=
  if left - k = 0 then (if task.numThreads = 0 then .closed else .computing)
  else .reading (left - k)

def ClientPc.wrote (left k : ℕ) : ClientPc := if left - k = 0 then .closed else .writing (left - k)

section
variable {serv : ServParam}

def State.setClient (s : State serv) (i : Fin serv.numClients) (client : Client) : State serv :=
  { s with clients := Function.update s.clients i client }

/-- The clients wait for their tasks; `result` is the caller's `*result`. -/
def State.start (result : Double) : State serv where
  server := .sending 0 sizeTask
  result := result
  clients _ := ⟨.reading sizeTask, 0, 0, none⟩

/-- The server's own task, if it has one, when `hpcIntegral` comes back: where
the server is then, and what is in `*result`. -/
def ownCall (serv : ServParam) (call : Call) (compute : ℕ → CompUnitTask → Option Double)
    (result : Double) : Option (ServerPc × Double) :=
  (ownTask serv call).elim (some (.reading 0 sizeResult, result)) fun task =>
    (compute serv.numClients task).map fun value =>
      if value.isNone then (.returned (-1), value) else (.reading 0 sizeResult, value)

/-- `compute` is what `hpcIntegral` gives on each client, and last on the server;
where it never comes back there is no step. -/
inductive Step (call : Call) (compute : ℕ → CompUnitTask → Option Double) :
    State serv → State serv → Prop
  | send {s : State serv} (i : Fin serv.numClients) {left k : ℕ}
      (at_ : s.server = .sending i left) (open_ : (s.clients i).pc ≠ .closed)
      (pos : 0 < k) (le : k ≤ left) :
      Step call compute s { s.setClient i
        { s.clients i with toClient := (s.clients i).toClient + k } with
          server := .wrote i left k }
  | sendClosed {s : State serv} (i : Fin serv.numClients) {left : ℕ}
      (at_ : s.server = .sending i left) (closed : (s.clients i).pc = .closed) :
      Step call compute s { s with server := .returned (-1) }
  | sent {s : State serv} {left : ℕ} (at_ : s.server = .sending serv.numClients left) :
      Step call compute s { s with server := .own }
  | own {s : State serv} {server : ServerPc} {result : Double} (at_ : s.server = .own)
      (back : ownCall serv call compute s.result = some (server, result)) :
      Step call compute s { s with server, result }
  | receive {s : State serv} (i : Fin serv.numClients) {left k : ℕ}
      (at_ : s.server = .reading i left) (pos : 0 < k) (le : k ≤ left)
      (there : k ≤ (s.clients i).toServer) :
      Step call compute s { s.setClient i
        { s.clients i with toServer := (s.clients i).toServer - k } with
          server := .gotPart i left k
          result :=
            if left - k = 0 then addDouble s.result (s.clients i).result else s.result }
  | receiveEnd {s : State serv} (i : Fin serv.numClients) {left : ℕ}
      (at_ : s.server = .reading i left) (nothing : (s.clients i).toServer = 0)
      (closed : (s.clients i).pc = .closed) :
      Step call compute s { s with server := .returned (-1) }
  | done {s : State serv} {left : ℕ} (at_ : s.server = .reading serv.numClients left) :
      Step call compute s { s with server := .returned 0 }
  | clientRead {s : State serv} (i : Fin serv.numClients) {left k : ℕ}
      (at_ : (s.clients i).pc = .reading left) (pos : 0 < k) (le : k ≤ left)
      (there : k ≤ (s.clients i).toClient) :
      Step call compute s (s.setClient i { s.clients i with
        pc := .gotPart (clientTask serv call i) left k
        toClient := (s.clients i).toClient - k })
  | clientCompute {s : State serv} (i : Fin serv.numClients) {result : Double}
      (at_ : (s.clients i).pc = .computing)
      (back : compute i (clientTask serv call i) = some result) :
      Step call compute s (s.setClient i { s.clients i with
        pc := .writing sizeResult
        result })
  | clientWrite {s : State serv} (i : Fin serv.numClients) {left k : ℕ}
      (at_ : (s.clients i).pc = .writing left) (pos : 0 < k) (le : k ≤ left) :
      Step call compute s (s.setClient i { s.clients i with
        pc := .wrote left k
        toServer := (s.clients i).toServer + k })

/-- The states of all runs from a call. -/
def Reachable (call : Call) (compute : ℕ → CompUnitTask → Option Double) (result : Double) :
    State serv → Prop :=
  Relation.ReflTransGen (Step call compute) (State.start result)

end

end TaskLunev.HpcNetModel
