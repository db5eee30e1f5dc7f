import TaskLunev.DescriptorTable
import TaskLunev.ProxyModel

/-!
# Starting and closing the proxy

`StartProxy` and `CloseProxy` in the parent process, with its descriptors. What
the allocator, `pipe2`, `pipe` and `fork` answer is the input. The clients have
descriptor tables of their own, and what they close is not seen here.
-/
namespace TaskLunev.ProxyStartModel
open DescriptorTable ProxyModel

/-- A channel with the parent's ends of its two pipes. -/
structure ServerChannel extends ProxyChannel where
  mFdWrite : ℕ
  mFdRead : ℕ
  deriving DecidableEq, Repr

/-- `mChannels` is the array by index, `none` the null pointer; of
`m_totalBuffer` only whether it is null is kept. -/
structure ProxyServer where
  mChannels : Option (ℕ → ServerChannel)
  mNumberChannels : ℕ
  mFdAddClientServer : ℕ
  mTotalSizeBuf : ℤ
  mTotalBuffer : Bool

def zeroChannel : ServerChannel := ⟨⟨0, 0, 0, 0, false⟩, 0, 0⟩

/-- `ProxyServer proxyServer = {}` -/
def zeroServer : ProxyServer := ⟨none, 0, 0, 0, false⟩

/-- Which calls succeed; those in the loop by client. -/
structure Answers where
  callocChannels : Bool
  pipeServerClient : ℕ → Bool
  pipeClientServer : ℕ → Bool
  pipeAdd : Bool
  fork : ℕ → Bool
  callocBuffer : Bool

structure Process where
  server : ProxyServer
  fds : Descriptors

inductive Errno where
  | eexist | enomem
  deriving DecidableEq, Repr

/-- The value of `StartProxy`, the error number it sets itself and what it leaves. -/
structure StartReply where
  code : ℤ
  errno : Option Errno
  process : Process

namespace Process

def close (p : Process) (fd : ℕ) : Process := { p with fds := p.fds.close fd }

def setFdAddClientServer (p : Process) (fd : ℕ) : Process :=
  { p with server := { p.server with mFdAddClientServer := fd } }

/-- `channels[i] = update (channels[i])` -/
def updateChannel (p : Process) (i : ℕ) (update : ServerChannel → ServerChannel) : Process :=
  { p with server := { p.server with
      mChannels := p.server.mChannels.map fun channels =>
        Function.update channels i (update (channels i)) } }

/-- A pipe, or the early `return -1`. -/
def pipe (granted : Bool) (p : Process) : Except Process ((ℕ × ℕ) × Process) :=
  if granted then .ok (p.fds.pipe.1, { p with fds := p.fds.pipe.2 }) else .error p

end Process

def verifierProxy (s : ProxyServer) : Bool := s.mChannels.isSome

/-- One pass of the client loop in the parent. -/
def startOne (a : Answers) (i : ℕ) (p : Process) : Except Process Process := do
  let (fdServerClient, p) ← p.pipe (a.pipeServerClient i)
  let (fdClientServer, p) ← p.pipe (a.pipeClientServer i)
  let (fdAddClientServer, p) ← if i = 0 then p.pipe a.pipeAdd else .ok ((0, 0), p)
  if a.fork i then
    let p := if i = 0 then
        (p.close fdAddClientServer.2).setFdAddClientServer fdAddClientServer.1
      else p
    let p := (p.close fdServerClient.1).close fdClientServer.2
    return p.updateChannel i fun channel =>
      { channel with mFdWrite := fdServerClient.2, mFdRead := fdClientServer.1 }
  else .error p

/-- The client loop, `left` clients from client `i` on. -/
def startClients (a : Answers) : ℕ → ℕ → Process → Except Process Process
  | 0, _, p => .ok p
  | left + 1, i, p => do
      let p ← startOne a i p
      startClients a left (i + 1) p

/-- The capacities of all channels, and their sum. -/
def setCapacities (n : ℕ) (p : Process) : Process :=
  { p with server := { p.server with
      mChannels := p.server.mChannels.map fun channels i =>
        if i < n then { channels i with mCapacity := calcSizeBuf i n, mSize := 0 } else channels i
      mTotalSizeBuf := totalSizeBuf n } }

/-- The channels get their parts of the one buffer, as in `startChannel`. -/
def setBuffers (n : ℕ) (p : Process) : Process :=
  { p with server := { p.server with
      mTotalBuffer := true
      mChannels := p.server.mChannels.map fun channels i =>
        if i < n then
          { channels i with mBuf := (startChannel n i).mBuf, mCurPos := (startChannel n i).mCurPos }
        else channels i } }

def startProxy (a : Answers) (numberClient : ℕ) (p : Process) : StartReply :=
  if verifierProxy p.server then ⟨-1, some .eexist, p⟩
  else if a.callocChannels = false then ⟨-1, some .enomem, p⟩
  else
    let p := { p with server := { p.server with
      mChannels := some fun _ => zeroChannel
      mNumberChannels := numberClient } }
    match startClients a numberClient 0 p with
    | .error p => ⟨-1, none, p⟩
    | .ok p =>
        let p := setCapacities numberClient p
        if a.callocBuffer = false then ⟨-1, some .enomem, p⟩
        else ⟨0, none, setBuffers numberClient p⟩

/-- The loop of `CloseProxy`, `left` channels from channel `i` on. -/
def closeChannels (channels : ℕ → ServerChannel) : ℕ → ℕ → Process → Process
  | 0, _, p => p
  | left + 1, i, p =>
      closeChannels channels left (i + 1) ((p.close (channels i).mFdRead).close (channels i).mFdWrite)

def closeProxy (p : Process) : Process :=
  let p := match p.server.mTotalBuffer, p.server.mChannels with
    | true, some channels => closeChannels channels p.server.mNumberChannels 0 p
    | _, _ => p
  let p := p.close p.server.mFdAddClientServer
  { p with server := { p.server with mTotalBuffer := false, mChannels := none, mTotalSizeBuf := 0 } }

/-- What `main` starts from: a zeroed server and some open descriptors. -/
def mainStart (inherited : Finset ℕ) : Process := ⟨zeroServer, .before inherited⟩

/-- `StartProxy` and then `CloseProxy`, as `main` calls them. -/
def startAndClose (a : Answers) (numberClient : ℕ) (inherited : Finset ℕ) : Process :=
  closeProxy (startProxy a numberClient (mainStart inherited)).process

end TaskLunev.ProxyStartModel
