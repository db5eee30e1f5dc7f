import TaskLunev.BinArrayModel
import TaskLunev.BinArrayFind
import TaskLunev.BinArrayRange
import TaskLunev.CircBufferModel
import TaskLunev.CircBufferOrder
import TaskLunev.ExceptRules
import TaskLunev.ProxyModel
import TaskLunev.ProxyRelay
import TaskLunev.ProxyTurns
import TaskLunev.ProxySuccess
import TaskLunev.IntegralModel
import TaskLunev.HpcNetModel
import TaskLunev.HpcNetTasks
import TaskLunev.HpcNetProtocol
import TaskLunev.HpcNetIntegral
import TaskLunev.CpuTopologyModel
import TaskLunev.CpuTopologyRounds
import TaskLunev.ConnModel
import TaskLunev.ConnHandover
import TaskLunev.ConnSafety
import TaskLunev.BitStream
import TaskLunev.SignalModel
import TaskLunev.SignalRelay
import TaskLunev.TransferModel
import TaskLunev.TransferSafety
import TaskLunev.TransferRemoval
import TaskLunev.CircBufferBounds
import TaskLunev.BinArrayFill
import TaskLunev.BinArrayResize
import TaskLunev.ResourceOwnership
import TaskLunev.WrapperModel
import TaskLunev.WrapperOwnership
import TaskLunev.DescriptorTable
import TaskLunev.ProxyStartModel
import TaskLunev.ProxyCleanup
import TaskLunev.ProxyOutlet
import TaskLunev.CircBufferGeometry
import TaskLunev.BinArrayFillEach
import TaskLunev.BinArrayInvert
import TaskLunev.BinArraySubArray
import TaskLunev.RoundRobin
import TaskLunev.ThreadPlacement
import TaskLunev.IntegralVariants
import TaskLunev.ChildChain
import TaskLunev.NamedPipe
import TaskLunev.FifoSemaphore
import TaskLunev.SuperFifoModel
import TaskLunev.SuperFifoEffects
import TaskLunev.SuperFifoPairing
import TaskLunev.SuperFifoStreams
import TaskLunev.BinArrayGetInvert
import TaskLunev.BinArrayComplement
import TaskLunev.BinArrayWindow
import TaskLunev.BinArrayDispatch
import TaskLunev.BinArrayMasks
import TaskLunev.BinArrayEmptyRange
import TaskLunev.ProxyAccess
import TaskLunev.CpuTopologyTermination
import TaskLunev.ProxyPaths
import TaskLunev.ProxySizes
import TaskLunev.CpuTopologyCores
import TaskLunev.BlockHeap
import TaskLunev.CStrings
import TaskLunev.CpuTopologyInitModel
import TaskLunev.CpuOnlineList
import TaskLunev.CpuTopologyOwnership
import TaskLunev.IntegralOvershoot
import TaskLunev.IntegralTermination
import TaskLunev.IntegralVector
import TaskLunev.HpcNetResult
import TaskLunev.HpcNetBytes
import TaskLunev.HpcNetPorts
import TaskLunev.StatusFlags
import TaskLunev.SemaphoreDescriptors
import TaskLunev.SuperFifoLoops
import TaskLunev.BinArrayBits
import TaskLunev.BinArrayStore
import TaskLunev.ProxyReturns
import TaskLunev.ProxySession
import TaskLunev.WrapperBits
import TaskLunev.WrapperValues
import TaskLunev.ChildChainCompletion
import TaskLunev.ConnCompletion
import TaskLunev.SignalCompletion
import TaskLunev.TransferCompletion
import TaskLunev.ForkJoin
import TaskLunev.IntegralThreads
import TaskLunev.HpcNetCompletion
import TaskLunev.HeapOverlay
import TaskLunev.HpcCall
import TaskLunev.SemShmCompletion
import TaskLunev.SuperFifoCompletion
import TaskLunev.HpcNetSession
import TaskLunev.HpcNetSessionCompletion
import TaskLunev.HpcNetAgreement
