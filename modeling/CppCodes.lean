import CppCodes.Library.Machine
import CppCodes.Library.ByteLayout
import CppCodes.Library.FrameCode
import CppCodes.Source.HftTest.Common
import CppCodes.Source.HftTest.Protocol
import CppCodes.Source.HftTest.Framing
import CppCodes.Library.Circular
import CppCodes.Library.Linearizability
import CppCodes.Source.FrameWork.SpscQueue
import CppCodes.Guarantees.SpscFifo
import CppCodes.Source.HftTest.OmsEngine
import CppCodes.Source.HftTest.SimExServer
import CppCodes.Guarantees.FramingRoundTrip
import CppCodes.System.Ledger
import CppCodes.System.Loopback
import CppCodes.Guarantees.OrderProtocol
import CppCodes.Guarantees.ReportDelivery
import CppCodes.Guarantees.SendIntegrity
import CppCodes.Library.SortedMap
import CppCodes.Source.HftTest.Strategy
import CppCodes.Guarantees.ProfitAndLoss
import CppCodes.System.Trading
import CppCodes.Guarantees.PositionAgreement
import CppCodes.Guarantees.SingleActiveOrder
import CppCodes.Guarantees.BookSync
import CppCodes.Library.KeyedList
import CppCodes.Source.Treap.TreapMap
import CppCodes.Guarantees.TreapRefinement
import CppCodes.Library.HeapOrder
import CppCodes.Source.Treap.Priorities
import CppCodes.Guarantees.TreapShape
import CppCodes.Library.LoopCode
import CppCodes.Source.Others.BrainFuckTree
import CppCodes.Guarantees.InterpreterRefinement
import CppCodes.Library.Lanes
import CppCodes.Source.FrameWork.Pipeline
import CppCodes.Guarantees.PipelineOrder
import CppCodes.Source.RustCpp.Bridge
import CppCodes.Source.RustCpp.Md4
import CppCodes.Guarantees.BridgeLoop
import CppCodes.Guarantees.MalformedNumbers
import CppCodes.Source.FrameWork.Logging
import CppCodes.Guarantees.LogDelivery
import CppCodes.System.ThreadA
import CppCodes.Guarantees.DecisionFreshness
import CppCodes.Source.HftTest.MarketDataGenerator
import CppCodes.Guarantees.SimulatedBook
import CppCodes.Guarantees.OrderLifeCycle
import CppCodes.Library.BlockHeap
import CppCodes.Library.Fallible
import CppCodes.Source.StdVector.Objects
import CppCodes.Source.StdVector.Vec1
import CppCodes.Source.StdVector.VectorBasic
import CppCodes.Source.StdVector.Ownership
import CppCodes.Source.StdVector.Transfer
import CppCodes.Source.StdVector.Refinement
import CppCodes.Guarantees.VectorRefinement
import CppCodes.Guarantees.VectorBounds
import CppCodes.Library.RequestRing
import CppCodes.Source.Net.IoUringClient
import CppCodes.Guarantees.ClientDelivery
import CppCodes.Source.Net.EpollServer
import CppCodes.Source.Net.SelectServer
import CppCodes.Library.History
import CppCodes.Source.Net.Streams
import CppCodes.Guarantees.StreamOutput
import CppCodes.Source.HftTest.ByteVector
import CppCodes.Guarantees.FrameConsumption
import CppCodes.Library.Brackets
import CppCodes.Guarantees.JumpTables
import CppCodes.Library.Decimal
import CppCodes.Library.IntArith
import CppCodes.Source.Atoi.MyAtoi
import CppCodes.Source.Atoi.Reading
import CppCodes.Guarantees.DecimalReaders
import CppCodes.Source.Others.Iterator
import CppCodes.Guarantees.DocumentedIntegers
import CppCodes.Library.Moments
import CppCodes.Source.Rdtsc.VarCalc
import CppCodes.Guarantees.SampleVariance
import CppCodes.Guarantees.WelfordStatistics
import CppCodes.Guarantees.VectorExceptions
import CppCodes.Library.FailureAtomicity
import CppCodes.Source.Treap.LinkedTreap
import CppCodes.Source.Treap.Representation
import CppCodes.Source.Treap.LinkedRefinement
import CppCodes.Guarantees.TreapExceptions
import CppCodes.Source.RustCpp.Sampling
import CppCodes.Guarantees.SampleAgreement
import CppCodes.Source.HftTest.SpscSize
import CppCodes.Guarantees.RingSize
import CppCodes.Source.Mmap.TwoThreads
import CppCodes.Guarantees.WholeLines
import CppCodes.Library.Orbit
import CppCodes.Source.PerfLab.PtrChase
import CppCodes.Guarantees.PointerChase
import CppCodes.Library.AllocTrace
import CppCodes.Source.PerfLab.MallocCompare
import CppCodes.Guarantees.MallocDiscipline
import CppCodes.Guarantees.NumberFormatting
import CppCodes.Library.Base16
import CppCodes.Source.ParamPack.HexLiterals
import CppCodes.Guarantees.HexLiterals
import CppCodes.Library.OwningPointers
import CppCodes.Source.StdFunction.Function
import CppCodes.Guarantees.FunctionValues
import CppCodes.Source.Net.Descriptors
import CppCodes.Source.Net.IoUringServer
import CppCodes.Guarantees.LoopWakeups
import CppCodes.Guarantees.RequestOwnership
import CppCodes.Guarantees.RingServerOutput
import CppCodes.Guarantees.DepthPublication
import CppCodes.Guarantees.TypedLines
import CppCodes.Guarantees.ThreadCounts
import CppCodes.Guarantees.LatencyReport
import CppCodes.Guarantees.TelemetrySummary
import CppCodes.Guarantees.CalibratedTime
import CppCodes.Guarantees.TraversalOrder
import CppCodes.Guarantees.MovedTreaps
import CppCodes.Guarantees.NumberFiles
import CppCodes.Guarantees.CommandLines
import CppCodes.Guarantees.StoreLoad
import CppCodes.Guarantees.ExchangeStall
import CppCodes.Guarantees.PipelineShutdown
import CppCodes.Guarantees.OmsShutdown
import CppCodes.Guarantees.TreapBenchmark
import CppCodes.Guarantees.VectorComparisons
