import CppExamples.Json.Bounds
import CppExamples.Json.Doubles
import CppExamples.Json.Faults
import CppExamples.Json.Injective
import CppExamples.Json.Programs
import CppExamples.Json.Raw
import CppExamples.Json.Rfc
import CppExamples.Json.RoundTrip
import CppExamples.Json.Strict
import CppExamples.Json.Trailing
import CppExamples.Json.Trimming
import CppExamples.Lib.AutoTable
import CppExamples.Lib.Handles
import CppExamples.Lib.LeastSquares
import CppExamples.Lib.Loop
import CppExamples.Lib.PyString
import CppExamples.Practice.AntColony
import CppExamples.Practice.AsyncStdin
import CppExamples.Practice.BatchEstimate
import CppExamples.Practice.BestTour
import CppExamples.Practice.ChainablePromise
import CppExamples.Practice.FinancialAnalysis
import CppExamples.Practice.KalmanFilter
import CppExamples.Practice.ParticleFutures
import CppExamples.Practice.Perceptron
import CppExamples.Practice.Pheromone
import CppExamples.Practice.Resample
import CppExamples.Practice.SendFile
import CppExamples.Practice.SmallString
import CppExamples.Practice.Teardown
import CppExamples.Practice.UartFifo
import CppExamples.Queues.DeclareFifo
import CppExamples.Queues.Flushing
import CppExamples.Queues.InBounds
import CppExamples.Queues.InOrder
import CppExamples.Queues.Publication
import CppExamples.Queues.RandomAccess
import CppExamples.Queues.Resize
import CppExamples.Queues.StructQueue
import CppExamples.Scripts.Exceptions
import CppExamples.Scripts.Restarts
import CppExamples.Scripts.Rows
import CppExamples.Scripts.Time2Trace
import CppExamples.Streams.ContainerSource
import CppExamples.Streams.DumpSerial
import CppExamples.Streams.Outbuf
import CppExamples.TrivialJson.Node
import CppExamples.TrivialJson.Parse
import CppExamples.TrivialJson.Unambiguous
