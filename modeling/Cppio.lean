import Cppio.Lib.Transition
import Cppio.Lib.Monitor
import Cppio.Lib.BoundedFifo
import Cppio.Lib.LittleEndian
import Cppio.Lib.Dialogue
import Cppio.Types
import Cppio.RingBuffer
import Cppio.RingBufferFifo
import Cppio.Message
import Cppio.MessageCodec
import Cppio.MessageValues
import Cppio.MessageProtocol
import Cppio.ReadMessage
import Cppio.Receiver
import Cppio.SendMessage
import Cppio.Transport
import Cppio.DataQueue
import Cppio.DataQueueSafety
import Cppio.DataQueueWakeup
import Cppio.InprocLine
import Cppio.InprocTransport
import Cppio.InprocTransportLimit
import Cppio.InprocRegistry
import Cppio.InprocFactories
import Cppio.InprocPairing
import Cppio.InprocPairingSafety
import Cppio.Lib.Circular
import Cppio.LockFreeRing
import Cppio.LockFreeRingSafety
import Cppio.Lib.Probe
import Cppio.MessageBounds
import Cppio.DataQueueRelease
import Cppio.DataQueueDisconnect
import Cppio.ReadMessageOutcome
import Cppio.DecodersAgree
import Cppio.Lib.CString
import Cppio.Lib.Interaction
import Cppio.IoLineManager
import Cppio.Sockets
import Cppio.UnixAddress
import Cppio.SocketNames
import Cppio.SocketDescriptors
import Cppio.Lib.Decimal
import Cppio.TcpEndpoints
import Cppio.NamedPipes
import Cppio.NamedPipeNames
import Cppio.Lib.KeyedQueue
import Cppio.SelectPoller
import Cppio.SelectPollerEvents
import Cppio.Lib.Traced
import Cppio.RingBufferWords
import Cppio.RingBufferWordsSafety
import Cppio.Lib.FifoRuns
import Cppio.RingBufferRefinement
import Cppio.InprocTransportProgress
import Cppio.InprocTransportBytes
import Cppio.Conversation
import Cppio.InprocPairingProgress
import Cppio.InprocProcess
import Cppio.InprocPointers
import Cppio.LockFreeRingSizes
import Cppio.Lib.PrefixFree
import Cppio.MessageStream
import Cppio.ReadMessageProgress
import Cppio.Reception
import Cppio.SocketLines
import Cppio.SocketReception
import Cppio.PipeLines
import Cppio.BrokenLines
