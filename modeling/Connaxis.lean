import Connaxis.WriteInterest
import Connaxis.WakeUp
import Connaxis.CmdOwner
import Connaxis.CloseRequest
import Connaxis.SlowReader
import Connaxis.WebSocket.Output
import Connaxis.WebSocket.TextVerdict
import Connaxis.TlsInput
import Connaxis.Poll
import Connaxis.CmdBatch
import Connaxis.Shutdown
import Connaxis.IdleTime
import Connaxis.SharedTable
import Connaxis.FlushProgress
import Connaxis.Ktls.Handover
import Connaxis.TlsWorker
import Connaxis.Evhandler.RoutingRun
import Connaxis.Dialer.Entries
import Connaxis.Dialer.Descriptors
import Connaxis.Evhandler.HttpPipeline
import Connaxis.SendCustody
import Connaxis.FlushBudget
import Connaxis.WriteQueueLaw
import Connaxis.WebSocket.Cipher
import Connaxis.Evhandler.FastFraming
import Connaxis.RingBufferPart
import Connaxis.Ktls.RecordStream
import Connaxis.Dialer.DialBuf
import Connaxis.Evhandler.ResponseWriter
import Connaxis.PoolLaw
import Connaxis.Timer.Interleaving
import Connaxis.TlsSessionTicket
