import PeachDB.FlushVisibility
import PeachDB.DataFileHistory
import PeachDB.FineTermination
import PeachDB.TornWrites
import PeachDB.RemoteMap
import PeachDB.ServerRestarts
import PeachDB.ServiceCompletion
import PeachDB.ExclusiveFlush
import PeachDB.Checkpoints
import PeachDB.LogOrder
import PeachDB.IndexRewrite
import PeachDB.Persistence
import PeachDB.LostWrites
import PeachDB.WireValues
import PeachDB.WriteOutcome
import PeachDB.DataFileRoundTrip
import PeachDB.FlushOutcome
import PeachDB.FlushRetry
import PeachDB.DecoderPanics
import PeachDB.LogRoundTrip
import PeachDB.ProtocolRoundTrip
import PeachDB.ScanAgreement
import PeachDB.RecordCorruption
import PeachDB.HeaderFormat
import PeachDB.ResponseLengths
