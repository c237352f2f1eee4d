import Ironbind.Lib.Codec
import Ironbind.Lib.Placed
import Ironbind.Lib.Text
import Ironbind.Proto
import Ironbind.NameWire
import Ironbind.Tsig
import Ironbind.PacketRoundTrip
import Ironbind.Dnssec
import Ironbind.DnssecRdata
import Ironbind.ChainOfTrust
import Ironbind.SignedData
import Ironbind.ZoneManager
import Ironbind.Server
import Ironbind.NsecChain
import Ironbind.MessageSize
import Ironbind.TsigRoundTrip
import Ironbind.Transfer
import Ironbind.Framing
import Ironbind.FailClosed
import Ironbind.Bailiwick
import Ironbind.DenialProof
import Ironbind.StrictRuns
import Ironbind.Ixfr
import Ironbind.Recursion
import Ironbind.Admission
import Ironbind.CacheReplay
import Ironbind.GlobalCap
import Ironbind.LimiterRefinement
import Ironbind.ReplyMatch
import Ironbind.ZoneChoice
import Ironbind.RrsetAcceptance
import Ironbind.ZoneLines
import Ironbind.ZoneFields
import Ironbind.RecordFields
import Ironbind.RecordLines
import Ironbind.ZoneReload
import Ironbind.Guarded
import Ironbind.SendableRecords
import Ironbind.TransferContents
import Ironbind.DelegationMatch
import Ironbind.RecordBounds
import Ironbind.WalkResults
import Ironbind.WalkMachine
import Ironbind.PositiveAnswers
import Ironbind.MixedAnswers
import Ironbind.FailedSigning
import Ironbind.Reencoding
import Ironbind.ConfigFile
import Ironbind.ConfigChecks
import Ironbind.NameForm
import Ironbind.LoaderFaults
import Ironbind.RecordLayout
import Ironbind.LineBreaks
import Ironbind.EscapedRecords
import Ironbind.ServedRecords
import Ironbind.NegativeLifetime
import Ironbind.MetricCounts
import Ironbind.SpoofedReplies
import Ironbind.Doh
import Ironbind.DohRequests
import Ironbind.Networks
import Ironbind.BitmapForm
import Ironbind.CanonicalOrder
import Ironbind.SubtreeTests
import Ironbind.Sha
import Ironbind.Signers
import Ironbind.Lib.WorkerPool
import Ironbind.UdpService
import Ironbind.ReloadWatcher
import Ironbind.SignatureTimes
import Ironbind.Forwarding
import Ironbind.Lib.DeltaStream
import Ironbind.Secondary
import Ironbind.Replication
import Ironbind.ForwardingServer
import Ironbind.SignedForwarding
import Ironbind.HonestWalk
import Ironbind.DohExchange
import Ironbind.Transports
import Ironbind.Supervisor
import Ironbind.Lib.Positional
import Ironbind.Nsec3
