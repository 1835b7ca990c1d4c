import IcnDemo.Forwarder.Pick
import IcnDemo.Forwarder.NackRecords
import IcnDemo.Forwarder.SharedBuffers
import IcnDemo.Forwarder.Scope
import IcnDemo.Forwarder.TimerRun
import IcnDemo.Forwarder.Delivery
import IcnDemo.Rib.Rollback
import IcnDemo.Rib.Retry
import IcnDemo.Cs.Find
import IcnDemo.Cs.PolicyRun
import IcnDemo.Lp.RoundTrip
import IcnDemo.Lp.PartialPackets
import IcnDemo.Table.SharedTree
import IcnDemo.StrategyChoice.Clear
import IcnDemo.Validator.Once
import IcnDemo.Validator.CommandKeys
import IcnDemo.Mgmt.Dispatcher
import IcnDemo.Util.InMemoryStorage
import IcnDemo.Util.SegmentFetcher
import IcnDemo.Mgmt.StatusDataset
import IcnDemo.Face.StreamTransport
import IcnDemo.FullNameMatch
import IcnDemo.Table.Expiry
import IcnDemo.Forwarder.Delegations
import IcnDemo.Net.BLEServiceDiscovery
import IcnDemo.DeadNonceEvents
import IcnDemo.Encoding.Buffer
import IcnDemo.Rib.Capture
import IcnDemo.Fib.Size
