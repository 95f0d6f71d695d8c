import NdnFc.Client.NackAccounting
import NdnFc.Client.StreamTransportImpl
import NdnFc.Fw.AccessStrategy
import NdnFc.Fw.AsfRanking
import NdnFc.Fw.FreshnessPeriod
import NdnFc.Fw.LoopDetection
import NdnFc.Fw.NewNextHop
import NdnFc.Ims.InMemoryStorage
import NdnFc.Link.DuplicateSuppression
import NdnFc.Link.FragmentSizes
import NdnFc.Link.FragmentationRoundTrip
import NdnFc.Link.IdleAck
import NdnFc.Link.ReassemblyFailure
import NdnFc.Link.StreamTransport
import NdnFc.Mgmt.ControlParameters
import NdnFc.Mgmt.StatusDataset
import NdnFc.Packet.DataEquality
import NdnFc.Packet.InterestCache
import NdnFc.Packet.ReceivedDelegations
import NdnFc.Rib.FibUpdater
import NdnFc.Rib.ReadvertiseDestination
import NdnFc.Rib.RibAccounting
import NdnFc.Rib.RibInvariant
import NdnFc.Security.ChainOfTrust
import NdnFc.Security.CommandAuthenticator
import NdnFc.Security.ExactlyOnce
import NdnFc.Security.ReplayProtection
import NdnFc.Security.TrustAnchorGroup
import NdnFc.Sfc.ChainLabelling
import NdnFc.Sfc.Isolation
import NdnFc.Sfc.Robustness
import NdnFc.Sfc.SegmentSizes
import NdnFc.Table.LruPolicy
import NdnFc.Table.Measurements
import NdnFc.Table.NameTreeIterator
import NdnFc.Table.PrefixRange
import NdnFc.Table.PriorityFifoPolicy
import NdnFc.Table.RecordExpiry
import NdnFc.Tlv.Encoder
import NdnFc.Util.Regex
