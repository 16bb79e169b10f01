import RpcPeer.Main
import RpcPeer.Peer.Held
import RpcPeer.Proofs.Catalog.Failure
import RpcPeer.Proofs.Catalog.HiddenGroup
import RpcPeer.Proofs.Catalog.Rearrangement
import RpcPeer.Proofs.Dialect.BaseRoundTrip
import RpcPeer.Proofs.Dialect.DebugRoundTrip
import RpcPeer.Proofs.Dialect.FailedResponse
import RpcPeer.Proofs.Dialect.Identity
import RpcPeer.Proofs.Dialect.Repetition
import RpcPeer.Proofs.Dialect.Truncation
import RpcPeer.Proofs.Dispatcher.Notifications
import RpcPeer.Proofs.Dispatcher.Served
import RpcPeer.Proofs.Frame.BrokenLength
import RpcPeer.Proofs.Message.Equality
import RpcPeer.Proofs.Pair.Ids
import RpcPeer.Proofs.Pair.Safety
import RpcPeer.Proofs.Peer.Answers
import RpcPeer.Proofs.Peer.Chain
import RpcPeer.Proofs.Service.Foreign
import RpcPeer.Proofs.Service.Params
import RpcPeer.Proofs.Session.Delivery
import RpcPeer.Proofs.Session.Loop
import RpcPeer.Proofs.Session.Numbers
import RpcPeer.Proofs.Session.Oversized
import RpcPeer.Proofs.Session.Tracing
import RpcPeer.Proofs.Shape.Unions
import RpcPeer.Report
import RpcPeer.Service.Display
