import Denshin.Connection.Interleaving
import Denshin.Connection.Refinement
import Denshin.Connection.Atomic
import Denshin.Connection.World
import Denshin.Connection.Membership
import Denshin.Connection.Delivery
import Denshin.Connection.Reuse
import Denshin.Connection.Staleness
import Denshin.Basis.Guarded.Serial
import Denshin.Basis.Guarded.Progress
import Denshin.Gateway.WsGateway
import Denshin.Gateway.Snapshot
import Denshin.Gateway.MessageOrder
import Denshin.Gateway.StaleCheck
import Denshin.Room.Capacity
import Denshin.Basis.Broadcast
import Denshin.Broadcaster.EventBroadcaster
import Denshin.Basis.Guarded.Drain
import Denshin.Gateway.Linearizable
import Denshin.Basis.Guarded.Count
import Denshin.Gateway.Conservation
import Denshin.Connection.Session
import Denshin.Broadcaster.Broadcaster
import Denshin.Room.Overbooking
import Denshin.Basis.Sharded
import Denshin.Room.Counting
import Denshin.Presence.Tracker
import Denshin.Room.Listing
import Denshin.Connection.History
import Denshin.Connection.Separation
import Denshin.Connection.HashOrder
import Denshin.Gateway.Queues
