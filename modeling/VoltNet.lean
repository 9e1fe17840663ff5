import VoltNet.Lib.Stuffing
import VoltNet.Lib.Runs
import VoltNet.Lib.Positional
import VoltNet.Lib.Fallible
import VoltNet.Framing.Encode
import VoltNet.Framing.NetCon
import VoltNet.Framing.Decode
import VoltNet.Framing.Streams
import VoltNet.Framing.Resync
import VoltNet.Serialize.Types
import VoltNet.Serialize.Write
import VoltNet.Serialize.Read
import VoltNet.Serialize.Endianness
import VoltNet.Serialize.RoundTrip
import VoltNet.Serialize.Bounds
import VoltNet.Serialize.Destination
import VoltNet.Network.Send
import VoltNet.Network.Pool
import VoltNet.Network.Draining
import VoltNet.Network.Delivery
import VoltNet.Network.Registry
import VoltNet.Network.Closing
import VoltNet.Network.Ids
import VoltNet.Network.Lifetime
import VoltNet.Network.Lifecycle
import VoltNet.Network.CloseCon
import VoltNet.Network.Wiring
import VoltNet.Network.Writes
import VoltNet.Network.Ownership
import VoltNet.Serialize.Floats
import VoltNet.Serialize.Reserialize
import VoltNet.Serialize.Series
import VoltNet.Serialize.Pairs
import VoltNet.Serialize.Counts
import VoltNet.Framing.Closed
import VoltNet.Network.Drainers
import VoltNet.Network.Accepts
import VoltNet.Lib.RefCount
import VoltNet.Network.Connect
import VoltNet.Network.MsgPool
import VoltNet.Network.Buffers
import VoltNet.Network.Circulation
import VoltNet.Network.Capacity
import VoltNet.Serialize.Raw
import VoltNet.Network.Quiet
import VoltNet.Network.Links
import VoltNet.Serialize.Decodable
import VoltNet.Network.Values
import VoltNet.Network.Chat
import VoltNet.Network.Shared
import VoltNet.Lib.Locks
import VoltNet.Network.Locking
import VoltNet.Network.Shutdown
import VoltNet.Network.Destructor
import VoltNet.Network.Guarding
import VoltNet.Network.Destroyed
import VoltNet.Network.Intake
import VoltNet.Network.Broadcast
import VoltNet.Network.InOrder
import VoltNet.Network.Pooled
import VoltNet.Network.Parting
import VoltNet.Network.OneRead
