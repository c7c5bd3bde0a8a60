import ShmIpc.App.Echo
import ShmIpc.App.Server
import ShmIpc.Codec.Atomic
import ShmIpc.Codec.Delivery
import ShmIpc.Codec.Drain
import ShmIpc.Codec.FrameSize
import ShmIpc.Codec.Linear
import ShmIpc.Codec.Notify
import ShmIpc.Codec.Poison
import ShmIpc.Codec.ZeroCopy
import ShmIpc.Conn.AsyncClient
import ShmIpc.Conn.CodecLoops
import ShmIpc.Conn.Confined
import ShmIpc.Conn.Decoders
import ShmIpc.Conn.Disconnect
import ShmIpc.Conn.EventLoop
import ShmIpc.Conn.FdPassing
import ShmIpc.Conn.Handshake
import ShmIpc.Conn.HandshakeWake
import ShmIpc.Conn.Lifecycle
import ShmIpc.Conn.PodStream
import ShmIpc.Conn.RawSend
import ShmIpc.Conn.SyncClient
import ShmIpc.Conn.Table
import ShmIpc.Conn.VerifyTimer
import ShmIpc.Conn.Wiring
import ShmIpc.Ring.Batch
import ShmIpc.Ring.Fifo
import ShmIpc.Ring.ReleaseAcquire
import ShmIpc.Ring.Footprint
