import Lumberjack.Stream.Decoder
import Lumberjack.Stream.Within
import Lumberjack.Stream.BigEndian
import Lumberjack.Stream.Checked
import Lumberjack.Process.Run
import Lumberjack.Process.Attempts
import Lumberjack.Process.Measure
import Lumberjack.Process.StopAndWait
import Lumberjack.Wire.Inflate
import Lumberjack.Wire.Bounded
import Lumberjack.Wire.Frame
import Lumberjack.Wire.Strict
import Lumberjack.Wire.Codec
import Lumberjack.Wire.Canonical
import Lumberjack.Wire.Alike
import Lumberjack.Server.Batch
import Lumberjack.Server.Connection
import Lumberjack.Server.Strict
import Lumberjack.Server.Grammar
import Lumberjack.Server.Conservation
import Lumberjack.Server.Grouping
import Lumberjack.Server.Position
import Lumberjack.Server.Loop
import Lumberjack.Server.Lenient
import Lumberjack.Server.Plain
import Lumberjack.Server.Handler
import Lumberjack.Server.Follow
import Lumberjack.Server.Limits
import Lumberjack.Server.Acks
import Lumberjack.Server.Opacity
import Lumberjack.Server.Hub
import Lumberjack.Server.Ownership
import Lumberjack.Server.Delivery
import Lumberjack.Server.Release
import Lumberjack.Server.Isolation
import Lumberjack.Server.Service
import Lumberjack.Server.Lifecycle
import Lumberjack.Server.Accounting
import Lumberjack.Server.Shutdown
import Lumberjack.Server.Waits
import Lumberjack.Server.Drain
import Lumberjack.Server.HangUp
import Lumberjack.Client.Send
import Lumberjack.Client.Machine
import Lumberjack.Client.Receive
import Lumberjack.Client.Stream
import Lumberjack.Client.Batches
import Lumberjack.Client.Plain
import Lumberjack.Client.Panic
import Lumberjack.Client.Clean
import Lumberjack.Client.Image
import Lumberjack.Client.Close
import Lumberjack.Client.Reject
import Lumberjack.Client.Narrowing
import Lumberjack.Client.Ports
import Lumberjack.Client.Connect
import Lumberjack.Session.System
import Lumberjack.Session.Bytes
import Lumberjack.Session.Acknowledged
import Lumberjack.Session.Lockstep
import Lumberjack.Session.Progress
import Lumberjack.Session.ExactlyOnce
import Lumberjack.Session.Deadlock
import Lumberjack.Session.Quiesce
import Lumberjack.Session.Refinement
import Lumberjack.Session.AtMostOnce
import Lumberjack.Session.Paid
import Lumberjack.Session.Network
import Lumberjack.Session.Rest
