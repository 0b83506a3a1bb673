import Crossbar.Ring.MultiPublisher
import Crossbar.Pool.ReadSafety
import Crossbar.Pool.Concurrent
import Crossbar.Bus.Pids
import Crossbar.Bus.Steady
import Crossbar.Region.TypedSample
import Crossbar.Region.TypedWrite
import Crossbar.Pinned.Exclusion
import Crossbar.Topics.Registration
import Crossbar.Notify.Wakeup
import Crossbar.Mapping.Streaming
import Crossbar.Protocol.Paths
import Crossbar.Discovery.Polling
import Crossbar.Discovery.Count
import Crossbar.Discovery.Entries
import Crossbar.Discovery.Alone
import Crossbar.Discovery.Publishers
import Crossbar.Region.Topics
import Crossbar.Region.Buffer
import Crossbar.Mapping.Publication
import Crossbar.Recv.Latency
import Crossbar.Segment.Lifecycle
import Crossbar.Bus.Format
import Crossbar.Channel.Queues
import Crossbar.Discovery.Opening
import Crossbar.Heartbeat.Pulse
import Crossbar.Mapping.Lifetime
import Crossbar.Region.Crash
import Crossbar.Bus.Progress
import Crossbar.Bus.Standstill
