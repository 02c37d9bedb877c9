import PacketLoss.AcceptedSegments
import PacketLoss.BloomHashing
import PacketLoss.ChangeDetection
import PacketLoss.ConcurrentFilter
import PacketLoss.ConcurrentReadings
import PacketLoss.ConcurrentRetrans
import PacketLoss.ConcurrentRoll
import PacketLoss.ConcurrentSetBit
import PacketLoss.Draining
import PacketLoss.EmaHull
import PacketLoss.ForeignFilters
import PacketLoss.Framing
import PacketLoss.Gauges
import PacketLoss.IdleLog
import PacketLoss.KernelTrie
import PacketLoss.KnownZones
import PacketLoss.LoadedConfig
import PacketLoss.PublishLoop
import PacketLoss.PublishedLoss
import PacketLoss.QuietZones
import PacketLoss.Restarts
import PacketLoss.RetransKeys
import PacketLoss.RetransWindow
import PacketLoss.Selection
import PacketLoss.Sessions
import PacketLoss.StackedInterfaces
import PacketLoss.SummaryVolume
import PacketLoss.TableLimits
import PacketLoss.ZoneAttribution
import PacketLoss.ZoneIdentity
