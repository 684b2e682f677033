import Damov.Coherence.Races
import Damov.Coherence.Bypass
import Damov.Coherence.FilterCache
import Damov.Scheduling.BarrierRuns
import Damov.Scheduling.HandoffRuns
import Damov.Weave.EventRuns
import Damov.Weave.SkewRuns
import Damov.Memory.RamulatorBridge
import Damov.Ramulator.HostRuns
import Damov.Analysis.Locality
import Damov.Analysis.DataflowDepth
import Damov.Core.MemoryOps
import Damov.Weave.PhaseRuns
import Damov.Ramulator.TimingHistory
import Damov.Ramulator.VaultRuns
import Damov.Weave.Slabs
import Damov.Core.ReorderBuffer
import Damov.Replacement.NRU
import Damov.Replacement.LRU
import Damov.Arrays.ZRuns
import Damov.Core.Decode
import Damov.Replacement.WayPart
import Damov.Replacement.Vantage
import Damov.Arrays.IdealLRUPart
import Damov.Core.LongAdvance
import Damov.DDR.ControllerRuns
import Damov.Prefetch.StreamPrefetcher
import Damov.DDR.ActivationWindow
import Damov.DDR.AddressMap
import Damov.Memory.TagPort
import Damov.Arrays.HashFamily
import Damov.Ramulator.SchedulerChoice
import Damov.Ramulator.AddressMapping
import Damov.Memory.DetailedMapping
