import InterferenceMitigation.AllocatorCapacity
import InterferenceMitigation.AttackLoop
import InterferenceMitigation.AverageKept
import InterferenceMitigation.BlockSafety
import InterferenceMitigation.Blocks
import InterferenceMitigation.BufferedWriter
import InterferenceMitigation.CGroupRemove
import InterferenceMitigation.CacheCoverage
import InterferenceMitigation.CacheEviction
import InterferenceMitigation.ClockedLoop
import InterferenceMitigation.ClosedLoop
import InterferenceMitigation.CompactJson
import InterferenceMitigation.ConfigOrder
import InterferenceMitigation.Console
import InterferenceMitigation.ControlLoop
import InterferenceMitigation.CorePinning
import InterferenceMitigation.DeadlineGuard
import InterferenceMitigation.DeadlineKept
import InterferenceMitigation.DirectoryTree
import InterferenceMitigation.DoubleProduct
import InterferenceMitigation.Durations
import InterferenceMitigation.DyadicOrbit
import InterferenceMitigation.Emission
import InterferenceMitigation.EstimateAccuracy
import InterferenceMitigation.ExactAverage
import InterferenceMitigation.Forwarding
import InterferenceMitigation.FreezeControl
import InterferenceMitigation.FuelBudget
import InterferenceMitigation.FuelDivisor
import InterferenceMitigation.FuelTotals
import InterferenceMitigation.GroupCommands
import InterferenceMitigation.GroupLifetime
import InterferenceMitigation.Grouping
import InterferenceMitigation.Hysteresis
import InterferenceMitigation.InterruptLock
import InterferenceMitigation.IntruderBreak
import InterferenceMitigation.KernelArray
import InterferenceMitigation.LockProgress
import InterferenceMitigation.LockSafety
import InterferenceMitigation.LockTable
import InterferenceMitigation.LoopHistory
import InterferenceMitigation.LosslessForwarding
import InterferenceMitigation.LruCache
import InterferenceMitigation.MachineInt
import InterferenceMitigation.MainEnds
import InterferenceMitigation.NativeLoop
import InterferenceMitigation.OutputFile
import InterferenceMitigation.Payload
import InterferenceMitigation.ProcessLaunch
import InterferenceMitigation.ProcessSetup
import InterferenceMitigation.RangeLoop
import InterferenceMitigation.Regions
import InterferenceMitigation.RunTable
import InterferenceMitigation.RunWasm
import InterferenceMitigation.SaveRestore
import InterferenceMitigation.Shutdown
import InterferenceMitigation.ShutdownProgress
import InterferenceMitigation.SimpleAlloc
import InterferenceMitigation.Sweep
import InterferenceMitigation.SysTick
import InterferenceMitigation.Telemetry
import InterferenceMitigation.ThrottledGroup
import InterferenceMitigation.Throttling
import InterferenceMitigation.TickDivision
import InterferenceMitigation.TraceReader
import InterferenceMitigation.Transition
import InterferenceMitigation.TruncatedProjection
import InterferenceMitigation.UartWriter
