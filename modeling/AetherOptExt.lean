import AetherOptExt.Lib.Runs
import AetherOptExt.Lib.KeyMap
import AetherOptExt.Lib.Text
import AetherOptExt.CpuSet
import AetherOptExt.Config
import AetherOptExt.RuleMatch
import AetherOptExt.Kernel
import AetherOptExt.Bpf
import AetherOptExt.Process
import AetherOptExt.ProcCache
import AetherOptExt.Daemon
import AetherOptExt.PreFilter
import AetherOptExt.Discovery
import AetherOptExt.EntryPackages
import AetherOptExt.CacheAgreement
import AetherOptExt.System
import AetherOptExt.Uninterrupted
import AetherOptExt.DeadThreads
import AetherOptExt.Attribution
import AetherOptExt.Quiescence
import AetherOptExt.Incarnation
import AetherOptExt.PackageMap
import AetherOptExt.HotReload
import AetherOptExt.ConfigUpdates
import AetherOptExt.CpuRanges
import AetherOptExt.CpusetDirs
import AetherOptExt.EventOrder
import AetherOptExt.ProcMode
import AetherOptExt.ProcTracking
import AetherOptExt.CacheMerge
import AetherOptExt.CachePrecedence
import AetherOptExt.AutoAllocation
import AetherOptExt.AllocationRoundTrip
import AetherOptExt.Lib.Glob
import AetherOptExt.PatternLanguage
import AetherOptExt.ConfigInForce
import AetherOptExt.LookupOrder
import AetherOptExt.Answers
import AetherOptExt.DirectoryFit
import AetherOptExt.FullScan
import AetherOptExt.AffinitySync
import AetherOptExt.BindingUpdates
import AetherOptExt.ManagedThreads
import AetherOptExt.PresentCpus
import AetherOptExt.Lib.Utf8Slice
import AetherOptExt.PatternBytes
import AetherOptExt.CpuListGrammar
import AetherOptExt.Clusters
import AetherOptExt.CpuListPrinters
import AetherOptExt.Lib.Keyed
import AetherOptExt.NewestEntry
import AetherOptExt.RulePriority
import AetherOptExt.CacheUpsert
import AetherOptExt.TracepointFormat
import AetherOptExt.ClusterAgreement
import AetherOptExt.EventLink
import AetherOptExt.PipedSystem
import AetherOptExt.CpusetTree
import AetherOptExt.Enforcement
import AetherOptExt.ModeAgreement
import AetherOptExt.PlacedDaemon
import AetherOptExt.ReadyDirs
import AetherOptExt.Confinement
import AetherOptExt.InotifyBuffer
import AetherOptExt.WhitelistInForce
import AetherOptExt.AllocatedOnce
import AetherOptExt.ScanEnforces
import AetherOptExt.EventEnforces
import AetherOptExt.PolledDaemon
import AetherOptExt.PlacedSystem
import AetherOptExt.LastEvent
