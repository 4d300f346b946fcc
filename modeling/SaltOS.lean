import SaltOS.Lib.Run
import SaltOS.Lib.Ends
import SaltOS.Lib.FileSystem
import SaltOS.Lib.Pieces
import SaltOS.Lib.SetFirst
import SaltOS.Lib.Heap
import SaltOS.Lib.HeapTrees
import SaltOS.Lib.SortedMap
import SaltOS.Lib.Patch
import SaltOS.Lib.Blocks
import SaltOS.Lib.PathWalk
import SaltOS.Lib.Posix
import SaltOS.Lib.Leads
import SaltOS.Lib.Leaves
import SaltOS.Lib.ComesTo
import SaltOS.Lib.Grafts
import SaltOS.Base.Bytes
import SaltOS.Base.Util
import SaltOS.Base.UtilSpec
import SaltOS.Base.Confinement
import SaltOS.Base.Below
import SaltOS.Base.BelowCalls
import SaltOS.Base.Aside
import SaltOS.Base.Landing
import SaltOS.Base.Written
import SaltOS.Base.Clear
import SaltOS.Lib.Comparator
import SaltOS.Lib.LinkedDir
import SaltOS.Repo.Vercmp
import SaltOS.Repo.VercmpOrder
import SaltOS.Repo.Index
import SaltOS.Repo.IndexRoundTrip
import SaltOS.Repo.Sync
import SaltOS.Repo.SyncExact
import SaltOS.Trust.Trust
import SaltOS.Trust.TrustUpdates
import SaltOS.Trust.Vouching
import SaltOS.Lib.Keyed
import SaltOS.Lib.KeyedLog
import SaltOS.Txn.TxnTables
import SaltOS.Install.Plan
import SaltOS.Install.PlanSafety
import SaltOS.Lib.DepthFirst
import SaltOS.Install.Resolve
import SaltOS.Lock.Lock
import SaltOS.Lock.LockApply
import SaltOS.Lock.Foreign
import SaltOS.Lock.ForeignTexts
import SaltOS.Lock.ForeignLists
import SaltOS.Lock.Digests
import SaltOS.Lock.DigestsComplete
import SaltOS.Lock.LockWrite
import SaltOS.Lock.LockRoundTrip
import SaltOS.Lock.LockLoads
import SaltOS.Lock.LockExact
import SaltOS.Lock.Validation
import SaltOS.Install.Commands
import SaltOS.Install.Closure
import SaltOS.Install.CascadeExact
import SaltOS.Install.Newest
import SaltOS.Install.ResolveExact
import SaltOS.Install.OrderExact
import SaltOS.Boot.Tryboot
import SaltOS.Boot.TrybootSafety
import SaltOS.Boot.Kernels
import SaltOS.Boot.InstallerKernel
import SaltOS.Boot.Grub
import SaltOS.Boot.GrubSafety
import SaltOS.Boot.Grubenv
import SaltOS.Archive.Tar
import SaltOS.Archive.TarRead
import SaltOS.Archive.TarFitting
import SaltOS.Archive.TarRecords
import SaltOS.Archive.TarRoundTrip
import SaltOS.Archive.TarExtract
import SaltOS.Archive.TarConfined
import SaltOS.Toml.Parser
import SaltOS.Toml.Statements
import SaltOS.Toml.Cells
import SaltOS.Toml.CellTrees
import SaltOS.Toml.Values
import SaltOS.Toml.Integers
import SaltOS.Toml.Failing
import SaltOS.Toml.Pieces
import SaltOS.Toml.Tables
import SaltOS.Toml.Printed
import SaltOS.Toml.Fuel
import SaltOS.Toml.Progress
import SaltOS.Toml.Places
import SaltOS.Toml.Termination
import SaltOS.Toml.Confined
import SaltOS.Toml.CellDescend
import SaltOS.Toml.CellValues
import SaltOS.Toml.CellStatements
import SaltOS.Toml.DistinctKeys
import SaltOS.Toml.TreeSafety
import SaltOS.Archive.Pkg
import SaltOS.Archive.PkgValues
import SaltOS.Archive.PkgRead
import SaltOS.Archive.Grain
import SaltOS.Archive.Buffer
import SaltOS.Archive.Opening
import SaltOS.Archive.OpeningSafety
import SaltOS.Txn.Db
import SaltOS.Boot.Stale
import SaltOS.Boot.StaleSafety
import SaltOS.Txn.Txn
import SaltOS.Txn.Reverting
import SaltOS.Txn.Backup
import SaltOS.Txn.Restoring
import SaltOS.Txn.Removal
import SaltOS.Txn.RemovalExact
import SaltOS.Deploy.Restore
import SaltOS.Deploy.Deploy
import SaltOS.Deploy.Changes
import SaltOS.Deploy.ChangesExact
import SaltOS.Deploy.StateDirs
import SaltOS.Deploy.History
import SaltOS.Deploy.RollbackBtrfs
import SaltOS.Deploy.Prune
import SaltOS.Deploy.Gc
import SaltOS.Deploy.GcSafety
import SaltOS.Deploy.Rollback
import SaltOS.Config.SystemConfig
import SaltOS.Config.LuaMemory
import SaltOS.Config.Native
import SaltOS.Config.Pins
import SaltOS.Config.NativeExact
import SaltOS.Strata.Expose
import SaltOS.Strata.Providers
import SaltOS.Strata.ExposeSteps
import SaltOS.Strata.ExposeConverges
import SaltOS.Strata.Snapshot
import SaltOS.Strata.SnapshotSteps
import SaltOS.Strata.SnapshotExact
import SaltOS.Setup.SetKv
import SaltOS.Lib.Transducer
import SaltOS.Config.LuaLiterals
import SaltOS.Config.Conf
import SaltOS.Setup.SetupConfig
import SaltOS.Setup.SavedText
import SaltOS.Setup.SavedValue
import SaltOS.Setup.SavedTree
import SaltOS.Setup.SavedConfig
import SaltOS.Lib.References
import SaltOS.Install.Ownership
import SaltOS.Install.Updates
import SaltOS.Strata.Holder
import SaltOS.Strata.HolderReads
import SaltOS.Strata.HolderExclusive
import SaltOS.Strata.HolderSafety
import SaltOS.Strata.AccountsSpread
import SaltOS.Lock.StrataSettled
import SaltOS.Strata.ExposeWhole
import SaltOS.Archive.Reproducible
import SaltOS.Repo.PublishSync
