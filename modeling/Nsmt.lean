import Nsmt.Admin.Supervisor
import Nsmt.Client.CacheRun
import Nsmt.Client.ConflictNames
import Nsmt.Client.Conflicts
import Nsmt.Client.Download
import Nsmt.Client.Fs
import Nsmt.Client.LocalWork
import Nsmt.Client.Merge
import Nsmt.Client.MergeCli
import Nsmt.Client.PullDisk
import Nsmt.Client.Push
import Nsmt.Client.Walk
import Nsmt.Core.Crypto
import Nsmt.Core.E2e
import Nsmt.Core.E2eEnv
import Nsmt.Core.Fqn
import Nsmt.Core.Frame
import Nsmt.Core.Framing
import Nsmt.Core.Handshake
import Nsmt.Core.Identity
import Nsmt.Core.KeyFiles
import Nsmt.Core.Memory
import Nsmt.Core.Messages
import Nsmt.Core.Rotation
import Nsmt.Core.Tree
import Nsmt.Core.Wire
import Nsmt.Lib.Answers
import Nsmt.Lib.Bytes
import Nsmt.Lib.DirBelow
import Nsmt.Lib.DirPaths
import Nsmt.Lib.Dirs
import Nsmt.Lib.Paths
import Nsmt.Lib.Runs
import Nsmt.Lib.Sha256
import Nsmt.Lib.Signatures
import Nsmt.Lib.Slices
import Nsmt.Lib.Sparse
import Nsmt.Lib.Text
import Nsmt.Lib.TextLines
import Nsmt.Lib.Totals
import Nsmt.Lib.UnixPaths
import Nsmt.Lib.Utf8
import Nsmt.Lib.Yaml
import Nsmt.Lib.YamlBlock
import Nsmt.Lib.YamlBlockReader
import Nsmt.Okf.Calendar
import Nsmt.Okf.Commands
import Nsmt.Okf.Confined
import Nsmt.Okf.Confinement
import Nsmt.Okf.Conformance
import Nsmt.Okf.Document
import Nsmt.Okf.Edited
import Nsmt.Okf.Escapes
import Nsmt.Okf.Fences
import Nsmt.Okf.Frontmatter
import Nsmt.Okf.Index
import Nsmt.Okf.Library
import Nsmt.Okf.Links
import Nsmt.Okf.Log
import Nsmt.Okf.LogDays
import Nsmt.Okf.Search
import Nsmt.Okf.Trash
import Nsmt.Okf.Visible
import Nsmt.Server.Accounts
import Nsmt.Server.Admin
import Nsmt.Server.Archive
import Nsmt.Server.Backup
import Nsmt.Server.Chunks
import Nsmt.Server.Concurrent
import Nsmt.Server.ContentAddress
import Nsmt.Server.Crashes
import Nsmt.Server.Fs
import Nsmt.Server.Handshake
import Nsmt.Server.Joins
import Nsmt.Server.Leases
import Nsmt.Server.Liveness
import Nsmt.Server.LockFrames
import Nsmt.Server.Locks
import Nsmt.Server.Logins
import Nsmt.Server.MachineKeys
import Nsmt.Server.Memory
import Nsmt.Server.OnDisk
import Nsmt.Server.Persist
import Nsmt.Server.Plans
import Nsmt.Server.Presence
import Nsmt.Server.Quota
import Nsmt.Server.ReadyLoop
import Nsmt.Server.Recall
import Nsmt.Server.Registry
import Nsmt.Server.Reservations
import Nsmt.Server.Session
import Nsmt.Server.SharedUpload
import Nsmt.Server.State
import Nsmt.Server.TenantLocks
import Nsmt.Server.TenantStores
import Nsmt.Server.Tenants
import Nsmt.Server.TreeRuns
import Nsmt.Server.TreeUpdate
import Nsmt.Server.Upload
import Nsmt.Store.Backends
import Nsmt.Store.Isolation
import Nsmt.Store.ObjectStore
import Nsmt.System.Convergence
import Nsmt.System.CriticalSections
import Nsmt.System.Download
import Nsmt.System.KeyReuse
import Nsmt.System.Mismatch
import Nsmt.System.Nonces
import Nsmt.System.Owners
import Nsmt.System.PeerAuth
import Nsmt.System.PeerFetch
import Nsmt.System.PeerService
import Nsmt.System.Publish
import Nsmt.System.PushCall
import Nsmt.System.PushProtocol
import Nsmt.System.Rebuild
import Nsmt.System.Replicas
import Nsmt.System.Separation
import Nsmt.System.Startup
import Nsmt.System.Sync
