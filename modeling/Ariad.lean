import Ariad.Store.Publishers
import Ariad.Indexer.Streaming
import Ariad.Indexer.Recoverable
import Ariad.Indexer.Generations
import Ariad.Indexer.FastSkip
import Ariad.Human.EdgeRace
import Ariad.Human.RoundTrip
import Ariad.Vault.SafePath
import Ariad.Obsidian.Idempotent
import Ariad.Obsidian.NotePaths
import Ariad.Obsidian.NotesKept
import Ariad.Intelligence.CacheLaws
import Ariad.Bridge.Atlas
import Ariad.Bridge.ScopePartition
import Ariad.Cli.AutoLockLaws
import Ariad.Ui.LeaseLaws
import Ariad.Ui.JobRuns
import Ariad.Ui.PaginationLaws
import Ariad.Mcp.RequestLaws
import Ariad.Indexer.MigrationLaws
import Ariad.Human.MigrationRuns
import Ariad.Hooks.PageLaws
import Ariad.Notifications.Isolation
import Ariad.Human.LinkLaws
import Ariad.Indexer.ExportOrder
import Ariad.Indexer.InvalidModules
import Ariad.Indexer.CallProperties
import Ariad.Indexer.ImportedCalls
import Ariad.Indexer.BoundParameters
import Ariad.Indexer.RecordLaws
import Ariad.Obsidian.HeadingState
import Ariad.Bridge.DirectoryScope
import Ariad.Ui.OverviewLaws
import Ariad.Bridge.ExactPathLaws
import Ariad.Bridge.BulkEdgesLaws
import Ariad.Bridge.DirectCallerLaws
import Ariad.Mcp.LiteralScanLaws
import Ariad.Vault.Backups
import Ariad.Ui.StellarFlowLaws
import Ariad.Storage.Resolver
import Ariad.Storage.AtomicWrite
import Ariad.Mcp.EditContext
