import BackupAtlas.Build
import BackupAtlas.Census
import BackupAtlas.FilePath
import BackupAtlas.AtlasQuery
import BackupAtlas.RuleText
import BackupAtlas.Journal
import BackupAtlas.MemoryStore
import BackupAtlas.Database
import BackupAtlas.FallibleStore
import BackupAtlas.Registry
import BackupAtlas.Proofs.Matching
import BackupAtlas.Proofs.SearchMemory
import BackupAtlas.Proofs.Spellings
import BackupAtlas.Proofs.CompiledMatchers
import BackupAtlas.Proofs.DirTrees
import BackupAtlas.Proofs.Governing
import BackupAtlas.Proofs.RuleSets
import BackupAtlas.Proofs.Surveys
import BackupAtlas.Proofs.FileRules
import BackupAtlas.Proofs.Defaults
import BackupAtlas.Proofs.Directives
import BackupAtlas.Proofs.Plans
import BackupAtlas.Proofs.DeepestClaim
import BackupAtlas.Proofs.DirectiveLookup
import BackupAtlas.Proofs.Stations
import BackupAtlas.Proofs.Ledgers
import BackupAtlas.Proofs.Tallies
import BackupAtlas.Proofs.EditLaws
import BackupAtlas.Proofs.Filing
import BackupAtlas.Proofs.Encodings
import BackupAtlas.Proofs.Payloads
import BackupAtlas.Proofs.Delimiting
import BackupAtlas.Proofs.Sealing
import BackupAtlas.Proofs.Sizes
import BackupAtlas.Proofs.Inventories
import BackupAtlas.Proofs.Classifications
import BackupAtlas.Proofs.Counterparts
import BackupAtlas.Proofs.Walks
import BackupAtlas.Proofs.Builds
import BackupAtlas.Proofs.Views
import BackupAtlas.Proofs.Recording
import BackupAtlas.Proofs.Snapshots
import BackupAtlas.Proofs.RecordedFiles
import BackupAtlas.Proofs.FullBuilds
import BackupAtlas.Proofs.Summaries
import BackupAtlas.Proofs.Contents
import BackupAtlas.Proofs.Mounts
import BackupAtlas.Proofs.Queries
import BackupAtlas.Proofs.RuleEdits
import BackupAtlas.Proofs.Reuse
import BackupAtlas.Proofs.Assignments
import BackupAtlas.Proofs.Upkeep
import BackupAtlas.Proofs.Rebuilds
import BackupAtlas.Proofs.AtlasRuns
import BackupAtlas.Proofs.Confinement
import BackupAtlas.Proofs.Conservation
import BackupAtlas.Proofs.Records
import BackupAtlas.Proofs.LoadedRecords
import BackupAtlas.Proofs.Stores
import BackupAtlas.Proofs.Registries
import BackupAtlas.Proofs.RegistryRuns
import BackupAtlas.Proofs.Resuming
import BackupAtlas.Proofs.Reach
import BackupAtlas.Proofs.GuardedReads
import BackupAtlas.Proofs.Patches
import BackupAtlas.Proofs.OpenedTrees
import BackupAtlas.Proofs.Outlines
import BackupAtlas.Proofs.WrittenTrees
import BackupAtlas.Proofs.FailedChanges
import BackupAtlas.Proofs.FailedBuilds
import BackupAtlas.Proofs.Placements
import BackupAtlas.Proofs.Layouts
import BackupAtlas.Proofs.Commits
import BackupAtlas.Proofs.Batches
import BackupAtlas.Proofs.PlannedIds
import BackupAtlas.Proofs.PathQueries
import BackupAtlas.Proofs.Globs
import BackupAtlas.Proofs.Undisturbed
import BackupAtlas.Proofs.TakenBack
import BackupAtlas.Proofs.Renumbering
import BackupAtlas.Proofs.Counters
import BackupAtlas.Proofs.Twins
import BackupAtlas.Proofs.TwinChanges
import BackupAtlas.Proofs.TwinRuns
import BackupAtlas.Proofs.NotingStores
import BackupAtlas.Proofs.RuleIds
import BackupAtlas.Proofs.Owners
import BackupAtlas.Proofs.PriorReads
import BackupAtlas.Proofs.TaggedTrees
import BackupAtlas.Proofs.Aggregates
import BackupAtlas.Proofs.Routes
import BackupAtlas.Proofs.MountedFigures
import BackupAtlas.Proofs.TreeChanges
import BackupAtlas.Proofs.CensusRuns
import BackupAtlas.Proofs.KnownFiles
import BackupAtlas.Proofs.SnapshotOutlines
import BackupAtlas.Proofs.Rollups
import BackupAtlas.Proofs.Pairings
import BackupAtlas.Proofs.Disks
import BackupAtlas.Proofs.Sinks
import BackupAtlas.Proofs.Deliveries
import BackupAtlas.Proofs.Accounts
import BackupAtlas.Proofs.Shelves
import BackupAtlas.Proofs.Rotations
import BackupAtlas.Proofs.Digits
import BackupAtlas.Proofs.HostPaths
import BackupAtlas.Proofs.CachedNames
import BackupAtlas.Proofs.Configurations
