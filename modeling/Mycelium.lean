import Mycelium.Lib.StepSystem
import Mycelium.Model.MutationQueue
import Mycelium.Model.QueueWorker
import Mycelium.Analysis.AcknowledgedMutations
import Mycelium.Model.ConceptStore
import Mycelium.Model.StoreTasks
import Mycelium.Analysis.UndoLog
import Mycelium.Model.LlmGate
import Mycelium.Analysis.LlmGateOrder
import Mycelium.Analysis.LlmGateSlots
import Mycelium.Lib.Dict
import Mycelium.Model.Search
import Mycelium.Lib.Chunks
import Mycelium.Model.SearchIndex
import Mycelium.Analysis.SearchOracle
import Mycelium.Analysis.SearchTables
import Mycelium.Analysis.SearchRefinement
import Mycelium.Model.ChatStore
import Mycelium.Model.ChatRunner
import Mycelium.Analysis.ChatTurnRows
import Mycelium.Model.Throttle
import Mycelium.Model.Sealing
import Mycelium.Model.Accounts
import Mycelium.Analysis.LoginThrottle
import Mycelium.Model.AccountTasks
import Mycelium.Analysis.AccountKeys
import Mycelium.Analysis.SessionEviction
import Mycelium.Analysis.SearchGhosts
import Mycelium.Model.VectorWorker
import Mycelium.Analysis.DeadConceptSweep
import Mycelium.Model.ChatSessions
import Mycelium.Analysis.ChatTables
import Mycelium.Analysis.ChatLiveTurns
import Mycelium.Analysis.ChatTranscript
import Mycelium.Analysis.ChatDeletion
import Mycelium.Analysis.ChatRunners
import Mycelium.Model.QueueLifecycle
import Mycelium.Analysis.QueueOwnership
import Mycelium.Lib.Fallible
import Mycelium.Model.QueueDrain
import Mycelium.Analysis.DrainExits
import Mycelium.Lib.Overlap
import Mycelium.Model.ChatStream
import Mycelium.Analysis.ChatEmissions
import Mycelium.Analysis.ChatViewers
import Mycelium.Model.VectorCache
import Mycelium.Analysis.CacheEpoch
import Mycelium.Analysis.RevisionChains
import Mycelium.Analysis.CrashConsistency
import Mycelium.Analysis.IngestSlots
import Mycelium.Model.VectorFreshness
import Mycelium.Analysis.ReembedQueue
import Mycelium.Model.FileRepo
import Mycelium.Analysis.FileBinding
import Mycelium.Model.Outline
import Mycelium.Model.Passages
import Mycelium.Analysis.BookLines
import Mycelium.Analysis.CatalogEntries
import Mycelium.Analysis.PassageAnchors
import Mycelium.Analysis.ConceptRoundTrip
import Mycelium.Lib.Completion
import Mycelium.Analysis.CallCompletion
import Mycelium.Analysis.RestoreReversal
import Mycelium.Model.BookLibrary
import Mycelium.Analysis.LibraryPaths
import Mycelium.Analysis.LibraryShelf
import Mycelium.Analysis.BookIsolation
import Mycelium.Analysis.BookDeletion
import Mycelium.Analysis.OrdinaryPaths
import Mycelium.Analysis.PutRoundTrip
import Mycelium.Analysis.TextNormalForm
import Mycelium.Analysis.IndexListing
import Mycelium.Analysis.DirectoryIndexes
import Mycelium.Analysis.CacheInvalidation
import Mycelium.Analysis.BatchFold
import Mycelium.Model.HotMemory
import Mycelium.Analysis.HotSetKeeping
import Mycelium.Model.QueryCache
import Mycelium.Analysis.CachedAnswers
import Mycelium.Model.Fallback
import Mycelium.Analysis.FallbackLanding
import Mycelium.Analysis.Tokens
import Mycelium.Analysis.AddendumRecall
import Mycelium.Analysis.QuestionRecall
import Mycelium.Analysis.GraphOrphans
import Mycelium.Analysis.LinkScan
import Mycelium.Analysis.LinkParts
import Mycelium.Analysis.AnchoredPassages
import Mycelium.Model.Descriptions
import Mycelium.Analysis.ChapterSummaries
import Mycelium.Lib.Blocks
import Mycelium.Model.SectionPatch
import Mycelium.Analysis.SectionPatches
import Mycelium.Analysis.HubLinks
import Mycelium.Analysis.ConversationTrim
import Mycelium.Analysis.SessionPruning
import Mycelium.Analysis.BackoffLaw
import Mycelium.Analysis.HistoryRebuild
import Mycelium.Analysis.ScopeFusion
import Mycelium.Analysis.RetryBudget
import Mycelium.Model.ChatHistory
import Mycelium.Analysis.ConsolidationSignal
import Mycelium.Analysis.TitleDuplicates
import Mycelium.Analysis.SkillGrouping
import Mycelium.Analysis.BundleFiles
import Mycelium.Analysis.IndexInvariant
import Mycelium.Model.Embeddings
import Mycelium.Analysis.EmbeddingOrder
import Mycelium.Lib.Decimals
import Mycelium.Lib.Calendar
import Mycelium.Model.Timestamps
import Mycelium.Model.TimeColumns
import Mycelium.Analysis.TimestampOrder
import Mycelium.Model.Sessions
import Mycelium.Analysis.SessionExpiry
import Mycelium.Analysis.TimestampReader
import Mycelium.Analysis.TimestampColumns
import Mycelium.Analysis.StagingNotes
import Mycelium.Model.AgentTools
import Mycelium.Analysis.HiddenBooks
import Mycelium.Lib.Hex
import Mycelium.Model.ServiceKeyFile
import Mycelium.Analysis.ServiceKeyRace
import Mycelium.Model.LlmHealth
import Mycelium.Analysis.BackendHealth
import Mycelium.Model.DreamScheduler
import Mycelium.Analysis.DreamRotation
import Mycelium.Analysis.BackfillGuard
import Mycelium.Lib.Retention
import Mycelium.Model.Traces
import Mycelium.Analysis.TraceRetention
import Mycelium.Model.ModelRequests
import Mycelium.Analysis.AgentRequests
import Mycelium.Lib.Utf8
import Mycelium.Lib.FirstMatch
import Mycelium.Model.RequestBodies
import Mycelium.Analysis.FormFields
import Mycelium.Model.RequestGate
import Mycelium.Analysis.RequestGate
import Mycelium.Model.ApiKeys
import Mycelium.Analysis.ApiKeys
import Mycelium.Model.Passkeys
import Mycelium.Analysis.PasskeyCeremonies
import Mycelium.Model.TlsFiles
import Mycelium.Analysis.CertificateBoot
import Mycelium.Model.Setup
import Mycelium.Analysis.FirstAccount
import Mycelium.Model.LifecycleSweep
import Mycelium.Analysis.SweepPuts
import Mycelium.Analysis.TagMigration
