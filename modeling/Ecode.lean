import Ecode.PatchVerify
import Ecode.Overlay
import Ecode.ApplyInProcess
import Ecode.PatchSafety
import Ecode.ApprovedCommands
import Ecode.Compaction
import Ecode.ContextTimeline
import Ecode.ExecStreams
import Ecode.HistoryBytes
import Ecode.AccountSwitching
import Ecode.AccountUsage
import Ecode.BranchGuard
import Ecode.DiffTracker
import Ecode.McpTools
import Ecode.MissingCalls
import Ecode.Paging
import Ecode.ReviewLock
import Ecode.RolloutList
import Ecode.SnapshotEpoch
import Ecode.TurnDiff
import Ecode.UsageFile
import Ecode.Approvals
import Ecode.AutoDrive
import Ecode.BashWords
import Ecode.ChatSse
import Ecode.ChatTurns
import Ecode.ExecEvents
import Ecode.HistoryBridge
import Ecode.PatchRoundTrip
import Ecode.PendingInput
import Ecode.PowerShell
import Ecode.PowerShellStatements
import Ecode.Resume
import Ecode.StaleTimers
import Ecode.TurnTasks
import Ecode.Retaining
import Ecode.Retention
import Ecode.Collector
import Ecode.EnvironmentDelta
import Ecode.EnvironmentFingerprint
import Ecode.HistoryRestore
import Ecode.PatchLineEnds
import Ecode.PatchOrder
import Ecode.RetentionBudget
import Ecode.AssistantDeltas
import Ecode.ExecStreamCuts
import Ecode.ExecStreamLimit
import Ecode.HistoryCleanup
import Ecode.LineReturns
import Ecode.OutputLimit
import Ecode.PatchCopy
import Ecode.PatchEnvelope
import Ecode.PatchSearch
import Ecode.RetentionAccounts
import Ecode.SubIdSequences
import Ecode.UserText
import Ecode.AccountLogins
import Ecode.ApiKeyFallback
import Ecode.OutputBuffer
import Ecode.PendingOutputs
import Ecode.ToolOrder
import Ecode.TruncateMiddle
import Ecode.UserMessageLimits
import Ecode.WarningLogs
import Ecode.ControllerOps
import Ecode.CountdownDecisions
import Ecode.CountdownTicks
import Ecode.ReviewPhase
import Ecode.Turns
import Ecode.AutoCompact
import Ecode.DryRunGuard
import Ecode.FirstEdit
import Ecode.DryRunSuggestions
import Ecode.ShellReading
import Ecode.RedundantCd
import Ecode.GitApplyAttribution
import Ecode.ExecPolicyMatching
import Ecode.ExecPolicyProgram
import Ecode.ExecPolicyFiles
import Ecode.AgentManager
import Ecode.AgentRecords
import Ecode.CompactionAttempts
import Ecode.ChatMessages
import Ecode.ChatAggregation
import Ecode.Worktrees
import Ecode.Hooks
import Ecode.TurnInput
import Ecode.Searching
import Ecode.MemoryCitations
import Ecode.Fences
import Ecode.Sanitize
import Ecode.MarkdownStream
import Ecode.KeyedLists
import Ecode.SessionIds
import Ecode.SessionCatalog
import Ecode.CatalogQueries
import Ecode.RolloutFiles
import Ecode.SessionArchive
import Ecode.CatalogNicknames
import Ecode.CatalogSharing
import Ecode.MemoryUsage
import Ecode.MemorySelection
import Ecode.ComposerHistory
import Ecode.PromptArgs
import Ecode.PromptTokens
import Ecode.PromptArguments
import Ecode.PromptLosses
import Ecode.GreedyRows
import Ecode.LiveWrap
import Ecode.LiveWrapRows
import Ecode.LiveWrapFragments
import Ecode.LiveWrapRuns
import Ecode.ChunkText
import Ecode.TimelineCalls
import Ecode.PatchBounds
import Ecode.PatchHarness
import Ecode.FuzzyMatch
import Ecode.HeightManager
import Ecode.HeightRuns
import Ecode.ConfigEditKeeps
import Ecode.TextAreaCursor
import Ecode.OutgoingMessages
import Ecode.RequestCallbacks
import Ecode.Firsts
import Ecode.AppServer
import Ecode.AppServerStreams
import Ecode.AppServerClients
import Ecode.AppServerStdio
import Ecode.TopScores
import Ecode.FileSearch
import Ecode.SearchManager
import Ecode.MessageHistory
import Ecode.MessageHistoryRuns
import Ecode.ResponsesSse
import Ecode.ResponsesStream
import Ecode.ResponsesDeltas
import Ecode.JsonSchemas
import Ecode.ToolSchemas
import Ecode.Entries
import Ecode.ConfigLayers
import Ecode.ConfigSettings
