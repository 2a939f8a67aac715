import PrReviewer.Library.History
import PrReviewer.Library.Machine
import PrReviewer.Library.Slots
import PrReviewer.Library.Growth
import PrReviewer.Interface.RunLife
import PrReviewer.Model.Domain
import PrReviewer.Model.Store
import PrReviewer.Model.Gate
import PrReviewer.Model.Scheduler
import PrReviewer.Model.Text
import PrReviewer.Model.Trigger
import PrReviewer.Model.SlackEvents
import PrReviewer.Model.Cache
import PrReviewer.Model.GitHubClient
import PrReviewer.Model.Ingress
import PrReviewer.Model.Pipeline
import PrReviewer.Model.App
import PrReviewer.Model.Backfill
import PrReviewer.Model.Registry
import PrReviewer.Analysis.SchedulerSteps
import PrReviewer.Analysis.Ownership
import PrReviewer.Analysis.NoLoss
import PrReviewer.Analysis.GateReference
import PrReviewer.Analysis.RunTable
import PrReviewer.Analysis.TableSteps
import PrReviewer.Analysis.Lineage
import PrReviewer.Analysis.PipelineSteps
import PrReviewer.Analysis.StatusMachine
import PrReviewer.Analysis.GateRule
import PrReviewer.Analysis.Checkouts
import PrReviewer.Analysis.Approvals
import PrReviewer.Analysis.Publications
import PrReviewer.Analysis.ReviewedHead
import PrReviewer.Analysis.DirectPublish
import PrReviewer.Analysis.ReviewCompletions
import PrReviewer.Analysis.StagedPublications
import PrReviewer.Analysis.BootRecovery
import PrReviewer.Analysis.MergePolicy
import PrReviewer.Analysis.Triggers
import PrReviewer.Analysis.Arrivals
import PrReviewer.Analysis.TriggerHistory
import PrReviewer.Analysis.Supersession
import PrReviewer.Analysis.StagedStatus
import PrReviewer.Analysis.ReviewDedup
import PrReviewer.Analysis.BackfillSweep
import PrReviewer.Analysis.Commands
import PrReviewer.Analysis.RetryBudget
import PrReviewer.Analysis.WebhookConvergence
import PrReviewer.Analysis.SignedDispatch
import PrReviewer.Analysis.FailClosed
import PrReviewer.Analysis.CloneConsistency
import PrReviewer.Analysis.SelfEchoes
import PrReviewer.Analysis.DefaultModel
import PrReviewer.Analysis.RetryRuns
import PrReviewer.Analysis.FailedPublications
import PrReviewer.Model.ReviewRequests
import PrReviewer.Analysis.AcceptedWrites
import PrReviewer.Analysis.WatchTask
import PrReviewer.Analysis.CiWait
import PrReviewer.Analysis.WakeUps
import PrReviewer.Model.LockedStore
import PrReviewer.Analysis.LockedInserts
import PrReviewer.Library.JsonTokens
import PrReviewer.Library.JsonTree
import PrReviewer.Library.Pieces
import PrReviewer.Analysis.TextSearch
import PrReviewer.Model.AgentOutput
import PrReviewer.Analysis.OutputShapes
import PrReviewer.Analysis.FenceStripping
import PrReviewer.Analysis.OutputRoundTrip
import PrReviewer.Library.Sweep
import PrReviewer.Model.Eviction
import PrReviewer.Analysis.Eviction
import PrReviewer.Model.AgentProcess
import PrReviewer.Analysis.AgentOutcomes
import PrReviewer.Model.Phases
import PrReviewer.Analysis.FindingCap
import PrReviewer.Analysis.AuxiliaryPhases
import PrReviewer.Analysis.ButtonValues
import PrReviewer.Analysis.ModelFlags
import PrReviewer.Analysis.CommandTokens
import PrReviewer.Analysis.SlackNames
import PrReviewer.Analysis.RequestReplies
import PrReviewer.Analysis.GonePulls
import PrReviewer.Analysis.HookRepointing
import PrReviewer.Library.Occurrences
import PrReviewer.Model.Skills
import PrReviewer.Analysis.SkillSelection
import PrReviewer.Library.Loop
import PrReviewer.Model.RetryLoop
import PrReviewer.Analysis.RetryBounds
import PrReviewer.Model.SlackSocket
import PrReviewer.Analysis.SocketAcks
import PrReviewer.Model.Compliance
import PrReviewer.Analysis.ComplianceFindings
import PrReviewer.Library.JsonText
import PrReviewer.Model.RunLog
import PrReviewer.Analysis.SecretRedaction
import PrReviewer.Library.Progress
import PrReviewer.Analysis.Drains
import PrReviewer.Analysis.QueueOrder
import PrReviewer.Analysis.OwnComments
import PrReviewer.Library.JsonRoundTrip
import PrReviewer.Analysis.RunRecords
import PrReviewer.Model.ServiceLog
import PrReviewer.Analysis.ServiceLog
import PrReviewer.Analysis.HealthProbes
import PrReviewer.Analysis.HookUpkeep
import PrReviewer.Model.SlackBodies
import PrReviewer.Analysis.SlackBodies
import PrReviewer.Analysis.SlackWays
import PrReviewer.Analysis.SlackPrompt
import PrReviewer.Analysis.AtRest
import PrReviewer.Analysis.StatusReport
import PrReviewer.Analysis.Completion
