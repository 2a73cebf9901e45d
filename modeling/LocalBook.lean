import LocalBook.Vault.AllOrNothing
import LocalBook.Vault.Watching
import LocalBook.Vault.Overwriting
import LocalBook.Recovery.Crashing
import LocalBook.Recovery.Attempts
import LocalBook.Reader.Pulling
import LocalBook.ReadFlow.Acknowledging
import LocalBook.Rag.Searching
import LocalBook.Recovery.Undoing
import LocalBook.Index.Converging
import LocalBook.Reader.Isolation
import LocalBook.Reader.Pairing
import LocalBook.Reader.Noninterference
import LocalBook.Scheduler.Gate
import LocalBook.Scheduler.Bookkeeping
import LocalBook.Index.Malformed
import LocalBook.ReadFlow.Wedging
import LocalBook.Reader.Restarting
import LocalBook.ReadFlow.Echoing
import LocalBook.ReadFlow.Starving
import LocalBook.Rag.Fusing
import LocalBook.Versions.Recovering
import LocalBook.Scheduler.Firing
import LocalBook.Workspace.Saving
import LocalBook.ReadFlow.Asking
import LocalBook.Index.Sharing
import LocalBook.Index.Opening
import LocalBook.Server.Admission
import LocalBook.Server.Settings
import LocalBook.Server.Committing
import LocalBook.Server.Switching
import LocalBook.Rag.Reconfiguring
import LocalBook.Server.Persisting
import LocalBook.Scheduler.Running
import LocalBook.Actions.Hunks
import LocalBook.Agents.Measuring
import LocalBook.Faults
import LocalBook.Vault.Reclaiming
import LocalBook.Ranking
import LocalBook.Scheduler.Retention
import LocalBook.Recovery.Raising
import LocalBook.Agents.Expecting
import LocalBook.Agents.Completing
import LocalBook.Index.Resolving
import LocalBook.Reader.Filing
import LocalBook.Vault.Naming
import LocalBook.Relying
import LocalBook.Vault.Uploading
import LocalBook.ReadFlow.Recall
import LocalBook.Search.Snippet
import LocalBook.Index.Rebuilding
import LocalBook.Markdown.Wikilinks
import LocalBook.Rag.Body
import LocalBook.Rag.Citing
import LocalBook.Rag.Ranks
import LocalBook.Rag.Reranking
import LocalBook.Rag.Sizing
import LocalBook.Rag.Substring
import LocalBook.Rag.Readiness
import LocalBook.Rag.Keeping
import LocalBook.Scheduler.Fallback
import LocalBook.Rag.Passes
import LocalBook.Workspace.Codec
import LocalBook.Rag.Evidence
import LocalBook.Rag.Provenance
import LocalBook.Rag.Budgeting
import LocalBook.Rag.LinkOrder
import LocalBook.Export.Resolving
import LocalBook.Forest
import LocalBook.Workspace.Hierarchy
import LocalBook.Workspace.Nesting
import LocalBook.Graph.Service
import LocalBook.Graph.Truthful
import LocalBook.Workspace.Following
import LocalBook.Workspace.Renaming
import LocalBook.Ai.Context
import LocalBook.Ai.Summaries
import LocalBook.Workspace.References
import LocalBook.Vault.Listing
import LocalBook.Scheduler.IndexJob
import LocalBook.Vault.Receipts
import LocalBook.Workspace.Tasks
import LocalBook.Workspace.Preview
import LocalBook.Workspace.Anchors
import LocalBook.Index.Reading
import LocalBook.Versions.Growing
import LocalBook.Policies.Tightening
import LocalBook.Rag.Fused
