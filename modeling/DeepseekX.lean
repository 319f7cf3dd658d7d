import DeepseekX.ApplyPatchCoverage
import DeepseekX.ApplyPatchPreview
import DeepseekX.ChatStreamDiscipline
import DeepseekX.AbortedToolBatches
import DeepseekX.ChatRoundTrip
import DeepseekX.ChunkPlacement
import DeepseekX.SandboxEntryOrder
import DeepseekX.SignatureSoundness
import DeepseekX.BlockedRequests
import DeepseekX.RolloutDurability
import DeepseekX.RolloutScans
import DeepseekX.ForkPositions
import DeepseekX.PatchRoundTrip
import DeepseekX.PairedHistory
import DeepseekX.ExecPolicyAdditions
import DeepseekX.NetworkRuleHosts
import DeepseekX.AbandonedMessages
import DeepseekX.ClientConnections
import DeepseekX.HiddenTagChunks
import DeepseekX.ProposedPlans
import DeepseekX.RememberedMessages
import DeepseekX.ReadinessFlags
import DeepseekX.TransportFailures
import DeepseekX.McpToolNames
import DeepseekX.NetworkApprovalRuns
import DeepseekX.TurnEvents
import DeepseekX.TurnStarts
import DeepseekX.TurnInput
import DeepseekX.ProjectRoots
import DeepseekX.StrictSchemas
import DeepseekX.AdaptedHistory
import DeepseekX.TurnDiffOrder
import DeepseekX.HeadTailBuffers
import DeepseekX.AssistantTexts
import DeepseekX.Mailboxes
import DeepseekX.AgentNicknames
import DeepseekX.OutputDeltas
import DeepseekX.StreamRegions
