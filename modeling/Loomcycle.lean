import Loomcycle.AuditChain.Completeness
import Loomcycle.Concurrency.HandOff
import Loomcycle.Concurrency.Lending
import Loomcycle.Concurrency.ModelGateOrder
import Loomcycle.Conversation.Resume
import Loomcycle.Conversation.ManualCompaction
import Loomcycle.Concurrency.NoStuckState
import Loomcycle.Tools.RunPolicy
import Loomcycle.Cancel.Cascade
import Loomcycle.Steering.Acknowledged
import Loomcycle.Steering.Coordinator
import Loomcycle.Coord.SlotReturns
import Loomcycle.Pause.Signals
import Loomcycle.Pause.Barrier
import Loomcycle.ChannelHooks.WholeChain
import Loomcycle.PromptInject.Containment
import Loomcycle.TeamRun.Slots
import Loomcycle.Snapshot.MemoryRoundTrip
import Loomcycle.Snapshot.RestoreTenants
import Loomcycle.OAuth.SignIns
import Loomcycle.Concurrency.QueueOrder
import Loomcycle.Authz.Groups
import Loomcycle.Fence
import Loomcycle.Authz.Decisions
import Loomcycle.Conversation.Pinned
import Loomcycle.TeamRun.Variables
import Loomcycle.Conversation.Evict
import Loomcycle.Tools.Hosts
import Loomcycle.Memory.Dedup
import Loomcycle.Channels.Overflow
import Loomcycle.Conversation.StatefulBudget
