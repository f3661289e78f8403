import Loomcycle.Store.SnapshotRows

/-! The envelope of a snapshot, as decoded: the sections that hold memory, definitions, active
pointers, channels, evaluations and paused and queued runs. -/

namespace Loomcycle.Snapshot

open Store

/-- An entry that mirrors a row, with the time the row is dated by. That time may be the zero
time, and the insert then takes the clock's. -/
structure Dated (ρ : Type) where
  row : ρ
  time : Option Instant

structure MemoryEmbeddingSnapshot where
  provider : String
  model : String
  dimension : Int
  /-- Base64 of the little-endian floats. -/
  vector : String
  embedText : String
  createdAt : Option Instant
deriving DecidableEq

structure MemoryEntry where
  address : Address
  value : String
  expiresAt : Option Instant
  createdAt : Option Instant
  updatedAt : Option Instant
  observedAt : Option Instant
  validAt : Option Instant
  invalidAt : Option Instant
  embedding : Option MemoryEmbeddingSnapshot

/-- A definition of any plane. The credentials stripped at capture are those of a webhook or a
schedule, the last two fields those of a schedule. -/
structure DefEntry where
  row : Dated DefRow
  strippedCredentials : List String
  activeRuns : List ScheduleActiveRun
  runState : Option ScheduleRunState

structure VolumeDefEntry where
  tenantID : String
  name : String
  mode : String
  createdAt : Option Instant
  updatedAt : Option Instant

structure ChannelMessageEntry where
  id : String
  channel : String
  scope : String
  scopeID : String
  payload : String
  publishedAt : Option Instant
  expiresAt : Option Instant
  visibleAt : Option Instant
  publishedByUserID : String
  tenantID : String
  origin : String
  hookTenant : String
  requestedVisibleAt : Option Instant

structure TranscriptEvent where
  tsNs : Instant
  type : String
  payload : String

structure PausedRunEntry where
  runID : String
  agentID : String
  parentAgentID : String
  userID : String
  userTier : String
  agent : String
  agentDefID : String
  sessionID : String
  startedAt : Option Instant
  model : String
  pauseState : String
  tenantID : String
  parentRunID : String
  interactive : Bool
  operatorKeyRestricted : Bool
  isolated : Bool
  credentialsNoUserScope : Bool
  parentContext : String
  runConfig : String
  idempotencyKey : String
  deliveryAltKey : String
  transcriptEvents : List TranscriptEvent

structure QueuedRunEntry where
  runID : String
  agentID : String
  userID : String
  userTier : String
  agent : String
  sessionID : String
  startedAt : Option Instant
  tenantID : String
  interactive : Bool
  operatorKeyRestricted : Bool
  isolated : Bool
  credentialsNoUserScope : Bool
  retention : String
  parentContext : String
  idempotencyKey : String
  deliveryAltKey : String
  queuedInput : String
  transcriptEvents : List TranscriptEvent

structure Envelope where
  defs : DefKind → List DefEntry
  active : DefKind → List (Dated ActiveRow)
  volumes : List VolumeDefEntry
  memory : List MemoryEntry
  channels : List (Dated ChannelRow)
  messages : List ChannelMessageEntry
  cursors : List (Dated ChannelCursor)
  evaluations : List (Dated EvaluationRow)
  pausedRuns : List PausedRunEntry
  queuedRuns : List QueuedRunEntry

def Envelope.empty : Envelope where
  defs _ := []
  active _ := []
  volumes := []
  memory := []
  channels := []
  messages := []
  cursors := []
  evaluations := []
  pausedRuns := []
  queuedRuns := []

/-- The encoders the envelope goes through, in `encoding/json` and `encoding/base64`. -/
structure Wire where
  /-- The text a raw JSON value has in the envelope: compacted, or indented by the pretty
  export; `none` for a text that is not JSON, on which the export fails. -/
  rewrite : String → Option String
  encodeFloat32LEBase64 : List UInt32 → String
  decodeFloat32LEBase64 : String → Option (List UInt32)

/-- `RestoreOptions`, with the functions of other packages a restore calls. -/
structure RestoreOptions where
  wire : Wire
  replicaID : String
  /-- The authoring validator of a plane; `none` when it is not wired. -/
  validators : DefKind → Option (String → Bool)
  volumeValidator : Option (VolumeDefEntry → Bool)
  channelValidator : Option (ChannelRow → Bool)
  volumeRoot : String
  staticVolumeNames : List String
  /-- The path of a dynamic volume below the root; `none` when the name, the tenant or the
  path is refused. -/
  provision : String → String → Option String
  /-- The body disabled and marked; `none` when it is no JSON object. -/
  forceCaptureDisabled : String → List String → Option String
  /-- The request without its sealed secrets; `none` when it is no JSON object. -/
  stripQueuedSecrets : String → Option String

/-- The counters of a `RestoreResult` that count what was restored. -/
inductive Counter
  | defs (kind : DefKind)
  | active (kind : DefKind)
  | scheduleRunState
  | volumeDefs
  | volumeDirsCreated
  | memory
  | channelDefs
  | channelMessages
  | channelCursors
  | evaluations
  | pausedRuns
  | queuedRuns
  | synthesizedSessions
  | transcriptEvents
deriving DecidableEq

/-- One `restored` element for each time a counter went up. -/
structure RestoreResult where
  restored : List Counter
  warnings : List String
deriving DecidableEq

/-- A restore on its way: what it has written and what it will report. -/
structure Restoring where
  target : Target
  result : RestoreResult

def Restoring.warn (s : Restoring) (w : String) : Restoring :=
  { s with result := { s.result with warnings := s.result.warnings ++ [w] } }

def Restoring.count (s : Restoring) (counters : List Counter) : Restoring :=
  { s with result := { s.result with restored := s.result.restored ++ counters } }

/-- What a section does with a store's answer: an error is a warning, an inserted row is
counted. -/
def Restoring.record {α : Type} (s : Restoring) (counter : Counter) (put : Target → α → Target) :
    Except String (α × Bool) → Restoring
  | .error message => s.warn message
  | .ok (x, inserted) =>
    { s with target := put s.target x }.count (if inserted then [counter] else [])

end Loomcycle.Snapshot
