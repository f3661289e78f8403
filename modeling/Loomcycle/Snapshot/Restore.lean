import Loomcycle.Snapshot.Memory

/-! Restore: the sections in the order the source takes them, each entry a step on the target
and the result. -/

namespace Loomcycle.Snapshot

open Lib Store

/-! ## Definitions and active pointers -/

/-- The body a definition is stored with: a trigger that lost credentials comes back disabled,
whatever the envelope has. -/
def restoredBody (opts : RestoreOptions) (kind : DefKind) (e : DefEntry) : Option String :=
  match kind with
  | .webhook | .schedule =>
    if e.strippedCredentials ≠ [] then
      opts.forceCaptureDisabled e.row.row.definition e.strippedCredentials
    else some e.row.row.definition
  | _ => some e.row.row.definition

/-- Whether the host's authoring validation lets the body in. The five older planes are restored
unchecked when no validator is wired, the newer ones are not restored then; a schedule is not
validated. -/
def validRestoredBody (opts : RestoreOptions) (kind : DefKind) (body : String) : Bool :=
  match kind with
  | .agent | .skill | .team | .hook | .mcpServer => (opts.validators kind).all fun v => v body
  | .memoryBackend | .documentSource | .a2aAgent | .a2aServerCard | .webhook =>
    (opts.validators kind).any fun v => v body
  | .schedule => true

/-- A tracked run of a schedule; it is not counted. -/
def restoreScheduleActiveRun (defID : String) (s : Restoring) (a : ScheduleActiveRun) : Restoring :=
  match snapshotRestoreScheduleActiveRun s.target.activeRuns { a with defID } with
  | .error message => s.warn message
  | .ok (activeRuns, _) => { s with target := { s.target with activeRuns } }

/-- The tracked runs of a schedule, then its run state. -/
def restoreScheduleState (s : Restoring) (e : DefEntry) : Restoring :=
  let s := e.activeRuns.foldl (restoreScheduleActiveRun e.row.row.defID) s
  match e.runState with
  | none => s
  | some st =>
    s.record .scheduleRunState (fun t runState => { t with runState })
      (snapshotRestoreScheduleRunState (s.target.defs .schedule) s.target.runState
        { st with defID := e.row.row.defID })

def restoredDef (now : Instant) (e : DefEntry) (body : String) : DefRow :=
  { e.row.row with definition := body, createdAt := e.row.time.getD now }

def restoreDef (opts : RestoreOptions) (now : Instant) (kind : DefKind) (s : Restoring)
    (e : DefEntry) : Restoring :=
  match restoredBody opts kind e with
  | none => s.warn "not restored: it lost credentials, so it cannot be stored disabled"
  | some body =>
    if ¬ validRestoredBody opts kind body then
      s.warn "not restored: it fails the validation an author would face on this host"
    else
      match snapshotRestoreDef (s.target.defs kind) (restoredDef now e body) with
      | .error message => s.warn message
      | .ok (defs, inserted) =>
        let s :=
          { s with target := { s.target with defs := Function.update s.target.defs kind defs } }
        let s := s.count (if inserted then [.defs kind] else [])
        if kind = .schedule then restoreScheduleState s e else s

/-- Whether the pointer may be written: its definition is here under the same tenant and
name. -/
def admitActivePointer (t : Target) (kind : DefKind) (e : ActiveRow) : Bool :=
  match (t.defs kind).find e.defID with
  | none => false
  | some d => d.tenantID = e.tenantID && d.name = e.name

def restoreActivePointer (now : Instant) (kind : DefKind) (s : Restoring) (e : Dated ActiveRow) :
    Restoring :=
  if ¬ admitActivePointer s.target kind e.row then
    s.warn "not restored: the def it names is not here under its tenant and name"
  else
    s.record (.active kind)
      (fun t active => { t with active := Function.update t.active kind active })
      (snapshotRestoreActive (s.target.active kind) { e.row with promotedAt := e.time.getD now })

/-! ## Volumes -/

/-- The directory of a volume is made unless it is there. -/
def mkdirFenced (s : Restoring) (path : String) : Restoring :=
  if path ∈ s.target.dirs then s
  else
    { s with target := { s.target with dirs := s.target.dirs ++ [path] } }.count
      [.volumeDirsCreated]

def restoredVolume (now : Instant) (e : VolumeDefEntry) (path : String) : VolumeDefRow where
  tenantID := e.tenantID
  name := e.name
  path := path
  mode := e.mode
  createdAt := e.createdAt.getD now
  updatedAt := e.updatedAt.getD (e.createdAt.getD now)

def restoreVolumeDef (opts : RestoreOptions) (now : Instant) (s : Restoring) (e : VolumeDefEntry) :
    Restoring :=
  if opts.volumeRoot = "" then s.warn "not restored: this host has no dynamic volume root"
  else if ¬ opts.volumeValidator.any (fun v => v e) then s.warn "not restored: validation"
  else if e.name ∈ opts.staticVolumeNames then s.warn "not restored: a static volume has the name"
  else if (s.target.volumes.find (e.tenantID, e.name)).isSome then s
  else
    match opts.provision e.tenantID e.name with
    | none => s.warn "not restored: its directory could not be provisioned"
    | some path =>
      (mkdirFenced s path).record .volumeDefs (fun t volumes => { t with volumes })
        (snapshotRestoreVolumeDef s.target.volumes (restoredVolume now e path))

/-! ## Channels -/

def restoreChannelDef (opts : RestoreOptions) (now : Instant) (s : Restoring)
    (e : Dated ChannelRow) : Restoring :=
  if ¬ opts.channelValidator.all (fun v => v e.row) then s.warn "not restored: validation"
  else
    s.record .channelDefs (fun t channels => { t with channels })
      (.ok (channelsCreate s.target.channels { e.row with createdAt := e.time.getD now }))

def channelPrefix : String := "_team/"

/-- The team and the local name of a team's own channel. -/
def splitTeamChannelName (name : String) : Option (String × String) :=
  let rest := name.toList.drop channelPrefix.length
  let team := rest.takeWhile (· ≠ '/')
  let tail := rest.drop team.length
  let own := tail.drop 1
  if ¬ channelPrefix.toList.isPrefixOf name.toList then none
  else if tail = [] ∨ team = [] ∨ own = [] ∨ '/' ∈ own then none
  else some (String.ofList team, String.ofList own)

/-- Whether a channel's rows may restore: the rows of a team's own channel only where the
tenant holds a version of the team. -/
def teamChannelAdmits (t : Target) (tenantID channel : String) : Bool :=
  if ¬ channelPrefix.toList.isPrefixOf channel.toList then true
  else
    match splitTeamChannelName channel with
    | none => false
    | some (team, _) => (t.defs .team).rows.any fun d => d.name = team && d.tenantID = tenantID

/-- A message with no tenant of hooks has none in its row, and one with no time to be seen at is
seen from when it was published. -/
def restoredMessage (now : Instant) (m : ChannelMessageEntry) : ChannelMessage where
  id := m.id
  channel := m.channel
  scope := m.scope
  scopeID := m.scopeID
  payload := m.payload
  publishedAt := m.publishedAt.getD now
  expiresAt := m.expiresAt
  visibleAt := m.visibleAt.getD (m.publishedAt.getD now)
  publishedByUserID := m.publishedByUserID
  tenantID := m.tenantID
  origin := m.origin
  hookTenant := if m.hookTenant = "" then none else some m.hookTenant
  requestedVisibleAt := m.requestedVisibleAt

def restoreChannelMessage (now : Instant) (s : Restoring) (m : ChannelMessageEntry) : Restoring :=
  if ¬ teamChannelAdmits s.target m.tenantID m.channel then
    s.warn "message row not restored: the team is not defined here"
  else
    s.record .channelMessages (fun t messages => { t with messages })
      (snapshotRestoreChannelMessage s.target.messages (restoredMessage now m))

def restoreChannelCursor (now : Instant) (s : Restoring) (c : Dated ChannelCursor) : Restoring :=
  if ¬ teamChannelAdmits s.target c.row.tenantID c.row.channel then
    s.warn "cursor row not restored: the team is not defined here"
  else
    s.record .channelCursors (fun t cursors => { t with cursors })
      (snapshotRestoreChannelCursor s.target.cursors { c.row with updatedAt := c.time.getD now })

/-! ## Evaluations and runs -/

def restoreEvaluation (now : Instant) (s : Restoring) (e : Dated EvaluationRow) : Restoring :=
  s.record .evaluations (fun t evaluations => { t with evaluations })
    (snapshotRestoreEvaluation s.target.evaluations { e.row with createdAt := e.time.getD now })

def synthesizedID (runID : String) : String := "snap_sess_" ++ runID

def restoredSessionID (sessionID runID : String) : String :=
  if sessionID = "" then synthesizedID runID else sessionID

/-- The row without its delivery keys when another run here holds one of them. -/
def withFreeKeys (runs : Table Run.id) (row : Run) : Run :=
  match runByDeliveryKeys runs [row.idempotencyKey, row.deliveryAltKey] with
  | some held =>
    if held.id ≠ row.id then { row with idempotencyKey := "", deliveryAltKey := "" } else row
  | none => row

def PausedRunEntry.run (e : PausedRunEntry) (now : Instant) (tenantID : String) : Run where
  id := e.runID
  sessionID := restoredSessionID e.sessionID e.runID
  tenantID := tenantID
  status := .running
  startedAt := e.startedAt.getD now
  model := e.model
  agentID := e.agentID
  parentAgentID := e.parentAgentID
  parentRunID := e.parentRunID
  userID := e.userID
  userTier := e.userTier
  agentDefID := e.agentDefID
  pauseState := if e.pauseState = "" then "running" else e.pauseState
  interactive := e.interactive
  parentContext := e.parentContext
  runConfig := e.runConfig
  operatorKeyRestricted := e.operatorKeyRestricted
  isolated := e.isolated
  credentialsNoUserScope := e.credentialsNoUserScope
  idempotencyKey := e.idempotencyKey
  deliveryAltKey := e.deliveryAltKey
  retention := ""
  replicaID := ""
  queuedInput := ""

def QueuedRunEntry.run (e : QueuedRunEntry) (now : Instant) (replicaID : String) : Run where
  id := e.runID
  sessionID := restoredSessionID e.sessionID e.runID
  tenantID := e.tenantID
  status := .queued
  startedAt := e.startedAt.getD now
  model := ""
  agentID := e.agentID
  parentAgentID := ""
  parentRunID := ""
  userID := e.userID
  userTier := e.userTier
  agentDefID := ""
  pauseState := "running"
  interactive := e.interactive
  parentContext := e.parentContext
  runConfig := ""
  operatorKeyRestricted := e.operatorKeyRestricted
  isolated := e.isolated
  credentialsNoUserScope := e.credentialsNoUserScope
  idempotencyKey := e.idempotencyKey
  deliveryAltKey := e.deliveryAltKey
  retention := e.retention
  replicaID := replicaID
  queuedInput := ""

/-- The captured events of a run, in captured order; the store gives them their place. -/
def restoreTranscript (s : Restoring) (runID sessionID : String) (events : List TranscriptEvent) :
    Restoring :=
  if events.isEmpty then s
  else
    let events := events.map fun e => ⟨sessionID, runID, e.tsNs, e.type, e.payload⟩
    match snapshotRestoreRunEvents s.target runID sessionID events with
    | .error message => s.warn message
    | .ok (target, written) => { s with target }.count (List.replicate written .transcriptEvents)

/-- The transcript is written whether or not the run was inserted. -/
def restorePausedRun (now : Instant) (s : Restoring) (e : PausedRunEntry) : Restoring :=
  let sessionID := restoredSessionID e.sessionID e.runID
  match snapshotRestoreSession s.target.sessions
      ⟨sessionID, e.tenantID, e.agent, e.startedAt.getD now, e.userID⟩ with
  | .error message => s.warn message
  | .ok (sessions, inserted) =>
    let synthesized := inserted && (e.sessionID = "" || e.sessionID = synthesizedID e.runID)
    let s := { s with target := { s.target with sessions } }.count
      (if synthesized then [.synthesizedSessions] else [])
    match (if e.tenantID ≠ "" then some e.tenantID
        else (sessions.find sessionID).map (·.tenantID)) with
    | none => s.warn "paused_run: read session for its tenant"
    | some tenantID =>
      match snapshotRestoreRun sessions s.target.runs
          (withFreeKeys s.target.runs (e.run now tenantID)) with
      | .error message => s.warn message
      | .ok (runs, inserted) =>
        let s := { s with target := { s.target with runs } }.count
          (if inserted then [.pausedRuns] else [])
        restoreTranscript s e.runID sessionID e.transcriptEvents

/-- A run whose content is never stored has no request to restore. -/
def restorableQueuedInput (opts : RestoreOptions) (e : QueuedRunEntry) : Option String :=
  if e.queuedInput = "" ∨ e.retention = "none" then none else opts.stripQueuedSecrets e.queuedInput

/-- The request a queued run will start from, on the row just inserted for it. -/
def restoreQueuedInput (opts : RestoreOptions) (s : Restoring) (e : QueuedRunEntry) : Restoring :=
  match restorableQueuedInput opts e with
  | none => s
  | some input =>
    match setQueuedInput s.target.runs e.runID input with
    | none => s.warn "queued_run: its request was not written"
    | some runs => { s with target := { s.target with runs } }

/-- A run already on the target is left as it is. -/
def restoreQueuedRun (opts : RestoreOptions) (now : Instant) (s : Restoring) (e : QueuedRunEntry) :
    Restoring :=
  let sessionID := restoredSessionID e.sessionID e.runID
  match snapshotRestoreSession s.target.sessions
      ⟨sessionID, e.tenantID, e.agent, e.startedAt.getD now, e.userID⟩ with
  | .error message => s.warn message
  | .ok (sessions, inserted) =>
    let s := { s with target := { s.target with sessions } }.count
      (if inserted && e.sessionID = "" then [.synthesizedSessions] else [])
    match snapshotRestoreRun sessions s.target.runs
        (withFreeKeys s.target.runs (e.run now opts.replicaID)) with
    | .error message => s.warn message
    | .ok (_, false) => s
    | .ok (runs, true) =>
      let s := { s with target := { s.target with runs } }.count [.queuedRuns]
      restoreTranscript (restoreQueuedInput opts s e) e.runID sessionID e.transcriptEvents

/-! ## The restore -/

/-- An entry of any section. -/
inductive Entry
  | definition (kind : DefKind) (e : DefEntry)
  | active (kind : DefKind) (e : Dated ActiveRow)
  | volume (e : VolumeDefEntry)
  | memory (e : MemoryEntry)
  | channel (e : Dated ChannelRow)
  | message (m : ChannelMessageEntry)
  | cursor (c : Dated ChannelCursor)
  | evaluation (e : Dated EvaluationRow)
  | pausedRun (e : PausedRunEntry)
  | queuedRun (e : QueuedRunEntry)

def restoreEntry (opts : RestoreOptions) (now : Instant) (s : Restoring) : Entry → Restoring
  | .definition kind e => restoreDef opts now kind s e
  | .active kind e => restoreActivePointer now kind s e
  | .volume e => restoreVolumeDef opts now s e
  | .memory e => restoreMemory opts now s e
  | .channel e => restoreChannelDef opts now s e
  | .message m => restoreChannelMessage now s m
  | .cursor c => restoreChannelCursor now s c
  | .evaluation e => restoreEvaluation now s e
  | .pausedRun e => restorePausedRun now s e
  | .queuedRun e => restoreQueuedRun opts now s e

inductive Section
  | definitions (kind : DefKind)
  | pointers (kind : DefKind)
  | volumes
  | memory
  | channelDefs
  | messages
  | cursors
  | evaluations
  | pausedRuns
  | queuedRuns
deriving DecidableEq

/-- The order `Restore` takes the sections in. -/
def sections : List Section :=
  [.definitions .agent, .pointers .agent, .definitions .skill, .pointers .skill,
   .definitions .team, .pointers .team, .definitions .hook, .pointers .hook,
   .definitions .mcpServer, .pointers .mcpServer, .volumes,
   .definitions .memoryBackend, .pointers .memoryBackend,
   .definitions .documentSource, .pointers .documentSource,
   .definitions .a2aAgent, .pointers .a2aAgent,
   .definitions .a2aServerCard, .pointers .a2aServerCard,
   .memory, .channelDefs, .messages, .cursors,
   .definitions .webhook, .pointers .webhook, .definitions .schedule, .pointers .schedule,
   .evaluations, .pausedRuns, .queuedRuns]

def Envelope.entriesOf (env : Envelope) : Section → List Entry
  | .definitions kind => (env.defs kind).map (.definition kind)
  | .pointers kind => (env.active kind).map (.active kind)
  | .volumes => env.volumes.map .volume
  | .memory => env.memory.map .memory
  | .channelDefs => env.channels.map .channel
  | .messages => env.messages.map .message
  | .cursors => env.cursors.map .cursor
  | .evaluations => env.evaluations.map .evaluation
  | .pausedRuns => env.pausedRuns.map .pausedRun
  | .queuedRuns => env.queuedRuns.map .queuedRun

def Envelope.entries (env : Envelope) : List Entry := sections.flatMap env.entriesOf

/-- `Restore`, for an envelope this reader knows every section version of, by the clock `now`. -/
def restore (opts : RestoreOptions) (now : Instant) (env : Envelope) (t : Target) : Restoring :=
  env.entries.foldl (restoreEntry opts now) ⟨t, ⟨[], []⟩⟩

end Loomcycle.Snapshot
