import Loomcycle.Store.Memory

/-! The tables a snapshot restores into, and the store's raw inserts for them
(`SnapshotRestore*`). Each answers whether the row was inserted; a row already there stands. -/

namespace Loomcycle.Store

open Lib

/-- The planes of versioned definitions. Each has a table of versions and one of active
pointers, with the same columns and constraints. -/
inductive DefKind
  | agent | skill | team | hook | mcpServer | memoryBackend | documentSource
  | a2aAgent | a2aServerCard | webhook | schedule
deriving DecidableEq

structure DefRow where
  defID : String
  tenantID : String
  name : String
  version : Int
  parentDefID : String
  definition : String
  description : String
  createdAt : Instant
  createdByAgentID : String
  createdByRunID : String
  retired : Bool
  bootstrappedFromStatic : Bool
  contentSHA256 : String
  operatorAuthored : Bool
deriving DecidableEq

structure ActiveRow where
  tenantID : String
  name : String
  defID : String
  promotedAt : Instant
  promotedByAgentID : String
  /-- What the promoter of a team was allowed, as JSON; `none` on every other plane. -/
  promoter : Option String
deriving DecidableEq

def ActiveRow.owner (r : ActiveRow) : String × String := (r.tenantID, r.name)

structure ScheduleActiveRun where
  runID : String
  defID : String
  slotAt : Instant
  catchUp : Bool
  startedAt : Instant
  claimedBy : String
deriving DecidableEq

structure ScheduleRunState where
  defID : String
  nextRunAt : Instant
  lastRunAt : Option Instant
  lastRunID : String
  lastStatus : String
  lastError : String
  fireCount : Int
  pausedUntil : Option Instant
  catchUpUntil : Option Instant
deriving DecidableEq

structure VolumeDefRow where
  tenantID : String
  name : String
  path : String
  mode : String
  createdAt : Instant
  updatedAt : Instant
deriving DecidableEq

def VolumeDefRow.owner (r : VolumeDefRow) : String × String := (r.tenantID, r.name)

structure ChannelRow where
  name : String
  tenantID : String
  description : String
  scope : String
  semantic : String
  defaultTTL : Int
  maxMessages : Int
  publisher : String
  period : String
  hold : Bool
  hooks : String
  createdAt : Instant
deriving DecidableEq

def ChannelRow.owner (r : ChannelRow) : String × String := (r.tenantID, r.name)

structure ChannelMessage where
  id : String
  channel : String
  scope : String
  scopeID : String
  payload : String
  publishedAt : Instant
  expiresAt : Option Instant
  visibleAt : Instant
  publishedByUserID : String
  tenantID : String
  origin : String
  hookTenant : Option String
  requestedVisibleAt : Option Instant
deriving DecidableEq

structure ChannelCursor where
  channel : String
  tenantID : String
  scope : String
  scopeID : String
  cursor : String
  updatedAt : Instant
deriving DecidableEq

def ChannelCursor.place (c : ChannelCursor) : String × String × String × String :=
  (c.tenantID, c.channel, c.scope, c.scopeID)

structure EvaluationRow where
  evalID : String
  runID : String
  defID : String
  /-- The bits of the float. -/
  score : UInt64
  dimensions : List (String × UInt64)
  judgement : String
  rationale : String
  emitterRole : String
  emitterAgentID : String
  emitterRunID : String
  createdAt : Instant
deriving DecidableEq

structure Session where
  id : String
  tenantID : String
  agent : String
  createdAt : Instant
  userID : String
deriving DecidableEq

inductive RunStatus
  | running | queued | completed | failed | cancelled
deriving DecidableEq

/-- The columns of `runs` a restore writes; a column it leaves at its default is not here. -/
structure Run where
  id : String
  sessionID : String
  tenantID : String
  status : RunStatus
  startedAt : Instant
  model : String
  agentID : String
  parentAgentID : String
  parentRunID : String
  userID : String
  userTier : String
  agentDefID : String
  pauseState : String
  interactive : Bool
  parentContext : String
  runConfig : String
  operatorKeyRestricted : Bool
  isolated : Bool
  credentialsNoUserScope : Bool
  idempotencyKey : String
  deliveryAltKey : String
  retention : String
  replicaID : String
  queuedInput : String
deriving DecidableEq

structure Event where
  sessionID : String
  runID : String
  timestamp : Instant
  type : String
  payload : String
deriving DecidableEq

/-- What a restore reads and writes: the tables, and the directories of dynamic volumes. -/
structure Target where
  memory : MemoryStore
  defs : DefKind → Table DefRow.defID
  active : DefKind → Table ActiveRow.owner
  activeRuns : Table ScheduleActiveRun.runID
  runState : Table ScheduleRunState.defID
  volumes : Table VolumeDefRow.owner
  dirs : List String
  channels : Table ChannelRow.owner
  messages : Table ChannelMessage.id
  cursors : Table ChannelCursor.place
  evaluations : Table EvaluationRow.evalID
  sessions : Table Session.id
  runs : Table Run.id
  /-- In the order of their `seq`. -/
  events : List Event

def Target.empty (supportsVectors : Bool) : Target where
  memory := .empty supportsVectors
  defs _ := .empty
  active _ := .empty
  activeRuns := .empty
  runState := .empty
  volumes := .empty
  dirs := []
  channels := .empty
  messages := .empty
  cursors := .empty
  evaluations := .empty
  sessions := .empty
  runs := .empty
  events := []

/-! ## Inserts -/

section
variable {ρ κ : Type} [DecidableEq κ] {key : ρ → κ}

/-- The shape most `SnapshotRestore*` share: a row that lacks a required column is an error,
any other is inserted unless its key is taken. -/
def snapshotRestore (missing : Bool) (message : String) (t : Table key) (r : ρ) :
    Except String (Table key × Bool) :=
  if missing then .error message else .ok (t.insertOrIgnore r, (t.find (key r)).isNone)

end

def snapshotRestoreActive (t : Table ActiveRow.owner) (e : ActiveRow) :
    Except String (Table ActiveRow.owner × Bool) :=
  snapshotRestore (e.name = "" || e.defID = "") "name and def_id required" t e

def snapshotRestoreScheduleActiveRun (t : Table ScheduleActiveRun.runID) (r : ScheduleActiveRun) :
    Except String (Table ScheduleActiveRun.runID × Bool) :=
  snapshotRestore (r.defID = "" || r.runID = "")
    "snapshot restore schedule_active_runs: def_id and run_id required" t r

def snapshotRestoreVolumeDef (t : Table VolumeDefRow.owner) (r : VolumeDefRow) :
    Except String (Table VolumeDefRow.owner × Bool) :=
  snapshotRestore (r.name = "") "snapshot restore volume_defs: name required" t r

def snapshotRestoreChannelMessage (t : Table ChannelMessage.id) (m : ChannelMessage) :
    Except String (Table ChannelMessage.id × Bool) :=
  snapshotRestore (m.id = "" || m.channel = "")
    "snapshot restore channel_message: id and channel required" t m

def snapshotRestoreChannelCursor (t : Table ChannelCursor.place) (c : ChannelCursor) :
    Except String (Table ChannelCursor.place × Bool) :=
  snapshotRestore (c.channel = "" || c.cursor = "")
    "snapshot restore channel_cursor: channel and cursor required" t c

def snapshotRestoreEvaluation (t : Table EvaluationRow.evalID) (r : EvaluationRow) :
    Except String (Table EvaluationRow.evalID × Bool) :=
  snapshotRestore (r.evalID = "" || r.runID = "")
    "snapshot restore evaluation: eval_id and run_id required" t r

def snapshotRestoreSession (t : Table Session.id) (s : Session) :
    Except String (Table Session.id × Bool) :=
  snapshotRestore (s.id = "") "snapshot restore session: id required" t s

/-- A negative count is refused on its own; the row's definition has to be there. -/
def snapshotRestoreScheduleRunState (defs : Table DefRow.defID)
    (t : Table ScheduleRunState.defID) (r : ScheduleRunState) :
    Except String (Table ScheduleRunState.defID × Bool) :=
  if r.defID = "" then .error "snapshot restore schedule_run_state: def_id required"
  else if r.fireCount < 0 then .error "snapshot restore schedule_run_state: negative fire_count"
  else if (t.find r.defID).isSome then .ok (t, false)
  else if (defs.find r.defID).isNone then .error "FOREIGN KEY constraint failed"
  else .ok (t.insertOrIgnore r, true)

/-- `ON CONFLICT(def_id) DO NOTHING`: only the id makes a definition one that is already here.
Another on the same (tenant, name, version), or a parent that is not here, is an error. -/
def snapshotRestoreDef (t : Table DefRow.defID) (r : DefRow) :
    Except String (Table DefRow.defID × Bool) :=
  if r.defID = "" ∨ r.name = "" then .error "def_id and name required"
  else if (t.find r.defID).isSome then .ok (t, false)
  else if t.rows.any fun x => x.tenantID = r.tenantID && x.name = r.name && x.version = r.version
  then .error "UNIQUE constraint failed: tenant_id, name, version"
  else if r.parentDefID ≠ "" ∧ r.parentDefID ≠ r.defID ∧ (t.find r.parentDefID).isNone then
    .error "FOREIGN KEY constraint failed"
  else .ok (t.insertOrIgnore r, true)

/-- A plain insert: `false` is `ErrConflict`. -/
def channelsCreate (t : Table ChannelRow.owner) (r : ChannelRow) : Table ChannelRow.owner × Bool :=
  (t.insertOrIgnore r, (t.find r.owner).isNone)

def Run.holds (keys : List String) (r : Run) : Bool :=
  keys.any fun k => k ≠ "" && (r.idempotencyKey = k || r.deliveryAltKey = k)

/-- The run that holds one of the keys; the oldest of several. -/
def runByDeliveryKeys (t : Table Run.id) (keys : List String) : Option Run :=
  (Paging.page (fun r => toLex (r.startedAt, r.id)) 1 (t.rows.filter (·.holds keys))).head?

/-- `INSERT OR IGNORE`: a run on the row's id, or one that holds its key in the same column,
makes it a row that is already here. -/
def snapshotRestoreRun (sessions : Table Session.id) (t : Table Run.id) (r : Run) :
    Except String (Table Run.id × Bool) :=
  if r.id = "" ∨ r.sessionID = "" then .error "snapshot restore run: id and session_id required"
  else if (t.find r.id).isSome then .ok (t, false)
  else if t.rows.any fun x => (r.idempotencyKey ≠ "" && x.idempotencyKey = r.idempotencyKey) ||
      (r.deliveryAltKey ≠ "" && x.deliveryAltKey = r.deliveryAltKey)
  then .ok (t, false)
  else if (sessions.find r.sessionID).isNone then .error "FOREIGN KEY constraint failed"
  else .ok (t.insertOrIgnore r, true)

/-- The events of one run. -/
def Target.transcript (t : Target) (runID : String) : List Event :=
  t.events.filter (·.runID = runID)

/-- The batch is written whole or, when the run has a transcript, not at all. -/
def snapshotRestoreRunEvents (t : Target) (runID sessionID : String) (events : List Event) :
    Except String (Target × Nat) :=
  if runID = "" ∨ sessionID = "" then
    .error "snapshot restore events: run_id and session_id required"
  else if events = [] then .ok (t, 0)
  else if t.transcript runID ≠ [] then .ok (t, 0)
  else if (t.runs.find runID).isNone ∨ (t.sessions.find sessionID).isNone then
    .error "FOREIGN KEY constraint failed"
  else
    let events := events.map fun e => { e with runID, sessionID }
    .ok ({ t with events := t.events ++ events }, events.length)

/-- The request of a queued run; `none` is `ErrRunNotQueued`. -/
def setQueuedInput (t : Table Run.id) (runID input : String) : Option (Table Run.id) :=
  match t.find runID with
  | some r => if r.status = .queued then some (t.upsert { r with queuedInput := input }) else none
  | none => none

end Loomcycle.Store
