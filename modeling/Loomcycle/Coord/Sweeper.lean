import Loomcycle.Lib.Ledger
import Loomcycle.Lib.Transition

/-! The per-user slots of a cluster and the sweep that gives a dead replica's slots back. A run is
counted in `user_quotas` when it is admitted, its row says so (`user_slot`), and its process takes
it off the count when it ends. A process may die at any point. A resume of a paused row gives the
stopped owner's slot back and counts the run again; the sweep of a replica whose heartbeat is
stale marks its running rows and takes off one count for each row with the mark. A row may say
nothing of a slot: one written by a process older than the column, or restored from a snapshot. -/

namespace Loomcycle.Coord
open Lib

structure Key where
  tenant : String
  user : String
deriving DecidableEq

inductive Status
  | queued
  | running
  | completed
  | failed
  | cancelled
deriving DecidableEq

def ownerDied : String := "owner replica died"
def ownerDiedQueued : String := "owner replica died before the queued run started"

/-- A row of `runs`; `topLevel` is that `parent_run_id` is NULL. `slot` is a record only: the slot
the row stands for, also when `userSlot` is NULL. -/
structure Row where
  key : Key
  replica : String
  status : Status
  topLevel : Bool
  paused : Bool := false
  error : String := ""
  userSlot : Option Bool := none
  slot : Option Nat := none
deriving DecidableEq

/-- Where a process is with its run. -/
inductive Phase
  /-- Admitted; its row is not started. -/
  | admitted
  /-- Its row is started. -/
  | running
  /-- It resumes the run: it took the paused row over. -/
  | claimed
  /-- It found no held slot recorded on the row, and looks for a row that records nothing. -/
  | looking
  /-- It took the stopped owner's slot off the row, and gives it back. -/
  | moving
  /-- It has done with the stopped owner's slot. -/
  | settled
  /-- It counted the resumed run; the row does not say so yet. -/
  | counted
deriving DecidableEq

/-- A process that works on a run. `slot` is the count it has to give back; `owned` is that the row
named a replica when a resume listed it. -/
structure Proc where
  run : Nat
  replica : String
  key : Key
  topLevel : Bool
  phase : Phase
  owned : Bool := false
  slot : Option Nat := none
deriving DecidableEq

/-- One row of the quota query. `slots` is a record of what is counted. -/
structure Reap where
  key : Key
  leaked : Nat
  slots : List Nat
deriving DecidableEq

inductive Stage
  | mark
  | query
  | decrement (reaps : List Reap)
  | failQueued
  | delete
deriving DecidableEq

/-- A sweep: the replicas it has still to reap, the first of them at hand. `marked` is a record
of the rows its own statement marked for that one. -/
structure Sweep where
  todo : List String
  stage : Stage := .mark
  marked : List Nat := []
deriving DecidableEq

structure Taking where
  run : Nat
  key : Key
deriving DecidableEq

/-- The tables, the processes and the sweeps. `taken` and `log` are records: the slots that were
counted, and for each subtraction the slot it was for. -/
structure World where
  clock : Nat := 0
  heartbeat : String → Option Nat := fun _ => none
  alive : String → Bool := fun _ => false
  rows : Nat → Option Row := fun _ => none
  nextRun : Nat := 0
  procs : Nat → Option Proc := fun _ => none
  nextProc : Nat := 0
  sweeps : Nat → Option Sweep := fun _ => none
  nextSweep : Nat := 0
  activeCount : Key → Nat := fun _ => 0
  taken : List Taking := []
  log : List Nat := []

/-- How a statement ends. A lost one took effect, and its caller sees an error. -/
inductive Outcome
  | done
  | lost
  | failed
deriving DecidableEq

namespace World

/-! ### Counting -/

/-- The increment of `TryAcquire` and `CountAdmitted`. -/
def count (w : World) (run : Nat) (key : Key) : World :=
  { w with
    activeCount := Function.update w.activeCount key (w.activeCount key + 1)
    taken := w.taken ++ [⟨run, key⟩] }

/-- `GREATEST(0, active_count - n)`, of `Release` and of a sweep. -/
def subtract (w : World) (key : Key) (n : Nat) (slots : List Nat) : World :=
  { w with
    activeCount := Function.update w.activeCount key (w.activeCount key - n)
    log := w.log ++ slots }

def setRow (w : World) (i : Nat) (row : Row) : World :=
  { w with rows := Function.update w.rows i (some row) }

def setProc (w : World) (q : Nat) (p : Option Proc) : World :=
  { w with procs := Function.update w.procs q p }

def setSweep (w : World) (s : Nat) (sw : Option Sweep) : World :=
  { w with sweeps := Function.update w.sweeps s sw }

/-- Some process works on the run. -/
def inHand (w : World) (i : Nat) : Bool :=
  (List.range w.nextProc).any fun q => (w.procs q).any fun p => p.run = i

/-! ### Replicas -/

def tick (w : World) (n : Nat) : World := { w with clock := w.clock + n }

def boot (w : World) (r : String) : World := { w with alive := Function.update w.alive r true }

/-- The processes of the replica are gone. -/
def die (w : World) (r : String) : World :=
  { w with
    alive := Function.update w.alive r false
    procs := fun q => (w.procs q).filter fun p => p.replica ≠ r }

/-- `UpsertReplica`. -/
def beat (w : World) (r : String) : Option World :=
  if w.alive r then some { w with heartbeat := Function.update w.heartbeat r (some w.clock) }
  else none

/-- `DeleteReplica`. -/
def deleteReplica (w : World) (r : String) : World :=
  { w with heartbeat := Function.update w.heartbeat r none }

/-! ### Runs -/

/-- A run that has to wait has its row before it is admitted. -/
def queue (w : World) (r : String) (key : Key) (topLevel : Bool) : Option World :=
  if w.alive r then
    some { w.setRow w.nextRun { key, replica := r, status := .queued, topLevel } with
      nextRun := w.nextRun + 1 }
  else none

/-- `SnapshotRestoreRun` of a paused run: no replica, and no word of a slot. -/
def restore (w : World) (key : Key) (topLevel : Bool) : World :=
  { w.setRow w.nextRun { key, replica := "", status := .running, topLevel, paused := true } with
    nextRun := w.nextRun + 1 }

/-- The run to admit: a new one, or a queued one. -/
def runOf (w : World) (queued : Option Nat) (key : Key) (topLevel : Bool) : Option Nat :=
  match queued with
  | none => some w.nextRun
  | some i => (w.rows i).bind fun row =>
      if row.status = .queued ∧ row.key = key ∧ row.topLevel = topLevel then some i else none

/-- Admission; a run is counted when there is a cap and a user. A sub-run has no cap. -/
def admitRun (w : World) (r : String) (queued : Option Nat) (key : Key) (topLevel : Bool)
    (cap : Option Nat) : Option World := do
  guard (w.alive r ∧ (topLevel ∨ cap = none))
  let run ← w.runOf queued key topLevel
  let w := { w with nextRun := if queued = none then w.nextRun + 1 else w.nextRun }
  let p : Proc := { run, replica := r, key, topLevel, phase := .admitted }
  match cap with
  | none => some { w.setProc w.nextProc (some p) with nextProc := w.nextProc + 1 }
  | some cap =>
    if key.user ≠ "" ∧ w.activeCount key < cap then
      let counted := w.count run key
      some { counted.setProc w.nextProc (some { p with slot := some w.taken.length }) with
        nextProc := w.nextProc + 1 }
    else none

/-- `CreateRun`, or `StartQueuedRun` of a queued row; the row says whether it was counted, unless
the process is older than the column. -/
def start (w : World) (q : Nat) (older : Bool) (o : Outcome) : Option World := do
  let p ← w.procs q
  guard (p.phase = .admitted ∧ (w.rows p.run).all fun row => row.status = .queued)
  match o with
  | .failed => some w
  | _ =>
    let row : Row :=
      { key := p.key, replica := p.replica, status := .running, topLevel := p.topLevel,
        userSlot := if older then none else some p.slot.isSome, slot := p.slot }
    some ((w.setRow p.run row).setProc q (some { p with phase := .running }))

/-- `SetRunPauseState`. -/
def setPaused (w : World) (i : Nat) (paused : Bool) : Option World := do
  let row ← w.rows i
  some (w.setRow i { row with paused })

/-- `FinishRun`, of the process or of anyone else. -/
def finish (w : World) (i : Nat) (status : Status) (error : String) : Option World := do
  let row ← w.rows i
  guard (status ≠ .running ∧ status ≠ .queued)
  if row.status = .running ∨ row.status = .queued then
    some (w.setRow i { row with status, error, paused := false })
  else some w

/-- The process ends and gives its count back, if it has one. -/
def release (w : World) (q : Nat) (o : Outcome) : Option World := do
  let p ← w.procs q
  guard (p.phase ≠ .claimed ∧ p.phase ≠ .looking ∧ p.phase ≠ .moving)
  let ended := w.setProc q none
  if p.slot = none ∨ o = .failed then some ended else some (ended.subtract p.key 1 p.slot.toList)

/-! ### Resuming a paused run -/

/-- `ClaimPausedRun`, of a row that was listed with or without a replica. -/
def claim (w : World) (r : String) (i : Nat) (owned : Bool) (o : Outcome) : Option World := do
  let row ← w.rows i
  guard (w.alive r ∧ row.paused ∧ row.status = .running)
  match o with
  | .failed => some w
  | .lost => some (w.setRow i { row with paused := false })
  | .done =>
    let p : Proc :=
      { run := i, replica := r, key := row.key, topLevel := row.topLevel, phase := .claimed, owned }
    some { (w.setRow i { row with paused := false }).setProc w.nextProc (some p) with
      nextProc := w.nextProc + 1 }

/-- `UnclaimPausedRun`; the pass gives up. -/
def unclaim (w : World) (q : Nat) (o : Outcome) : Option World := do
  let p ← w.procs q
  guard (p.phase = .claimed)
  let row ← w.rows p.run
  let ended := w.setProc q none
  if o ≠ .failed ∧ row.status = .running ∧ !row.paused then
    some (ended.setRow p.run { row with paused := true })
  else some ended

/-- `SetRunReplica`. -/
def setReplica (w : World) (q : Nat) : Option World := do
  let p ← w.procs q
  guard (p.phase = .claimed)
  let row ← w.rows p.run
  some (w.setRow p.run { row with replica := p.replica })

/-- A statement of `TakeRunUserSlot`: a row that records `found` records no slot from then on, and
the stopped owner's slot goes back if `gives`. A row that does not is left to `next`. -/
def takeRecord (w : World) (q : Nat) (p : Proc) (found : Option Bool) (gives : Bool) (next : Phase)
    (o : Outcome) : Option World := do
  let row ← w.rows p.run
  let settled := some { p with phase := .settled }
  if row.userSlot = found then
    let taken := w.setRow p.run { row with userSlot := some false, slot := none }
    match o with
    | .failed => some (w.setProc q settled)
    | .lost => some (taken.setProc q settled)
    | .done =>
      if gives then some (taken.setProc q (some { p with phase := .moving, slot := row.slot }))
      else some (taken.setProc q settled)
  else if o = .done then some (w.setProc q (some { p with phase := next }))
  else some (w.setProc q settled)

/-- `RunUserSlotHeld` -/
def take (w : World) (q : Nat) (o : Outcome) : Option World := do
  let p ← w.procs q
  guard (p.phase = .claimed)
  w.takeRecord q p (some true) true .looking o

/-- `RunUserSlotUnrecorded`: the slot of a top-level run that a replica admitted goes back. -/
def takeUnrecorded (w : World) (q : Nat) (o : Outcome) : Option World := do
  let p ← w.procs q
  guard (p.phase = .looking)
  w.takeRecord q p none (p.topLevel && p.owned) .settled o

/-- `ReleaseUserSlot` of the stopped owner's slot. -/
def giveBack (w : World) (q : Nat) (o : Outcome) : Option World := do
  let p ← w.procs q
  guard (p.phase = .moving)
  let settled := w.setProc q (some { p with phase := .settled, slot := none })
  if p.key.user = "" ∨ o = .failed then some settled
  else some (settled.subtract p.key 1 p.slot.toList)

/-- `WaitForUser`: the resumed run is counted, whatever the cap. -/
def countAdmitted (w : World) (q : Nat) (o : Outcome) : Option World := do
  let p ← w.procs q
  guard (p.phase = .settled ∧ p.topLevel ∧ p.key.user ≠ "")
  match o with
  | .failed => some (w.setProc q (some { p with phase := .running }))
  | .lost => some ((w.count p.run p.key).setProc q (some { p with phase := .running }))
  | .done => some ((w.count p.run p.key).setProc q
      (some { p with phase := .counted, slot := some w.taken.length }))

/-- `Wait`: a sub-run, or a run without a cap, is not counted. -/
def runUncounted (w : World) (q : Nat) : Option World := do
  let p ← w.procs q
  guard (p.phase = .settled)
  some (w.setProc q (some { p with phase := .running }))

/-- `MarkRunUserSlot`. -/
def record (w : World) (q : Nat) (o : Outcome) : Option World := do
  let p ← w.procs q
  guard (p.phase = .counted)
  let row ← w.rows p.run
  let running := w.setProc q (some { p with phase := .running })
  match o with
  | .failed => some running
  | _ => some (running.setRow p.run { row with userSlot := some true, slot := p.slot })

/-! ### The sweep -/

def isStale (w : World) (staleAfter : Nat) (r : String) : Bool :=
  (w.heartbeat r).any fun last => last + staleAfter < w.clock

/-- The stale replicas are listed. -/
def sweepOnce (w : World) (staleAfter : Nat) (ids : List String) : Option World :=
  if ids ≠ [] ∧ ids.all (w.isStale staleAfter) then
    some { w.setSweep w.nextSweep (some { todo := ids }) with nextSweep := w.nextSweep + 1 }
  else none

/-- A running row of the replica that is not paused. -/
def isMarked (id : String) (row : Row) : Bool :=
  row.replica = id ∧ row.status = .running ∧ !row.paused

/-- A row with the mark of a sweep, whichever sweep it was, that took a slot: so it says, or it says
nothing and is of a top-level run. -/
def isLeaked (id : String) (row : Row) : Bool :=
  row.replica = id ∧ row.status = .failed ∧ row.error = ownerDied ∧ row.key.user ≠ "" ∧
    row.userSlot.getD row.topLevel

def isQueued (id : String) (row : Row) : Bool := row.replica = id ∧ row.status = .queued

/-- `UPDATE runs ... WHERE p`. -/
def updateRows (w : World) (p : Row → Bool) (f : Row → Row) : World :=
  { w with rows := fun i => (w.rows i).map fun row => if p row then f row else row }

/-- The rows that meet a condition. -/
def select (w : World) (p : Row → Bool) : List Nat :=
  (List.range w.nextRun).filter fun i => (w.rows i).any p

/-- The next replica of the sweep, if there is one. -/
def nextReplica (sw : Sweep) : Option Sweep :=
  match sw.todo.tail with
  | [] => none
  | todo => some { todo }

/-- The quota query, grouped by tenant and user. -/
def quotaRows (w : World) (id : String) : List Reap :=
  let leaked := w.select (isLeaked id)
  let keys := (leaked.filterMap fun i => (w.rows i).map Row.key).dedup
  keys.map fun key =>
    let runs := leaked.filter fun i => (w.rows i).any fun row => row.key = key
    { key, leaked := runs.length, slots := runs.filterMap fun i => (w.rows i).bind Row.slot }

def markRuns (w : World) (s : Nat) (o : Outcome) : Option World := do
  let sw ← w.sweeps s
  let id ← sw.todo.head?
  guard (sw.stage = .mark)
  let marked := w.select (isMarked id)
  let updated := w.updateRows (isMarked id) fun row =>
    { row with status := .failed, error := ownerDied }
  match o with
  | .failed => some (w.setSweep s (nextReplica sw))
  | .lost => some (updated.setSweep s (nextReplica sw))
  | .done =>
    let stage := if marked = [] then .failQueued else .query
    some (updated.setSweep s (some { sw with stage, marked }))

/-- The stage of the decrements still to come. -/
def afterReaps : List Reap → Stage
  | [] => .failQueued
  | reaps => .decrement reaps

def queryQuotas (w : World) (s : Nat) (o : Outcome) : Option World := do
  let sw ← w.sweeps s
  let id ← sw.todo.head?
  guard (sw.stage = .query)
  match o with
  | .done => some (w.setSweep s (some { sw with stage := afterReaps (w.quotaRows id) }))
  | _ => some (w.setSweep s (some { sw with stage := .failQueued }))

def decrementQuota (w : World) (s : Nat) (o : Outcome) : Option World := do
  let sw ← w.sweeps s
  match sw.stage with
  | .decrement (r :: reaps) =>
    let after := w.setSweep s (some { sw with stage := afterReaps reaps })
    match o with
    | .failed => some after
    | _ => some (after.subtract r.key r.leaked r.slots)
  | _ => none

def failQueued (w : World) (s : Nat) (o : Outcome) : Option World := do
  let sw ← w.sweeps s
  let id ← sw.todo.head?
  guard (sw.stage = .failQueued)
  let updated := w.updateRows (isQueued id) fun row =>
    { row with status := .failed, error := ownerDiedQueued }
  match o with
  | .failed => some (w.setSweep s (nextReplica sw))
  | .lost => some (updated.setSweep s (nextReplica sw))
  | .done => some (updated.setSweep s (some { sw with stage := .delete }))

def deleteDead (w : World) (s : Nat) (o : Outcome) : Option World := do
  let sw ← w.sweeps s
  let id ← sw.todo.head?
  guard (sw.stage = .delete)
  let after := w.setSweep s (nextReplica sw)
  match o with
  | .failed => some after
  | _ => some (after.deleteReplica id)

end World

/-! ### Histories -/

inductive Label
  | tick (n : Nat)
  | boot (r : String)
  | die (r : String)
  | beat (r : String)
  | deleteReplica (r : String)
  | queue (r : String) (key : Key) (topLevel : Bool)
  | restore (key : Key) (topLevel : Bool)
  | enter (r : String) (queued : Option Nat) (key : Key) (topLevel : Bool) (cap : Option Nat)
  | start (q : Nat) (older : Bool) (o : Outcome)
  | setPaused (i : Nat) (paused : Bool)
  | finish (i : Nat) (status : Status) (error : String)
  | release (q : Nat) (o : Outcome)
  | claim (r : String) (i : Nat) (owned : Bool) (o : Outcome)
  | unclaim (q : Nat) (o : Outcome)
  | setReplica (q : Nat)
  | take (q : Nat) (o : Outcome)
  | takeUnrecorded (q : Nat) (o : Outcome)
  | giveBack (q : Nat) (o : Outcome)
  | countAdmitted (q : Nat) (o : Outcome)
  | runUncounted (q : Nat)
  | record (q : Nat) (o : Outcome)
  | sweepOnce (ids : List String)
  | markRuns (s : Nat) (o : Outcome)
  | queryQuotas (s : Nat) (o : Outcome)
  | decrementQuota (s : Nat) (o : Outcome)
  | failQueued (s : Nat) (o : Outcome)
  | deleteDead (s : Nat) (o : Outcome)
  | abandon (s : Nat)

def step (staleAfter : Nat) (w : World) : Label → Option World
  | .tick n => some (w.tick n)
  | .boot r => some (w.boot r)
  | .die r => some (w.die r)
  | .beat r => w.beat r
  | .deleteReplica r => some (w.deleteReplica r)
  | .queue r key topLevel => w.queue r key topLevel
  | .restore key topLevel => some (w.restore key topLevel)
  | .enter r queued key topLevel cap => w.admitRun r queued key topLevel cap
  | .start q older o => w.start q older o
  | .setPaused i paused => w.setPaused i paused
  | .finish i status error => w.finish i status error
  | .release q o => w.release q o
  | .claim r i owned o => w.claim r i owned o
  | .unclaim q o => w.unclaim q o
  | .setReplica q => w.setReplica q
  | .take q o => w.take q o
  | .takeUnrecorded q o => w.takeUnrecorded q o
  | .giveBack q o => w.giveBack q o
  | .countAdmitted q o => w.countAdmitted q o
  | .runUncounted q => w.runUncounted q
  | .record q o => w.record q o
  | .sweepOnce ids => w.sweepOnce staleAfter ids
  | .markRuns s o => w.markRuns s o
  | .queryQuotas s o => w.queryQuotas s o
  | .decrementQuota s o => w.decrementQuota s o
  | .failQueued s o => w.failQueued s o
  | .deleteDead s o => w.deleteDead s o
  | .abandon s => some (w.setSweep s none)

end Loomcycle.Coord
