import Loomcycle.Concurrency.Lane
import Loomcycle.Concurrency.ModelGate
import Loomcycle.Concurrency.SemaphoreCalls
import Loomcycle.Lib.Tickets

/-! # Calls to a provider

`lanegate.Provider.Call` and `CallScheduler.acquire`: a call enters its provider's model gate,
then its lane, and a run's turn call lends the run's global slot while it waits there. A call is
the point its goroutine has reached between two sections of the gate, the lane or the semaphore;
a wait is left when the section of somebody else has served it. -/

namespace Loomcycle.Concurrency
open Lib

/-- What `lane` finds for a provider and kind, and all the provider's lanes. A nil gate is that
of a kind the gate does not apply to. -/
structure Route where
  lane : Option Nat := none
  gate : Option Nat := none
  lanes : List Nat := []
  deriving DecidableEq, Repr

/-- Where a call stands. `place` is what it has at the gate, if it is counted there, and `slot`
what it has in the lane. -/
inductive Stage
  | arriving
  | gateQueued (place : Nat)
  /-- the lanes of the provider in which the owner's reservation is still to be yielded -/
  | yielding (place : Nat) (lanes : List Nat)
  | gateWait (place : Nat)
  | arrived (place : Option Nat)
  | laneQueued (place : Option Nat) (slot : Nat)
  | laneWait (place : Option Nat) (slot : Nat)
  /-- `acquire` has returned -/
  | granted (place slot : Option Nat)
  | givingBack (place slot : Option Nat)
  | givenBack (place : Option Nat)
  /-- the lane did not take the call, which is still to leave the gate -/
  | refused (place : Option Nat)
  | failed
  | reclaim (failed : Bool)
  | reclaiming (failed : Bool)
  | computing (place slot : Option Nat)
  | ended (place : Option Nat)
  | over
  deriving DecidableEq, Repr

/-- The call's number at the gate. -/
def Stage.place : Stage → Option Claim
  | .gateQueued place | .yielding place _ | .gateWait place => some ⟨place, false⟩
  | .arrived place | .laneQueued place _ | .laneWait place _ | .granted place _
  | .givingBack place _ | .givenBack place | .refused place | .computing place _
  | .ended place => place.map fun id => ⟨id, true⟩
  | _ => none

/-- The call's number in the lane. -/
def Stage.slot : Stage → Option Claim
  | .laneQueued _ slot | .laneWait _ slot => some ⟨slot, false⟩
  | .granted _ slot | .givingBack _ slot | .computing _ slot => slot.map fun id => ⟨id, true⟩
  | _ => none

/-- One call. Only a run's turn call carries `OnEvent`; `again` is its second `acquire`, behind
`Reclaim`, and `waited` says that it has reported a wait. -/
structure ModelCall where
  run : Nat
  turn : Bool
  info : CallInfo
  provider : String
  kind : String
  maxQueued : Int
  gate : Option Nat := none
  lane : Option Nat := none
  again : Bool := false
  waited : Bool := false
  stage : Stage := .arriving
  deriving DecidableEq, Repr

def ModelCall.to (c : ModelCall) (stage : Stage) : ModelCall := { c with stage }

def ModelCall.isOpen (c : ModelCall) : Bool := c.stage ≠ .over

/-- The semaphore with its runs, the gates and lanes by their pointers, and the calls. -/
structure Runtime where
  runs : World
  gates : Nat → ModelGate
  lanes : Nat → Lane
  routes : String → String → Route
  calls : List ModelCall

namespace Runtime

def init (runs : World) (gates : Nat → Int × Int) (lanes : Nat → LaneConfig)
    (routes : String → String → Route) : Runtime where
  runs
  gates := fun g => NewModelGate (gates g).1 (gates g).2
  lanes := fun k => NewLane (lanes k)
  routes
  calls := []

def setGate (s : Runtime) (g : Nat) (gate : ModelGate) : Runtime :=
  { s with gates := Function.update s.gates g gate }

def setLane (s : Runtime) (k : Nat) (lane : Lane) : Runtime :=
  { s with lanes := Function.update s.lanes k lane }

/-! ## The run's slot -/

def procOf (s : Runtime) (c : ModelCall) : Option Proc := s.runs.procs[c.run]?

/-- `rs.Lent()`: only a turn call has the run's slot. -/
def lent (s : Runtime) (c : ModelCall) : Bool :=
  c.turn && match s.procOf c with
    | some (.lent _) => true
    | _ => false

/-- A section of the run's slot, which does nothing for a run without one. -/
def onSlot (s : Runtime) (c : ModelCall) (a : Action) : Runtime :=
  ((Concurrency.step s.runs (.act c.run a)).map fun w => { s with runs := w }).getD s

/-- The first wait a call reports lends the run's slot. -/
def onWait (s : Runtime) (c : ModelCall) : Runtime :=
  if c.turn ∧ c.again = false ∧ c.waited = false then s.onSlot c .lend else s

/-! ## Gate and lane -/

/-- `gate.enter`. -/
def enterGate (s : Runtime) (c : ModelCall) (g : Nat) (done : Bool) : Runtime × ModelCall :=
  match (s.gates g).enter c.info.model c.maxQueued done with
  | (_, .uncounted) => (s, c.to (.arrived none))
  | (_, .ctx) => (s, c.to .failed)
  | (_, .queueFull _ _) => (s, c.to .failed)
  | (gate, .admitted id) => (s.setGate g gate, c.to (.arrived (some id)))
  | (gate, .queued id) => (s.setGate g gate, c.to (.gateQueued id))

/-- `CallScheduler.acquire` up to the gate's section. -/
def arrive (s : Runtime) (c : ModelCall) (done : Bool) : Runtime × ModelCall :=
  let r := s.routes c.provider c.kind
  let c := { c with gate := r.gate, lane := r.lane }
  match r.gate with
  | none => (s, c.to (.arrived none))
  | some g => s.enterGate c g done

/-- `lane.acquire`; a call that is cancelled already takes no slot. -/
def enterLane (s : Runtime) (c : ModelCall) (place : Option Nat) (done : Bool) :
    Runtime × ModelCall :=
  match c.lane with
  | none => (s, c.to (.granted place none))
  | some k =>
    if done then (s, c.to (.refused place))
    else
      match (s.lanes k).acquire c.info c.maxQueued with
      | (lane, .granted id) => (s.setLane k lane, c.to (.granted place (some id)))
      | (lane, .queueFull _ _) => (s.setLane k lane, c.to (.refused place))
      | (lane, .queued id) => (s.setLane k lane, c.to (.laneQueued place id))

def leaveGate (s : Runtime) (c : ModelCall) (place : Option Nat) : Runtime :=
  match c.gate, place with
  | some g, some id => s.setGate g ((s.gates g).leave id)
  | _, _ => s

/-- The lane's half of `release` and `giveBack`. -/
def leaveLane (s : Runtime) (c : ModelCall) (slot : Option Nat) (abandoned : Bool) (now : Int) :
    Runtime :=
  match c.lane, slot with
  | some k, some id => s.setLane k ((s.lanes k).endFn id abandoned now)
  | _, _ => s

def hasPlace (s : Runtime) (c : ModelCall) (place : Nat) : Bool :=
  c.gate.any fun g => ((s.gates g).callOf place).isSome

def hasSlot (s : Runtime) (c : ModelCall) (slot : Nat) : Bool :=
  c.lane.any fun k => ((s.lanes k).callOf slot).isSome

/-! ## Steps -/

/-- The next section of a call; `none` while it waits. -/
def proceed (s : Runtime) (c : ModelCall) (now : Int) (done : Bool) : Option (Runtime × ModelCall) :=
  match c.stage with
  | .arriving => some (s.arrive c done)
  | .gateQueued place =>
    -- a call that waits for its model cannot use what its run holds idle
    some (s, c.to (.yielding place
      (if c.info.owner = "" then [] else (s.routes c.provider c.kind).lanes)))
  | .yielding place (k :: rest) =>
    some (s.setLane k ((s.lanes k).yieldIdle c.info.owner), c.to (.yielding place rest))
  | .yielding place [] => some (s.onWait c, { c with waited := true }.to (.gateWait place))
  | .gateWait place => if s.hasPlace c place then some (s, c.to (.arrived (some place))) else none
  | .arrived place => some (s.enterLane c place done)
  | .laneQueued place slot => some (s.onWait c, { c with waited := true }.to (.laneWait place slot))
  | .laneWait place slot =>
    if s.hasSlot c slot then some (s, c.to (.granted place (some slot))) else none
  | .granted place slot =>
    if s.lent c then
      -- never wait for a global slot holding a lane slot
      let s' := s.onSlot c .tryReclaim
      some (s', c.to (if s'.lent c then .givingBack place slot else .computing place slot))
    else some (s, c.to (.computing place slot))
  | .givingBack place slot => some (s.leaveLane c slot true now, c.to (.givenBack place))
  | .givenBack place => some (s.leaveGate c place, c.to (.reclaim false))
  | .refused place => some (s.leaveGate c place, c.to .failed)
  | .failed => some (s, c.to (if s.lent c then .reclaim true else .over))
  | .reclaim failed => some (s.onSlot c .reclaim, c.to (.reclaiming failed))
  | .reclaiming failed =>
    match s.procOf c with
    | some (.reclaiming _ _) => none
    -- its ctx ended first: the slot stays lent and the call is over
    | some (.lent _) => some (s, c.to .over)
    | _ => some (s, if failed then c.to .over else { c with again := true }.to .arriving)
  | .computing place slot => some (s.leaveLane c slot false now, c.to (.ended place))
  | .ended place => some (s.leaveGate c place, c.to .over)
  | .over => none

/-- The ctx of a wait ends. That of a `Reclaim` is the semaphore's. -/
def cancel (s : Runtime) (c : ModelCall) (now : Int) : Option (Runtime × ModelCall) :=
  match c.stage, c.gate, c.lane with
  | .gateWait place, some g, _ =>
    ((s.gates g).cancel place).map fun gate => (s.setGate g gate, c.to .failed)
  | .laneWait place slot, _, some k =>
    ((s.lanes k).cancel slot now).map fun lane => (s.setLane k lane, c.to (.refused place))
  | _, _, _ => none

inductive Label
  | sem (a : Concurrency.Label)
  | gate (g : Nat) (a : ModelGate.Label)
  | lane (k : Nat) (a : Lane.Label)
  | reload (routes : String → String → Route)
  /-- a run calls its provider -/
  | call (run : Nat) (turn : Bool) (info : CallInfo) (provider kind : String) (maxQueued : Int)
  | proceed (j : Nat) (now : Int) (done : Bool)
  | cancel (j : Nat) (now : Int)

/-- A turn call of the run is in progress. -/
def inTurn (s : Runtime) (run : Nat) : Bool :=
  s.calls.any fun c => c.run == run && c.turn && c.isOpen

/-- What happens at the semaphore beside the calls: `RunSlot` is used by the turn call alone and
a run ends when it is over. Runs are counted in this process. -/
def permits (s : Runtime) : Concurrency.Label → Bool
  | .call (.acquireForUser _) => false
  | .withUserQuotaStore true => false
  | .act _ .lend | .act _ .tryReclaim | .act _ .reclaim => false
  | .act i .release => !s.inTurn i
  | _ => true

/-- A run that has its global slot may call, in one turn call at a time. -/
def mayCall (s : Runtime) (run : Nat) (turn : Bool) : Bool :=
  (match s.runs.procs[run]? with
    | some (.holding _ _) => true
    | _ => false) && !(turn && s.inTurn run)

def stepCall (s : Runtime) (j : Nat) (next : ModelCall → Option (Runtime × ModelCall)) :
    Option Runtime :=
  match s.calls[j]? with
  | none => none
  | some c => (next c).map fun (s', c') => { s' with calls := s.calls.set j c' }

def step (s : Runtime) : Label → Option Runtime
  | .sem a =>
    if s.permits a then (Concurrency.step s.runs a).map fun w => { s with runs := w } else none
  | .gate g a => if a.ambient then ((s.gates g).step a).map (s.setGate g) else none
  | .lane k a => if a.ambient then ((s.lanes k).step a).map (s.setLane k) else none
  | .reload routes => some { s with routes }
  | .call run turn info provider kind maxQueued =>
    if s.mayCall run turn then
      some { s with calls := s.calls ++ [{ run, turn, info, provider, kind, maxQueued }] }
    else none
  | .proceed j now done => s.stepCall j fun c => s.proceed c now done
  | .cancel j now => s.stepCall j fun c => s.cancel c now

end Runtime

end Loomcycle.Concurrency
