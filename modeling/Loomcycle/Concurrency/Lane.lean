import Mathlib.Algebra.Order.Ring.Rat
import Loomcycle.Concurrency.Semaphore
import Loomcycle.Lib.Slots

/-! # A call lane

The cap on the model calls of one provider and kind (`lane.go`). A lane counts calls and
keeps the slot of a finished call reserved for its run for a while. Every method is one
critical section, so a lane is a state and each section a function of it. The call's own
side (what the closures `release` and `giveBack` captured, what a granted waiter was given)
is the list `calls`. -/

namespace Loomcycle.Concurrency
open Lib Lib.RoundRobin

/-- One model call; the callbacks are left out. -/
structure CallInfo where
  owner : String := ""
  noLease : Bool := false
  tenantID : String := ""
  userID : String := ""
  background : Bool := false
  model : String := ""
  deriving DecidableEq, Repr

def CallInfo.key (c : CallInfo) : UserKey := ⟨c.tenantID, c.userID⟩

/-- The policy of a lane. Times are in nanoseconds. Of the entries for one key of the map
`modelCaps` the first counts. -/
structure LaneConfig where
  maxConcurrent : Int
  quantumCalls : Int := 0
  affinityHold : Int := 0
  backgroundShare : ℚ := 0
  modelCaps : List (String × Int) := []
  deriving DecidableEq, Repr

def normalizeLaneConfig (cfg : LaneConfig) : LaneConfig where
  maxConcurrent := if cfg.maxConcurrent < 1 then 1 else cfg.maxConcurrent
  quantumCalls := if cfg.quantumCalls < 0 then 0 else cfg.quantumCalls
  affinityHold := if cfg.affinityHold < 0 then 0 else cfg.affinityHold
  backgroundShare :=
    if 0 < cfg.backgroundShare then
      if 1 < cfg.backgroundShare then 1 else cfg.backgroundShare
    else 0
  modelCaps := (cfg.modelCaps.filter fun (m, _) => m ≠ "").map fun (m, n) => (m, max n 1)

/-- An owner's hold on one slot; `id` is the pointer. -/
structure Lease where
  id : Nat
  owner : String
  busy : Bool
  used : Int
  deadline : Int := 0
  slot : Nat
  deriving DecidableEq, Repr

/-- One queued `Acquire`; `id` is the pointer. -/
structure LaneWaiter where
  id : Nat
  info : CallInfo
  deriving DecidableEq, Repr

def LaneWaiter.key (w : LaneWaiter) : UserKey := w.info.key

/-- A call that was granted and has not ended: the lease it runs on and its slot. `under` is
the `MaxConcurrent` in force at the grant, which nothing reads. -/
structure LaneCall where
  id : Nat
  info : CallInfo
  lease : Option Nat
  slot : Nat
  under : Int
  deriving DecidableEq, Repr

/-- The waiters of one class. -/
abbrev LaneQueue := { q : Rotation UserKey LaneWaiter // q.Wf LaneWaiter.key }

namespace LaneQueue

def empty : LaneQueue := ⟨.empty, Rotation.wf_empty⟩

def waiters (q : LaneQueue) : List LaneWaiter := q.1.waiters

def push (q : LaneQueue) (w : LaneWaiter) : LaneQueue :=
  ⟨q.1.push LaneWaiter.key w, q.2.push w⟩

def pop (q : LaneQueue) (eligible : LaneWaiter → Bool) : Option (LaneWaiter × LaneQueue) :=
  match h : q.1.popWhere eligible with
  | none => none
  | some (w, q') => some (w, ⟨q', let ⟨_, _, _, t⟩ := Rotation.popWhere_took h; t.wf q.2⟩)

def hasEligible (q : LaneQueue) (eligible : LaneWaiter → Bool) : Bool := q.waiters.any eligible

/-- `remove`, which leaves a queue without the waiter as it is. -/
def remove (q : LaneQueue) (w : LaneWaiter) : LaneQueue :=
  match h : q.1.remove LaneWaiter.key w with
  | none => q
  | some q' => ⟨q', let ⟨_, t⟩ := q.2.remove_took h; t.wf q.2⟩

end LaneQueue

/-- The fields of the Go struct. The maps of counters `modelActive` and `ownerQueued` are
lists that name a key as often as it is counted. From `calls` on it is what the calls hold
and the history the results are stated over: `atShrink` are the calls in flight at the last
`Reconfigure` that lowered `MaxConcurrent`, `tightened k` those at the last one that lowered
or added the cap of `k` or had it cover more of the calls in flight. -/
structure Lane where
  cfg : LaneConfig
  active : Int := 0
  reserved : Int := 0
  modelActive : List String := []
  leases : List Lease := []
  inUse : List Bool := []
  fg : LaneQueue := .empty
  bg : LaneQueue := .empty
  ownerQueued : List String := []
  bgCredit : ℚ := 0
  grants : Int := 0
  preemptions : Int := 0
  calls : List LaneCall := []
  nextId : Nat := 0
  nextLease : Nat := 0
  atShrink : List Nat := []
  tightened : String → List Nat := fun _ => []

def NewLane (cfg : LaneConfig) : Lane := { cfg := normalizeLaneConfig cfg }

/-! ## Caps of models -/

/-- `model` is `key` at some context size: `strings.HasPrefix(model, key+"@")`. -/
def sized (key model : String) : Bool := (key.toList ++ ['@']).isPrefixOf model.toList

/-- One round of the loop of `capFor`. -/
def longerCap (model : String) (best : Option (String × Int)) (c : String × Int) :
    Option (String × Int) :=
  if (best.elim 0 fun b => b.1.length) < c.1.length ∧ sized c.1 model then some c else best

/-- The cap that covers a model: its own, else that of the longest key it extends with a
context size. -/
def capFor (caps : List (String × Int)) (model : String) : Option (String × Int) :=
  if model = "" then none
  else
    match caps.lookup model with
    | some n => some (model, n)
    | none => caps.foldl (longerCap model) none

/-- The cap named `key` covers `model`. -/
def covered (caps : List (String × Int)) (key model : String) : Bool :=
  (capFor caps model).any fun c => c.1 = key

namespace Lane

def queued (l : Lane) : Nat := l.fg.1.n + l.bg.1.n

/-- The calls in flight that the cap named `key` covers. -/
def modelInFlight (l : Lane) (key : String) : Nat :=
  l.modelActive.countP (covered l.cfg.modelCaps key)

def modelBlocked (l : Lane) (model : String) : Bool :=
  (capFor l.cfg.modelCaps model).any fun (key, n) => n ≤ l.modelInFlight key

def eligible (l : Lane) (w : LaneWaiter) : Bool := !l.modelBlocked w.info.model

def eligibleQueued (l : Lane) : Bool := l.fg.hasEligible l.eligible || l.bg.hasEligible l.eligible

/-- `countModel(model, 1)`. -/
def startModel (m : List String) (model : String) : List String :=
  if model = "" then m else m ++ [model]

/-- `countModel(model, -1)`. -/
def endModel (m : List String) (model : String) : List String :=
  if model = "" then m else m.erase model

/-- `leases[owner]`. -/
def leaseOf (l : Lane) (owner : String) : Option Lease := l.leases.find? fun ls => ls.owner = owner

/-- `delete(leases, owner)`. -/
def deleteLease (l : Lane) (owner : String) : Lane :=
  { l with leases := l.leases.filter fun ls => ls.owner ≠ owner }

/-- The lease `ls` points to becomes `f ls`. -/
def setLease (l : Lane) (id : Nat) (f : Lease → Lease) : Lane :=
  { l with leases := l.leases.map fun ls => if ls.id = id then f ls else ls }

/-! ## Slots -/

/-- Claim the lowest free slot number, `Slots.lowest`. -/
def takeSlot (inUse : List Bool) : List Bool := Slots.take inUse

def freeSlot (l : Lane) (slot : Nat) : Lane := { l with inUse := Slots.free l.inUse slot }

/-- The call may start a lease. -/
def mayLease (l : Lane) (c : CallInfo) : Bool :=
  !(c.owner = "" || c.noLease || l.cfg.affinityHold ≤ 0 || (l.leaseOf c.owner).isSome)

/-- Put the call `id` in flight on a free slot. -/
def grant (l : Lane) (id : Nat) (c : CallInfo) : Lane :=
  let slot := Slots.lowest l.inUse
  let call : LaneCall :=
    { id, info := c, lease := if l.mayLease c then some l.nextLease else none
      slot, under := l.cfg.maxConcurrent }
  { l with
    active := l.active + 1
    grants := l.grants + 1
    modelActive := startModel l.modelActive c.model
    inUse := takeSlot l.inUse
    leases :=
      if l.mayLease c then
        l.leases ++ [{ id := l.nextLease, owner := c.owner, busy := true, used := 1, slot }]
      else l.leases
    nextLease := if l.mayLease c then l.nextLease + 1 else l.nextLease
    calls := l.calls ++ [call] }

/-- End an idle reservation; the caller runs `dispatch` after. -/
def dropIdle (l : Lane) (ls : Lease) : Lane :=
  { l.deleteLease ls.owner with
    reserved := l.reserved - 1
    inUse := Slots.free l.inUse ls.slot }

/-! ## Handing slots on -/

def popFg (l : Lane) : Option (LaneWaiter × Lane) :=
  (l.fg.pop l.eligible).map fun (w, q) => (w, { l with fg := q })

def popBg (l : Lane) : Option (LaneWaiter × Lane) :=
  (l.bg.pop l.eligible).map fun (w, q) => (w, { l with bg := q })

/-- The waiter to serve: foreground first, except for the background's share. -/
def next (l : Lane) : Option (LaneWaiter × Lane) :=
  let fg := 0 < l.fg.1.n ∧ l.fg.hasEligible l.eligible
  let bg := 0 < l.bg.1.n ∧ l.bg.hasEligible l.eligible
  if ¬ fg ∧ ¬ bg then none
  else if ¬ fg then l.popBg
  else if ¬ bg then l.popFg
  else
    let credit := l.bgCredit + l.cfg.backgroundShare
    if 0 < l.cfg.backgroundShare ∧ 1 - 1 / 10 ^ 9 ≤ credit then
      { l with bgCredit := credit - 1 }.popBg
    else { l with bgCredit := credit }.popFg

/-- For a waiter without an owner it does nothing. -/
def decOwnerQueued (l : Lane) (owner : String) : Lane :=
  { l with ownerQueued := if owner = "" then l.ownerQueued else l.ownerQueued.erase owner }

/-- The loop of `dispatch`, for at most `fuel` rounds. -/
def dispatchLoop : Nat → Lane → Lane
  | 0, l => l
  | fuel + 1, l =>
    if l.active + l.reserved < l.cfg.maxConcurrent ∧ 0 < l.queued then
      match l.next with
      | none => l
      | some (w, l) => dispatchLoop fuel ((l.decOwnerQueued w.info.owner).grant w.id w.info)
    else l

/-- Every round serves a waiter, so there are no more rounds than waiters. -/
def dispatch (l : Lane) : Lane := dispatchLoop l.queued l

/-! ## Calls -/

inductive Granted
  | granted (id : Nat)
  | queueFull (queued : Nat) (limit : Int)
  | queued (id : Nat)
  deriving DecidableEq, Repr

/-- Back inside its hold: the owner's own slot, ahead of the queue. -/
def resume (l : Lane) (ls : Lease) (c : CallInfo) : Lane :=
  let call : LaneCall :=
    { id := l.nextId, info := c, lease := some ls.id, slot := ls.slot
      under := l.cfg.maxConcurrent }
  { l.setLease ls.id (fun ls => { ls with busy := true, used := ls.used + 1 }) with
    reserved := l.reserved - 1
    active := l.active + 1
    grants := l.grants + 1
    modelActive := startModel l.modelActive c.model
    calls := l.calls ++ [call]
    nextId := l.nextId + 1 }

/-- The call joins the queue of its class. -/
def enqueue (l : Lane) (c : CallInfo) : Lane :=
  let w : LaneWaiter := ⟨l.nextId, c⟩
  { l with
    nextId := l.nextId + 1
    fg := if c.background then l.fg else l.fg.push w
    bg := if c.background then l.bg.push w else l.bg
    ownerQueued := if c.owner = "" then l.ownerQueued else l.ownerQueued ++ [c.owner] }

/-- The rest of the section of `acquire`: a free slot, or the queue. -/
def admitOrQueue (l : Lane) (c : CallInfo) (maxQueued : Int) : Lane × Granted :=
  if l.active + l.reserved < l.cfg.maxConcurrent ∧ !l.modelBlocked c.model then
    ({ l with nextId := l.nextId + 1 }.grant l.nextId c, .granted l.nextId)
  else if 0 ≤ maxQueued ∧ maxQueued ≤ l.queued then (l, .queueFull l.queued maxQueued)
  else (l.enqueue c, .queued l.nextId)

/-- What `acquire` does with the owner's idle reservation: it is given up before the call
goes on, or the call runs on it (`none`). -/
def leaveReservation (l : Lane) (ls : Lease) (c : CallInfo) : Option Lane :=
  if c.noLease then
    -- the run's next turn waits for this call, so its slot would sit idle meanwhile
    if !c.background ∧ (l.cfg.maxConcurrent ≤ l.active + l.reserved ∨ l.modelBlocked c.model) then
      some (l.dropIdle ls).dispatch
    else some l
  else if l.modelBlocked c.model then some (l.dropIdle ls).dispatch
  else if 0 < l.cfg.quantumCalls ∧ l.cfg.quantumCalls ≤ ls.used ∧ l.eligibleQueued then
    some { l.dropIdle ls with preemptions := l.preemptions + 1 }.dispatch
  else none

/-- The idle reservation the call's owner holds. -/
def idleLease (l : Lane) (owner : String) : Option Lease :=
  if owner = "" then none else (l.leaseOf owner).filter fun ls => !ls.busy

/-- The section of `acquire`, with the number of waiters it may join (`maxQueued < 0` is any). -/
def acquire (l : Lane) (c : CallInfo) (maxQueued : Int) : Lane × Granted :=
  match l.idleLease c.owner with
  | none => l.admitOrQueue c maxQueued
  | some ls =>
    match l.leaveReservation ls c with
    | some l => l.admitOrQueue c maxQueued
    | none => (l.resume ls c, .granted l.nextId)

/-- The call no longer counts. -/
def endCall (l : Lane) (call : LaneCall) : Lane :=
  { l with
    active := l.active - 1
    modelActive := endModel l.modelActive call.info.model
    calls := l.calls.filter fun c => c.id ≠ call.id }

/-- The lease the call runs on, while it is still its owner's. -/
def leaseHeld (l : Lane) (call : LaneCall) : Option Lease :=
  call.lease.bind fun id => (l.leaseOf call.info.owner).filter fun ls => ls.id = id

/-- Why `finish` gives the slot up at once. -/
def givesUp (l : Lane) (call : LaneCall) (abandoned : Bool) : Bool :=
  abandoned || l.cfg.affinityHold ≤ 0 || l.cfg.maxConcurrent ≤ l.active + l.reserved ||
    l.cfg.maxConcurrent ≤ call.slot || l.ownerQueued.contains call.info.owner

def yields (l : Lane) (ls : Lease) : Bool :=
  0 < l.cfg.quantumCalls && l.cfg.quantumCalls ≤ ls.used && l.eligibleQueued

/-- Keep the slot for its owner for the hold. -/
def reserve (l : Lane) (id : Nat) (now : Int) : Lane :=
  { l.setLease id (fun ls => { ls with busy := false, deadline := now + l.cfg.affinityHold }) with
    reserved := l.reserved + 1 }

/-- `finish` up to its `dispatch`. -/
def settle (l : Lane) (call : LaneCall) (abandoned : Bool) (now : Int) : Lane :=
  match l.leaseHeld call with
  | none => l.freeSlot call.slot
  | some ls =>
    if l.givesUp call abandoned then (l.deleteLease ls.owner).freeSlot call.slot
    else if l.yields ls then
      { l.deleteLease ls.owner with preemptions := l.preemptions + 1 }.freeSlot call.slot
    else l.reserve ls.id now

def finish (l : Lane) (call : LaneCall) (abandoned : Bool) (now : Int) : Lane :=
  ((l.endCall call).settle call abandoned now).dispatch

def callOf (l : Lane) (id : Nat) : Option LaneCall := l.calls.find? fun c => c.id = id

/-- The closures of `releaseFns`: a call that has ended is left alone. -/
def endFn (l : Lane) (id : Nat) (abandoned : Bool) (now : Int) : Lane :=
  match l.callOf id with
  | none => l
  | some call =>
    { l with grants := if abandoned then l.grants - 1 else l.grants }.finish call abandoned now

def release (l : Lane) (id : Nat) (now : Int) : Lane := l.endFn id false now

def giveBack (l : Lane) (id : Nat) (now : Int) : Lane := l.endFn id true now

/-- Remove a waiter that gave up while still queued. -/
def unqueue (l : Lane) (w : LaneWaiter) : Lane :=
  { l with
    fg := if w.info.background then l.fg else l.fg.remove w
    bg := if w.info.background then l.bg.remove w else l.bg }.decOwnerQueued w.info.owner

def waiters (l : Lane) : List LaneWaiter := l.fg.waiters ++ l.bg.waiters

/-- The `ctx.Done` arm of the wait of call `id`: a slot it was handed as it gave up is
handed on. -/
def cancel (l : Lane) (id : Nat) (now : Int) : Option Lane :=
  match l.callOf id with
  | some call => some ({ l with grants := l.grants - 1 }.finish call true now)
  | none => (l.waiters.find? fun w => w.id = id).map l.unqueue

/-- The timer of the lease `id` fires. -/
def expire (l : Lane) (id : Nat) (now : Int) : Lane :=
  match l.leases.find? fun ls => ls.id = id with
  | none => l
  | some ls => if ls.busy ∨ now < ls.deadline then l else (l.dropIdle ls).dispatch

/-- `Done`: a call still in flight finishes normally and leaves no reservation. -/
def done (l : Lane) (owner : String) : Lane :=
  if owner = "" then l
  else
    match l.leaseOf owner with
    | none => l
    | some ls => if ls.busy then l.deleteLease owner else (l.dropIdle ls).dispatch

def yieldIdle (l : Lane) (owner : String) : Lane :=
  match l.leaseOf owner with
  | none => l
  | some ls => if ls.busy then l else (l.dropIdle ls).dispatch

/-! ## Reconfiguration -/

/-- A loop over the map of leases, in the order `order`, that drops some of the idle ones. -/
def forLeases (drop : Lane → Lease → Bool) (order : List String) (l : Lane) : Lane :=
  order.foldl
    (fun l owner => (l.leaseOf owner).elim l fun ls => if drop l ls then l.dropIdle ls else l) l

/-- A reservation that cannot stay at all. -/
def homeless (l : Lane) (ls : Lease) : Bool :=
  !ls.busy && (l.cfg.affinityHold ≤ 0 || l.cfg.maxConcurrent ≤ ls.slot)

/-- One more reservation, while the lane is over its cap; the source breaks when it is not. -/
def excess (l : Lane) (ls : Lease) : Bool :=
  !(l.active + l.reserved ≤ l.cfg.maxConcurrent) && !ls.busy

def idle (_ : Lane) (ls : Lease) : Bool := !ls.busy

/-- The new caps hold `key`'s calls back more than the old ones did. -/
def tightens (l : Lane) (caps : List (String × Int)) (key : String) : Bool :=
  (match caps.lookup key, l.cfg.modelCaps.lookup key with
    | some n, some n' => n < n'
    | some _, none => true
    | none, _ => false) ||
  l.calls.any fun c =>
    covered caps key c.info.model && !covered l.cfg.modelCaps key c.info.model

/-- The new config, with the calls it catches in flight. -/
def setConfig (l : Lane) (cfg : LaneConfig) : Lane :=
  { l with
    cfg
    atShrink :=
      if cfg.maxConcurrent < l.cfg.maxConcurrent then l.calls.map LaneCall.id else l.atShrink
    tightened := fun key =>
      if l.tightens cfg.modelCaps key then l.calls.map LaneCall.id else l.tightened key }

/-- `Reconfigure`; `order` and `order'` are the orders its two loops range in. -/
def reconfigure (l : Lane) (cfg : LaneConfig) (order order' : List String) : Lane :=
  (forLeases excess order'
    (forLeases homeless order (l.setConfig (normalizeLaneConfig cfg)))).dispatch

/-- `retire`: the lane keeps no reservation from here on. -/
def retire (l : Lane) (order : List String) : Lane :=
  (forLeases idle order { l with cfg := { l.cfg with affinityHold := 0 } }).dispatch

/-! ## The lane as a transition system -/

inductive Label
  | acquire (c : CallInfo) (maxQueued : Int)
  | release (id : Nat) (now : Int)
  | giveBack (id : Nat) (now : Int)
  | cancel (id : Nat) (now : Int)
  | expire (lease : Nat) (now : Int)
  | done (owner : String)
  | yieldIdle (owner : String)
  | reconfigure (cfg : LaneConfig) (order order' : List String)
  | retire (order : List String)
  deriving DecidableEq, Repr

/-- The sections that are not a call's own. -/
def Label.ambient : Label → Bool
  | .expire .. | .done _ | .yieldIdle _ | .reconfigure .. | .retire _ => true
  | _ => false

def owners (l : Lane) : List String := l.leases.map Lease.owner

def step (l : Lane) : Label → Option Lane
  | .acquire c maxQueued => some (l.acquire c maxQueued).1
  | .release id now => some (l.release id now)
  | .giveBack id now => some (l.giveBack id now)
  | .cancel id now => l.cancel id now
  | .expire id now => some (l.expire id now)
  | .done owner => some (l.done owner)
  | .yieldIdle owner => some (l.yieldIdle owner)
  | .reconfigure cfg order order' =>
    -- what the first loop drops the second does not meet
    if order.Perm l.owners ∧
        order'.Perm (forLeases homeless order (l.setConfig (normalizeLaneConfig cfg))).owners
    then some (l.reconfigure cfg order order') else none
  | .retire order => if order.Perm l.owners then some (l.retire order) else none

end Lane

end Loomcycle.Concurrency
