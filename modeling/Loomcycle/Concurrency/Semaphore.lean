import Loomcycle.Lib.Multimap
import Loomcycle.Lib.RoundRobin

/-! # The run semaphore

`internal/concurrency/semaphore.go`, `semqueue.go`, `admit.go` and `lend.go`: the
counters and queues of a `Semaphore` and what each of its mutex-held sections does to
them. A Go channel of capacity one is the token it may hold; the per-user counter a
cluster shares is outside the process, so only the calls made to it are recorded. -/

namespace Loomcycle.Concurrency
open Lib Lib.RoundRobin

/-- The per-user fairness identity. -/
structure UserKey where
  tenant : String
  user : String
  deriving DecidableEq, Repr

/-- Go's zero `userKey`. -/
def UserKey.zero : UserKey := ⟨"", ""⟩

inductive QueueReason
  | userCap
  | globalCap
  deriving DecidableEq, Repr

/-- One request waiting for a slot. `id` is the pointer: no two waiters share it. -/
structure SemWaiter where
  id : Nat
  key : UserKey := .zero
  ticket : String := ""
  reason : Option QueueReason := none
  deriving DecidableEq, Repr

inductive AdmitError
  | backpressure (msg : String)
  | perUserQuotaExhausted (key : UserKey) (cap : Int)
  | quotaStore
  | ctx
  | onQueued
  deriving DecidableEq, Repr

/-- What must never happen: an operation reached in a state it cannot handle. -/
inductive Fault
  /-- the panic arm of `cancelWaiter` -/
  | strandedToken
  /-- `cancelUserWaiter` blocks on an empty channel, holding the mutex -/
  | userWaiterBlocked
  /-- `Reclaim` blocks on an empty channel after its ctx ended -/
  | reclaimBlocked
  /-- `wakeUserWaiter` blocks on a full channel, holding the mutex -/
  | sendBlocked
  deriving DecidableEq, Repr

/-- Whether a call counted itself against its user, and whether under the user's cap or,
as a resumed run does, whatever the cap. -/
inductive Counting
  | uncounted
  | capped
  | resumed
  deriving DecidableEq, Repr

/-- What a release or a cancelled wait gives back for its user. `counting` is not in the
source: it remembers how the call took the count it is about to give back. -/
structure Account where
  key : UserKey
  qs : Bool
  counting : Counting
  deriving DecidableEq, Repr

/-- Nothing is given back. -/
def Account.none : Account := ⟨.zero, false, .uncounted⟩

/-- The Acquire waiters, round-robin across `(tenant, user)`. -/
abbrev SemQueue := { q : Rotation UserKey SemWaiter // q.Wf SemWaiter.key }

namespace SemQueue

def empty : SemQueue := ⟨.empty, Rotation.wf_empty⟩

def waiters (q : SemQueue) : List SemWaiter := q.1.waiters

def push (q : SemQueue) (w : SemWaiter) : SemQueue :=
  ⟨q.1.push SemWaiter.key w, q.2.push w⟩

def pop (q : SemQueue) : Option (SemWaiter × SemQueue) :=
  match h : q.1.pop with
  | none => none
  | some (w, q') => some (w, ⟨q', let ⟨_, _, t⟩ := Rotation.pop_took h; t.wf q.2⟩)

def remove (q : SemQueue) (w : SemWaiter) : Option SemQueue :=
  match h : q.1.remove SemWaiter.key w with
  | none => none
  | some q' => some ⟨q', let ⟨_, t⟩ := q.2.remove_took h; t.wf q.2⟩

end SemQueue

/-- The fields of the Go struct, the channels of its waiters and, from `nextId` on, the
history the results are stated over. -/
structure Semaphore where
  maxConcurrent : Int
  maxQueue : Int
  timeout : Int
  maxPerUser : Int := 0
  active : Int := 0
  queued : Int := 0
  lent : Int := 0
  /-- whether the map `perUser` has been made -/
  perUserMade : Bool := false
  perUser : UserKey → Option Int := fun _ => none
  admitted : List SemWaiter := []
  queue : SemQueue := .empty
  maxQueuedPerUser : Int := 0
  userWait : Multimap UserKey SemWaiter := ∅
  userPolling : UserKey → Option Int := fun _ => none
  tickets : String → Option SemWaiter := fun _ => none
  /-- cluster mode -/
  quotaStore : Bool := false
  /-- the waiters whose channel holds a token -/
  tokens : List SemWaiter := []
  nextId : Nat := 0
  /-- every waiter with a channel ever made -/
  created : List SemWaiter := []
  /-- the waiters whose goroutine took its token -/
  received : List SemWaiter := []
  /-- the waiters taken out of their queue by their own cancelled wait -/
  withdrawn : List SemWaiter := []
  /-- the `Release` calls made to the quota store -/
  released : List UserKey := []
  faults : List Fault := []

/-- `New`. -/
def Semaphore.new (maxConcurrent maxQueue timeout : Int) : Semaphore :=
  { maxConcurrent, maxQueue, timeout }

/-! ## Maps and tickets -/

/-- `m[key]` of a Go map of counters. -/
def count (m : UserKey → Option Int) (key : UserKey) : Int := (m key).getD 0

/-- `m[key]++`. -/
def increment (m : UserKey → Option Int) (key : UserKey) : UserKey → Option Int :=
  Function.update m key (some (count m key + 1))

/-- `m[key]--`, the entry deleted when that leaves nothing. -/
def decrement (m : UserKey → Option Int) (key : UserKey) : UserKey → Option Int :=
  Function.update m key (if count m key - 1 ≤ 0 then none else some (count m key - 1))

/-- The first waiter keeps the name. -/
def track (tickets : String → Option SemWaiter) (w : SemWaiter) : String → Option SemWaiter :=
  if w.ticket = "" ∨ (tickets w.ticket).isSome then tickets
  else Function.update tickets w.ticket (some w)

def untrack (tickets : String → Option SemWaiter) (w : SemWaiter) : String → Option SemWaiter :=
  if w.ticket ≠ "" ∧ tickets w.ticket = some w then Function.update tickets w.ticket none
  else tickets

namespace Semaphore

/-- Every run waiting on its user's cap. -/
def userWaiters (s : Semaphore) : List SemWaiter := s.userWait.values

/-! ## Channels -/

/-- A send to a channel of capacity one with a `default` arm. -/
def offer (s : Semaphore) (w : SemWaiter) : Semaphore :=
  if w ∈ s.tokens then s else { s with tokens := s.tokens ++ [w] }

/-- A send to a channel of capacity one. -/
def send (s : Semaphore) (w : SemWaiter) : Semaphore :=
  if w ∈ s.tokens then { s with faults := .sendBlocked :: s.faults }
  else { s with tokens := s.tokens ++ [w] }

/-- The goroutine of `w` takes its token. -/
def take (s : Semaphore) (w : SemWaiter) : Semaphore :=
  { s with tokens := s.tokens.erase w, received := s.received ++ [w] }

def fail (s : Semaphore) (f : Fault) : Semaphore := { s with faults := f :: s.faults }

/-- A waiter with a channel, from the allocator. -/
def make (s : Semaphore) (w : SemWaiter) : Semaphore :=
  { s with nextId := s.nextId + 1, created := s.created ++ [w] }

/-! ## Handing slots on -/

/-- Already-admitted work first, then the round-robin queue. -/
def nextWaiter (s : Semaphore) : Option (SemWaiter × Semaphore) :=
  match s.admitted with
  | w :: rest => some (w, { s with admitted := rest })
  | [] =>
    if s.queue.1.n = 0 then none
    else s.queue.pop.map fun (w, q) =>
      (w, { s with queue := q, tickets := untrack s.tickets w })

/-- The loop of `wakeNextLocked`, for at most `fuel` rounds. -/
def wakeNextLoop : Nat → Semaphore → Semaphore
  | 0, s => s
  | fuel + 1, s =>
    if s.active < s.maxConcurrent then
      match s.nextWaiter with
      | none => s
      | some (w, s) =>
        wakeNextLoop fuel ({ s with queued := s.queued - 1, active := s.active + 1 }.offer w)
    else s

/-- Every round serves a waiter, so there are no more rounds than waiters. -/
def wakeNextLocked (s : Semaphore) : Semaphore :=
  wakeNextLoop (s.admitted.length + s.queue.waiters.length) s

/-- The loop of `wakeUserWaiter` over the user's FIFO. `queued` is left as is: the run
keeps its place for the wait for a slot. -/
def wakeUserLoop (key : UserKey) : List SemWaiter → Semaphore → Semaphore
  | [], s => s
  | w :: q, s =>
    if 0 < s.maxPerUser ∧ s.maxPerUser ≤ count s.perUser key then s
    else wakeUserLoop key q
      ({ s with
          userWait := s.userWait.put key q
          perUser := increment s.perUser key
          tickets := untrack s.tickets w }.send w)

def wakeUserWaiter (s : Semaphore) (key : UserKey) : Semaphore :=
  wakeUserLoop key (s.userWait.get key) s

def decrementPerUser (s : Semaphore) (key : UserKey) : Semaphore :=
  if key.user = "" ∨ s.perUserMade = false then s
  else { s with perUser := decrement s.perUser key }.wakeUserWaiter key

/-- The per-user half of a release, a cancelled wait or a refusal: `giveBackUserLocked`,
and the same lines in `endRun` and `cancelWaiter`. -/
def giveBackUserLocked (s : Semaphore) (acct : Account) : Semaphore :=
  if acct.key.user = "" then s
  else if acct.qs then { s with released := s.released ++ [acct.key] }
  else s.decrementPerUser acct.key

def endRun (s : Semaphore) (acct : Account) (holdsGlobal : Bool) : Semaphore :=
  if holdsGlobal then
    ({ s with active := s.active - 1 }.giveBackUserLocked acct).wakeNextLocked
  else s.giveBackUserLocked acct

/-- Drop `w` from whichever queue holds it; `none` when neither does. -/
def removeWaiter (s : Semaphore) (w : SemWaiter) : Option Semaphore :=
  if w ∈ s.admitted then
    some { s with admitted := s.admitted.erase w, withdrawn := s.withdrawn ++ [w] }
  else
    (s.queue.remove w).map fun q =>
      { s with
        queue := q, tickets := untrack s.tickets w, withdrawn := s.withdrawn ++ [w] }

def cancelWaiter (s : Semaphore) (w : SemWaiter) (acct : Account) : Semaphore :=
  match s.removeWaiter w with
  | some s => { s with queued := s.queued - 1 }.giveBackUserLocked acct
  | none =>
    if w ∈ s.tokens then
      (({ s with active := s.active - 1 }.take w).wakeNextLocked).giveBackUserLocked acct
    else s.fail .strandedToken

def cancelUserWaiter (s : Semaphore) (w : SemWaiter) (key : UserKey) : Semaphore :=
  if w ∈ s.userWait.get key then
    { s with
      userWait := s.userWait.put key ((s.userWait.get key).erase w)
      queued := s.queued - 1
      tickets := untrack s.tickets w
      withdrawn := s.withdrawn ++ [w] }
  else if w ∈ s.tokens then
    { s.take w with queued := s.queued - 1 }.decrementPerUser key
  else s.fail .userWaiterBlocked

/-! ## Setters -/

/-- `order` is the order in which Go ranges over `userWait`. -/
def withPerUserCap (s : Semaphore) (n : Int) (order : List UserKey) : Semaphore :=
  order.foldl wakeUserWaiter { s with maxPerUser := n }

def withQueuedPerUserCap (s : Semaphore) (n : Int) : Semaphore :=
  { s with maxQueuedPerUser := n }

def withUserQuotaStore (s : Semaphore) (qs : Bool) : Semaphore := { s with quotaStore := qs }

def setCaps (s : Semaphore) (maxConcurrent maxQueue : Int) : Semaphore :=
  { s with maxConcurrent, maxQueue }.wakeNextLocked

end Semaphore

end Loomcycle.Concurrency
