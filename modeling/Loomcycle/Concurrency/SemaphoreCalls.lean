import Loomcycle.Concurrency.Semaphore
import Loomcycle.Lib.Transition

/-! # Calls on the run semaphore

The calls that may be in progress on one `Semaphore` and how they interleave. A call is
the point its goroutine has reached between two mutex-held sections, with the locals it
carries across them; a step is one such section, one receive from a waiter's channel or
one answer of the cluster's quota store. A `RunSlot` belongs to the run admitted with
it and its own mutex serialises its methods, so its state is part of the run's. -/

namespace Loomcycle.Concurrency
structure AdmitRequest where
  tenantID : String := ""
  userID : String := ""
  ticket : String := ""
  reject : Bool := false
  /-- a `RunSlot` is bound to the run -/
  slot : Bool := false
  deriving DecidableEq, Repr

def AdmitRequest.key (r : AdmitRequest) : UserKey := ⟨r.tenantID, r.userID⟩

/-- The entry points. -/
inductive Call
  | acquireForUser (key : UserKey)
  | reserveUser (key : UserKey)
  | tryAcquire
  | wait
  | waitForUser (key : UserKey)
  | admitRun (r : AdmitRequest)
  | admitSlot (key : UserKey)
  deriving DecidableEq, Repr

/-- Which function's `select` a waiter sits in: it decides what may end the wait. -/
inductive WaitKind
  | acquire
  | wait
  | admitRun
  deriving DecidableEq, Repr

inductive Outcome
  | released
  /-- `ReserveUser` counted nothing -/
  | uncounted
  | refused (e : AdmitError)
  deriving DecidableEq, Repr

/-- Where a call stands. -/
inductive Proc
  | entering (c : Call)
  /-- `AcquireForUser` is asking the quota store -/
  | acquireAsk (key : UserKey) (cap : Int)
  | acquireTake (key : UserKey) (qs : Bool) (cap : Int)
  | reserveAsk (key : UserKey) (cap : Int)
  | reserveTake (key : UserKey) (cap : Int)
  | reserved (acct : Account)
  /-- `WaitForUser` is counting itself at the quota store -/
  | countAsk (key : UserKey)
  | waitTake (acct : Account) (countHere : Bool)
  | admitAsk (r : AdmitRequest) (cap : Int)
  | admitPoll (r : AdmitRequest) (cap : Int)
  | polling (r : AdmitRequest) (cap : Int) (w : SemWaiter)
  /-- the deferred section of `admitUserShared`; `none` is a run that got its count -/
  | pollEnd (r : AdmitRequest) (w : SemWaiter) (err : Option AdmitError)
  | admitUser (r : AdmitRequest) (cap : Int)
  | userWaiting (r : AdmitRequest) (w : SemWaiter)
  | admitGlobal (key : UserKey) (acct : Account) (r : AdmitRequest) (holdsPlace : Bool)
  | waiting (w : SemWaiter) (acct : Account) (kind : WaitKind) (slot : Bool)
  | holding (acct : Account) (slot : Bool)
  | lent (acct : Account)
  | reclaiming (w : SemWaiter) (acct : Account)
  /-- between the two sections of `RunSlot.end` of a run whose slot is lent -/
  | endingLent (acct : Account)
  | done (o : Outcome)
  deriving DecidableEq, Repr

/-- Why a wait ends without its slot. -/
inductive CancelReason
  | ctx
  | timeout
  | onQueued
  deriving DecidableEq, Repr

inductive QuotaAnswer
  | yes
  | no
  | failed
  deriving DecidableEq, Repr

inductive Action
  | proceed
  | quota (a : QuotaAnswer)
  | receive
  | cancel (why : CancelReason)
  | release
  | lend
  | tryReclaim
  | reclaim
  deriving DecidableEq, Repr

/-- The error the caller sees, for a wait that may end so. -/
def WaitKind.ended (s : Semaphore) : WaitKind → CancelReason → Option AdmitError
  | _, .ctx => some .ctx
  | .acquire, .timeout => if 0 < s.timeout then some (.backpressure "queue timeout") else none
  | .admitRun, .onQueued => some .onQueued
  | _, _ => none

namespace Semaphore

def refuse (s : Semaphore) (e : AdmitError) : Semaphore × Proc := (s, .done (.refused e))

/-- The cap counts this user in this process. -/
def countsUser (cap : Int) (key : UserKey) : Bool := 0 < cap ∧ key.user ≠ ""

/-- The second section of `AcquireForUser`, once the map of counts is there. -/
def acquireCounted (s : Semaphore) (key : UserKey) (qs : Bool) (cap : Int) : Semaphore × Proc :=
  let counted := countsUser cap key
  let here := counted && !qs
  let acct : Account := ⟨key, qs, if counted then .capped else .uncounted⟩
  if here ∧ cap ≤ count s.perUser key then s.refuse (.perUserQuotaExhausted key cap)
  else
    let perUser := if here then increment s.perUser key else s.perUser
    if s.active < s.maxConcurrent then
      ({ s with active := s.active + 1, perUser }, .holding acct false)
    else if s.maxQueue ≤ s.queued + s.lent then
      { s with
        released := if counted ∧ qs then s.released ++ [key] else s.released }.refuse
          (.backpressure "queue full")
    else
      let w : SemWaiter := { id := s.nextId, key }
      ({ s.make w with queue := s.queue.push w, queued := s.queued + 1, perUser },
        .waiting w acct .acquire false)

def acquireSection (s : Semaphore) (key : UserKey) (qs : Bool) (cap : Int) : Semaphore × Proc :=
  (if countsUser cap key && !qs then { s with perUserMade := true } else s).acquireCounted
    key qs cap

/-- The section `Wait` and `WaitForUser` share: a free slot, or the queue of work that
was already admitted. -/
def waitSection (s : Semaphore) (acct : Account) : Semaphore × Proc :=
  if s.active < s.maxConcurrent then
    ({ s with active := s.active + 1 }, .holding acct false)
  else
    let w : SemWaiter := { id := s.nextId }
    ({ s.make w with admitted := s.admitted ++ [w], queued := s.queued + 1 },
      .waiting w acct .wait false)

/-- The first section of `admitUserLocal`. -/
def admitUserSection (s : Semaphore) (r : AdmitRequest) (cap : Int) : Semaphore × Proc :=
  let s := { s with perUserMade := true }
  if count s.perUser r.key < cap then
    ({ s with perUser := increment s.perUser r.key },
      .admitGlobal r.key ⟨r.key, false, .capped⟩ r false)
  else if r.reject ∨ s.maxQueuedPerUser ≤ (s.userWait.get r.key).length then
    s.refuse (.perUserQuotaExhausted r.key cap)
  else if s.maxQueue ≤ s.queued + s.lent then s.refuse (.backpressure "queue full")
  else
    let w : SemWaiter :=
      { id := s.nextId, key := r.key, ticket := r.ticket, reason := some .userCap }
    ({ s.make w with
        userWait := s.userWait.put r.key (s.userWait.get r.key ++ [w])
        queued := s.queued + 1
        tickets := track s.tickets w },
      .userWaiting r w)

/-- The first section of `admitUserShared`, for a run the quota store did not count. -/
def admitPollSection (s : Semaphore) (r : AdmitRequest) (cap : Int) : Semaphore × Proc :=
  if s.maxQueuedPerUser ≤ count s.userPolling r.key then
    s.refuse (.perUserQuotaExhausted r.key cap)
  else if s.maxQueue ≤ s.queued + s.lent then s.refuse (.backpressure "queue full")
  else
    -- this waiter has no channel and is in no queue
    let w : SemWaiter :=
      { id := s.nextId, key := r.key, ticket := r.ticket, reason := some .userCap }
    ({ s with
        nextId := s.nextId + 1
        userPolling := increment s.userPolling r.key
        queued := s.queued + 1
        tickets := track s.tickets w },
      .polling r cap w)

/-- The deferred section of `admitUserShared`. -/
def pollEndSection (s : Semaphore) (r : AdmitRequest) (w : SemWaiter)
    (err : Option AdmitError) : Semaphore × Proc :=
  let s := { s with
    userPolling := decrement s.userPolling r.key
    tickets := untrack s.tickets w }
  match err with
  | none => (s, .admitGlobal r.key ⟨r.key, true, .capped⟩ r true)
  | some e => { s with queued := s.queued - 1 }.refuse e

/-- The section of `admitGlobal`. -/
def admitGlobalSection (s : Semaphore) (key : UserKey) (acct : Account) (r : AdmitRequest)
    (holdsPlace : Bool) : Semaphore × Proc :=
  if s.active < s.maxConcurrent then
    ({ s with
        active := s.active + 1
        queued := if holdsPlace then s.queued - 1 else s.queued },
      .holding acct r.slot)
  else if !holdsPlace ∧ (r.reject ∨ s.maxQueue ≤ s.queued + s.lent) then
    (s.giveBackUserLocked acct).refuse
      (.backpressure (if r.reject then "no free slot" else "queue full"))
  else if acct.key.user = "" ∧ 0 < s.maxQueuedPerUser ∧
      s.maxQueuedPerUser ≤ (s.queue.1.bucket key).length then
    s.refuse (.backpressure "queue full for this user")
  else
    let w : SemWaiter :=
      { id := s.nextId, key, ticket := r.ticket, reason := some .globalCap }
    ({ s.make w with
        queue := s.queue.push w
        queued := if holdsPlace then s.queued else s.queued + 1
        tickets := track s.tickets w },
      .waiting w acct .admitRun r.slot)

/-- `RunSlot.Lend`: refused while queued and lent runs are at the queue bound. -/
def lendSection (s : Semaphore) (acct : Account) : Semaphore × Proc :=
  if s.maxQueue ≤ s.queued + s.lent then (s, .holding acct true)
  else ({ s with lent := s.lent + 1, active := s.active - 1 }.wakeNextLocked, .lent acct)

/-- `RunSlot.TryReclaim`. -/
def tryReclaimSection (s : Semaphore) (acct : Account) : Semaphore × Proc :=
  if s.maxConcurrent ≤ s.active then (s, .lent acct)
  else ({ s with active := s.active + 1, lent := s.lent - 1 }, .holding acct true)

/-- The first section of `RunSlot.Reclaim`. -/
def reclaimSection (s : Semaphore) (acct : Account) : Semaphore × Proc :=
  if s.active < s.maxConcurrent then
    ({ s with active := s.active + 1, lent := s.lent - 1 }, .holding acct true)
  else
    let w : SemWaiter := { id := s.nextId }
    ({ s.make w with
        admitted := s.admitted ++ [w], queued := s.queued + 1, lent := s.lent - 1 },
      .reclaiming w acct)

/-- A `Reclaim` whose ctx ended, with the receive that follows a lost race. -/
def reclaimCancelled (s : Semaphore) (w : SemWaiter) (acct : Account) : Semaphore × Proc :=
  match s.removeWaiter w with
  | some s => ({ s with queued := s.queued - 1, lent := s.lent + 1 }, .lent acct)
  | none =>
    if w ∈ s.tokens then (s.take w, .holding acct true)
    else (s.fail .reclaimBlocked, .reclaiming w acct)

/-- The first section of a call, which reads the cap and the quota store. -/
def enter (s : Semaphore) : Call → Semaphore × Proc
  | .acquireForUser key =>
    if countsUser s.maxPerUser key && s.quotaStore then (s, .acquireAsk key s.maxPerUser)
    else (s, .acquireTake key s.quotaStore s.maxPerUser)
  | .reserveUser key =>
    if !countsUser s.maxPerUser key then (s, .done .uncounted)
    else if s.quotaStore then (s, .reserveAsk key s.maxPerUser)
    else (s, .reserveTake key s.maxPerUser)
  | .tryAcquire =>
    if s.active < s.maxConcurrent then
      ({ s with active := s.active + 1 }, .holding .none false)
    else s.refuse (.backpressure "no free slot")
  | .wait => s.waitSection .none
  | .waitForUser key =>
    if !countsUser s.maxPerUser key then (s, .waitTake .none false)
    else if s.quotaStore then (s, .countAsk key)
    else (s, .waitTake ⟨key, false, .resumed⟩ true)
  | .admitRun r =>
    if !countsUser s.maxPerUser r.key then (s, .admitGlobal r.key .none r false)
    else if s.quotaStore then (s, .admitAsk r s.maxPerUser)
    else (s, .admitUser r s.maxPerUser)
  | .admitSlot key =>
    (s, .admitGlobal key .none { tenantID := key.tenant, userID := key.user } false)

/-- The section a call runs next when it waits for nothing. -/
def proceed (s : Semaphore) : Proc → Option (Semaphore × Proc)
  | .entering c => some (s.enter c)
  | .acquireTake key qs cap => some (s.acquireSection key qs cap)
  | .reserveTake key cap =>
    let s := { s with perUserMade := true }
    if cap ≤ count s.perUser key then some (s.refuse (.perUserQuotaExhausted key cap))
    else some ({ s with perUser := increment s.perUser key }, .reserved ⟨key, false, .capped⟩)
  | .waitTake acct countHere =>
    if countHere then
      some ({ s with
        perUserMade := true, perUser := increment s.perUser acct.key }.waitSection acct)
    else some (s.waitSection acct)
  | .admitPoll r cap => some (s.admitPollSection r cap)
  | .pollEnd r w err => some (s.pollEndSection r w err)
  | .admitUser r cap => some (s.admitUserSection r cap)
  | .admitGlobal key acct r holdsPlace => some (s.admitGlobalSection key acct r holdsPlace)
  | .endingLent acct => some (s.endRun acct false, .done .released)
  | _ => none

/-- The quota store answers. -/
def answer (s : Semaphore) : Proc → QuotaAnswer → Option (Semaphore × Proc)
  | .acquireAsk key cap, .yes => some (s, .acquireTake key true cap)
  | .acquireAsk key cap, .no => some (s.refuse (.perUserQuotaExhausted key cap))
  | .acquireAsk _ _, .failed => some (s.refuse .quotaStore)
  | .reserveAsk key _, .yes => some (s, .reserved ⟨key, true, .capped⟩)
  | .reserveAsk key cap, .no => some (s.refuse (.perUserQuotaExhausted key cap))
  | .reserveAsk _ _, .failed => some (s.refuse .quotaStore)
  -- a count that cannot be written is skipped, and nothing is given back for it
  | .countAsk _, .failed => some (s, .waitTake .none false)
  | .countAsk key, _ => some (s, .waitTake ⟨key, true, .resumed⟩ false)
  | .admitAsk r _, .yes => some (s, .admitGlobal r.key ⟨r.key, true, .capped⟩ r false)
  | .admitAsk r cap, .no =>
    if r.reject then some (s.refuse (.perUserQuotaExhausted r.key cap))
    else some (s, .admitPoll r cap)
  | .admitAsk _ _, .failed => some (s.refuse .quotaStore)
  | .polling r _ w, .yes => some (s, .pollEnd r w none)
  | .polling r cap w, _ => some (s, .polling r cap w)
  | _, _ => none

/-- The goroutine receives from its waiter's channel. -/
def receive (s : Semaphore) : Proc → Option (Semaphore × Proc)
  | .userWaiting r w =>
    if w ∈ s.tokens then some (s.take w, .admitGlobal r.key ⟨r.key, false, .capped⟩ r true)
    else none
  | .waiting w acct _ slot => if w ∈ s.tokens then some (s.take w, .holding acct slot) else none
  | .reclaiming w acct => if w ∈ s.tokens then some (s.take w, .holding acct true) else none
  | _ => none

/-- A wait ends without its slot. -/
def cancel (s : Semaphore) : Proc → CancelReason → Option (Semaphore × Proc)
  | .polling r _ w, why => (WaitKind.admitRun.ended s why).map fun e => (s, .pollEnd r w (some e))
  | .userWaiting r w, why =>
    (WaitKind.admitRun.ended s why).map fun e => (s.cancelUserWaiter w r.key).refuse e
  | .waiting w acct kind _, why =>
    (kind.ended s why).map fun e => (s.cancelWaiter w acct).refuse e
  | .reclaiming w acct, .ctx => some (s.reclaimCancelled w acct)
  | _, _ => none

/-- The release the call returned. -/
def release (s : Semaphore) : Proc → Option (Semaphore × Proc)
  | .reserved acct => some (s.giveBackUserLocked acct, .done .released)
  | .holding acct _ => some (s.endRun acct true, .done .released)
  | .lent acct => some ({ s with lent := s.lent - 1 }, .endingLent acct)
  | _ => none

/-- One step of one call. -/
def act (s : Semaphore) (p : Proc) : Action → Option (Semaphore × Proc)
  | .proceed => s.proceed p
  | .quota a => s.answer p a
  | .receive => s.receive p
  | .cancel why => s.cancel p why
  | .release => s.release p
  | .lend => match p with
    | .holding acct true => some (s.lendSection acct)
    | _ => none
  | .tryReclaim => match p with
    | .lent acct => some (s.tryReclaimSection acct)
    | _ => none
  | .reclaim => match p with
    | .lent acct => some (s.reclaimSection acct)
    | _ => none

end Semaphore

/-- A semaphore and the calls made on it. -/
structure World where
  sem : Semaphore
  procs : List Proc

inductive Label
  | call (c : Call)
  | act (i : Nat) (a : Action)
  | setCaps (maxConcurrent maxQueue : Int)
  | withPerUserCap (n : Int) (order : List UserKey)
  | withQueuedPerUserCap (n : Int)
  | withUserQuotaStore (qs : Bool)
  deriving DecidableEq, Repr

def step (w : World) : Label → Option World
  | .call c => some { w with procs := w.procs ++ [.entering c] }
  | .act i a =>
    match w.procs[i]? with
    | none => none
    | some p => (w.sem.act p a).map fun (s, p') => ⟨s, w.procs.set i p'⟩
  | .setCaps maxConcurrent maxQueue =>
    some { w with sem := w.sem.setCaps maxConcurrent maxQueue }
  | .withPerUserCap n order =>
    if order.Perm w.sem.userWait.keys then
      some { w with sem := w.sem.withPerUserCap n order }
    else none
  | .withQueuedPerUserCap n => some { w with sem := w.sem.withQueuedPerUserCap n }
  | .withUserQuotaStore qs => some { w with sem := w.sem.withUserQuotaStore qs }

/-- A new semaphore, on which no call has been made. -/
def World.init (maxConcurrent maxQueue timeout : Int) : World :=
  ⟨.new maxConcurrent maxQueue timeout, []⟩

end Loomcycle.Concurrency
