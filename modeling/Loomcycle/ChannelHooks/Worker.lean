import Loomcycle.Channels.Delivery

/-! The worker that decides a message of a hooked channel. The message waits at the hook
instant; a claim gives it to a job, which resolves the channel's chain of hooks, calls them one
at a time and saves its place between them. A job may lose its lease, crash or fail to save at
any step, another may claim the message again, and the channel may be redefined meanwhile. -/

namespace Loomcycle.ChannelHooks
open Channels (channelHeldVisibleAt channelHookHeldVisibleAt)

abbrev Body := String

inductive FailMode
  | failOpen
  | failClosed
deriving DecidableEq

structure Hook where
  owner : String
  name : String
  defID : String
  callbackURL : String
  failMode : FailMode
deriving DecidableEq

namespace Hook

def label (h : Hook) : String := h.owner ++ "/" ++ h.name

/-- The line of the hook in its chain's signature. The fail mode is not on it. -/
def line (h : Hook) : String :=
  h.owner ++ "\x00" ++ h.name ++ "\x00" ++ h.defID ++ "\x00" ++ h.callbackURL ++
    "\x00channel_publish\n"

end Hook

abbrev Chain := List Hook

/-- `encoding/json` on the bodies of a Starter's sink messages. -/
structure Codec where
  /-- `none` is JSON null -/
  unmarshal : Body → Except String (Option (List (String × Body)))
  marshal : List (String × Body) → Body
  quote : String → Body

/-- `digest` is the hex text of the first 12 bytes of the SHA-256. -/
structure Config where
  maxWait : Nat
  lease : Nat
  maxBodyBytes : Nat
  interruption : Bool
  runs : Bool
  digest : String → String
  json : Codec

variable (cfg : Config)

def chainSignature (chain : Chain) : String :=
  cfg.digest (String.join (chain.map Hook.line))

/-- `IsChannelReservedVisibleAt`: an instant no publisher may ask for. -/
def isChannelReservedVisibleAt (t : Nat) : Bool :=
  t = channelHeldVisibleAt ∨ t = channelHookHeldVisibleAt

/-- The message as it is stored; a `requestedVisibleAt` of zero is the zero time. -/
structure Message where
  payload : Body
  visibleAt : Nat
  publishedAt : Nat
  expiresAt : Option Nat
  requestedVisibleAt : Nat
  starterSink : Bool
  notReserved : isChannelReservedVisibleAt requestedVisibleAt = false
deriving DecidableEq

def Message.awaits (m : Message) (now : Nat) : Bool :=
  m.visibleAt = channelHookHeldVisibleAt ∧ m.expiresAt.all fun t => now < t

/-! ### What a job keeps in the message's progress -/

/-- What a hold's question shows of the body. -/
inductive Shown
  | body (b : Body)
  | bodyBytes (n : Nat)
deriving DecidableEq

/-- A question to a person: a hold's, or any other a hook's own code asks. -/
inductive AskInput
  | hold (hook reason : String) (shown : Shown)
  | other (text : String)
deriving DecidableEq

inductive Reply
  | failed (text : String)
  | unreadable (reason : String)
  | answer (answer : String) (declined : Bool)
deriving DecidableEq

structure AskRecord where
  input : AskInput
  reply : Reply
deriving DecidableEq

def maxHoldContextBody : Nat := 4096

def Hook.holdAsk (h : Hook) (reason : String) (body : Body) : AskInput :=
  .hold h.label reason
    (if body.utf8ByteSize ≤ maxHoldContextBody then .body body else .bodyBytes body.utf8ByteSize)

inductive HoldAnswer
  | release
  | drop
  | unanswered (reason : String)
deriving DecidableEq

def holdAnswer : Reply → HoldAnswer
  | .failed text => .unanswered text
  | .unreadable reason => .unanswered ("unreadable answer: " ++ reason)
  | .answer answer declined =>
    if declined then .unanswered "the person declined to answer"
    else if answer = "release" then .release
    else if answer = "drop" then .drop
    else .unanswered ("answer " ++ answer ++ " is not release or drop")

/-- A `pos` of `none` is the -1 of a journal about no hook. -/
structure Journal where
  pos : Option Nat := none
  asks : List AskRecord := []
  chain : String := ""
  anchor : Nat := 0
  heldBy : String := ""
  reason : String := ""
deriving DecidableEq

structure Progress where
  runID : String := ""
  chainPos : Nat := 0
  body : Option Body := none
  journal : Option Journal := none
  attempts : Nat := 0
  nextAttemptAt : Nat := 0
  lastError : String := ""
deriving DecidableEq

def Journal.journalJSON (j : Journal) : Option Journal :=
  if j.pos = none ∧ j.chain = "" ∧ j.heldBy = "" then none else some j

/-- The journal of one hook's asks, with none of another hook's. -/
def Journal.atPos (j : Journal) (pos : Nat) : Journal :=
  if j.pos = some pos then j else { pos := some pos, chain := j.chain }

def Journal.recorded (j : Journal) (pos : Nat) : List AskRecord :=
  if j.pos = some pos then j.asks else []

/-- The row of `channel_hook_state`. -/
structure Row where
  leaseOwner : Nat
  leaseUntil : Nat
  progress : Progress
deriving DecidableEq

/-- The definition of the channel. Its chain is `none` when a hook it names cannot be resolved. -/
inductive Definition
  | undeclared
  | declared (hold : Bool) (chain : Option Chain)
deriving DecidableEq

def Definition.chain? : Definition → Option Chain
  | .undeclared => none
  | .declared _ chain => chain

def Definition.hold : Definition → Bool
  | .undeclared => false
  | .declared hold _ => hold

/-- What a hook call comes to, a rewritten body checked. -/
inductive HookAnswer
  | failed (reason : String)
  | release (updated : Option Body)
  | drop (reason : String)
  | hold (reason : String)
deriving DecidableEq

/-- How a message leaves the hook instant. -/
inductive Leave
  | delivered (chain : Chain) (payload : Body)
  | unhooked (payload : Body)
  | sinkError (payload : Body)
  | dropped
  | deleted
deriving DecidableEq

/-- What happens, in order. `started` is a job that enters its chain at a place. -/
inductive Event
  | defined (d : Definition)
  | started (chain : Chain) (pos : Nat) (body : Body)
  | called (chain : Chain) (pos : Nat) (body : Body) (answer : HookAnswer)
  | answered (chain : Chain) (pos : Nat) (record : AskRecord)
  | left (how : Leave)
deriving DecidableEq

structure Store where
  clock : Nat := 0
  message : Option Message
  row : Option Row := none
  definition : Definition
  leases : Nat := 0
  log : List Event
deriving DecidableEq

def Store.note (st : Store) (e : Event) : Store := { st with log := st.log ++ [e] }

/-! ### The job -/

/-- A place in a chain, with the loop's variables. -/
structure Place where
  hold : Bool
  chain : Chain
  pos : Nat
  body : Body
  attempts : Nat
  changed : Bool
deriving DecidableEq

/-- Why a job releases the message. -/
inductive Why
  | chain (c : Chain)
  | unhooked
  | sinkError
deriving DecidableEq

structure Release where
  hold : Bool
  body : Body
  changed : Bool
  why : Why
deriving DecidableEq

inductive Stage
  | claimed
  | calling (p : Place)
  /-- the hook's code waits for an answer -/
  | callAsking (p : Place) (input : AskInput)
  | called (p : Place) (a : HookAnswer)
  | holding (p : Place) (reason : String)
  | waiting (p : Place) (reason : String)
  | answered (p : Place) (reason : String) (a : HoldAnswer)
  | releasing (r : Release)
  | dropping
  | done
deriving DecidableEq

/-- `stopped`: the job's context is done, since the lease was lost or the server shuts down. -/
structure Job where
  msg : Message
  lease : Nat
  progress : Progress
  jrnl : Journal
  stopped : Bool := false
  stage : Stage := .claimed
deriving DecidableEq

def bodyOrNil (body : Body) (changed : Bool) : Option Body := if changed then some body else none

def Job.body (j : Job) : Body := j.progress.body.getD j.msg.payload

def second : Nat := 1000000000

def minute : Nat := 60 * second

def margin (ttl : Nat) : Nat := max (min (ttl / 10) minute) second

def deadlineFor (m : Message) : Nat :=
  let d := m.publishedAt + cfg.maxWait
  m.expiresAt.elim d fun e => min (e - margin (e - m.publishedAt)) d

def backoffLoop : Nat → Nat → Nat
  | 0, d => d
  | n + 1, d => if d < minute then backoffLoop n (2 * d) else d

/-- The wait before the next attempt: a second, doubled, and a minute at most. -/
def backoff (attempts : Nat) : Nat := min (backoffLoop (attempts - 1) second) minute

/-! ### Bodies -/

def sinkKeys : List String := ["wave", "wave_size", "index", "agent", "run_id"]

def delete (k : String) (m : List (String × Body)) : List (String × Body) :=
  m.filter fun e => e.1 ≠ k

def insert (k : String) (v : Body) (m : List (String × Body)) : List (String × Body) :=
  (k, v) :: delete k m

/-- The members of a rewritten sink message, with the envelope the runtime wrote. -/
def keepEnvelope (orig upd : List (String × Body)) : List (String × Body) :=
  sinkKeys.foldl (fun m k => (orig.lookup k).elim (delete k m) fun v => insert k v m) upd

def checkBody (m : Message) (body : Body) : Except String Body :=
  if 0 < cfg.maxBodyBytes ∧ cfg.maxBodyBytes < body.utf8ByteSize then
    .error ("updated_body is " ++ toString body.utf8ByteSize ++ " bytes; the channel takes at most "
      ++ toString cfg.maxBodyBytes)
  else if m.starterSink then
    match cfg.json.unmarshal m.payload, cfg.json.unmarshal body with
    | .error err, _ => .error ("the sink message is not an object: " ++ err)
    | .ok orig, .ok (some upd) => .ok (cfg.json.marshal (keepEnvelope (orig.getD []) upd))
    | .ok _, _ => .error "updated_body of a Starter's result must be an object"
  else .ok body

/-- A rewritten body that is refused is a failure of the hook. -/
def checked (m : Message) : HookAnswer → HookAnswer
  | .release (some updated) =>
    match checkBody cfg m updated with
    | .ok body => .release (some body)
    | .error err => .failed err
  | a => a

/-- The error result a dropped sink message is delivered as. -/
def sinkError (payload : Body) (reason : String) : Body :=
  let m := match cfg.json.unmarshal payload with
    | .ok m => m.getD []
    | .error _ => []
  cfg.json.marshal (insert "error" (cfg.json.quote ("dropped by a channel hook: " ++ reason))
    (insert "status" (cfg.json.quote "error") (delete "structured" (delete "output" m))))

/-! ### The store's operations -/

/-- How a call of the store ends; a fault may come after the write took effect. -/
inductive Outcome
  | ok
  | fault (applied : Bool)
deriving DecidableEq

namespace Store

def holds (st : Store) (lease : Nat) : Bool := st.row.any fun row => row.leaseOwner = lease

def channelHookSaveProgress (st : Store) (lease : Nat) (p : Progress) (leaseUntil : Nat) :
    Option Store :=
  if st.holds lease then some { st with row := some ⟨lease, leaseUntil, p⟩ } else none

def channelHookRenew (st : Store) (lease leaseUntil : Nat) : Option Store :=
  st.row.bind fun row =>
    if row.leaseOwner = lease then some { st with row := some { row with leaseUntil } } else none

/-- The compare-and-set of a release: at the hook instant, unexpired, and the lease its own. -/
def channelReleaseHookHeld (st : Store) (lease : Nat) (payload : Option Body) (dest : Nat)
    (how : Body → Leave) : Option Store :=
  st.message.bind fun m =>
    if m.awaits st.clock ∧ st.holds lease then
      let m' := { m with visibleAt := max dest st.clock, payload := payload.getD m.payload }
      some (note { st with message := some m', row := none } (.left (how m'.payload)))
    else none

def channelDropHookHeld (st : Store) (lease : Nat) : Option Store :=
  st.message.bind fun m =>
    if m.visibleAt = channelHookHeldVisibleAt ∧ st.holds lease then
      some (note { st with message := none, row := none } (.left .dropped))
    else none

/-- A claim takes a new lease; the progress saved before stays. `now` is the claimer's clock. -/
def channelHookClaim (st : Store) (now leaseUntil : Nat) : Option (Store × Job) :=
  st.message.bind fun m =>
    let progress := (st.row.map Row.progress).getD {}
    let free := st.row.all fun row => row.leaseUntil < now ∧ row.progress.nextAttemptAt ≤ now
    if m.awaits now ∧ free then
      let lease := st.leases + 1
      some ({ st with leases := lease, row := some ⟨lease, leaseUntil, progress⟩ },
        { msg := m, lease, progress, jrnl := progress.journal.getD {} })
    else none

/-- The row of a message that no longer waits is collected. -/
def channelHookGC (st : Store) : Store :=
  if st.message.any fun m => m.visibleAt = channelHookHeldVisibleAt then st
  else { st with row := none }

/-- The message is swept, trimmed or purged. -/
def delete (st : Store) : Option Store :=
  st.message.map fun m =>
    if m.visibleAt = channelHookHeldVisibleAt then note { st with message := none } (.left .deleted)
    else { st with message := none }

end Store

/-! ### The steps of a job -/

/-- The last component tells whether the save succeeded. -/
def saveProgress (o : Outcome) (st : Store) (j : Job) (pos : Nat) (body : Option Body)
    (attempts next : Nat) (lastErr : String) : Store × Job × Bool :=
  let p : Progress :=
    { runID := j.progress.runID, chainPos := pos, body, journal := j.jrnl.journalJSON, attempts,
      nextAttemptAt := next, lastError := lastErr }
  let leaseUntil := if next = 0 then st.clock + cfg.lease else st.clock
  let saved := st.channelHookSaveProgress j.lease p leaseUntil
  match o, saved with
  | .ok, some st' => (st', { j with progress := p }, true)
  | .ok, none => (st, { j with progress := p, stopped := true }, false)
  | .fault applied, _ => (if applied then saved.getD st else st, j, false)

/-- `drop`; the message of a Starter's sink is released as an error instead. -/
def dropStage (j : Job) (hold : Bool) (reason : String) : Stage :=
  if j.msg.starterSink then .releasing ⟨hold, sinkError cfg j.msg.payload reason, true, .sinkError⟩
  else .dropping

def retryAt (o : Outcome) (st : Store) (j : Job) (hold : Bool) (pos : Nat) (body : Option Body)
    (attempts : Nat) (lastErr by_ : String) : Store × Job :=
  let next := st.clock + backoff attempts
  if next < deadlineFor cfg j.msg then
    let (st', j', _) := saveProgress cfg o st j pos body attempts next lastErr
    (st', { j' with stage := .done })
  else
    let hook := if by_ = "" then "hook" else "hook " ++ by_
    (st, { j with stage := dropStage cfg j hold (hook ++ " unavailable: " ++ lastErr) })

def retry (o : Outcome) (st : Store) (j : Job) (hold : Bool) (what : String) : Store × Job :=
  if j.stopped then (st, { j with stage := .done })
  else retryAt cfg o st j hold j.progress.chainPos j.progress.body (j.progress.attempts + 1) what ""

/-- The head of the loop over the chain. -/
def Place.loop (p : Place) : Stage :=
  if p.pos < p.chain.length then .calling p
  else .releasing ⟨p.hold, p.body, p.changed, .chain p.chain⟩

/-- The job enters its chain: at the saved place when that is a place in this chain, else at the
start with the original body. -/
def enterChain (st : Store) (j : Job) (hold : Bool) (chain : Chain) : Store × Job :=
  let sig := chainSignature cfg chain
  let saved : Place :=
    ⟨hold, chain, j.progress.chainPos, j.body, j.progress.attempts, j.progress.body.isSome⟩
  let startsOver := j.jrnl.chain ≠ sig ∧ (0 < saved.pos ∨ saved.changed ∨ j.jrnl.pos.isSome)
  let p : Place := if startsOver then ⟨hold, chain, 0, j.msg.payload, 0, false⟩ else saved
  let jrnl : Journal := if startsOver then {} else j.jrnl
  (st.note (.started chain p.pos p.body),
    { j with jrnl := { jrnl with chain := sig }, stage := p.loop })

/-- Faults of reading the definition and of looking its hooks up. -/
inductive Reads
  | ok
  | defFault
  | lookupFault
deriving DecidableEq

/-- `decide` up to the loop. -/
def decideStep (reads : Reads) (o : Outcome) (st : Store) (j : Job) : Store × Job :=
  if j.jrnl.heldBy ≠ "" then
    let deadline := deadlineFor cfg j.msg
    if st.clock < deadline then
      let (st', j', _) := saveProgress cfg o st j j.progress.chainPos j.progress.body
        j.progress.attempts deadline j.progress.lastError
      (st', { j' with stage := .done })
    else
      let hold := reads ≠ .defFault ∧ st.definition.hold
      let reason := "held by hook " ++ j.jrnl.heldBy ++ ", and nobody decided before the deadline"
      (st, { j with stage := dropStage cfg j hold reason })
  else if reads = .defFault then
    retry cfg o st j false "the channel's definition could not be read"
  else
    match st.definition with
    | .undeclared => retry cfg o st j false "the channel is not declared"
    | .declared hold (some []) =>
      (st, { j with stage := .releasing ⟨hold, j.body, j.progress.body.isSome, .unhooked⟩ })
    | .declared hold none => retry cfg o st j hold "a hook the channel names could not be resolved"
    | .declared hold (some (h :: hs)) =>
      if reads = .lookupFault then
        retry cfg o st j hold "a hook the channel names could not be resolved"
      else enterChain cfg st j hold (h :: hs)

/-- The hook call returns. -/
def Job.returns (st : Store) (j : Job) (p : Place) (a : HookAnswer) : Store × Job :=
  (st.note (.called p.chain p.pos p.body a), { j with stage := .called p a })

/-- A run to file an ask under; a new one's id is saved with the progress as last loaded or
saved. -/
def openRun (o : Outcome) (opened : Option String) (st : Store) (j : Job) : Store × Job × Bool :=
  match opened with
  | none => (st, j, false)
  | some id =>
    if !cfg.runs then (st, j, false)
    else if id = j.progress.runID then (st, j, true)
    else
      saveProgress cfg o st { j with progress := { j.progress with runID := id } }
        j.progress.chainPos j.progress.body j.progress.attempts 0 j.progress.lastError

/-- `Record` of an ask session: the answer is kept before anything else happens. -/
def record (o : Outcome) (st : Store) (j : Job) (p : Place) (r : AskRecord) : Store × Job × Bool :=
  let jrnl := j.jrnl.atPos p.pos
  saveProgress cfg o st { j with jrnl := { jrnl with asks := jrnl.asks ++ [r] } } p.pos
    (bodyOrNil p.body p.changed) 0 0 ""

/-- Past the hook at `p`, with the place saved between hooks. -/
def advance (o : Outcome) (st : Store) (j : Job) (p : Place) : Store × Job :=
  let j : Job := { j with jrnl := { chain := j.jrnl.chain } }
  if p.pos < p.chain.length then
    let (st', j', _) := saveProgress cfg o st j p.pos (bodyOrNil p.body p.changed) 0 0 ""
    (st', { j' with stage := p.loop })
  else (st, { j with stage := p.loop })

def Place.next (p : Place) (updated : Option Body) : Place :=
  { p with
    pos := p.pos + 1
    body := updated.getD p.body
    attempts := 0
    changed := p.changed || updated.isSome }

/-- The worker acts on what a hook answered. -/
def act (o : Outcome) (st : Store) (j : Job) (p : Place) (h : Hook) : HookAnswer → Store × Job
  | .failed reason =>
    if j.stopped then (st, { j with stage := .done })
    else match h.failMode with
      | .failOpen => (st, { j with stage := (p.next none).loop })
      | .failClosed =>
        retryAt cfg o st j p.hold p.pos (some p.body) (p.attempts + 1) reason h.label
  | .drop reason =>
    let reason := if reason = "" then "dropped by hook " ++ h.label else reason
    (st, { j with stage := dropStage cfg j p.hold reason })
  | .hold reason =>
    if cfg.interruption && cfg.runs then (st, { j with stage := .holding p reason })
    else
      let jrnl : Journal :=
        { pos := some p.pos, heldBy := h.label, reason, chain := j.jrnl.chain }
      let (st', j', _) := saveProgress cfg o st { j with jrnl } p.pos (bodyOrNil p.body p.changed)
        p.attempts (deadlineFor cfg j.msg) ""
      (st', { j' with stage := .done })
  | .release updated => advance cfg o st j (p.next updated)

/-- `askHold` up to the wait for a person. An answer recorded before is used again. -/
def askHold (o : Outcome) (opened : Option String) (st : Store) (j : Job) (p : Place) (h : Hook)
    (reason : String) : Store × Job :=
  let late := j.msg.expiresAt.any fun e => e - margin (e - j.msg.publishedAt) < st.clock + second
  if late then
    let a := .unanswered "the message expires before anyone could answer"
    (st, { j with stage := .answered p reason a })
  else
    match (j.jrnl.recorded p.pos).find? fun r => r.input = h.holdAsk reason p.body with
    | some r => (st, { j with stage := .answered p reason (holdAnswer r.reply) })
    | none =>
      let (st', j', opened) := openRun cfg o opened st j
      if opened then (st', { j' with stage := .waiting p reason })
      else (st', { j' with stage := .answered p reason (.unanswered "no run to ask under") })

/-- A person's reply to a question, or a failure to ask. -/
def replyHold (o : Outcome) (reply : Option Reply) (st : Store) (j : Job) (p : Place) (h : Hook)
    (reason : String) : Store × Job :=
  match reply with
  | none => (st, { j with stage := .answered p reason (.unanswered "the ask failed") })
  | some reply =>
    let r : AskRecord := ⟨h.holdAsk reason p.body, reply⟩
    let st := st.note (.answered p.chain p.pos r)
    if j.stopped then (st, { j with stage := .answered p reason (.unanswered "context done") })
    else
      let (st', j', kept) := record cfg o st j p r
      let a := if kept then holdAnswer reply else .unanswered "the answer was not kept"
      (st', { j' with stage := .answered p reason a })

def replyCode (o : Outcome) (reply : Option Reply) (st : Store) (j : Job) (p : Place)
    (input : AskInput) : Store × Job :=
  match reply with
  | none => j.returns st p (.failed "Interruption")
  | some reply =>
    let r : AskRecord := ⟨input, reply⟩
    let st := st.note (.answered p.chain p.pos r)
    if j.stopped then j.returns st p (.failed "context done")
    else
      let (st', j', kept) := record cfg o st j p r
      if kept then (st', { j' with stage := .calling p })
      else j'.returns st' p (.failed "keeping the answer")

/-- What follows a hold's answer. -/
def settleHold (o : Outcome) (st : Store) (j : Job) (p : Place) (h : Hook) (a : HoldAnswer) :
    Store × Job :=
  if j.stopped then (st, { j with stage := .done })
  else match a with
    | .release => advance cfg o st j (p.next none)
    | .drop =>
      let reason := "dropped by a person at hook " ++ h.label ++ "'s hold"
      (st, { j with stage := dropStage cfg j p.hold reason })
    | .unanswered reason =>
      let reason := "held by hook " ++ h.label ++ ", and nobody answered: " ++ reason
      (st, { j with stage := dropStage cfg j p.hold reason })

def Why.leave : Why → Body → Leave
  | .chain c => .delivered c
  | .unhooked => .unhooked
  | .sinkError => .sinkError

/-- The store after an operation that may have taken effect. -/
def Outcome.apply (o : Outcome) (st : Store) (after : Option Store) : Store :=
  match o with
  | .ok | .fault true => after.getD st
  | .fault false => st

/-- `release`: into the channel's hold, at the publisher's `deliver_at`, or now. -/
def release (o : Outcome) (st : Store) (j : Job) (r : Release) : Store × Job :=
  let dest := if r.hold then channelHeldVisibleAt
    else if st.clock < j.msg.requestedVisibleAt then j.msg.requestedVisibleAt else 0
  let after := st.channelReleaseHookHeld j.lease (bodyOrNil r.body r.changed) dest r.why.leave
  (o.apply st after, { j with stage := .done })

inductive Act
  | decide (reads : Reads) (o : Outcome)
  | anchor (now : Nat)
  | ask (input : AskInput) (opened : Option String) (o : Outcome)
  | reply (reply : Option Reply) (o : Outcome)
  | answer (a : HookAnswer)
  | act (o : Outcome)
  | hold (opened : Option String) (o : Outcome)
  | settle (o : Outcome)
  | release (o : Outcome)
  | drop (o : Outcome)
  | renew (o : Outcome)
  | stop
  | crash
deriving DecidableEq

def Place.hook? (p : Place) : Option Hook := p.chain[p.pos]?

def Job.step (st : Store) (j : Job) : Act → Option (Store × Job)
  | .decide reads o =>
    match j.stage with
    | .claimed => some (decideStep cfg reads o st j)
    | _ => none
  | .anchor now =>
    match j.stage with
    | .calling p =>
      let jrnl := j.jrnl.atPos p.pos
      let anchor := if jrnl.anchor = 0 then now else jrnl.anchor
      some (st, { j with jrnl := { jrnl with anchor } })
    | _ => none
  | .ask input opened o =>
    match j.stage with
    | .calling p =>
      let (st', j', opened) := openRun cfg o opened st j
      if opened then some (st', { j' with stage := .callAsking p input })
      else some (j'.returns st' p (.failed "opening the run to ask under"))
    | _ => none
  | .reply reply o =>
    match j.stage with
    | .callAsking p input => some (replyCode cfg o reply st j p input)
    | .waiting p reason => p.hook?.map fun h => replyHold cfg o reply st j p h reason
    | _ => none
  | .answer a =>
    match j.stage with
    | .calling p => some (j.returns st p (checked cfg j.msg a))
    | _ => none
  | .act o =>
    match j.stage with
    | .called p a => p.hook?.map fun h => act cfg o st j p h a
    | _ => none
  | .hold opened o =>
    match j.stage with
    | .holding p reason => p.hook?.map fun h => askHold cfg o opened st j p h reason
    | _ => none
  | .settle o =>
    match j.stage with
    | .answered p _ a => p.hook?.map fun h => settleHold cfg o st j p h a
    | _ => none
  | .release o =>
    match j.stage with
    | .releasing r => some (release o st j r)
    | _ => none
  | .drop o =>
    match j.stage with
    | .dropping => some (o.apply st (st.channelDropHookHeld j.lease), { j with stage := .done })
    | _ => none
  | .renew o =>
    let after := st.channelHookRenew j.lease (st.clock + cfg.lease)
    some (o.apply st after, { j with stopped := j.stopped || (o = .ok && after.isNone) })
  | .stop => some (st, { j with stopped := true })
  | .crash => some (st, { j with stage := .done })

/-! ### The message and its jobs -/

structure World where
  store : Store
  jobs : List Job := []
deriving DecidableEq

inductive Label
  | tick (now : Nat)
  | define (d : Definition)
  | claim (now leaseUntil : Nat)
  | job (i : Nat) (a : Act)
  | gc
  | delete
deriving DecidableEq

namespace World

def step (s : World) : Label → Option World
  | .tick now =>
    if s.store.clock ≤ now then some { s with store := { s.store with clock := now } } else none
  | .define d =>
    some { s with store := { s.store.note (.defined d) with definition := d } }
  | .claim now leaseUntil =>
    (s.store.channelHookClaim now leaseUntil).map fun (st, j) => ⟨st, s.jobs ++ [j]⟩
  | .job i a =>
    s.jobs[i]?.bind fun j => (j.step cfg s.store a).map fun (st, j') => ⟨st, s.jobs.set i j'⟩
  | .gc => some { s with store := s.store.channelHookGC }
  | .delete => s.store.delete.map fun st => { s with store := st }

/-- A message just written to a hooked channel, which has the definition `d`. -/
def init (m : Message) (d : Definition) : World :=
  ⟨{ message := some { m with visibleAt := channelHookHeldVisibleAt }, definition := d,
     log := [.defined d] }, []⟩

end World

end Loomcycle.ChannelHooks
