import Loomcycle.Conversation.Compaction
import Loomcycle.Lib.JsonText
import Loomcycle.Lib.Transition
import Loomcycle.Lib.Utf8Cut
import Mathlib.Data.List.Sort

/-! The append loop of a run as a transition system. A state is the conversation the loop holds,
the events of it that are persisted, and where in an iteration the loop stands; a label is what
the outside chose to do: the provider's stream, the operator, the hooks, the tools, the runtime.
Each function below is one of the loop's own, with what it reads from outside as an argument. -/

namespace Loomcycle.Conversation
open Lib Lib.Encoding

/-! ## What is persisted -/

inductive SegmentRole
  | system
  | user
  deriving DecidableEq, Repr

/-- A prompt segment, its content already flattened into blocks. -/
structure PromptSegment where
  role : SegmentRole
  content : List Block
  deriving DecidableEq, Repr

/-- The blocks of the user segments. -/
def userBlocks (segs : List PromptSegment) : List Block :=
  (segs.filter fun seg => seg.role == .user).flatMap PromptSegment.content

/-- The persisted events a conversation can be rebuilt from. `stopBlock` and `startContext` are
the two kinds of hook decision that put text into it, `awaiting` announces a park and `other`
stands for every kind a replay passes over. -/
inductive Event
  | userInput (segs : List PromptSegment)
  | text (text : String)
  | toolCall (use : ToolUse)
  | toolResult (use : ToolUse) (text : Bytes) (isError : Bool)
  | done
  | contextCompaction (summary : String) (keepN : Int) (keepFirst : Bool)
  | contextRecap (recap : String) (keepN : Int) (keepFirst : Bool)
  | childrenNote (text : String)
  | stopBlock (reason : String)
  | startContext (text : String)
  | awaiting
  | other (kind : String)
  deriving DecidableEq, Repr

/-- The fields of a tool's input that are masked before a call of it is stored. -/
def secretFields (toolName : String) : List Bytes :=
  if toolName = "CredentialDef" ∨ toolName = "credentialdef" then
    [ascii "value", ascii "passphrase", ascii "blob"]
  else if toolName = "Crypto" ∨ toolName = "crypto" then [ascii "plaintext", ascii "password"]
  else []

/-- The members of an object as a Go map has them: the last of each key, in the order of keys. -/
def mapMembers (members : List (Bytes × JsonText.Json)) : List (Bytes × JsonText.Json) :=
  (members.foldl (fun m kv => kv :: m.filter (·.1 ≠ kv.1)) []).insertionSort fun a b => a.1 ≤ b.1

/-- An object with a secret is written anew, every other value of it in its shortest spelling;
an input that is no object is blanked. -/
def maskCredentialCreateValue (toolName : String) (input : Bytes) : Bytes :=
  let fields := secretFields toolName
  if fields = [] then input
  else match JsonText.parse input with
    | some (.obj members) =>
      if members.any (·.1 ∈ fields) then
        JsonText.render (.obj (mapMembers (members.map fun m =>
          if m.1 ∈ fields then (m.1, .str (ascii "[redacted]")) else m)))
      else input
    | some .null => input
    | _ => ascii "\x7b\"_redacted\":\"credential input\"\x7d"

def ToolUse.masked (u : ToolUse) : Bytes := maskCredentialCreateValue u.name u.input

/-- A call as `json.Marshal` writes it: not at all when its input is not JSON. -/
def ToolUse.stored (u : ToolUse) : Option ToolUse :=
  if (JsonText.parse u.masked).isSome then some { u with input := JsonText.compact false u.masked }
  else none

/-- The inputs of the calls, as they are stored, are JSON. -/
abbrev AllJSON (pendingTools : List ToolUse) : Prop :=
  ∀ u ∈ pendingTools, (JsonText.parse u.masked).isSome = true

/-- The row `makeRecordingEmit` stores of an event, if it can be encoded. What is not UTF-8 in a
tool's result is replaced; the other kinds are encoded and read back as they are. -/
def Event.stored : Event → Option Event
  | .toolCall use => use.stored.map .toolCall
  | .toolResult use t isError => use.stored.map fun use => .toolResult use (Utf8.repair t) isError
  | e => some e

/-- The row an operator's message is persisted as. -/
def operatorInput (text : String) : Event := .userInput [⟨.user, [.text text]⟩]

/-! ## Distillation -/

/-- A `keepN` taken from outside, held to the history's length. -/
def clampKeep (keepN : Int) (n : Nat) : Nat := min keepN.toNat n

def keptTail (msgs : List Message) (keepN : Int) : List Message :=
  msgs.drop (msgs.length - clampKeep keepN msgs.length)

def pinnedText (msgs : List Message) (keepFirst : Bool) : String :=
  if keepFirst then (msgs.head?.map messageText).getD "" else ""

def applyCompactSummary (msgs : List Message) (summary : String) (keepN : Int)
    (keepFirst : Bool) : List Message :=
  endOnUserTurn
    (compactionMessages (pinnedText msgs keepFirst) summary (keptTail msgs keepN)) msgs

/-- `window*compactionKeptTailBudgetPct/100`, no budget when the window is not known. -/
def keptTailBudget (window : Int) : Int := (window * 50).tdiv 100

/-- What `maybeAutoCompact` and `maybeRecap` do with a note: replace the span of the window's
split by what `build` makes of it and record the marker, unless the result is not smaller. -/
def distil (build : String → String → List Message → List Message)
    (marker : String → Int → Bool → Event) (msgs : List Message) (keepLastN : Int)
    (keepFirst : Bool) (window : Int) (note : String) : Option (List Message × Event) :=
  let s := windowSplit msgs keepLastN keepFirst (keptTailBudget window)
  let pinned := decide (0 < s.firstIdx)
  let out := endOnUserTurn (build (pinnedText msgs pinned) note (msgs.drop s.cut)) msgs
  if s.ok = true ∧ estimateMessageTokens out < estimateMessageTokens msgs then
    some (out, marker note (msgs.length - s.cut : Nat) pinned)
  else none

def maybeAutoCompact (msgs : List Message) (keepLastN : Int) (keepFirst : Bool) (window : Int)
    (summary : String) : Option (List Message × Event) :=
  if trimSpace summary = "" then none
  else distil compactionMessages .contextCompaction msgs keepLastN keepFirst window
    (trimSpace summary)

/-- `context.reasoning`, with the recap the summariser returned. -/
inductive Reasoning
  | keep
  | recap (text : String)
  | drop
  deriving DecidableEq, Repr

def maybeRecap (msgs : List Message) (keepLastN : Int) (window : Int) :
    Reasoning → Option (List Message × Event)
  | .keep => none
  | .recap text =>
    if trimSpace text = "" then none
    else distil recapMessages .contextRecap msgs keepLastN true window (trimSpace text)
  | .drop => distil recapMessages .contextRecap msgs keepLastN true window ""

/-! ## The loop's state -/

/-- A message of the steer queue: an operator's turn, a compaction or a verdict. -/
inductive Steer
  | operator (text : String)
  | compact (summary : String) (keepN : Int) (keepFirst : Bool)
  | approve
  | reject (text : String)
  deriving DecidableEq, Repr

inductive StopReason
  | toolUse
  | other (reason : String)
  deriving DecidableEq, Repr

/-- Where the loop stands: the stages of an iteration's boundary up to the model call, the
stream it reads with what it has collected, the tools it runs, and the stages of an answer. -/
inductive Phase
  | starting
  | steering
  | noting
  | distilling
  | calling
  | streaming (iterText : String) (pendingTools : List ToolUse) (iterStop : Option StopReason)
  | dispatching (pendingTools : List ToolUse)
  | answered
  | held
  | ending
  | parked
  | waiting
  | finishing (took : Bool)
  | ended
  deriving DecidableEq, Repr

/-- `begun` counts the iterations the loop has begun, the index of the current one plus one. -/
structure Loop where
  steerQueue : Bool
  iterCap : Nat
  unboundedIters : Bool
  begun : Nat
  closingTurn : Bool
  stopBlocks : Nat
  phase : Phase
  messages : List Message
  log : List Event
  deriving DecidableEq, Repr

/-- How a tool's call ended. -/
structure ToolOutcome where
  text : Bytes
  isError : Bool
  deriving DecidableEq, Repr

inductive StopOutcome
  | allow
  | block (reason : String)
  | hold
  | cancelled
  deriving DecidableEq, Repr

inductive AfterTools
  | proceed
  | repeatedFailure
  | cancelled (interactive : Bool)
  deriving DecidableEq, Repr

def maxStopBlocks : Nat := 3

def closingTurnMessage : String :=
  "You have used every iteration this run allows, and tools are now disabled. " ++
    "Using the tool results above, give your final answer now."

/-! ## Tools -/

/-- Results in place of calls that were never run. -/
def unrunToolResults (text : String) (pending : List ToolUse) : List Block :=
  pending.map fun u => .toolResult u.id u.name (ascii text) true

def cancelledToolResults : List ToolUse → List Block := unrunToolResults "cancelled by operator"

def notRunToolResults : List ToolUse → List Block :=
  unrunToolResults "not run: the run has no iterations left"

def resultsTurn (results : List Block) : Message := ⟨.user, results⟩

/-- The results of `executePendingTools`, in the order of the calls. -/
def toolResults (pending : List ToolUse) (outcomes : List ToolOutcome) : List Block :=
  (pending.zip outcomes).map fun (u, o) => .toolResult u.id u.name o.text o.isError

/-- The events it emits, in the order in which the calls completed. -/
def resultEvents (pending : List ToolUse) (outcomes : List ToolOutcome) (order : List Nat) :
    List Event :=
  order.filterMap fun i => (pending.zip outcomes)[i]?.map fun (u, o) =>
    .toolResult u o.text o.isError

/-- A turn's content: its text, if any, before its tool calls. -/
def turnContent (iterText : String) (pendingTools : List ToolUse) : List Block :=
  (if iterText ≠ "" then [.text iterText] else []) ++ pendingTools.map ToolUse.block

def assistantTurn (iterText : String) (pendingTools : List ToolUse) : Message :=
  ⟨.assistant, turnContent iterText pendingTools⟩

/-- A content-less assistant turn at the end of the history is dropped. -/
def dropEmptyTurn (msgs : List Message) : List Message :=
  match msgs.getLast? with
  | some ⟨.assistant, []⟩ => msgs.dropLast
  | _ => msgs

namespace Loop

/-! ## Leaving an iteration -/

/-- The loop is left for the run's finish. -/
def finish (l : Loop) : Loop := { l with phase := .ended, log := l.log ++ [.done] }

/-- The run returns as it is. -/
def abort (l : Loop) : Loop := { l with phase := .ended }

/-- `continue`: the next iteration, if the loop's condition allows one. -/
def next (l : Loop) : Loop :=
  if l.begun < l.iterCap ∨ l.closingTurn = true then
    { l with phase := .starting, begun := l.begun + 1 }
  else l.finish

def park (l : Loop) : Loop := { l with phase := .parked, log := l.log ++ [.awaiting] }

def finishTurnCancel (l : Loop) (interactive : Bool) : Loop :=
  if interactive && l.steerQueue then l.park else l.finish

/-! ## Turns that are not the model's -/

/-- A user turn and the row that records it. -/
def tell (l : Loop) (text : String) (event : Event) : Loop :=
  { l with messages := l.messages ++ [userText text], log := l.log ++ [event] }

def operatorTurn (l : Loop) (text : String) : Loop := l.tell text (operatorInput text)

def appendChildrenNote (l : Loop) (note : String) : Loop := l.tell note (.childrenNote note)

def compact (l : Loop) (summary : String) (keepN : Int) (keepFirst : Bool) : Loop :=
  { l with
    messages := applyCompactSummary l.messages summary keepN keepFirst
    log := l.log ++ [.contextCompaction summary (clampKeep keepN l.messages.length) keepFirst] }

/-- A message `drainSteer` reads: only a run held for review acts on a verdict. -/
def drainSteer (l : Loop) : Steer → Loop
  | .compact summary keepN keepFirst => l.compact summary keepN keepFirst
  | .operator text => l.operatorTurn text
  | _ => l

/-- The same with no iteration left to answer an operator's message in. -/
def drainSteerUnanswerable (l : Loop) : Steer → Loop
  | .compact summary keepN keepFirst => l.compact summary keepN keepFirst
  | _ => l

/-- A message `parkForOperatorTurn` reads. -/
def parkForOperatorTurn (l : Loop) : Steer → Loop
  | .compact summary keepN keepFirst => l.compact summary keepN keepFirst
  | .operator text => (l.operatorTurn text).next
  | _ => l

/-- Feedback on a held answer, with an iteration left to revise it in or not. -/
def revise (l : Loop) (text : String) : Loop :=
  if l.iterCap ≤ l.begun then (l.operatorTurn text).finish else (l.operatorTurn text).next

/-- A message `parkForReview` reads; a verdict given before the hold is stale. -/
def parkForReview (l : Loop) (stale : Bool) : Steer → Loop
  | .compact summary keepN keepFirst =>
    let l' := l.compact summary keepN keepFirst
    { l' with log := l'.log ++ [.awaiting] }
  | .operator text => if trimSpace text = "" then l else l.revise text
  | .approve => if stale then l else { l with phase := .ending }
  | .reject text =>
    if stale then l else if trimSpace text = "" then l.finish else l.revise text

def isOperator : Steer → Bool
  | .operator _ => true
  | _ => false

/-- A message `finishSteer` reads. -/
def finishSteer (l : Loop) (took : Bool) (m : Steer) : Loop :=
  if l.begun < l.iterCap then
    { l.drainSteer m with phase := .finishing (took || isOperator m) }
  else l.drainSteerUnanswerable m

/-- A message read from the steer queue, by whoever reads it. -/
def takeSteer (l : Loop) (m : Steer) (stale : Bool) : Option Loop :=
  match l.steerQueue, l.phase with
  | true, .steering => some (l.drainSteer m)
  | true, .held => some (l.parkForReview stale m)
  | true, .parked => some (l.parkForOperatorTurn m)
  | true, .finishing took => some (l.finishSteer took m)
  | _, _ => none

/-! ## The model's turn -/

/-- The messages of the request the loop is about to send. -/
def request (l : Loop) : List Message :=
  if l.closingTurn then l.messages ++ [userText closingTurnMessage] else l.messages

/-- The id a call is given when the provider issued none. -/
def synthID (l : Loop) (id : String) (pendingTools : List ToolUse) : String :=
  if id = "" then "lc-" ++ toString (l.begun - 1) ++ "-" ++ toString pendingTools.length else id

def recordTurn (l : Loop) (iterText : String) (pendingTools : List ToolUse) : Loop :=
  { l with messages := l.messages ++ [assistantTurn iterText pendingTools] }

/-- `endTurn` for a turn that was cancelled while the model was generating. -/
def cancelTurn (l : Loop) (pendingTools : List ToolUse) (interactive : Bool) : Loop :=
  let msgs := dropEmptyTurn l.messages
  let answered := if pendingTools = [] then msgs
    else msgs ++ [resultsTurn (cancelledToolResults pendingTools)]
  { l with messages := answered }.finishTurnCancel interactive

def endTurn (l : Loop) (pendingTools : List ToolUse) (iterStop : StopReason) : Loop :=
  if l.closingTurn = true ∧ pendingTools ≠ [] then
    -- tools called on the closing turn are never run
    { l with messages := l.messages ++ [resultsTurn (notRunToolResults pendingTools)] }.finish
  else if iterStop ≠ .toolUse ∨ pendingTools = [] then { l with phase := .answered }
  else { l with phase := .dispatching pendingTools }

/-- The stream has closed: a cancelled turn, a stream that never finished, or a turn. -/
def closeStream (l : Loop) (iterText : String) (pendingTools : List ToolUse)
    (iterStop : Option StopReason) (cancelled interactive : Bool) : Loop :=
  if cancelled then (l.recordTurn iterText pendingTools).cancelTurn pendingTools interactive
  else
    match iterStop with
    | none => l.abort
    | some stop => (l.recordTurn iterText pendingTools).endTurn pendingTools stop

def dispatchTools (l : Loop) (pendingTools : List ToolUse) (outcomes : List ToolOutcome)
    (order : List Nat) (after : AfterTools) : Loop :=
  let l' := { l with
    messages := l.messages ++ [resultsTurn (toolResults pendingTools outcomes)]
    log := l.log ++ (resultEvents pendingTools outcomes order).filterMap Event.stored }
  match after with
  | .repeatedFailure => l'.abort
  | .cancelled interactive => l'.finishTurnCancel interactive
  | .proceed =>
    let grants := l.begun == l.iterCap && !l.unboundedIters
    { l' with closingTurn := l.closingTurn || grants }.next

/-! ## The end of an answer -/

def hold (l : Loop) : Loop := { l with phase := .held, log := l.log ++ [.awaiting] }

def agentStop (l : Loop) (out : StopOutcome) (review : Bool) : Loop :=
  match out with
  | .block reason =>
    if maxStopBlocks ≤ l.stopBlocks ∨ l.iterCap ≤ l.begun then l.abort
    else { l with stopBlocks := l.stopBlocks + 1 }.tell reason (.stopBlock reason) |>.next
  | .cancelled => l.abort
  | .hold => if l.steerQueue then { l with stopBlocks := 0 }.hold else l.finish
  | .allow =>
    if l.steerQueue && review then { l with stopBlocks := 0 }.hold
    else { l with stopBlocks := 0, phase := .ending }

/-- What an accepted answer leads to: the operator's next turn, the wait for background
children, or the end of the run once its queue is settled. -/
def settle (l : Loop) (interactive children : Bool) : Loop :=
  if interactive && l.steerQueue && !l.closingTurn then l.park
  else if children = true ∧ l.begun < l.iterCap then { l with phase := .waiting }
  else { l with phase := .finishing false }

/-! ## Steps -/

inductive Label
  /-- the gates of a new iteration let the run through, or end it -/
  | begin
  | halt
  | steer (m : Steer) (stale : Bool)
  | queueEmpty
  | note (text : String)
  | noNote
  | recap (keepLastN window : Int) (reasoning : Reasoning)
  | autoCompact (keepLastN : Int) (keepFirst : Bool) (window : Int) (summary : String)
  | request
  /-- the provider's call opened a stream, or it was cancelled while it waited -/
  | stream
  | cancelCall (interactive : Bool)
  | text (text : String)
  | toolCall (id name : String) (input : Bytes)
  | done (stop : StopReason)
  | close (cancelled interactive : Bool)
  /-- a failed call or stream: tried again, or the end of the run -/
  | retry
  | fail
  | dispatch (outcomes : List ToolOutcome) (order : List Nat) (after : AfterTools)
  | agentStop (out : StopOutcome) (review : Bool)
  | settle (interactive children : Bool)
  | reviewEnd (expired : Bool)
  | parkEnd
  | waitEnd
  deriving DecidableEq, Repr

/-- A distillation that was not declined replaces the history. -/
def distilled (l : Loop) : Option (List Message × Event) → Loop
  | none => l
  | some (out, event) => { l with phase := .calling, messages := out, log := l.log ++ [event] }

def step (l : Loop) (a : Label) : Option Loop :=
  match a, l.phase with
  | .begin, .starting => some { l with phase := .steering }
  | .halt, .starting => some l.abort
  | .halt, .calling => some l.abort
  | .steer m stale, _ => l.takeSteer m stale
  | .queueEmpty, .steering => some { l with phase := .noting }
  | .queueEmpty, .finishing took => some (if took then l.next else l.finish)
  | .note text, .noting =>
    if text = "" then none else some { l.appendChildrenNote text with phase := .distilling }
  | .note text, .waiting => if text = "" then none else some (l.appendChildrenNote text).next
  | .noNote, .noting => some { l with phase := .distilling }
  | .recap keepLastN window reasoning, .distilling =>
    some (l.distilled (maybeRecap l.messages keepLastN window reasoning))
  | .autoCompact keepLastN keepFirst window summary, .distilling =>
    some (l.distilled (maybeAutoCompact l.messages keepLastN keepFirst window summary))
  | .request, .distilling => some { l with phase := .calling }
  | .stream, .calling => some { l with phase := .streaming "" [] none }
  | .cancelCall interactive, .calling => some (l.finishTurnCancel interactive)
  | .text t, .streaming iterText pendingTools iterStop =>
    some { l with
      phase := .streaming (iterText ++ t) pendingTools iterStop
      log := l.log ++ [.text t] }
  | .toolCall id name input, .streaming iterText pendingTools iterStop =>
    let use : ToolUse := ⟨l.synthID id pendingTools, name, input⟩
    some { l with
      phase := .streaming iterText (pendingTools ++ [use]) iterStop
      log := l.log ++ (Event.toolCall use).stored.toList }
  | .done stop, .streaming iterText pendingTools _ =>
    some { l with phase := .streaming iterText pendingTools (some stop) }
  | .close cancelled interactive, .streaming iterText pendingTools iterStop =>
    some (l.closeStream iterText pendingTools iterStop cancelled interactive)
  | .retry, .streaming .. => some l.next
  | .retry, .calling => some l.next
  | .fail, .streaming .. => some l.abort
  | .fail, .calling => some l.abort
  | .dispatch outcomes order after, .dispatching pendingTools =>
    if outcomes.length = pendingTools.length ∧ order.Perm (List.range pendingTools.length) then
      some (l.dispatchTools pendingTools outcomes order after)
    else none
  | .agentStop out review, .answered => some (l.agentStop out review)
  | .settle interactive children, .ending => some (l.settle interactive children)
  | .reviewEnd expired, .held => some (if expired then l.finish else l.abort)
  | .parkEnd, .parked => some l.finish
  | .waitEnd, .waiting => some l.abort
  | _, _ => none

theorem step_ended {l : Loop} {a : Label} (h : l.phase = .ended) : l.step a = none := by
  cases a <;> simp [step, takeSteer, h]

/-- `appendStartContext`: the context of agent_start hooks joins the last user turn. -/
def appendStartContext (msgs : List Message) (extra : List String) : List Message :=
  if extra = [] then msgs
  else
    match msgs.getLast? with
    | some ⟨.user, content⟩ => msgs.dropLast ++ [⟨.user, content ++ extra.map .text⟩]
    | _ => msgs ++ [⟨.user, extra.map .text⟩]

/-- A run at its start: the prompt behind the prior messages, the rows of it behind `log`. -/
def start (steerQueue : Bool) (iterCap : Nat) (unboundedIters : Bool) (prior : List Message)
    (log : List Event) (segs : List PromptSegment) (extra : List String) : Loop :=
  let fresh := if userBlocks segs = [] then [] else [⟨.user, userBlocks segs⟩]
  Loop.next
    { steerQueue, iterCap, unboundedIters
      begun := 0
      closingTurn := false
      stopBlocks := 0
      phase := .starting
      messages := appendStartContext (prior ++ fresh) extra
      log := log ++ .userInput segs :: extra.map .startContext }

/-- A run with a steer queue and no history, asked for the files of a directory. -/
def listing (iterCap : Nat) : Loop :=
  start true iterCap false [] [] [⟨.user, [.text "list the files"]⟩] []

/-- The labels of an iteration's boundary when nothing waits there, up to its model call. -/
def boundary : List Label := [.begin, .queueEmpty, .noNote, .request]

end Loop

end Loomcycle.Conversation
