import Loomcycle.PromptInject.Inject
import Loomcycle.Lib.Provenance

/-! How a team's templates become the text a run is given. The segments of a prompt are expanded
in one pass of the prompt's families, and then the data slots are filled by plain replacement; the
strings a decision is about have their variables and tokens expanded in two passes of their own,
and then the hand-off's slot filled. -/

namespace Loomcycle.TeamRun
open Lib Lib.Regex Lib.Provenance PromptInject

/-! ### Data slots -/

/-- The reserved markers. -/
inductive Slot
  | threadedOutput
  | starterMessage
  | starterMessages
deriving DecidableEq

def Slot.marker : Slot → Text
  | .threadedOutput => "\x7b\x7bthread.output\x7d\x7d".toList
  | .starterMessage => "\x7b\x7bstarter.message\x7d\x7d".toList
  | .starterMessages => "\x7b\x7bstarter.messages\x7d\x7d".toList

/-- A map of slots in the order it is ranged over. -/
abbrev DataSlots := List (Slot × Text)

/-- The system segment is not filled with another agent's output. -/
def systemDataSlots (slots : DataSlots) : DataSlots := slots.filter (·.1 ≠ .threadedOutput)

def applyDataSlots (text : Text) (slots : DataSlots) : Text :=
  if text = [] ∨ slots = [] then text
  else slots.foldl (fun text slot => replaceWord slot.1.marker slot.2 text) text

/-! ### What a segment refers to -/

/-- The references of one family that are not escaped, each once. -/
def references {α : Type} [BEq α] (re : Regex) (ref : Match → Option α) (s : Text) : List α :=
  ((re.findAll s).filterMap fun m =>
    if m.group 1 = "\\".toList then none else ref m).eraseDups

def referencesDocRefs : Text → List DocRef :=
  references documentPlaceholderRe fun m => parseDocRef (m.group 2)

def referencesToolRefs : Text → List ToolRef :=
  references toolPlaceholderRe fun m => parseToolRef (m.group 2)

def referencesMemoryRefs (values : Option (Text → Option Text)) : Text → List MemoryRef :=
  references memorySubFormRe fun m =>
    (resolveWidenedArg (m.group 3) values isRefChar maxMemoryArgBytes).1.map fun arg =>
      ⟨PromptInject.toLower (m.group 2), arg⟩

def referencesToolCalls (values : Option (Text → Option Text)) : Text → List ToolCall :=
  references toolArgFormRe fun m => do
    let name ← parseToolCall (m.group 2)
    let arg ← (resolveWidenedArg (m.group 3) values isToolArgChar maxToolArgBytes).1
    return ⟨name, arg⟩

def referencesUnescaped (re : Regex) (s : Text) : Bool :=
  (re.findAll s).any fun m => m.group 1 ≠ "\\".toList

def referencesWidened (s : Text) : Bool :=
  referencesUnescaped memorySubFormRe s || referencesUnescaped toolArgFormRe s

def referencesIdentity : Text → Bool := referencesUnescaped identityPlaceholderRe

/-! ### The caller's segments -/

/-- What a run may read, by reference; empty where there is nothing to read. -/
structure Server where
  documents : DocRef → Text := fun _ => []
  toolResults : ToolRef → Text := fun _ => []
  memoryRefs : MemoryRef → Text := fun _ => []
  toolCalls : ToolCall → Text := fun _ => []
  staticHostAllowed : Text → Bool := fun _ => false
  networkTargetHost : Text → Option Text := fun _ => none

/-- Only what is referred to is read. -/
def render {α : Type} [DecidableEq α] (bodies : α → Text) (refs : List α) (ref : α) : Text :=
  if ref ∈ refs then bodies ref else []

def renderDocuments (bodies : DocRef → Text) (refs : List DocRef) : DocRef → Text :=
  render bodies (refs.filter fun ref => !ref.isWholeDocument)

def defaultMemoryInjectMaxTokens : Int := 1024
def toolInjectMaxTokens : Int := 4096

/-- The two segments of a caller, and the values and the authorship they are expanded with. A map
that is not given is `none`. -/
structure Caller where
  values : Option (List (Text × Text)) := none
  system : Text := []
  user : Text := []
  systemAuthored : Bool := false
  inputAuthored : Bool := false

namespace Caller

def lookup (c : Caller) : Option (Text → Option Text) := c.values.map fun l k => l.lookup k

def combined (c : Caller) : Text := c.system ++ '\n' :: c.user

/-- The segments that may use the widened families. -/
def authored (c : Caller) : Text :=
  (if c.systemAuthored then c.system else []) ++ (if c.inputAuthored then '\n' :: c.user else [])

/-- Nothing is to be expanded. -/
def isPlain (c : Caller) : Bool :=
  (c.system = [] && c.user = []) ||
    (c.values.getD [] = [] && referencesDocRefs c.combined = [] &&
      referencesToolRefs c.combined = [] && !placeholderRe.isMatch c.combined &&
      !referencesWidened c.combined && !referencesIdentity c.combined)

/-- What a segment is expanded with: no sections and no identity, which are the agent's own. -/
def input (c : Caller) (srv : Server) (operatorAuthored : Bool) : ExpandInput where
  values := c.lookup
  documents := renderDocuments srv.documents (referencesDocRefs c.combined)
  toolResults := render srv.toolResults (referencesToolRefs c.combined)
  maxTokens := defaultMemoryInjectMaxTokens
  toolMaxTokens := toolInjectMaxTokens
  memoryRefs := render srv.memoryRefs
    (if c.authored = [] then [] else referencesMemoryRefs c.lookup c.authored)
  toolCalls := render srv.toolCalls
    (if c.authored = [] then [] else referencesToolCalls c.lookup c.authored)
  hostAllowed := some srv.staticHostAllowed
  operatorAuthored := operatorAuthored
  networkTargetHost := srv.networkTargetHost

/-- One segment, under its own authorship. -/
def expandSegment (c : Caller) (srv : Server) (segment : Text) (operatorAuthored : Bool) : Text :=
  if c.isPlain then segment
  else (expandWithRefusals segment (c.input srv operatorAuthored)).1

def expandCallerSegments (c : Caller) (srv : Server) : Text × Text :=
  (c.expandSegment srv c.system c.systemAuthored, c.expandSegment srv c.user c.inputAuthored)

/-- The slots are filled after the expansion. -/
def composeCallerText (c : Caller) (srv : Server) (dataSlots : DataSlots) : Text × Text :=
  let (system, user) := c.expandCallerSegments srv
  (applyDataSlots system (systemDataSlots dataSlots), applyDataSlots user dataSlots)

end Caller

/-! ### What a decision is about -/

/-- What the expander may read; the time in the three forms it is written in. -/
structure Env where
  vars : Text → Option Text := fun _ => none
  nowIso8601 : Text := []
  nowUnix : Text := []
  nowDate : Text := []
  state : Text := []
  iteration : Int := 0

/-- A variable: 1 is its name, 2 its fallback. -/
def varRe : Regex :=
  cat [lit "$\x7bvar.", .group 1 varName,
    opt (cat [lit ":-", .group 2 (.star true (.cls fun c => c ≠ '\n'))]), lit "\x7d"]

def tokenRe : Regex :=
  cat [lit "$\x7b", oneOf [lit "now.iso8601", lit "now.unix", lit "now.date", lit "team.state",
    lit "team.iteration"], lit "\x7d"]

/-- What replaces a variable: its value, or text of the template. -/
inductive VarText
  | value (t : Text)
  | fallback (t : Text)
deriving DecidableEq

def VarText.text : VarText → Text
  | .value t | .fallback t => t

/-- The text of one variable, and its name when the value is refused. -/
def Env.variable (env : Env) (m : Text) : VarText × List Text :=
  match varRe.find? m with
  | none => (.value [], [])
  | some sub =>
    let v := (env.vars (sub.group 1)).getD []
    if v ≠ [] then
      if contains v "\x7b\x7b".toList ∨ contains v "\x7d\x7d".toList then
        (.value [], [sub.group 1])
      else (.value v, [])
    else if contains m ":-".toList then (.fallback (sub.group 2), [])
    else (.value [], [])

def Env.token (env : Env) (m : Text) : Text :=
  (List.lookup m [("$\x7bnow.iso8601\x7d".toList, env.nowIso8601),
    ("$\x7bnow.unix\x7d".toList, env.nowUnix), ("$\x7bnow.date\x7d".toList, env.nowDate),
    ("$\x7bteam.state\x7d".toList, env.state),
    ("$\x7bteam.iteration\x7d".toList, (toString env.iteration).toList)]).getD []

/-- Variables first, then the tokens of what came out. -/
def expand (s : Text) (env : Env) : Text × List Text :=
  if !contains s "$\x7b".toList then (s, [])
  else
    let (out, refused) := replaceWith (fun m refused =>
      ((env.variable m.text).1.text, refused ++ (env.variable m.text).2)) (varRe.pieces s) []
    (tokenRe.replaceAll (fun m => env.token m.text) out, refused)

/-- A JSON value, as far as the expander looks at it. -/
inductive Value
  | text (t : Text)
  | object (fields : List (Text × Value))
  | array (items : List Value)
  | other (raw : Text)

mutual

/-- Every string value under a value, changed. -/
def Value.mapText (f : Text → Text) : Value → Value
  | .text t => .text (f t)
  | .object fields => .object (mapFields f fields)
  | .array items => .array (mapItems f items)
  | .other raw => .other raw

def Value.mapFields (f : Text → Text) : List (Text × Value) → List (Text × Value)
  | [] => []
  | (key, v) :: fields => (key, v.mapText f) :: mapFields f fields

def Value.mapItems (f : Text → Text) : List Value → List Value
  | [] => []
  | v :: items => v.mapText f :: mapItems f items

end

/-- Tokens first, then the hand-off into its slot. -/
def expandAbout (about : Value) (threaded : Text) (env : Env) : Value :=
  about.mapText fun t => replaceWord Slot.threadedOutput.marker threaded (expand t env).1

end Loomcycle.TeamRun
