import Loomcycle.Lib.CallReply
import Loomcycle.Lib.Encoding

/-! The conversation a run keeps: messages of two roles made of content blocks, what a block of
either tool kind refers to, and the pairing of tool calls with their results that a provider
demands of a request. -/

namespace Loomcycle.Conversation
open Lib Lib.Encoding

inductive Role
  | user
  | assistant
  deriving DecidableEq, Repr

/-- `providers.ContentBlock`, by its `Type`. A tool's input is the JSON text it was sent as, cut
or not, and its result what the tool wrote; the other texts were decoded from JSON and are valid. -/
inductive Block
  | text (text : String)
  | image (mediaType data : String)
  | toolUse (id name : String) (input : Bytes)
  | toolResult (id name : String) (text : Bytes) (isError : Bool)
  deriving DecidableEq, Repr

structure Message where
  role : Role
  content : List Block
  deriving DecidableEq, Repr

/-- `providers.ToolUse`: a call the model made. -/
structure ToolUse where
  id : String
  name : String
  input : Bytes
  deriving DecidableEq, Repr

def ToolUse.block (u : ToolUse) : Block := .toolUse u.id u.name u.input

def userText (text : String) : Message := ⟨.user, [.text text]⟩

def assistantText (text : String) : Message := ⟨.assistant, [.text text]⟩

namespace Block

def isToolResult : Block → Bool
  | .toolResult .. => true
  | _ => false

def useID? : Block → Option String
  | .toolUse id .. => some id
  | _ => none

def resultID? : Block → Option String
  | .toolResult id .. => some id
  | _ => none

/-- The text of a text block. -/
def said : Block → String
  | .text t => t
  | _ => ""

end Block

/-- A message's text blocks, concatenated. -/
def messageText (m : Message) : String := String.join (m.content.map Block.said)

/-- A user message that starts a turn, rather than one that carries tool results. -/
def isFreshUserTurn (m : Message) : Bool :=
  m.role == .user && !(m.content.head?.any Block.isToolResult)

/-- The calls a message leaves to be answered: an assistant's `tool_use` ids. -/
def toolUseIDs (m : Message) : List String :=
  match m.role with
  | .user => []
  | .assistant => m.content.filterMap Block.useID?

def toolResultIDs (m : Message) : List String := m.content.filterMap Block.resultID?

/-- Every assistant message with `tool_use` blocks is directly followed by a user message with
the results of those calls, and results occur nowhere else. -/
abbrev Paired (msgs : List Message) : Prop :=
  CallReply.Paired toolUseIDs toolResultIDs (fun m => m.role = .user) msgs

def EndsOnUser (msgs : List Message) : Prop := msgs.getLast?.map Message.role = some .user

instance (msgs : List Message) : Decidable (EndsOnUser msgs) :=
  inferInstanceAs (Decidable (_ = _))

section Ids

variable {m : Message} {text : String} {content : List Block}

@[simp]
theorem toolUseIDs_user : toolUseIDs ⟨.user, content⟩ = [] := rfl

@[simp]
theorem toolUseIDs_assistant :
    toolUseIDs ⟨.assistant, content⟩ = content.filterMap Block.useID? := rfl

theorem toolUseIDs_of_role (h : m.role = .user) : toolUseIDs m = [] := by
  rw [toolUseIDs, h]

@[simp]
theorem useID?_text : (Block.text text).useID? = none := rfl

@[simp]
theorem resultID?_text : (Block.text text).resultID? = none := rfl

@[simp]
theorem useID?_block (u : ToolUse) : u.block.useID? = some u.id := rfl

@[simp]
theorem resultID?_block (u : ToolUse) : u.block.resultID? = none := rfl

@[simp]
theorem resultID?_toolResult (id name : String) (text : Bytes) (isError : Bool) :
    (Block.toolResult id name text isError).resultID? = some id := rfl

end Ids

section Pairing

variable {msgs : List Message} {text : String}

theorem paired_userText : Paired [userText text] := .single rfl rfl

theorem paired_assistantText : Paired [assistantText text] := .single rfl rfl

theorem Paired.snoc_userText (h : Paired msgs) : Paired (msgs ++ [userText text]) :=
  CallReply.Paired.append h paired_userText

end Pairing

@[simp]
theorem endsOnUser_snoc {msgs : List Message} {m : Message} :
    EndsOnUser (msgs ++ [m]) ↔ m.role = .user := by
  simp [EndsOnUser]

end Loomcycle.Conversation
