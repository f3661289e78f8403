import Loomcycle.Conversation.Loop

/-! Rebuilding a conversation from its transcript. The replay is a machine of its own: it
collects the events of a turn and decides from the next event that the turn is over. -/

namespace Loomcycle.Conversation
open Lib

/-- The accumulators of `replayTranscript`. -/
structure Replay where
  messages : List Message := []
  asstText : String := ""
  asstTools : List Block := []
  pendingToolResults : List Block := []
  deriving DecidableEq, Repr

namespace Replay

def flushAssistant (r : Replay) : Replay :=
  if r.asstText = "" ∧ r.asstTools = [] then r
  else
    let content := (if r.asstText ≠ "" then [.text r.asstText] else []) ++ r.asstTools
    { r with messages := r.messages ++ [⟨.assistant, content⟩], asstText := "", asstTools := [] }

def flushPendingTools (r : Replay) : Replay :=
  if r.pendingToolResults = [] then r
  else
    { r with
      messages := r.messages ++ [⟨.user, r.pendingToolResults⟩]
      pendingToolResults := [] }

/-- Both, in the order every boundary does them. -/
def flush (r : Replay) : Replay := r.flushAssistant.flushPendingTools

/-- The results of one boundary are collected into one message. -/
def addResults (r : Replay) (results : List Block) : Replay :=
  { r with pendingToolResults := r.pendingToolResults ++ results }

/-- A user turn closes what was being collected. -/
def tell (r : Replay) (content : List Block) : Replay :=
  { r.flush with messages := r.flush.messages ++ [⟨.user, content⟩] }

/-- A marker collapses what came before it, and nothing collected survives. -/
def rebuild (r : Replay) (build : String → String → List Message → List Message) (note : String)
    (keepN : Int) (keepFirst : Bool) : Replay :=
  let msgs := r.flush.messages
  { messages := endOnUserTurn (build (pinnedText msgs keepFirst) note (keptTail msgs keepN)) msgs }

/-- Context of an agent_start hook joins the last user turn. -/
def addContext (r : Replay) (text : String) : Replay :=
  match r.messages.getLast? with
  | some ⟨.user, content⟩ =>
    { r with messages := r.messages.dropLast ++ [⟨.user, content ++ [.text text]⟩] }
  | _ => { r with messages := r.messages ++ [userText text] }

def apply (r : Replay) : Event → Replay
  | .userInput segs => if userBlocks segs = [] then r.flush else r.tell (userBlocks segs)
  | .text t => { r.flushPendingTools with asstText := r.flushPendingTools.asstText ++ t }
  | .toolCall u =>
    { r.flushPendingTools with asstTools := r.flushPendingTools.asstTools ++ [u.block] }
  | .toolResult u t isError =>
    r.flushAssistant.addResults [.toolResult u.id "" t isError]
  | .done => r.flush
  | .contextCompaction summary keepN keepFirst =>
    r.rebuild compactionMessages summary keepN keepFirst
  | .contextRecap recap keepN keepFirst => r.rebuild recapMessages recap keepN keepFirst
  | .childrenNote t => if t = "" then r else r.tell [.text t]
  | .stopBlock reason => r.tell [.text reason]
  | .startContext t => r.addContext t
  | .awaiting => r
  | .other _ => r

/-- The accumulators after these events. -/
def of (events : List Event) : Replay := events.foldl apply {}

@[simp]
theorem of_snoc (events : List Event) (e : Event) : of (events ++ [e]) = (of events).apply e := by
  simp [of]

theorem of_append (events later : List Event) :
    of (events ++ later) = later.foldl apply (of events) :=
  List.foldl_append

end Replay

def replayTranscript (events : List Event) : List Message := (Replay.of events).flush.messages

/-! ## The same conversation -/

/-- A block without what a replay does not restore: the name of the tool a result is for, the
blanks and plain HTML signs of the JSON text of an input, and the inputs that are masked. -/
def Block.core : Block → Block
  | .toolUse id name input =>
    .toolUse id name (if secretFields name = [] then JsonText.compact false input else [])
  | .toolResult id _ t isError => .toolResult id "" t isError
  | b => b

/-- The same blocks, the tool results of a message of nothing else in any order. -/
def SameContent (a b : List Block) : Prop :=
  a.map Block.core = b.map Block.core ∨
    (∀ x ∈ a, x.isToolResult = true) ∧ (a.map Block.core).Perm (b.map Block.core)

structure Same (a b : Message) : Prop where
  role : a.role = b.role
  content : SameContent a.content b.content

/-- The same roles in the same order with the same content. -/
abbrev Agree (a b : List Message) : Prop := List.Forall₂ Same a b

theorem Same.refl (m : Message) : Same m m := ⟨rfl, .inl rfl⟩

theorem Same.length_eq {a b : Message} (h : Same a b) : a.content.length = b.content.length := by
  rcases h.content with heq | ⟨-, hperm⟩
  · simpa using congrArg List.length heq
  · simpa using hperm.length_eq

theorem Agree.refl (msgs : List Message) : Agree msgs msgs :=
  List.forall₂_same.mpr fun m _ => .refl m

section Agree

variable {a b a' b' : List Message} {m m' : Message} {note : String} {keepN : Int}
  {keepFirst : Bool}

theorem Agree.append (h : Agree a b) (h' : Agree a' b') : Agree (a ++ a') (b ++ b') :=
  List.rel_append h h'

theorem Agree.snoc (h : Agree a b) (m : Message) : Agree (a ++ [m]) (b ++ [m]) :=
  h.append (.refl [m])

/-- Behind histories that agree, two messages are all that counts. -/
theorem Agree.snoc_iff (h : Agree a b) : Agree (a ++ [m]) (b ++ [m']) ↔ Same m m' := by
  constructor
  · intro hsnoc
    have hrev := List.forall₂_reverse_iff.mpr hsnoc
    rw [List.reverse_append, List.reverse_append] at hrev
    exact (List.forall₂_cons.mp hrev).1
  · exact fun hm => h.append (.cons hm .nil)

@[simp]
theorem Block.said_core (x : Block) : x.core.said = x.said := by
  cases x <;> rfl

@[simp]
theorem Block.isToolResult_core (x : Block) : x.core.isToolResult = x.isToolResult := by
  cases x <;> rfl

theorem messageText_eq_map_core (m : Message) :
    messageText m = String.join ((m.content.map Block.core).map Block.said) := by
  rw [messageText, List.map_map]
  congr 1
  exact List.map_congr_left fun x _ => (Block.said_core x).symm

theorem foldl_append_empty {l : List String} (h : ∀ s ∈ l, s = "") (acc : String) :
    l.foldl (fun r s => r ++ s) acc = acc := by
  induction l with
  | nil => rfl
  | cons s rest ih =>
    have hs : s = "" := h s List.mem_cons_self
    rw [List.foldl_cons, hs, String.append_empty]
    exact ih fun s hs => h s (List.mem_cons_of_mem _ hs)

/-- Tool results say nothing that could be pinned. -/
theorem messageText_toolResults (h : ∀ x ∈ m.content, x.isToolResult = true) :
    messageText m = "" := by
  refine foldl_append_empty (fun s hs => ?_) ""
  obtain ⟨x, hx, rfl⟩ := List.mem_map.mp hs
  have hresult := h x hx
  cases x with
  | toolResult => rfl
  | _ => cases hresult

variable {xs ys : List Block} {pinned : String}

theorem toolResults_of_perm (hall : ∀ x ∈ xs, x.isToolResult = true)
    (hperm : (xs.map Block.core).Perm (ys.map Block.core)) : ∀ y ∈ ys, y.isToolResult = true := by
  intro y hy
  have hmem := hperm.mem_iff.mpr (List.mem_map_of_mem (f := Block.core) hy)
  obtain ⟨x, hx, hcore⟩ := List.mem_map.mp hmem
  rw [← Block.isToolResult_core y, ← hcore, Block.isToolResult_core]
  exact hall x hx

theorem Same.messageText_eq (h : Same m m') : messageText m = messageText m' := by
  rcases h.content with heq | ⟨hall, hperm⟩
  · rw [messageText_eq_map_core, heq, ← messageText_eq_map_core]
  · rw [messageText_toolResults hall, messageText_toolResults (toolResults_of_perm hall hperm)]

theorem SameContent.startsWithResult_eq (h : SameContent xs ys) :
    xs.head?.any Block.isToolResult = ys.head?.any Block.isToolResult := by
  rcases h with heq | ⟨hall, hperm⟩
  · cases xs with
    | nil => rw [List.map_eq_nil_iff.mp heq.symm]
    | cons x xs =>
      cases ys with
      | nil => cases heq
      | cons y ys =>
        have hcore : x.core = y.core := (List.cons.inj heq).1
        have hresult : x.isToolResult = y.isToolResult := by
          rw [← Block.isToolResult_core x, hcore, Block.isToolResult_core]
        exact hresult
  · have hall' := toolResults_of_perm hall hperm
    have hlen : xs.length = ys.length := by simpa using hperm.length_eq
    cases xs with
    | nil => rw [List.eq_nil_of_length_eq_zero hlen.symm]
    | cons x xs =>
      cases ys with
      | nil => cases hlen
      | cons y ys => simp [hall x, hall' y]

theorem Same.isFreshUserTurn_eq (h : Same m m') : isFreshUserTurn m = isFreshUserTurn m' := by
  rw [isFreshUserTurn, isFreshUserTurn, h.role, h.content.startsWithResult_eq]

section

variable (h : Agree a b)
include h

theorem Agree.pinnedText_eq : pinnedText a keepFirst = pinnedText b keepFirst := by
  unfold pinnedText
  cases h with
  | nil => rfl
  | cons hm _ => simp [hm.messageText_eq]

theorem Agree.keptTail : Agree (keptTail a keepN) (keptTail b keepN) := by
  unfold Conversation.keptTail
  rw [h.length_eq]
  exact List.forall₂_drop _ h

theorem Agree.lastRole_eq : a.getLast?.map Message.role = b.getLast?.map Message.role := by
  induction h with
  | nil => rfl
  | @cons x y xs ys hxy htail ih =>
    cases htail with
    | nil => simp [hxy.role]
    | cons _ _ => simpa using ih

theorem Agree.endOnUserTurn (h' : Agree a' b') :
    Agree (endOnUserTurn a a') (endOnUserTurn b b') := by
  unfold Conversation.endOnUserTurn
  rw [h.lastRole_eq, h'.lastRole_eq]
  split
  · exact h.snoc _
  · exact h

theorem agree_compactionMessages :
    Agree (compactionMessages pinned note a) (compactionMessages pinned note b) :=
  (Agree.refl _).append h

end

end Agree

/-! ## What each event does -/

namespace Replay

section Flush

variable {r : Replay}

/-- Nothing of an assistant turn is being collected. -/
def Quiet (r : Replay) : Prop := r.asstText = "" ∧ r.asstTools = []

theorem flushAssistant_of_quiet (h : r.Quiet) : r.flushAssistant = r := if_pos h

theorem flushPendingTools_of_nil (h : r.pendingToolResults = []) : r.flushPendingTools = r :=
  if_pos h

theorem quiet_flushAssistant (r : Replay) : r.flushAssistant.Quiet := by
  unfold flushAssistant
  split
  · next h => exact h
  · exact ⟨rfl, rfl⟩

@[simp]
theorem pending_flushAssistant (r : Replay) :
    r.flushAssistant.pendingToolResults = r.pendingToolResults := by
  unfold flushAssistant
  split <;> rfl

@[simp]
theorem asstText_flushPendingTools (r : Replay) : r.flushPendingTools.asstText = r.asstText := by
  unfold flushPendingTools
  split <;> rfl

@[simp]
theorem asstTools_flushPendingTools (r : Replay) :
    r.flushPendingTools.asstTools = r.asstTools := by
  unfold flushPendingTools
  split <;> rfl

@[simp]
theorem pending_flushPendingTools (r : Replay) :
    r.flushPendingTools.pendingToolResults = [] := by
  unfold flushPendingTools
  split
  · assumption
  · rfl

theorem quiet_flush (r : Replay) : r.flush.Quiet := by
  have h := quiet_flushAssistant r
  exact ⟨by rw [flush, asstText_flushPendingTools, h.1], by
    rw [flush, asstTools_flushPendingTools, h.2]⟩

theorem pending_flush (r : Replay) : r.flush.pendingToolResults = [] :=
  pending_flushPendingTools _

theorem flush_of_quiet (h : r.Quiet) : r.flush = r.flushPendingTools := by
  rw [flush, flushAssistant_of_quiet h]

theorem flush_of_nil (h : r.pendingToolResults = []) : r.flush = r.flushAssistant :=
  flushPendingTools_of_nil (by rw [pending_flushAssistant, h])

theorem flush_of_empty (hquiet : r.Quiet) (hpending : r.pendingToolResults = []) :
    r.flush = r := by
  rw [flush_of_quiet hquiet, flushPendingTools_of_nil hpending]

@[simp]
theorem flush_flush (r : Replay) : r.flush.flush = r.flush :=
  flush_of_empty r.quiet_flush r.pending_flush

@[simp]
theorem flush_tell (content : List Block) : (r.tell content).flush = r.tell content :=
  flush_of_empty r.quiet_flush r.pending_flush

end Flush

end Replay

end Loomcycle.Conversation
