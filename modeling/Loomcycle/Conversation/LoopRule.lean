import Loomcycle.Conversation.Loop

/-! One rule for everything the loop keeps true of its history. The loop edits the history in a
dozen places, but what it stands for depends only on the kind of phase it is in: ready for a
model call, reading a stream, about to run the tools of a turn, or at rest. An assertion says
what holds of the messages and the log at each of them; the rule reduces that every step keeps it
to what each kind of edit does. -/

namespace Loomcycle.Conversation.Loop
open Lib

/-- The row that records a user turn of this text. -/
inductive Records : String → Event → Prop
  | operator (text : String) : Records text (operatorInput text)
  | note {text : String} (h : text ≠ "") : Records text (.childrenNote text)
  | block (reason : String) : Records reason (.stopBlock reason)

/-- What a distillation label makes of the history. -/
def distillation (l : Loop) : Label → Option (List Message × Event)
  | .recap keepLastN window reasoning => maybeRecap l.messages keepLastN window reasoning
  | .autoCompact keepLastN keepFirst window summary =>
    maybeAutoCompact l.messages keepLastN keepFirst window summary
  | _ => none

/-- What a distillation that is not declined puts in the history's place, and its marker. -/
structure Distils (build : String → String → List Message → List Message)
    (marker : String → Int → Bool → Event) (msgs : List Message) (s : Split) (note : String)
    (out : List Message) (e : Event) : Prop where
  ok : s.ok = true
  out_eq : out = endOnUserTurn
    (build (pinnedText msgs (0 < s.firstIdx)) note (msgs.drop s.cut)) msgs
  event_eq : e = marker note (msgs.length - s.cut : Nat) (0 < s.firstIdx)

variable {e : Event} {keepLastN window : Int} {keepFirst : Bool} {out : List Message}

theorem distils_of_distil {build : String → String → List Message → List Message}
    {marker : String → Int → Bool → Event} {msgs : List Message} {note : String}
    (h : distil build marker msgs keepLastN keepFirst window note = some (out, e)) :
    Distils build marker msgs (windowSplit msgs keepLastN keepFirst (keptTailBudget window)) note
      out e := by
  unfold distil at h
  dsimp only at h
  split at h
  · next hsmaller =>
    cases h
    exact ⟨hsmaller.1, rfl, rfl⟩
  · cases h

theorem distils_of_autoCompact {l : Loop} {summary : String}
    (h : l.distillation (.autoCompact keepLastN keepFirst window summary) = some (out, e)) :
    Distils compactionMessages .contextCompaction l.messages
      (windowSplit l.messages keepLastN keepFirst (keptTailBudget window)) (trimSpace summary)
      out e := by
  rw [distillation, maybeAutoCompact] at h
  split at h
  · cases h
  · exact distils_of_distil h

theorem distils_of_recap {l : Loop} {reasoning : Reasoning}
    (h : l.distillation (.recap keepLastN window reasoning) = some (out, e)) :
    ∃ note, Distils recapMessages .contextRecap l.messages
      (windowSplit l.messages keepLastN true (keptTailBudget window)) note out e := by
  rw [distillation] at h
  cases reasoning with
  | keep => cases h
  | drop => exact ⟨"", distils_of_distil h⟩
  | recap text =>
    rw [maybeRecap] at h
    split at h
    · cases h
    · exact ⟨trimSpace text, distils_of_distil h⟩

/-- The labels that throw away what a stream has delivered. -/
def Discards (a : Label) (iterStop : Option StopReason) : Prop :=
  a = .retry ∨ a = .fail ∨ iterStop = none ∧ ∃ interactive, a = .close false interactive

/-- The history a turn cancelled while it was generated leaves. -/
def afterCancel (msgs : List Message) (iterText : String) (pendingTools : List ToolUse) :
    List Message :=
  dropEmptyTurn (msgs ++ [assistantTurn iterText pendingTools]) ++
    if pendingTools = [] then [] else [resultsTurn (cancelledToolResults pendingTools)]

theorem dropEmptyTurn_snoc (msgs : List Message) (content : List Block) :
    dropEmptyTurn (msgs ++ [⟨.assistant, content⟩]) =
      if content = [] then msgs else msgs ++ [⟨.assistant, content⟩] := by
  cases content with
  | nil | cons b rest => simp [dropEmptyTurn]

theorem turnContent_eq_nil {iterText : String} {pendingTools : List ToolUse} : turnContent iterText pendingTools = [] ↔
    iterText = "" ∧ pendingTools = [] := by
  unfold turnContent
  split
  · next h => simp [h]
  · next h => simp at h; simp [h]

/-! ## What a step can be -/

/-- A step by its label and the phase it is taken in. -/
inductive Taken (l : Loop) : Label → Loop → Prop
  | begin : l.phase = .starting → Taken l .begin { l with phase := .steering }
  | halt : l.phase = .starting → Taken l .halt l.abort
  | unable : l.phase = .calling → Taken l .halt l.abort
  | steer {m stale l'} : l.takeSteer m stale = some l' → Taken l (.steer m stale) l'
  | drained : l.phase = .steering → Taken l .queueEmpty { l with phase := .noting }
  | settled {took} : l.phase = .finishing took →
    Taken l .queueEmpty (if took then l.next else l.finish)
  | note {text} : l.phase = .noting → text ≠ "" →
    Taken l (.note text) { l.appendChildrenNote text with phase := .distilling }
  | wake {text} : l.phase = .waiting → text ≠ "" →
    Taken l (.note text) (l.appendChildrenNote text).next
  | noNote : l.phase = .noting → Taken l .noNote { l with phase := .distilling }
  | recap {keepLastN window reasoning} : l.phase = .distilling →
    Taken l (.recap keepLastN window reasoning)
      (l.distilled (l.distillation (.recap keepLastN window reasoning)))
  | autoCompact {keepLastN keepFirst window summary} : l.phase = .distilling →
    Taken l (.autoCompact keepLastN keepFirst window summary)
      (l.distilled (l.distillation (.autoCompact keepLastN keepFirst window summary)))
  | request : l.phase = .distilling → Taken l .request { l with phase := .calling }
  | stream : l.phase = .calling → Taken l .stream { l with phase := .streaming "" [] none }
  | cancelCall {interactive} : l.phase = .calling →
    Taken l (.cancelCall interactive) (l.finishTurnCancel interactive)
  | text {t iterText pendingTools iterStop} : l.phase = .streaming iterText pendingTools iterStop →
    Taken l (.text t) { l with
      phase := .streaming (iterText ++ t) pendingTools iterStop
      log := l.log ++ [.text t] }
  | toolCall {id name input iterText pendingTools iterStop} :
    l.phase = .streaming iterText pendingTools iterStop →
    Taken l (.toolCall id name input) { l with
      phase := .streaming iterText
        (pendingTools ++ [⟨l.synthID id pendingTools, name, input⟩]) iterStop
      log := l.log ++ (Event.toolCall ⟨l.synthID id pendingTools, name, input⟩).stored.toList }
  | done {stop iterText pendingTools iterStop} :
    l.phase = .streaming iterText pendingTools iterStop →
    Taken l (.done stop) { l with phase := .streaming iterText pendingTools (some stop) }
  | close {cancelled interactive iterText pendingTools iterStop} :
    l.phase = .streaming iterText pendingTools iterStop → Taken l (.close cancelled interactive)
      (l.closeStream iterText pendingTools iterStop cancelled interactive)
  | retry {iterText pendingTools iterStop} :
    l.phase = .streaming iterText pendingTools iterStop → Taken l .retry l.next
  | callAgain : l.phase = .calling → Taken l .retry l.next
  | fail {iterText pendingTools iterStop} :
    l.phase = .streaming iterText pendingTools iterStop → Taken l .fail l.abort
  | failed : l.phase = .calling → Taken l .fail l.abort
  | dispatch {outcomes order after pendingTools} : l.phase = .dispatching pendingTools →
    outcomes.length = pendingTools.length → order.Perm (List.range pendingTools.length) →
    Taken l (.dispatch outcomes order after) (l.dispatchTools pendingTools outcomes order after)
  | agentStop {out review} : l.phase = .answered →
    Taken l (.agentStop out review) (l.agentStop out review)
  | settle {interactive children} : l.phase = .ending →
    Taken l (.settle interactive children) (l.settle interactive children)
  | reviewEnd {expired} : l.phase = .held →
    Taken l (.reviewEnd expired) (if expired then l.finish else l.abort)
  | parkEnd : l.phase = .parked → Taken l .parkEnd l.finish
  | waitEnd : l.phase = .waiting → Taken l .waitEnd l.abort

theorem taken_of_step {l l' : Loop} {a : Label} (h : l.step a = some l') : Taken l a l' := by
  unfold step at h
  split at h
  all_goals first | exact .steer h | cases h | (split at h <;> cases h)
  all_goals first
    | exact .note ‹_› ‹_›
    | exact .wake ‹_› ‹_›
    | exact .dispatch ‹_› (And.left ‹_›) (And.right ‹_›)
    | (constructor; assumption)
    | exact .unable ‹_›
    | exact .callAgain ‹_›
    | exact .failed ‹_›

structure Assertion where
  rest : List Message → List Event → Prop
  ready : List Message → List Event → Prop
  stream : String → List ToolUse → List Message → List Event → Prop
  called : List ToolUse → List Message → List Event → Prop

namespace Assertion

def Holds (A : Assertion) (l : Loop) : Prop :=
  match l.phase with
  | .starting | .steering | .noting | .distilling | .calling | .finishing true =>
    A.ready l.messages l.log
  | .streaming iterText pendingTools _ => A.stream iterText pendingTools l.messages l.log
  | .dispatching pendingTools => A.called pendingTools l.messages l.log
  | _ => A.rest l.messages l.log

/-- The edits of the history keep an assertion, where the steps that make them meet `P`. -/
structure Kept (A : Assertion) (P : Loop → Label → Prop) : Prop where
  rest {msgs log} : A.ready msgs log → A.rest msgs log
  announce {msgs log e} : A.rest msgs log → e = .awaiting ∨ e = .done → A.rest msgs (log ++ [e])
  tell {msgs log text e} : Records text e → A.rest msgs log →
    A.ready (msgs ++ [userText text]) (log ++ [e])
  compact {l : Loop} {summary keepN keepFirst stale} :
    P l (.steer (.compact summary keepN keepFirst) stale) →
    (A.rest l.messages l.log → A.rest (l.compact summary keepN keepFirst).messages
      (l.compact summary keepN keepFirst).log) ∧
    (A.ready l.messages l.log → A.ready (l.compact summary keepN keepFirst).messages
      (l.compact summary keepN keepFirst).log)
  distil {l : Loop} {a out e} : P l a → A.ready l.messages l.log →
    l.distillation a = some (out, e) → A.ready out (l.log ++ [e])
  stream {msgs log} : A.ready msgs log → A.stream "" [] msgs log
  text {iterText pendingTools msgs log} (t : String) : A.stream iterText pendingTools msgs log →
    A.stream (iterText ++ t) pendingTools msgs (log ++ [.text t])
  toolCall {iterText pendingTools msgs log} (use : ToolUse) :
    A.stream iterText pendingTools msgs log →
    A.stream iterText (pendingTools ++ [use]) msgs (log ++ (Event.toolCall use).stored.toList)
  discard {l : Loop} {a iterText pendingTools iterStop} : P l a → Discards a iterStop →
    l.phase = .streaming iterText pendingTools iterStop →
    A.stream iterText pendingTools l.messages l.log → A.ready l.messages l.log
  cancel {l : Loop} {interactive iterText pendingTools iterStop} : P l (.close true interactive) →
    l.phase = .streaming iterText pendingTools iterStop →
    A.stream iterText pendingTools l.messages l.log →
    A.rest (afterCancel l.messages iterText pendingTools) l.log
  answer {l : Loop} {interactive iterText pendingTools stop} : P l (.close false interactive) →
    l.phase = .streaming iterText pendingTools (some stop) →
    ¬(l.closingTurn = true ∧ pendingTools ≠ []) → stop ≠ .toolUse ∨ pendingTools = [] →
    A.stream iterText pendingTools l.messages l.log →
    A.rest (l.messages ++ [assistantTurn iterText pendingTools]) l.log
  call {l : Loop} {interactive iterText pendingTools stop} : P l (.close false interactive) →
    l.phase = .streaming iterText pendingTools (some stop) → pendingTools ≠ [] →
    A.stream iterText pendingTools l.messages l.log →
    A.called pendingTools (l.messages ++ [assistantTurn iterText pendingTools]) l.log
  refuse {l : Loop} {interactive iterText pendingTools stop} : P l (.close false interactive) →
    l.phase = .streaming iterText pendingTools (some stop) → l.closingTurn = true →
    pendingTools ≠ [] → A.stream iterText pendingTools l.messages l.log →
    A.rest (l.messages ++ [assistantTurn iterText pendingTools] ++
      [resultsTurn (notRunToolResults pendingTools)]) l.log
  results {l : Loop} {pendingTools outcomes order after} : P l (.dispatch outcomes order after) →
    l.phase = .dispatching pendingTools → A.called pendingTools l.messages l.log →
    outcomes.length = pendingTools.length → order.Perm (List.range pendingTools.length) →
    A.ready (l.messages ++ [resultsTurn (toolResults pendingTools outcomes)])
      (l.log ++ (resultEvents pendingTools outcomes order).filterMap Event.stored)

section Edits

variable {A : Assertion} {P : Loop → Label → Prop} (K : A.Kept P) {l l' : Loop} {a : Label}
include K

section

variable (h : A.rest l.messages l.log)
include h

theorem holds_finish : A.Holds l.finish := K.announce h (.inr rfl)

theorem holds_park : A.Holds l.park := K.announce h (.inl rfl)

theorem holds_hold : A.Holds l.hold := K.announce h (.inl rfl)

omit h in
theorem holds_next (h : A.ready l.messages l.log) : A.Holds l.next := by
  unfold Loop.next
  split
  · exact h
  · exact holds_finish K (K.rest h)

theorem holds_finishTurnCancel (interactive : Bool) :
    A.Holds (l.finishTurnCancel interactive) := by
  unfold finishTurnCancel
  split
  · exact holds_park K h
  · exact holds_finish K h

theorem holds_revise (text : String) : A.Holds (l.revise text) := by
  have htold := K.tell (.operator text) h
  unfold revise
  split
  · exact holds_finish K (K.rest htold)
  · exact holds_next K htold

theorem holds_agentStop (out : StopOutcome) (review : Bool) :
    A.Holds (l.agentStop out review) := by
  unfold agentStop
  cases out with
  | allow =>
    dsimp only
    split
    · exact holds_hold K h
    · exact h
  | block reason =>
    dsimp only
    split
    · exact h
    · exact holds_next K (K.tell (.block reason) h)
  | hold =>
    dsimp only
    split
    · exact holds_hold K h
    · exact holds_finish K h
  | cancelled => exact h

theorem holds_settle (interactive children : Bool) :
    A.Holds (l.settle interactive children) := by
  unfold settle
  split
  · exact holds_park K h
  · split
    · exact h
    · exact h

end

variable {m : Steer} {stale : Bool} {pendingTools : List ToolUse}

section

variable (hP : P l (.steer m stale))
include hP

theorem holds_drainSteer (h : A.ready l.messages l.log) :
    A.ready (l.drainSteer m).messages (l.drainSteer m).log := by
  cases m with
  | operator text => exact K.tell (.operator text) (K.rest h)
  | compact summary keepN keepFirst => exact (K.compact hP).2 h
  | approve => exact h
  | reject text => exact h

theorem holds_parkForReview (hphase : l.phase = .held)
    (h : A.rest l.messages l.log) : A.Holds (l.parkForReview stale m) := by
  have hstay : A.Holds l := by
    rw [Holds, hphase]
    exact h
  cases m with
  | operator text =>
    rw [parkForReview]
    split
    · exact hstay
    · exact holds_revise K h text
  | compact summary keepN keepFirst =>
    have hrest := K.announce ((K.compact hP).1 h) (.inl rfl)
    rw [parkForReview, Holds]
    simp only [compact, hphase] at hrest ⊢
    exact hrest
  | approve =>
    rw [parkForReview]
    split
    · exact hstay
    · exact h
  | reject text =>
    rw [parkForReview]
    split
    · exact hstay
    · split
      · exact holds_finish K h
      · exact holds_revise K h text

theorem holds_parkForOperatorTurn (hphase : l.phase = .parked)
    (h : A.rest l.messages l.log) : A.Holds (l.parkForOperatorTurn m) := by
  have hstay : A.Holds l := by
    rw [Holds, hphase]
    exact h
  cases m with
  | operator text => exact holds_next K (K.tell (.operator text) h)
  | compact summary keepN keepFirst =>
    have hrest := (K.compact hP).1 h
    rw [parkForOperatorTurn, Holds]
    simp only [compact, hphase] at hrest ⊢
    exact hrest
  | approve | reject text => exact hstay

theorem holds_finishSteer {took : Bool}
    (hphase : l.phase = .finishing took) (h : A.Holds l) : A.Holds (l.finishSteer took m) := by
  have hheld := h
  rw [Holds, hphase] at h
  unfold finishSteer
  split
  · cases took with
    | true =>
      have hready := holds_drainSteer K hP h
      cases m <;> exact hready
    | false =>
      cases m with
      | operator text => exact K.tell (.operator text) h
      | compact summary keepN keepFirst => exact (K.compact hP).1 h
      | approve => exact h
      | reject text => exact h
  · cases m with
    | compact summary keepN keepFirst =>
      have hkept := K.compact hP
      rw [drainSteerUnanswerable, Holds]
      simp only [compact, hphase] at hkept ⊢
      cases took with
      | true => exact hkept.2 h
      | false => exact hkept.1 h
    | operator text | approve | reject text => exact hheld

theorem holds_takeSteer (h : A.Holds l) (hstep : l.takeSteer m stale = some l') : A.Holds l' := by
  unfold takeSteer at hstep
  split at hstep
  · next hphase =>
    rw [Holds, hphase] at h
    cases hstep
    have hready := holds_drainSteer K hP h
    have hsame : (l.drainSteer m).phase = .steering := by
      cases m <;> exact hphase
    rw [Holds, hsame]
    exact hready
  · next hphase =>
    rw [Holds, hphase] at h
    cases hstep
    exact holds_parkForReview K hP hphase h
  · next hphase =>
    rw [Holds, hphase] at h
    cases hstep
    exact holds_parkForOperatorTurn K hP hphase h
  · next hphase =>
    cases hstep
    exact holds_finishSteer K hP hphase h
  · cases hstep

end

theorem holds_closeStream {cancelled interactive : Bool} {iterText : String}
    {iterStop : Option StopReason} (hP : P l (.close cancelled interactive))
    (hphase : l.phase = .streaming iterText pendingTools iterStop)
    (h : A.stream iterText pendingTools l.messages l.log) :
    A.Holds (l.closeStream iterText pendingTools iterStop cancelled interactive) := by
  unfold closeStream
  split
  · next hcancelled =>
    subst hcancelled
    refine holds_finishTurnCancel K ?_ interactive
    have hrest := K.cancel hP hphase h
    unfold afterCancel at hrest
    split at hrest
    · next hnone => simpa [recordTurn, hnone] using hrest
    · next hsome => simpa [recordTurn, hsome] using hrest
  · next hnot =>
    rw [Bool.not_eq_true] at hnot
    subst hnot
    split
    · have hready := K.discard hP (.inr (.inr ⟨rfl, interactive, rfl⟩)) hphase h
      exact K.rest hready
    unfold endTurn
    split
    · next hclosing => exact holds_finish K (K.refuse hP hphase hclosing.1 hclosing.2 h)
    · next hclosing =>
      split
      · next hanswer => exact K.answer hP hphase hclosing hanswer h
      · next hcall => exact K.call hP hphase (fun hnil => hcall (.inr hnil)) h

theorem holds_dispatchTools {outcomes : List ToolOutcome} {order : List Nat} {after : AfterTools}
    (hP : P l (.dispatch outcomes order after)) (hphase : l.phase = .dispatching pendingTools)
    (h : A.called pendingTools l.messages l.log) (hlen : outcomes.length = pendingTools.length)
    (horder : order.Perm (List.range pendingTools.length)) :
    A.Holds (l.dispatchTools pendingTools outcomes order after) := by
  have hready := K.results hP hphase h hlen horder
  cases after with
  | proceed => exact holds_next K hready
  | repeatedFailure => exact K.rest hready
  | cancelled interactive => exact holds_finishTurnCancel K (K.rest hready) interactive

theorem holds_distilled (hP : P l a) (hphase : l.phase = .distilling)
    (h : A.ready l.messages l.log) : A.Holds (l.distilled (l.distillation a)) := by
  cases hd : l.distillation a with
  | none => rw [distilled, Holds, hphase]; exact h
  | some result => exact K.distil hP h hd

/-- What every edit keeps, every step keeps. -/
theorem holds_step (h : A.Holds l) (hP : P l a) (hstep : l.step a = some l') : A.Holds l' := by
  cases taken_of_step hstep with
  | steer htaken => exact holds_takeSteer K hP h htaken
  | begin hphase | drained hphase | noNote hphase | request hphase | done hphase =>
    rw [Holds, hphase] at h
    exact h
  | halt hphase | unable hphase | failed hphase => rw [Holds, hphase] at h; exact K.rest h
  | @settled took hphase =>
    rw [Holds, hphase] at h
    cases took with
    | true => exact holds_next K h
    | false => exact holds_finish K h
  | note hphase hne => rw [Holds, hphase] at h; exact K.tell (.note hne) (K.rest h)
  | wake hphase hne => rw [Holds, hphase] at h; exact holds_next K (K.tell (.note hne) h)
  | recap hphase | autoCompact hphase =>
    rw [Holds, hphase] at h
    exact holds_distilled K hP hphase h
  | stream hphase => rw [Holds, hphase] at h; exact K.stream h
  | @cancelCall interactive hphase =>
    rw [Holds, hphase] at h
    exact holds_finishTurnCancel K (K.rest h) interactive
  | @text t _ _ _ hphase => rw [Holds, hphase] at h; exact K.text t h
  | toolCall hphase => rw [Holds, hphase] at h; exact K.toolCall _ h
  | close hphase => rw [Holds, hphase] at h; exact holds_closeStream K hP hphase h
  | retry hphase =>
    rw [Holds, hphase] at h
    exact holds_next K (K.discard hP (.inl rfl) hphase h)
  | callAgain hphase => rw [Holds, hphase] at h; exact holds_next K h
  | fail hphase =>
    rw [Holds, hphase] at h
    have hready := K.discard hP (.inr (.inl rfl)) hphase h
    exact K.rest hready
  | dispatch hphase hlen horder =>
    rw [Holds, hphase] at h
    exact holds_dispatchTools K hP hphase h hlen horder
  | agentStop hphase => rw [Holds, hphase] at h; exact holds_agentStop K h _ _
  | settle hphase => rw [Holds, hphase] at h; exact holds_settle K h _ _
  | @reviewEnd expired hphase =>
    rw [Holds, hphase] at h
    split
    · exact holds_finish K h
    · exact h
  | parkEnd hphase => rw [Holds, hphase] at h; exact holds_finish K h
  | waitEnd hphase => rw [Holds, hphase] at h; exact h

/-- And so does a run. -/
theorem holds_of_run (h : A.Holds l) (hrun : Transition.Run step P l l') : A.Holds l' :=
  hrun.invariant (I := A.Holds) (fun _ _ _ hs hP hstep => holds_step K hs hP hstep) h

end Edits

end Assertion

end Loomcycle.Conversation.Loop
