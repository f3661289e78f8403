import Loomcycle.Conversation.Replay

/-! Resuming a paused run. A continuation is started on the replay of its session's transcript;
a resume replays the rows of the paused run alone. The two are the same conversation when the
session held none before the run, and only then. -/

namespace Loomcycle.Conversation

/-- A row of a session's transcript. -/
structure Row where
  runID : String
  event : Event
  deriving DecidableEq, Repr

/-- What a continuation of the session is started on. -/
def sessionHistory (rows : List Row) : List Message := replayTranscript (rows.map Row.event)

/-- What resuming a run hands to its loop. -/
def resumeHistory (rows : List Row) (runID : String) : List Message :=
  replayTranscript ((rows.filter fun row => row.runID == runID).map Row.event)

namespace Replay

variable {r : Replay} {e : Event} {events : List Event}

/-- The markers that look back over the history. -/
def isMarker : Event → Bool
  | .contextCompaction .. => true
  | .contextRecap .. => true
  | _ => false

/-- The same replay behind an older conversation. -/
def behind (r : Replay) (older : List Message) : Replay :=
  { r with messages := older ++ r.messages }

section

variable (older : List Message)
include older

theorem flushAssistant_behind :
    (r.behind older).flushAssistant = r.flushAssistant.behind older := by
  unfold flushAssistant behind
  split <;> simp

theorem flushPendingTools_behind :
    (r.behind older).flushPendingTools = r.flushPendingTools.behind older := by
  unfold flushPendingTools behind
  split <;> simp

theorem flush_behind : (r.behind older).flush = r.flush.behind older := by
  rw [flush, flushAssistant_behind, flushPendingTools_behind, flush]

theorem tell_behind (content : List Block) :
    (r.behind older).tell content = (r.tell content).behind older := by
  unfold tell
  rw [flush_behind]
  simp [behind]

theorem addContext_behind (h : r.messages ≠ []) (t : String) :
    (r.behind older).addContext t = (r.addContext t).behind older := by
  have hlast : (older ++ r.messages).getLast? = r.messages.getLast? := by
    rw [List.getLast?_append_of_ne_nil _ h]
  have hdrop : (older ++ r.messages).dropLast = older ++ r.messages.dropLast :=
    List.dropLast_append_of_ne_nil h
  unfold addContext behind
  rw [hlast]
  cases r.messages.getLast? with
  | none => simp
  | some m =>
    obtain ⟨role, content⟩ := m
    cases role <;> simp [hdrop]

/-- An event that is no marker does not see what is older than the history it adds to. -/
theorem apply_behind (h : r.messages ≠ []) (he : isMarker e = false) :
    (r.behind older).apply e = (r.apply e).behind older := by
  cases e with
  | userInput segs =>
    rw [apply, apply]
    split
    · exact flush_behind older
    · exact tell_behind older _
  | text t | toolCall u => rw [apply, apply, flushPendingTools_behind]; rfl
  | toolResult u t isError => rw [apply, apply, flushAssistant_behind]; rfl
  | done => exact flush_behind older
  | contextCompaction summary keepN keepFirst => cases he
  | contextRecap recap keepN keepFirst => cases he
  | childrenNote t =>
    rw [apply, apply]
    split
    · rfl
    · exact tell_behind older _
  | stopBlock reason => exact tell_behind older _
  | startContext t => exact addContext_behind older h t
  | awaiting => rfl
  | other kind => rfl

end

theorem messages_flushAssistant (r : Replay) : r.messages <+: r.flushAssistant.messages := by
  unfold flushAssistant
  split
  · exact List.prefix_refl _
  · exact List.prefix_append _ _

theorem messages_flushPendingTools (r : Replay) :
    r.messages <+: r.flushPendingTools.messages := by
  unfold flushPendingTools
  split
  · exact List.prefix_refl _
  · exact List.prefix_append _ _

theorem messages_flush (r : Replay) : r.messages <+: r.flush.messages :=
  r.messages_flushAssistant.trans (messages_flushPendingTools _)

theorem messages_tell (content : List Block) : r.messages <+: (r.tell content).messages :=
  r.messages_flush.trans (List.prefix_append _ _)

theorem messages_apply (h : r.messages ≠ []) (he : isMarker e = false) :
    (r.apply e).messages ≠ [] := by
  have hgrows : ∀ {msgs}, r.messages <+: msgs → msgs ≠ [] := fun hp hnil =>
    h (List.prefix_nil.mp (hnil ▸ hp))
  cases e with
  | userInput segs =>
    rw [apply]
    split
    · exact hgrows r.messages_flush
    · exact hgrows (messages_tell _)
  | text t | toolCall u => exact hgrows r.messages_flushPendingTools
  | toolResult u t isError => exact hgrows r.messages_flushAssistant
  | done => exact hgrows r.messages_flush
  | contextCompaction summary keepN keepFirst => cases he
  | contextRecap recap keepN keepFirst => cases he
  | childrenNote t =>
    rw [apply]
    split
    · exact h
    · exact hgrows (messages_tell _)
  | stopBlock reason => exact hgrows (messages_tell _)
  | startContext t =>
    rw [apply, addContext]
    split
    · simp
    · simp
  | awaiting => exact h
  | other kind => exact h

theorem foldl_behind (older : List Message) (h : r.messages ≠ [])
    (hevents : ∀ e ∈ events, isMarker e = false) :
    events.foldl apply (r.behind older) = (events.foldl apply r).behind older := by
  induction events generalizing r with
  | nil => rfl
  | cons e rest ih =>
    have he := hevents e List.mem_cons_self
    rw [List.foldl_cons, List.foldl_cons, apply_behind older h he]
    exact ih (messages_apply h he) fun e' he' => hevents e' (List.mem_cons_of_mem _ he')

/-- The input that starts a run closes whatever was being collected before it. -/
theorem apply_userInput (segs : List PromptSegment) :
    r.apply (.userInput segs) = (({} : Replay).apply (.userInput segs)).behind r.flush.messages := by
  have hflush : r.flush = ({} : Replay).behind r.flush.messages := by
    have hquiet := r.quiet_flush
    have hpending := r.pending_flush
    generalize r.flush = f at hquiet hpending
    obtain ⟨msgs, text, tools, pending⟩ := f
    obtain ⟨htext, htools⟩ := hquiet
    subst htext htools hpending
    simp [behind]
  have hempty : ({} : Replay).flush = {} := rfl
  rw [apply, apply]
  split
  · exact hflush
  · unfold tell
    rw [hempty, hflush]
    simp [behind]

end Replay

section Resume

variable {earlier : List Row} {runID : String} {segs : List PromptSegment} {later : List Event}

/-- The rows of a run whose first is its input. -/
def runRows (runID : String) (segs : List PromptSegment) (later : List Event) : List Row :=
  (.userInput segs :: later).map fun e => ⟨runID, e⟩

theorem resumeHistory_eq (hearlier : ∀ row ∈ earlier, row.runID ≠ runID) :
    resumeHistory (earlier ++ runRows runID segs later) runID =
      replayTranscript (.userInput segs :: later) := by
  have hnone : earlier.filter (fun row => row.runID == runID) = [] := by
    simpa using hearlier
  have hall : (runRows runID segs later).filter (fun row => row.runID == runID) =
      runRows runID segs later := by
    simp [runRows]
  have hevents : (runRows runID segs later).map Row.event = .userInput segs :: later := by
    simp [runRows, Function.comp_def]
  rw [resumeHistory, List.filter_append, hnone, hall, List.nil_append, hevents]

theorem sessionHistory_eq :
    sessionHistory (earlier ++ runRows runID segs later) =
      (later.foldl Replay.apply ((({} : Replay).apply (.userInput segs)).behind
        (sessionHistory earlier))).flush.messages := by
  have hevents : (runRows runID segs later).map Row.event = .userInput segs :: later := by
    simp [runRows, Function.comp_def]
  rw [sessionHistory, List.map_append, hevents, replayTranscript, Replay.of_append,
    List.foldl_cons, Replay.apply_userInput]
  rfl

/-- Up to a run's first marker, what the resume loses is the conversation before the run. -/
theorem sessionHistory_eq_append (hearlier : ∀ row ∈ earlier, row.runID ≠ runID)
    (hsegs : userBlocks segs ≠ []) (hlater : ∀ e ∈ later, Replay.isMarker e = false) :
    sessionHistory (earlier ++ runRows runID segs later) =
      sessionHistory earlier ++ resumeHistory (earlier ++ runRows runID segs later) runID := by
  have hne : (({} : Replay).apply (.userInput segs)).messages ≠ [] := by
    rw [Replay.apply, if_neg hsegs]
    simp [Replay.tell]
  rw [sessionHistory_eq, Replay.foldl_behind _ hne hlater, Replay.flush_behind,
    resumeHistory_eq hearlier]
  rfl

end Resume

/-- A resume restores the conversation at every boundary of a run, its first included, exactly
when the session held none before it; up to the run's first marker that is so at each of them. -/
theorem resume_restores_iff {earlier : List Row} {runID : String}
    (hearlier : ∀ row ∈ earlier, row.runID ≠ runID) (segs : List PromptSegment)
    (later : List Event) (Pause : Nat → Prop) (hfirst : Pause 0) :
    ((∀ n, Pause n → resumeHistory (earlier ++ runRows runID segs (later.take n)) runID =
        sessionHistory (earlier ++ runRows runID segs (later.take n))) ↔
      sessionHistory earlier = []) ∧
    (userBlocks segs ≠ [] → ∀ n, (∀ e ∈ later.take n, Replay.isMarker e = false) →
      (resumeHistory (earlier ++ runRows runID segs (later.take n)) runID =
        sessionHistory (earlier ++ runRows runID segs (later.take n)) ↔
      sessionHistory earlier = [])) := by
  refine ⟨⟨fun h => ?_, fun hnone n _ => ?_⟩, fun hsegs n hmarkers => ?_⟩
  · have hstart := h 0 hfirst
    rw [resumeHistory_eq hearlier, sessionHistory_eq, List.take_zero, List.foldl_nil,
      Replay.flush_behind] at hstart
    exact List.self_eq_append_left.mp hstart
  · rw [resumeHistory_eq hearlier, sessionHistory_eq, hnone]
    rfl
  · rw [sessionHistory_eq_append hearlier hsegs hmarkers]
    exact List.self_eq_append_left

/-- A session whose first run said something, and one whose first run was given a system segment
alone and failed. -/
def remembered : List Row :=
  [⟨"r1", .userInput [⟨.user, [.text "remember the 7"]⟩]⟩, ⟨"r1", .text "I will"⟩, ⟨"r1", .done⟩]

def stopped : List Row := runRows "r1" [⟨.system, [.text "be brief"]⟩] [.other "error", .done]

/-- The rows of the run that is resumed. -/
def question (later : List Event) : List Row :=
  runRows "r2" [⟨.user, [.text "which was it?"]⟩] later

theorem resume_restores_stopped :
    resumeHistory (stopped ++ question ([.text "a", .awaiting].take 1)) "r2" =
      sessionHistory (stopped ++ question ([.text "a", .awaiting].take 1)) := by
  have hearlier : ∀ row ∈ stopped, row.runID ≠ "r2" := by decide
  have hnone : sessionHistory stopped = [] := by decide +kernel
  exact (resume_restores_iff hearlier [⟨.user, [.text "which was it?"]⟩] [.text "a", .awaiting]
    (fun _ => True) trivial).1.mpr hnone 1 trivial

/-- The earlier turns are lost, and a compaction that kept two messages of the session's three
is applied to the one that is left. -/
theorem resume_loses_turns :
    resumeHistory (remembered ++ question []) "r2" = [userText "which was it?"] ∧
      sessionHistory (remembered ++ question []) =
        [userText "remember the 7", assistantText "I will", userText "which was it?"] ∧
      resumeHistory (remembered ++ question [.contextCompaction "a number" 2 false]) "r2" ≠
        sessionHistory (remembered ++ question [.contextCompaction "a number" 2 false]) := by
  refine ⟨?_, ?_, ?_⟩
  · decide +kernel
  · decide +kernel
  · decide +kernel

end Loomcycle.Conversation
