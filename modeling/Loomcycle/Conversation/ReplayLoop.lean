import Loomcycle.Conversation.LoopHistory
import Loomcycle.Conversation.Replay

/-! The transcript against the conversation it is written beside. The stream writes the events,
the turn writes the messages, and they agree at every boundary as long as the loop keeps what it
streamed, records what it adds and can store it: the steps that do not are not `Recorded`, and
each of them parts the two. -/

namespace Loomcycle.Conversation.Loop
open Lib Lib.Encoding

/-! ## Events that add a turn -/

theorem of_records {text : String} {e : Event} (h : Records text e) (log : List Event) :
    Replay.of (log ++ [e]) = (Replay.of log).tell [.text text] := by
  cases h with
  | operator => simp [operatorInput, Replay.apply, userBlocks]
  | note hne => simp [Replay.apply, hne]
  | block => simp [Replay.apply]

theorem replayTranscript_announce {e : Event} (h : e = .awaiting ∨ e = .done) (log : List Event) :
    replayTranscript (log ++ [e]) = replayTranscript log := by
  rcases h with rfl | rfl
  · simp [replayTranscript, Replay.apply]
  · simp [replayTranscript, Replay.apply]

/-! ## Tool calls and results as they are stored -/

/-- A call whose input is JSON, as it is stored. -/
def written (u : ToolUse) : ToolUse := { u with input := JsonText.compact false u.masked }

theorem stored_eq {u : ToolUse} (h : (JsonText.parse u.masked).isSome = true) :
    u.stored = some (written u) := if_pos h

theorem core_written (u : ToolUse) : (written u).block.core = u.block.core := by
  refine congrArg (Block.toolUse u.id u.name) ?_
  by_cases hsecret : secretFields u.name = []
  · have hmasked : u.masked = u.input := by
      simp only [ToolUse.masked, maskCredentialCreateValue, hsecret, if_true]
    simp only [written, hsecret, if_true, hmasked, JsonText.compact_compact]
  · simp only [written, hsecret, if_false]

theorem isSome_stored {u : ToolUse} : u.stored.isSome = (JsonText.parse u.masked).isSome := by
  unfold ToolUse.stored
  split
  · next h => rw [h]; rfl
  · next h => rw [Bool.not_eq_true] at h; rw [h]; rfl

theorem filterMap_stored {pendingTools : List ToolUse} (h : AllJSON pendingTools) :
    pendingTools.filterMap ToolUse.stored = pendingTools.map written := by
  rw [← List.filterMap_eq_map]
  exact List.filterMap_congr fun u hu => stored_eq (h u hu)

/-- The row of a tool result and the block a replay makes of it. -/
def resultEvent (c : ToolUse × ToolOutcome) : Event :=
  .toolResult (written c.1) (Utf8.repair c.2.text) c.2.isError

def resultBlock (c : ToolUse × ToolOutcome) : Block :=
  .toolResult c.1.id "" (Utf8.repair c.2.text) c.2.isError

section Results

variable {pendingTools : List ToolUse} {outcomes : List ToolOutcome} {order : List Nat}
  {done : List (ToolUse × ToolOutcome)} {r : Replay}

theorem addResults_addResults (xs ys : List Block) :
    (r.addResults xs).addResults ys = r.addResults (xs ++ ys) := by
  simp [Replay.addResults]

theorem foldl_results_quiet (h : r.Quiet) :
    (done.map resultEvent).foldl Replay.apply r = r.addResults (done.map resultBlock) := by
  induction done generalizing r with
  | nil => simp [Replay.addResults]
  | cons c rest ih =>
    have hstep : r.apply (resultEvent c) = r.addResults [resultBlock c] := by
      rw [resultEvent, Replay.apply, Replay.flushAssistant_of_quiet h]
      rfl
    have hrest := ih (r := r.addResults [resultBlock c]) h
    rw [List.map_cons, List.foldl_cons, hstep, hrest, addResults_addResults]
    rfl

/-- The first result closes the turn that called for it. -/
theorem foldl_results (hne : done ≠ []) :
    (done.map resultEvent).foldl Replay.apply r =
      r.flushAssistant.addResults (done.map resultBlock) := by
  cases done with
  | nil => exact absurd rfl hne
  | cons c rest =>
    have hstep : r.apply (resultEvent c) = r.flushAssistant.addResults [resultBlock c] := rfl
    have hquiet : (r.flushAssistant.addResults [resultBlock c]).Quiet := r.quiet_flushAssistant
    rw [List.map_cons, List.foldl_cons, hstep, foldl_results_quiet hquiet, addResults_addResults]
    rfl

theorem filterMap_getElem_range {α : Type*} (l : List α) :
    (List.range l.length).filterMap (fun i => l[i]?) = l := by
  induction l with
  | nil => rfl
  | cons a rest ih =>
    rw [List.length_cons, List.range_succ_eq_map, List.filterMap_cons, List.filterMap_map]
    exact congrArg (a :: ·) ih

/-- The calls with their outcomes, as they complete. -/
def completed (pendingTools : List ToolUse) (outcomes : List ToolOutcome) (order : List Nat) :
    List (ToolUse × ToolOutcome) :=
  order.filterMap fun i => (pendingTools.zip outcomes)[i]?

/-- Every call completes once, in some order. -/
theorem completed_perm (hlen : outcomes.length = pendingTools.length)
    (horder : order.Perm (List.range pendingTools.length)) :
    (completed pendingTools outcomes order).Perm (pendingTools.zip outcomes) := by
  have hzip : (pendingTools.zip outcomes).length = pendingTools.length := by
    rw [List.length_zip, hlen, Nat.min_self]
  have h := horder.filterMap fun i => (pendingTools.zip outcomes)[i]?
  rwa [← hzip, filterMap_getElem_range] at h

theorem resultEvents_stored (h : AllJSON pendingTools) :
    (resultEvents pendingTools outcomes order).filterMap Event.stored =
      (completed pendingTools outcomes order).map resultEvent := by
  rw [resultEvents, completed, List.map_filterMap, List.filterMap_filterMap]
  refine List.filterMap_congr fun i _ => ?_
  cases hi : (pendingTools.zip outcomes)[i]? with
  | none => rfl
  | some c =>
    have hstored := stored_eq (h c.1 (List.of_mem_zip (List.mem_of_getElem? hi)).1)
    simp [Event.stored, hstored, resultEvent]

/-- Results in the order they came in are the results in the order of the calls, if storing them
changed nothing. -/
theorem same_results_iff (hlen : outcomes.length = pendingTools.length)
    (h : done.Perm (pendingTools.zip outcomes)) :
    Same ⟨.user, done.map resultBlock⟩ (resultsTurn (toolResults pendingTools outcomes)) ↔
      ∀ o ∈ outcomes, Utf8.validString o.text = true := by
  have hstored : (done.map resultBlock).map Block.core = done.map resultBlock := by
    simp [Function.comp_def, Block.core, resultBlock]
  have hlive : (toolResults pendingTools outcomes).map Block.core = (pendingTools.zip outcomes).map
      fun c => .toolResult c.1.id "" c.2.text c.2.isError := by
    simp [toolResults, Function.comp_def, Block.core]
  constructor
  · intro hsame o ho
    have hperm : (done.map resultBlock).Perm
        ((toolResults pendingTools outcomes).map Block.core) := by
      rw [← hstored]
      exact hsame.content.elim (fun heq => heq ▸ .refl _) And.right
    have hzip : (pendingTools.zip outcomes).map Prod.snd = outcomes := List.map_snd_zip hlen.le
    rw [← hzip] at ho
    obtain ⟨c, hc, rfl⟩ := List.mem_map.mp ho
    rw [hlive] at hperm
    obtain ⟨c', -, heq⟩ := List.mem_map.mp (hperm.mem_iff.mpr (List.mem_map_of_mem hc))
    rw [← (Block.toolResult.inj heq).2.2.1]
    exact Utf8.validString_repair _
  · intro hvalid
    refine ⟨rfl, .inr ⟨fun x hx => ?_, ?_⟩⟩
    · obtain ⟨c, -, rfl⟩ := List.mem_map.mp hx
      rfl
    · have heq : (pendingTools.zip outcomes).map resultBlock =
          (toolResults pendingTools outcomes).map Block.core := by
        rw [hlive]
        refine List.map_congr_left fun c hc => ?_
        rw [resultBlock, Utf8.repair_eq_self (hvalid c.2 (List.of_mem_zip hc).2)]
      change ((done.map resultBlock).map Block.core).Perm
        ((toolResults pendingTools outcomes).map Block.core)
      rw [hstored, ← heq]
      exact h.map _

end Results

/-! ## Collecting a turn -/

/-- The replay has collected what was stored of the stream, behind the messages the loop holds. -/
structure Collecting (iterText : String) (pendingTools : List ToolUse) (msgs : List Message)
    (r : Replay) : Prop where
  before : Agree r.flushPendingTools.messages msgs
  text : r.asstText = iterText
  tools : r.asstTools = (pendingTools.filterMap ToolUse.stored).map ToolUse.block
  closed : storedContent iterText pendingTools ≠ [] → r.pendingToolResults = []

section Collecting

variable {iterText : String} {pendingTools : List ToolUse} {msgs : List Message} {r : Replay}

theorem collecting_of_quiet (h : Agree r.flush.messages msgs) (hquiet : r.Quiet) :
    Collecting "" [] msgs r :=
  ⟨by rwa [Replay.flush_of_quiet hquiet] at h, hquiet.1, hquiet.2, fun hne => absurd rfl hne⟩

section

variable (h : Collecting iterText pendingTools msgs r)
include h

theorem Collecting.quiet (hnone : storedContent iterText pendingTools = []) : r.Quiet := by
  obtain ⟨htext, htools⟩ := turnContent_eq_nil.mp hnone
  exact ⟨by rw [h.text, htext], by rw [h.tools, htools, List.map_nil]⟩

/-- Nothing was stored: the replay holds the loop's messages. -/
theorem Collecting.agree_of_nil
    (hnone : storedContent iterText pendingTools = []) : Agree r.flush.messages msgs := by
  rw [Replay.flush_of_quiet (h.quiet hnone)]
  exact h.before

/-- Something was: the replay holds a turn of it as well. -/
theorem Collecting.messages_flush (hsome : storedContent iterText pendingTools ≠ []) :
    r.flush.messages =
      r.flushPendingTools.messages ++ [⟨.assistant, storedContent iterText pendingTools⟩] := by
  have hnil := h.closed hsome
  have hnot : ¬(r.asstText = "" ∧ r.asstTools = []) := by
    rintro ⟨htext, htools⟩
    rw [h.text] at htext
    rw [h.tools, List.map_eq_nil_iff] at htools
    exact hsome (turnContent_eq_nil.mpr ⟨htext, htools⟩)
  rw [Replay.flush_of_nil hnil, Replay.flushPendingTools_of_nil hnil, Replay.flushAssistant,
    if_neg hnot, h.text, h.tools]
  rfl

theorem Collecting.agree_snoc_iff (hsome : storedContent iterText pendingTools ≠ []) {m : Message} :
    Agree r.flush.messages (msgs ++ [m]) ↔
      Same ⟨.assistant, storedContent iterText pendingTools⟩ m := by
  rw [h.messages_flush hsome]
  exact h.before.snoc_iff

/-- All of a turn was stored: the replay holds the turn. -/
theorem Collecting.agree_kept (hsome : turnContent iterText pendingTools ≠ [])
    (hjson : AllJSON pendingTools) :
    Agree r.flush.messages (msgs ++ [assistantTurn iterText pendingTools]) ∧
      r.pendingToolResults = [] := by
  have hstored : storedContent iterText pendingTools ≠ [] := by
    rw [storedContent, filterMap_stored hjson]
    intro hnil
    obtain ⟨htext, htools⟩ := turnContent_eq_nil.mp hnil
    exact hsome (turnContent_eq_nil.mpr ⟨htext, List.map_eq_nil_iff.mp htools⟩)
  refine ⟨((h.agree_snoc_iff hstored).mpr ⟨rfl, .inl ?_⟩), h.closed hstored⟩
  rw [storedContent, filterMap_stored hjson, assistantTurn]
  simp only [turnContent, List.map_append, List.map_map, Function.comp_def, core_written]

end

end Collecting

/-! ## The steps that keep the two alike -/

/-- The replay of the log against the messages, by where the loop stands. -/
def recording : Assertion where
  rest msgs log := Agree (replayTranscript log) msgs
  ready msgs log := Agree (replayTranscript log) msgs ∧ (Replay.of log).Quiet
  stream iterText pendingTools msgs log := Collecting iterText pendingTools msgs (Replay.of log)
  called pendingTools msgs log := Agree (replayTranscript log) msgs ∧ pendingTools ≠ [] ∧
    (Replay.of log).pendingToolResults = [] ∧ AllJSON pendingTools

section Edits

variable {msgs out : List Message} {log : List Event} {l : Loop} {a : Label} {e : Event}
  {iterText : String} {pendingTools : List ToolUse} {iterStop : Option StopReason}

theorem Recorded.discard (hP : l.Recorded a) (ha : Discards a iterStop)
    (hphase : l.phase = .streaming iterText pendingTools iterStop) :
    storedContent iterText pendingTools = [] := by
  rcases ha with rfl | rfl | ⟨rfl, interactive, rfl⟩
  · simpa only [Recorded, hphase] using hP
  · simpa only [Recorded, hphase] using hP
  · simpa only [Recorded, hphase] using hP

variable {interactive : Bool}

theorem Recorded.cancelled (hP : l.Recorded (.close true interactive))
    (hphase : l.phase = .streaming iterText pendingTools iterStop) : pendingTools = [] := by
  simpa only [Recorded, hphase] using hP

theorem Recorded.turn {stop : StopReason} (hP : l.Recorded (.close false interactive))
    (hphase : l.phase = .streaming iterText pendingTools (some stop)) :
    turnContent iterText pendingTools ≠ [] ∧ (l.closingTurn = true → pendingTools = []) ∧
      AllJSON pendingTools := by
  simpa only [Recorded, hphase] using hP

theorem Recorded.results {outcomes : List ToolOutcome} {order : List Nat} {after : AfterTools}
    (hP : l.Recorded (.dispatch outcomes order after)) (hphase : l.phase = .dispatching pendingTools) :
    ∀ o ∈ outcomes, Utf8.validString o.text = true := by
  simpa only [Recorded, hphase] using hP

/-- A marker rebuilds from the replayed history what the loop made of its own. -/
theorem recorded_rebuild {build : String → String → List Message → List Message} {note : String}
    {keepN : Int} {keepFirst : Bool} {tail : List Message}
    (hbuild : ∀ {pinned a b}, Agree a b → Agree (build pinned note a) (build pinned note b))
    (happly : ∀ r : Replay, r.apply e = r.rebuild build note keepN keepFirst)
    (htail : keptTail msgs keepN = tail) (h : Agree (replayTranscript log) msgs) :
    Agree (replayTranscript (log ++ [e]))
        (endOnUserTurn (build (pinnedText msgs keepFirst) note tail) msgs) ∧
      (Replay.of (log ++ [e])).Quiet := by
  rw [replayTranscript, Replay.of_snoc, happly, Replay.flush_of_empty ⟨rfl, rfl⟩ rfl, ← htail]
  refine ⟨?_, rfl, rfl⟩
  rw [← h.pinnedText_eq]
  exact (hbuild h.keptTail).endOnUserTurn h

theorem keptTail_sub {cut : Nat} (h : cut ≤ msgs.length) :
    keptTail msgs (msgs.length - cut : Nat) = msgs.drop cut := by
  unfold keptTail clampKeep
  congr 1
  omega

theorem recorded_distilled (h : Agree (replayTranscript log) l.messages)
    (hd : l.distillation a = some (out, e)) :
    Agree (replayTranscript (log ++ [e])) out ∧ (Replay.of (log ++ [e])).Quiet := by
  cases a with
  | recap keepLastN window reasoning =>
    obtain ⟨note, -, hout, hevent⟩ := distils_of_recap hd
    subst hout hevent
    exact recorded_rebuild (Agree.refl _).append (fun _ => rfl)
      (keptTail_sub (sound_windowSplit _ _ _ _).le_length) h
  | autoCompact keepLastN keepFirst window summary =>
    obtain ⟨-, hout, hevent⟩ := distils_of_autoCompact hd
    subst hout hevent
    exact recorded_rebuild agree_compactionMessages (fun _ => rfl)
      (keptTail_sub (sound_windowSplit _ _ _ _).le_length) h
  | _ => cases hd

theorem recorded_compact (summary : String) (keepN : Int) (keepFirst : Bool)
    (h : Agree (replayTranscript l.log) l.messages) :
    Agree (replayTranscript (l.compact summary keepN keepFirst).log)
        (l.compact summary keepN keepFirst).messages ∧
      (Replay.of (l.compact summary keepN keepFirst).log).Quiet :=
  recorded_rebuild agree_compactionMessages (fun _ => rfl)
    (by unfold keptTail clampKeep; congr 2; omega) h

/-- A part of the turn that the stream delivers, and the replay collects. -/
theorem Collecting.deliver {text : String} {tools : List ToolUse}
    (h : Collecting iterText pendingTools msgs (Replay.of log))
    (he : (Replay.of log).apply e = { (Replay.of log).flushPendingTools with
      asstText := text, asstTools := (tools.filterMap ToolUse.stored).map ToolUse.block }) :
    Collecting text tools msgs (Replay.of (log ++ [e])) := by
  have hnil := Replay.pending_flushPendingTools (Replay.of log)
  rw [Replay.of_snoc, he]
  refine ⟨?_, rfl, rfl, fun _ => hnil⟩
  rw [Replay.flushPendingTools_of_nil]
  · exact h.before
  · exact hnil

/-- A call that cannot be stored leaves the replay where it was. -/
theorem Collecting.toolCall (h : Collecting iterText pendingTools msgs (Replay.of log))
    (u : ToolUse) : Collecting iterText (pendingTools ++ [u]) msgs
      (Replay.of (log ++ (Event.toolCall u).stored.toList)) := by
  cases hu : u.stored with
  | none =>
    have htools : (pendingTools ++ [u]).filterMap ToolUse.stored =
        pendingTools.filterMap ToolUse.stored := by
      simp [hu]
    simp only [Event.stored, hu, Option.map_none, Option.toList_none, List.append_nil]
    exact ⟨h.before, h.text, by rw [htools, h.tools], by rw [storedContent, htools]; exact h.closed⟩
  | some v =>
    simp only [Event.stored, hu, Option.map_some, Option.toList_some]
    exact h.deliver (by simp [Replay.apply, ← h.text, h.tools, hu])

theorem Collecting.agree_afterCancel (h : Collecting iterText [] msgs (Replay.of log)) :
    Agree (replayTranscript log) (afterCancel msgs iterText []) := by
  rw [afterCancel, assistantTurn, dropEmptyTurn_snoc, if_pos rfl, List.append_nil]
  split
  · next hnone => exact h.agree_of_nil hnone
  · next hsome => exact (h.agree_snoc_iff hsome).mpr (.refl _)

theorem replay_results {outcomes : List ToolOutcome} {order : List Nat}
    (h : recording.called pendingTools msgs log) (hlen : outcomes.length = pendingTools.length)
    (horder : order.Perm (List.range pendingTools.length)) :
    (Replay.of (log ++ (resultEvents pendingTools outcomes order).filterMap Event.stored)).Quiet ∧
    (Agree (replayTranscript
        (log ++ (resultEvents pendingTools outcomes order).filterMap Event.stored))
        (msgs ++ [resultsTurn (toolResults pendingTools outcomes)]) ↔
      ∀ o ∈ outcomes, Utf8.validString o.text = true) := by
  obtain ⟨hagree, hne, hnil, hjson⟩ := h
  have hperm := completed_perm hlen horder
  have hdone : completed pendingTools outcomes order ≠ [] := by
    intro hempty
    have hlength := hperm.length_eq
    rw [hempty, List.length_zip, hlen, Nat.min_self, List.length_nil] at hlength
    exact hne (List.length_eq_zero_iff.mp hlength.symm)
  have hof : Replay.of (log ++ (resultEvents pendingTools outcomes order).filterMap Event.stored) =
      (Replay.of log).flushAssistant.addResults
        ((completed pendingTools outcomes order).map resultBlock) := by
    rw [Replay.of_append, resultEvents_stored hjson, foldl_results hdone]
  have hquiet : ((Replay.of log).flushAssistant.addResults
      ((completed pendingTools outcomes order).map resultBlock)).Quiet :=
    (Replay.of log).quiet_flushAssistant
  rw [replayTranscript, hof, Replay.flush_of_quiet hquiet]
  rw [replayTranscript, Replay.flush_of_nil hnil] at hagree
  have hpending : ((Replay.of log).flushAssistant.addResults
      ((completed pendingTools outcomes order).map resultBlock)).pendingToolResults =
      (completed pendingTools outcomes order).map resultBlock := by
    rw [Replay.addResults, Replay.pending_flushAssistant, hnil, List.nil_append]
  rw [Replay.flushPendingTools, if_neg (by rw [hpending]; simpa using hdone), hpending]
  exact ⟨hquiet, hagree.snoc_iff.trans (same_results_iff hlen hperm)⟩

end Edits

theorem kept_recording : recording.Kept Recorded where
  rest h := h.1
  announce h he := by
    change Agree _ _
    rw [replayTranscript_announce he]
    exact h
  tell he h := by
    change Agree _ _ ∧ _
    rw [replayTranscript, of_records he, Replay.flush_tell]
    exact ⟨h.snoc _, (Replay.of _).quiet_flush⟩
  compact _ := ⟨fun h => (recorded_compact _ _ _ h).1, fun h => recorded_compact _ _ _ h.1⟩
  distil _ h hd := recorded_distilled h.1 hd
  stream h := collecting_of_quiet h.1 h.2
  text t h := h.deliver (by simp [Replay.apply, h.text, ← h.tools])
  toolCall u h := h.toolCall u
  discard hP ha hphase h :=
    have hnone := hP.discard ha hphase
    ⟨h.agree_of_nil hnone, h.quiet hnone⟩
  cancel hP hphase h := by
    have hnone := hP.cancelled hphase
    subst hnone
    exact h.agree_afterCancel
  answer hP hphase _ _ h :=
    have ⟨hsome, _, hjson⟩ := hP.turn hphase
    (h.agree_kept hsome hjson).1
  call hP hphase hne h :=
    have ⟨hsome, _, hjson⟩ := hP.turn hphase
    have ⟨hagree, hnil⟩ := h.agree_kept hsome hjson
    ⟨hagree, hne, hnil, hjson⟩
  refuse hP hphase hclosing hne _ := absurd ((hP.turn hphase).2.1 hclosing) hne
  results hP hphase h hlen horder :=
    have ⟨hquiet, hagree⟩ := replay_results h hlen horder
    ⟨hagree.mpr (hP.results hphase), hquiet⟩

/-! ## The start of a run -/

section Start

variable {log : List Event} {segs : List PromptSegment} {extra : List String}

theorem appendStartContext_cons (msgs : List Message) (t : String) (rest : List String) :
    appendStartContext msgs (t :: rest) =
      appendStartContext (appendStartContext msgs [t]) rest := by
  cases rest with
  | nil => simp [appendStartContext]
  | cons u rest =>
    cases hlast : msgs.getLast? with
    | none => simp [appendStartContext, hlast]
    | some m =>
      obtain ⟨role, content⟩ := m
      cases role <;> simp [appendStartContext, hlast]

theorem foldl_startContext (r : Replay) :
    (extra.map .startContext).foldl Replay.apply r =
      { r with messages := appendStartContext r.messages extra } := by
  induction extra generalizing r with
  | nil => simp [appendStartContext]
  | cons t rest ih =>
    have hstep : r.apply (.startContext t) =
        { r with messages := appendStartContext r.messages [t] } := by
      unfold Replay.apply Replay.addContext appendStartContext
      cases r.messages.getLast? with
      | none => rfl
      | some m =>
        obtain ⟨role, content⟩ := m
        cases role <;> rfl
    rw [List.map_cons, List.foldl_cons, hstep, ih, appendStartContext_cons r.messages t rest]

/-- A run whose prior messages are the replay of the session so far starts recorded. -/
theorem recorded_start (steerQueue : Bool) (iterCap : Nat) (unboundedIters : Bool)
    (log : List Event) (segs : List PromptSegment) (extra : List String) :
    recording.Holds
      (start steerQueue iterCap unboundedIters (replayTranscript log) log segs extra) := by
  refine Assertion.holds_next kept_recording ?_
  have hinput : (Replay.of log).apply (.userInput segs) =
      { (Replay.of log).flush with
        messages := replayTranscript log ++
          if userBlocks segs = [] then [] else [⟨.user, userBlocks segs⟩] } := by
    rw [Replay.apply]
    split
    · rw [List.append_nil]; rfl
    · rfl
  have hof : Replay.of (log ++ .userInput segs :: extra.map .startContext) =
      { (Replay.of log).flush with
        messages := appendStartContext (replayTranscript log ++
          if userBlocks segs = [] then [] else [⟨.user, userBlocks segs⟩]) extra } := by
    rw [Replay.of_append, List.foldl_cons, hinput, foldl_startContext]
  have hquiet := (Replay.of log).quiet_flush
  refine ⟨?_, by rw [hof]; exact hquiet⟩
  rw [replayTranscript, hof, Replay.flush_of_empty]
  · exact Agree.refl _
  · exact hquiet
  · exact (Replay.of log).pending_flush

end Start

/-! ## The steps that part them -/

section Parting

variable {l l' : Loop} {a : Label} {iterText : String} {pendingTools : List ToolUse}

/-- The loop moves on and its conversation stays, live and replayed. -/
structure Stays (l l' : Loop) : Prop where
  messages : l'.messages = l.messages
  replay : replayTranscript l'.log = replayTranscript l.log

theorem stays_finish (l : Loop) : Stays l l.finish :=
  ⟨rfl, replayTranscript_announce (.inr rfl) _⟩

theorem stays_next (l : Loop) : Stays l l.next := by
  unfold next
  split
  · exact ⟨rfl, rfl⟩
  · exact stays_finish l

theorem stays_finishTurnCancel (l : Loop) (interactive : Bool) :
    Stays l (l.finishTurnCancel interactive) := by
  unfold finishTurnCancel
  split
  · exact ⟨rfl, replayTranscript_announce (.inl rfl) _⟩
  · exact stays_finish l

/-- A replay and a history of different lengths do not agree, wherever the loop moves on to. -/
theorem Stays.not_agree (h : Stays l l') (hlen : (replayTranscript l.log).length ≠ l.messages.length) :
    ¬Agree (replayTranscript l'.log) l'.messages := by
  rw [h.messages, h.replay]
  exact fun hagree => hlen hagree.length_eq

section

variable (h : Collecting iterText pendingTools l.messages (Replay.of l.log))
include h

theorem length_replay :
    (replayTranscript l.log).length =
      l.messages.length + if storedContent iterText pendingTools = [] then 0 else 1 := by
  split
  · next hnone => exact (h.agree_of_nil hnone).length_eq
  · next hsome =>
    rw [replayTranscript, h.messages_flush hsome, List.length_append, h.before.length_eq]
    rfl

theorem length_replay_ne (hsome : storedContent iterText pendingTools ≠ []) :
    (replayTranscript l.log).length ≠ l.messages.length := by
  rw [length_replay h, if_neg hsome]
  exact Nat.succ_ne_self _

/-- A cancelled turn's calls are answered in the history alone. -/
theorem cancelTurn_parts (hne : pendingTools ≠ []) (interactive : Bool) : ¬Agree (replayTranscript
        ((l.recordTurn iterText pendingTools).cancelTurn pendingTools interactive).log)
      ((l.recordTurn iterText pendingTools).cancelTurn pendingTools interactive).messages := by
  refine (stays_finishTurnCancel _ interactive).not_agree ?_
  have hsome : turnContent iterText pendingTools ≠ [] :=
    fun hnil => hne (turnContent_eq_nil.mp hnil).2
  have hlen := length_replay h
  simp only [recordTurn, assistantTurn, dropEmptyTurn_snoc, if_neg hsome, if_neg hne,
    List.length_append, List.length_singleton, hlen]
  split <;> omega

/-- Less was stored of a turn than it holds, or nothing was said at all. -/
theorem not_agree_turn (hP : ¬(turnContent iterText pendingTools ≠ [] ∧ AllJSON pendingTools)) :
    ¬Agree (replayTranscript l.log) (l.messages ++ [assistantTurn iterText pendingTools]) := by
  intro hagree
  by_cases hstored : storedContent iterText pendingTools = []
  · have hlen := hagree.length_eq
    rw [length_replay h, if_pos hstored, List.length_append] at hlen
    simp at hlen
  · have hsame := ((h.agree_snoc_iff hstored).mp hagree).length_eq
    have hcalls : (pendingTools.filterMap ToolUse.stored).length = pendingTools.length := by
      simpa [storedContent, assistantTurn, turnContent] using hsame
    have hjson : AllJSON pendingTools := fun u hu => by
      rw [← isSome_stored]
      exact List.filterMap_length_eq_length.mp hcalls u hu
    refine hP ⟨fun hnil => hstored ?_, hjson⟩
    obtain ⟨htext, rfl⟩ := turnContent_eq_nil.mp hnil
    exact turnContent_eq_nil.mpr ⟨htext, rfl⟩

/-- Calls made on the closing turn are answered in the history alone, too. -/
theorem endTurn_parts (hP : ¬(turnContent iterText pendingTools ≠ [] ∧
      (l.closingTurn = true → pendingTools = []) ∧ AllJSON pendingTools)) (stop : StopReason) :
    ¬Agree (replayTranscript ((l.recordTurn iterText pendingTools).endTurn pendingTools stop).log)
      ((l.recordTurn iterText pendingTools).endTurn pendingTools stop).messages := by
  unfold endTurn
  split
  · refine (stays_finish _).not_agree ?_
    have hlen := length_replay h
    simp only [recordTurn, List.length_append, List.length_singleton, hlen]
    split <;> omega
  · next hclosing =>
    have hturn := not_agree_turn h fun hkept => hP ⟨hkept.1, fun hlast => Classical.byContradiction
      fun hne => hclosing ⟨hlast, hne⟩, hkept.2⟩
    split
    · exact hturn
    · exact hturn

end

/-- A result that is not UTF-8 is stored as another text. -/
theorem dispatchTools_parts {outcomes : List ToolOutcome} {order : List Nat} {after : AfterTools}
    (h : recording.called pendingTools l.messages l.log)
    (hlen : outcomes.length = pendingTools.length)
    (horder : order.Perm (List.range pendingTools.length))
    (hP : ¬∀ o ∈ outcomes, Utf8.validString o.text = true) :
    ¬Agree (replayTranscript (l.dispatchTools pendingTools outcomes order after).log)
      (l.dispatchTools pendingTools outcomes order after).messages := by
  have hresults := mt (replay_results h hlen horder).2.mp hP
  unfold dispatchTools
  cases after with
  | repeatedFailure => exact hresults
  | cancelled interactive =>
    have hstays := stays_finishTurnCancel { l with
      messages := l.messages ++ [resultsTurn (toolResults pendingTools outcomes)]
      log := l.log ++ (resultEvents pendingTools outcomes order).filterMap Event.stored } interactive
    rw [hstays.messages, hstays.replay]
    exact hresults
  | proceed =>
    dsimp only
    rw [(stays_next _).messages, (stays_next _).replay]
    exact hresults

theorem not_agree_of_not_recorded (h : recording.Holds l) (hP : ¬l.Recorded a)
    (hstep : l.step a = some l') : ¬Agree (replayTranscript l'.log) l'.messages := by
  cases taken_of_step hstep with
  | @close cancelled interactive iterText pendingTools iterStop hphase =>
    rw [Assertion.Holds, hphase] at h
    cases cancelled with
    | true =>
      simp only [Recorded, hphase] at hP
      exact cancelTurn_parts h hP interactive
    | false =>
      cases iterStop with
      | none =>
        simp only [Recorded, hphase] at hP
        exact Stays.not_agree (l := l) ⟨rfl, rfl⟩ (length_replay_ne h hP)
      | some stop =>
        simp only [Recorded, hphase] at hP
        exact endTurn_parts h hP stop
  | retry hphase =>
    rw [Assertion.Holds, hphase] at h
    simp only [Recorded, hphase] at hP
    exact (stays_next l).not_agree (length_replay_ne h hP)
  | fail hphase =>
    rw [Assertion.Holds, hphase] at h
    simp only [Recorded, hphase] at hP
    exact Stays.not_agree (l := l) ⟨rfl, rfl⟩ (length_replay_ne h hP)
  | dispatch hphase hlen horder =>
    rw [Assertion.Holds, hphase] at h
    simp only [Recorded, hphase] at hP
    exact dispatchTools_parts h hlen horder hP
  | _ => exact absurd (by simp_all [Recorded]) hP

end Parting

/-! ## Replaying a run's transcript -/

/-- Not in the middle of a stream. -/
def atBoundary (l : Loop) : Bool :=
  match l.phase with
  | .streaming .. => false
  | _ => true

theorem agree_of_holds {l : Loop} (h : recording.Holds l) (hboundary : l.atBoundary = true) :
    Agree (replayTranscript l.log) l.messages := by
  unfold atBoundary at hboundary
  unfold Assertion.Holds at h
  cases hphase : l.phase with
  | streaming iterText pendingTools iterStop => simp [hphase] at hboundary
  | starting | steering | noting | distilling | calling => rw [hphase] at h; exact h.1
  | dispatching pendingTools => rw [hphase] at h; exact h.1
  | finishing took =>
    rw [hphase] at h
    cases took with
    | true => exact h.1
    | false => exact h
  | answered | held | ending | parked | waiting | ended => rw [hphase] at h; exact h

/-- As long as every step of a run is recorded as it is kept, the transcript replays to the
conversation at each boundary, and the first step that is not parts them. -/
theorem replay_agrees_iff {steerQueue : Bool} {iterCap : Nat} {unboundedIters : Bool}
    {segs : List PromptSegment} {extra : List String} {l : Loop}
    (hrun : Transition.Run step Recorded
      (start steerQueue iterCap unboundedIters [] [] segs extra) l) :
    (l.atBoundary = true → Agree (replayTranscript l.log) l.messages) ∧
      ∀ a l', l.step a = some l' → l'.atBoundary = true →
        (Agree (replayTranscript l'.log) l'.messages ↔ l.Recorded a) := by
  have hstart := recorded_start steerQueue iterCap unboundedIters [] segs extra
  have h := Assertion.holds_of_run kept_recording hstart hrun
  refine ⟨agree_of_holds h, fun a l' hstep hboundary => ⟨fun hagree => ?_, fun hP => ?_⟩⟩
  · exact Classical.byContradiction fun hP => not_agree_of_not_recorded h hP hstep hagree
  · exact agree_of_holds (Assertion.holds_step kept_recording h hP hstep) hboundary

/-- A run that answered, parked and was compacted by its operator. -/
theorem replay_agrees_listing :
    ∃ l, Transition.Run step Recorded (listing 16) l ∧ l.phase = .parked ∧
      replayTranscript l.log = l.messages ∧ Agree (replayTranscript l.log) l.messages := by
  obtain ⟨l, hrun, hphase, heq⟩ := Transition.exists_run_guarded step Recorded (listing 16)
    (boundary ++ [.stream, .text "a ", .text "b", .done (.other "end_turn"), .close false true,
      .agentStop .allow false, .settle true false, .steer (.compact "listed" 1 true) false])
    (p := fun l => l.phase = .parked ∧ replayTranscript l.log = l.messages) (by decide +kernel)
  refine ⟨l, hrun, hphase, heq, (replay_agrees_iff hrun).1 ?_⟩
  rw [atBoundary, hphase]

/-- These steps lead to a boundary at which the replay is not the history. -/
def Diverges (l : Loop) (trace : List Label) : Prop :=
  ∃ l', Transition.exec step l trace = some l' ∧ l'.atBoundary = true ∧
    ¬Agree (replayTranscript l'.log) l'.messages

theorem diverges_of_length {l : Loop} {trace : List Label}
    (h : (Transition.exec step l trace).map (fun l' => l'.atBoundary &&
      decide ((replayTranscript l'.log).length ≠ l'.messages.length)) = some true) :
    l.Diverges trace := by
  obtain ⟨l', hexec, hl⟩ := Option.map_eq_some_iff.mp h
  obtain ⟨hboundary, hlen⟩ := Bool.and_eq_true_iff.mp hl
  exact ⟨l', hexec, hboundary, fun hagree => of_decide_eq_true hlen hagree.length_eq⟩

/-- A stream that failed after some text and is tried again; a turn cancelled after it called a
tool; an answer that says nothing; a tool called on the closing turn; and a call whose arguments
are cut off, which is kept in the turn and not stored. -/
theorem transcript_diverges :
    (listing 16).Diverges (boundary ++ [.stream, .text "a ", .retry]) ∧
    (listing 16).Diverges (boundary ++
      [.stream, .toolCall "t1" "Bash" (ascii "\x7b\x7d"), .close true true]) ∧
    (listing 16).Diverges (boundary ++ [.stream, .done (.other "end_turn"), .close false true]) ∧
    (listing 1).Diverges (boundary ++ [.stream, .toolCall "t1" "Bash" (ascii "\x7b\x7d"),
      .done .toolUse, .close false true, .dispatch [⟨ascii "a b", false⟩] [0] .proceed] ++
      boundary ++ [.stream, .toolCall "t2" "Bash" (ascii "\x7b\x7d"), .done .toolUse,
        .close false true]) ∧
    (listing 16).Diverges (boundary ++ [.stream, .toolCall "t1" "Bash" (ascii "\x7b\"command\": \"l"),
      .done (.other "max_tokens"), .close false true]) := by
  refine ⟨?_, ?_, ?_, ?_, ?_⟩
  · exact diverges_of_length (by decide +kernel)
  · exact diverges_of_length (by decide +kernel)
  · exact diverges_of_length (by decide +kernel)
  · exact diverges_of_length (by decide +kernel)
  · exact diverges_of_length (by decide +kernel)

end Loomcycle.Conversation.Loop
