import Loomcycle.Conversation.LoopRule

/-! The requests the loop sends. A provider refuses a history with an empty assistant message, a
tool call that is not answered at once, or a result without its call. Each place where the loop
ends a turn repairs the history on its own; the cases it does not repair are the steps that are
not sound below, and without them every request is well formed. -/

namespace Loomcycle.Conversation
open Lib Lib.Encoding

/-- Calls are answered where they are made, each once, and no assistant message is empty. -/
structure Tidy (msgs : List Message) : Prop where
  paired : Paired msgs
  spoken : ∀ m ∈ msgs, m.role = .assistant → m.content ≠ []
  once : ∀ m ∈ msgs, (toolResultIDs m).Nodup

/-- What a provider takes: a tidy history that ends on a user turn. -/
structure WellFormed (msgs : List Message) : Prop extends Tidy msgs where
  endsOnUser : EndsOnUser msgs

/-- What a split keeps needs no look when every result message begins with a result. -/
def KeepsCalls (msgs : List Message) (s : Split) : Prop :=
  ResultsFirst msgs ∨ Clean (msgs.drop s.cut)

instance (msgs : List Message) (s : Split) : Decidable (KeepsCalls msgs s) :=
  inferInstanceAs (Decidable (_ ∨ _))

theorem KeepsCalls.clean {msgs : List Message} {s : Split} {keepFirst : Bool}
    (h : KeepsCalls msgs s) (hs : s.Sound msgs keepFirst) (hok : s.ok = true) :
    Clean (msgs.drop s.cut) :=
  h.elim (hs.clean_drop hok) id

section Tidy

variable {l r msgs tail compacted before : List Message} {m : Message} {text pinned note : String}
  {pendingTools : List ToolUse} {results : List Block}

theorem Tidy.append (hl : Tidy l) (hr : Tidy r) : Tidy (l ++ r) := by
  refine ⟨CallReply.Paired.append hl.paired hr.paired, fun m hm => ?_, fun m hm => ?_⟩
  · rcases List.mem_append.mp hm with hm | hm
    · exact hl.spoken m hm
    · exact hr.spoken m hm
  · rcases List.mem_append.mp hm with hm | hm
    · exact hl.once m hm
    · exact hr.once m hm

theorem tidy_nil : Tidy [] := ⟨.nil, by simp, by simp⟩

theorem tidy_userText : Tidy [userText text] :=
  ⟨paired_userText, by simp [userText], by simp [userText, toolResultIDs, List.filterMap_cons]⟩

theorem tidy_assistantText : Tidy [assistantText text] :=
  ⟨paired_assistantText, by simp [assistantText],
    by simp [assistantText, toolResultIDs, List.filterMap_cons]⟩

theorem Tidy.of_suffix (h : Tidy msgs) (hs : tail <:+ msgs) (hclean : Clean tail) : Tidy tail :=
  ⟨h.paired.of_suffix hs hclean, fun m hm => h.spoken m (hs.subset hm),
    fun m hm => h.once m (hs.subset hm)⟩

theorem WellFormed.snoc_userText (h : Tidy msgs) : WellFormed (msgs ++ [userText text]) :=
  ⟨h.append tidy_userText, endsOnUser_snoc.mpr rfl⟩

@[simp]
theorem toolResultIDs_assistantTurn : toolResultIDs (assistantTurn text pendingTools) = [] := by
  unfold toolResultIDs assistantTurn turnContent
  split <;> simp

@[simp]
theorem toolUseIDs_assistantTurn :
    toolUseIDs (assistantTurn text pendingTools) = pendingTools.map ToolUse.id := by
  unfold assistantTurn turnContent
  split <;> simp [List.filterMap_cons, Function.comp_def]

/-- A turn that called nothing. -/
theorem tidy_assistantTurn (hcontent : turnContent text [] ≠ []) :
    Tidy [assistantTurn text []] := by
  refine ⟨.single (by simp) (by simp), fun m hm _ => ?_, fun m hm => ?_⟩
  · rw [List.mem_singleton.mp hm]
    exact hcontent
  · rw [List.mem_singleton.mp hm]
    simp

/-- A turn that called tools and the results of its calls. -/
theorem tidy_exchange (hne : pendingTools ≠ []) (hnodup : (pendingTools.map ToolUse.id).Nodup)
    (hids : results.filterMap Block.resultID? = pendingTools.map ToolUse.id) :
    Tidy [assistantTurn text pendingTools, resultsTurn results] := by
  have hresults : toolResultIDs (resultsTurn results) = pendingTools.map ToolUse.id := hids
  refine ⟨.exchange (by simp) ⟨?_, ?_, fun _ => rfl⟩ rfl, ?_, ?_⟩
  · rw [hresults, toolUseIDs_assistantTurn]
    exact List.Subset.refl _
  · rw [hresults, toolUseIDs_assistantTurn]
    exact List.Subset.refl _
  · intro m hm hrole
    rcases List.mem_pair.mp hm with rfl | rfl
    · simp [assistantTurn, turnContent, hne]
    · cases hrole
  · intro m hm
    rcases List.mem_pair.mp hm with rfl | rfl
    · simp
    · rwa [hresults]

theorem resultIDs_unrunToolResults (text : String) (pending : List ToolUse) :
    (unrunToolResults text pending).filterMap Block.resultID? = pending.map ToolUse.id := by
  simp [unrunToolResults, List.filterMap_map, Function.comp_def]

theorem resultIDs_toolResults {outcomes : List ToolOutcome}
    (h : outcomes.length = pendingTools.length) :
    (toolResults pendingTools outcomes).filterMap Block.resultID? =
      pendingTools.map ToolUse.id := by
  induction pendingTools generalizing outcomes with
  | nil => rfl
  | cons u rest ih =>
    cases outcomes with
    | nil => cases h
    | cons o outcomes =>
      have hrest := ih (Nat.succ.inj h)
      simpa [toolResults] using hrest

theorem tidy_compactionMessages (h : Tidy tail) : Tidy (compactionMessages pinned note tail) :=
  (tidy_userText.append tidy_assistantText).append h

theorem tidy_recapMessages (h : Tidy tail) : Tidy (recapMessages pinned note tail) := by
  refine (Tidy.append ?_ ?_).append h
  · split
    · exact tidy_userText
    · exact tidy_nil
  · split
    · exact tidy_assistantText
    · exact tidy_nil

theorem tidy_endOnUserTurn (h : Tidy compacted) : Tidy (endOnUserTurn compacted before) := by
  unfold endOnUserTurn
  split
  · exact h.append tidy_userText
  · exact h

end Tidy

namespace Loop

/-! ## The steps that keep a history in order -/

/-- A turn of the model is sound when it says something, its calls have ids of their own, and it
is called on to run them; a cancelled one needs the ids only. A compaction on demand is sound when
the tail it keeps starts with no tool result. The window's split sees to that itself as long as
result messages begin with a result; a recap must leave a history at all. -/
def Sound (l : Loop) (a : Label) : Prop :=
  match a, l.phase with
  | .close true _, .streaming _ pendingTools _ => (pendingTools.map ToolUse.id).Nodup
  | .close false _, .streaming iterText pendingTools (some stop) =>
    turnContent iterText pendingTools ≠ [] ∧ (pendingTools.map ToolUse.id).Nodup ∧
      (pendingTools = [] ∨ stop = .toolUse ∨ l.closingTurn = true)
  | .steer (.compact _ keepN _) _, _ => Clean (keptTail l.messages keepN)
  | .recap keepLastN window _, _ =>
    KeepsCalls l.messages (windowSplit l.messages keepLastN true (keptTailBudget window)) ∧
      (l.distillation a).map Prod.fst ≠ some []
  | .autoCompact keepLastN keepFirst window _, _ =>
    KeepsCalls l.messages (windowSplit l.messages keepLastN keepFirst (keptTailBudget window))
  | _, _ => True

instance (l : Loop) (a : Label) : Decidable (l.Sound a) := by
  unfold Sound
  split <;> infer_instance

/-- What is stored of a turn while it is streamed. -/
def storedContent (iterText : String) (pendingTools : List ToolUse) : List Block :=
  turnContent iterText (pendingTools.filterMap ToolUse.stored)

/-- A turn is recorded as it is kept when it says something or calls a tool, and its calls are
stored and run; a cancelled turn when it called none, a stream that is given up when nothing of
it was stored, and the results of tools when they are UTF-8. -/
def Recorded (l : Loop) (a : Label) : Prop :=
  match a, l.phase with
  | .close true _, .streaming _ pendingTools _ => pendingTools = []
  | .close false _, .streaming iterText pendingTools (some _) =>
    turnContent iterText pendingTools ≠ [] ∧ (l.closingTurn = true → pendingTools = []) ∧
      AllJSON pendingTools
  | .close false _, .streaming iterText pendingTools none => storedContent iterText pendingTools = []
  | .retry, .streaming iterText pendingTools _ => storedContent iterText pendingTools = []
  | .fail, .streaming iterText pendingTools _ => storedContent iterText pendingTools = []
  | .dispatch outcomes _ _, .dispatching _ => ∀ o ∈ outcomes, Utf8.validString o.text = true
  | _, _ => True

instance (l : Loop) (a : Label) : Decidable (l.Recorded a) := by
  unfold Recorded
  split <;> infer_instance

section Sound

variable {l : Loop} {interactive : Bool} {iterText : String} {pendingTools : List ToolUse}

theorem Sound.cancelled {iterStop : Option StopReason} (hP : l.Sound (.close true interactive))
    (hphase : l.phase = .streaming iterText pendingTools iterStop) :
    (pendingTools.map ToolUse.id).Nodup := by
  simpa only [Sound, hphase] using hP

theorem Sound.turn {stop : StopReason} (hP : l.Sound (.close false interactive))
    (hphase : l.phase = .streaming iterText pendingTools (some stop)) :
    turnContent iterText pendingTools ≠ [] ∧ (pendingTools.map ToolUse.id).Nodup ∧
      (pendingTools = [] ∨ stop = .toolUse ∨ l.closingTurn = true) := by
  simpa only [Sound, hphase] using hP

end Sound

/-- The tidy history, ready for a call when it ends on a user turn. -/
def tidiness : Assertion where
  rest msgs _ := Tidy msgs
  ready msgs _ := WellFormed msgs
  stream _ _ msgs _ := WellFormed msgs
  called pendingTools msgs _ := ∃ h iterText, msgs = h ++ [assistantTurn iterText pendingTools] ∧
    Tidy h ∧ pendingTools ≠ [] ∧ (pendingTools.map ToolUse.id).Nodup

section Edits

variable {msgs out : List Message} {l : Loop} {iterText note : String}
  {pendingTools : List ToolUse}

/-- What replaces the history is tidy when the kept tail is clean, and ends as the history did. -/
theorem wellFormed_rebuilt {tail compacted : List Message} (hne : compacted ≠ [])
    (htidy : Tidy tail → Tidy compacted) (hs : tail <:+ msgs) (hclean : Clean tail) :
    (Tidy msgs → Tidy (endOnUserTurn compacted msgs)) ∧
      (WellFormed msgs → WellFormed (endOnUserTurn compacted msgs)) := by
  have hkeep : Tidy msgs → Tidy (endOnUserTurn compacted msgs) := fun h =>
    tidy_endOnUserTurn (htidy (h.of_suffix hs hclean))
  exact ⟨hkeep, fun h => ⟨hkeep h.toTidy, endsOnUser_endOnUserTurn h.endsOnUser hne⟩⟩

/-- A cancelled turn leaves no empty message and no call without a result. -/
theorem tidy_afterCancel (h : Tidy msgs) (hnodup : (pendingTools.map ToolUse.id).Nodup) :
    Tidy (afterCancel msgs iterText pendingTools) := by
  unfold afterCancel
  rw [assistantTurn, dropEmptyTurn_snoc]
  split
  · next hempty =>
    rw [(turnContent_eq_nil.mp hempty).2]
    simpa using h
  next hcontent =>
  split
  · next hnone =>
    subst hnone
    rw [List.append_nil]
    exact h.append (tidy_assistantTurn hcontent)
  · next hsome =>
    rw [List.append_assoc]
    exact h.append (tidy_exchange hsome hnodup (resultIDs_unrunToolResults _ _))

theorem wellFormed_distilled {a : Label} {e : Event} (hP : l.Sound a) (h : WellFormed l.messages)
    (hd : l.distillation a = some (out, e)) : WellFormed out := by
  cases a with
  | recap keepLastN window reasoning =>
    obtain ⟨hkeeps, hne⟩ := hP
    rw [hd] at hne
    obtain ⟨note, hok, hout, -⟩ := distils_of_recap hd
    have hclean := hkeeps.clean (sound_windowSplit _ _ _ _) hok
    subst hout
    refine (wellFormed_rebuilt ?_ tidy_recapMessages (List.drop_suffix _ _) hclean).2 h
    intro hnil
    rw [hnil] at hne
    exact hne (by simp [endOnUserTurn])
  | autoCompact keepLastN keepFirst window summary =>
    obtain ⟨hok, hout, -⟩ := distils_of_autoCompact hd
    have hclean := KeepsCalls.clean hP (sound_windowSplit _ _ _ _) hok
    subst hout
    have hne : ∀ pinned note tail, compactionMessages pinned note tail ≠ [] := nofun
    exact (wellFormed_rebuilt (hne _ _ _) tidy_compactionMessages (List.drop_suffix _ _) hclean).2 h
  | _ => cases hd

end Edits

theorem kept_tidiness : tidiness.Kept Sound where
  rest h := h.toTidy
  announce h _ := h
  tell _ h := .snoc_userText h
  compact hP := wellFormed_rebuilt nofun tidy_compactionMessages (List.drop_suffix _ _) hP
  distil hP h hd := wellFormed_distilled hP h hd
  stream h := h
  text _ h := h
  toolCall _ h := h
  discard _ _ _ h := h
  cancel hP hphase h := tidy_afterCancel h.toTidy (hP.cancelled hphase)
  answer {_ _ _ pendingTools _} hP hphase hclosing hanswer h := by
    obtain ⟨hcontent, -, hcalls⟩ := hP.turn hphase
    -- a turn with calls is run or refused
    have hnone : pendingTools = [] := by
      by_contra hne
      rcases hcalls with hnone | htool | hlast
      · exact hne hnone
      · exact hanswer.elim (fun hstop => hstop htool) hne
      · exact hclosing ⟨hlast, hne⟩
    subst hnone
    exact h.append (tidy_assistantTurn hcontent)
  call hP hphase hne h :=
    ⟨_, _, rfl, h.toTidy, hne, (hP.turn hphase).2.1⟩
  refuse hP hphase _ hne h := by
    rw [List.append_assoc]
    exact h.append (tidy_exchange hne (hP.turn hphase).2.1 (resultIDs_unrunToolResults _ _))
  results _ _ h hlen _ := by
    obtain ⟨before, iterText, hmsgs, htidy, hne, hnodup⟩ := h
    refine ⟨?_, endsOnUser_snoc.mpr rfl⟩
    rw [hmsgs, List.append_assoc]
    exact htidy.append (tidy_exchange hne hnodup (resultIDs_toolResults hlen))

/-- A run begins on a well-formed history; one that resumes a park, a hold or a wait needs no
user turn at its end yet. -/
def Starts (l : Loop) : Prop :=
  l.phase = .starting ∧ WellFormed l.messages ∨
    (l.phase = .parked ∨ l.phase = .held ∨ l.phase = .waiting) ∧ Tidy l.messages

theorem Starts.holds {l : Loop} (h : l.Starts) : tidiness.Holds l := by
  rcases h with ⟨hphase, h⟩ | ⟨hphase | hphase | hphase, h⟩
  · rw [Assertion.Holds, hphase]; exact h
  · rw [Assertion.Holds, hphase]; exact h
  · rw [Assertion.Holds, hphase]; exact h
  · rw [Assertion.Holds, hphase]; exact h

/-- Every request of a run of sound steps is well formed, the closing turn's included. -/
theorem request_wellFormed {l l' : Loop} (hstart : l.Starts)
    (hrun : Transition.Run step Sound l l') (hcall : l'.phase = .calling) :
    WellFormed l'.messages ∧ WellFormed l'.request := by
  have h := Assertion.holds_of_run kept_tidiness hstart.holds hrun
  rw [Assertion.Holds, hcall] at h
  refine ⟨h, ?_⟩
  unfold request
  split
  · exact .snoc_userText h.toTidy
  · exact h

/-! ## Runs of one request -/

theorem starts_listing : (listing 16).Starts := .inl ⟨rfl, .snoc_userText tidy_nil⟩

theorem request_wellFormed_listing :
    ∃ l, Transition.Run step Sound (listing 16) l ∧
      l.messages = [userText "list the files", assistantTurn "" [⟨"t1", "Bash", ascii "\x7b\x7d"⟩],
        resultsTurn [.toolResult "t1" "Bash" (ascii "a b") false]] ∧
      WellFormed l.messages ∧ WellFormed l.request := by
  obtain ⟨l, hrun, hphase, hmsgs⟩ := Transition.exists_run_guarded step Sound (listing 16)
    (boundary ++ [.stream, .toolCall "t1" "Bash" (ascii "\x7b\x7d"), .done .toolUse, .close false true,
      .dispatch [⟨ascii "a b", false⟩] [0] .proceed] ++ boundary)
    (p := fun l => l.phase = .calling ∧ l.messages = [userText "list the files",
      assistantTurn "" [⟨"t1", "Bash", ascii "\x7b\x7d"⟩],
      resultsTurn [.toolResult "t1" "Bash" (ascii "a b") false]]) (by decide +kernel)
  exact ⟨l, hrun, hmsgs, request_wellFormed starts_listing hrun hphase⟩

/-- An answer that says nothing, sent back by a hook, stays in the history as an empty message;
a call the model made as it ran out of tokens stays unanswered when the operator goes on. -/
theorem malformed_requests :
    (listing 16).Starts ∧
    (∃ l, Transition.Run step Transition.Any (listing 16) l ∧ l.phase = .calling ∧
      ¬∀ m ∈ l.messages, m.role = .assistant → m.content ≠ []) ∧
    (∃ l, Transition.Run step Transition.Any (listing 16) l ∧ l.phase = .calling ∧
      ¬Paired l.messages) := by
  refine ⟨starts_listing, ?_, ?_⟩
  · exact Transition.exists_run step (listing 16)
      (boundary ++ [.stream, .done (.other "end_turn"), .close false true,
        .agentStop (.block "give an answer") false] ++ boundary) (by decide +kernel)
  · obtain ⟨l, hrun, hphase, hmsgs⟩ := Transition.exists_run step (listing 16)
      (boundary ++ [.stream, .toolCall "t1" "Bash" (ascii "\x7b\x7d"), .done (.other "max_tokens"),
        .close false true, .agentStop .allow false, .settle true false,
        .steer (.operator "go on") false] ++ boundary)
      (p := fun l => l.phase = .calling ∧ l.messages = [userText "list the files",
        assistantTurn "" [⟨"t1", "Bash", ascii "\x7b\x7d"⟩], userText "go on"]) (by decide +kernel)
    refine ⟨l, hrun, hphase, fun h => ?_⟩
    rw [hmsgs] at h
    have hreplies := (List.isChain_cons_cons.mp (List.isChain_cons_cons.mp h.linked).2).1
    have hanswered : "t1" ∈ toolResultIDs (userText "go on") := hreplies.replied (by simp)
    simp [toolResultIDs, userText] at hanswered

end Loop

end Loomcycle.Conversation
