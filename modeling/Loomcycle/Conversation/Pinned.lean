import Loomcycle.Conversation.Loop
import Loomcycle.Lib.Space

/-! Repeated distillation with `keep_first`: what becomes of the first turn, the task, when one
compaction or recap follows another and the conversation goes on in between.

A recap puts the pinned text back as it is, a compaction wraps it with its summary. The next
distillation pins the text of whatever message is first, so that a compaction keeps the summaries
of the compactions before it. -/

namespace Loomcycle.Conversation
open Lib

/-- A distillation that pins the first turn, and the messages that come after it. -/
structure Distillation where
  recap : Bool
  note : String
  cut : Nat
  more : List Message := []

namespace Distillation

def apply (d : Distillation) (msgs : List Message) : List Message :=
  endOnUserTurn ((if d.recap then recapMessages else compactionMessages) (pinnedText msgs true)
    d.note (msgs.drop d.cut)) msgs

/-- Distillations, the latest first. -/
def run (msgs : List Message) : List Distillation → List Message
  | [] => msgs
  | d :: earlier => d.apply (run msgs earlier) ++ d.more

/-- The text of the first turn after a distillation of a history whose first turn is `task`. -/
def pins (task : String) (d : Distillation) : String :=
  if d.recap then task else summaryTurn task d.note

/-- The history starts with a user turn of this text. -/
def Starts (text : String) (msgs : List Message) : Prop :=
  ∃ m rest, msgs = m :: rest ∧ m.role = .user ∧ messageText m = text

variable {task : String} {msgs : List Message} {d : Distillation} {ds : List Distillation}

theorem messageText_userText (text : String) : messageText (userText text) = text := by
  simp [messageText, userText, Block.said, String.join]

theorem starts_userText (text : String) (rest before : List Message) :
    Starts text (endOnUserTurn (userText text :: rest) before) := by
  unfold endOnUserTurn
  split
  · exact ⟨_, _, rfl, rfl, messageText_userText text⟩
  · exact ⟨_, _, rfl, rfl, messageText_userText text⟩

theorem starts_apply (h : Starts task msgs) (htask : trimSpace task ≠ "") :
    Starts (d.pins task) (d.apply msgs ++ d.more) := by
  have hpinned : pinnedText msgs true = task := by
    obtain ⟨m, rest, rfl, -, htext⟩ := h
    exact htext
  obtain ⟨m, rest, hout, hrole, htext⟩ : Starts (d.pins task) (d.apply msgs) := by
    rw [apply, pins, hpinned]
    split
    · rw [recapMessages, if_pos htask]
      exact starts_userText ..
    · exact starts_userText ..
  exact ⟨m, rest ++ d.more, by rw [hout]; rfl, hrole, htext⟩

theorem starts_run (htask : trimSpace task ≠ "") (h : Starts task msgs)
    (hrecaps : ∀ d ∈ ds.tail, d.recap = true) :
    Starts (ds.head?.elim task (pins task)) (run msgs ds) := by
  induction ds with
  | nil => exact h
  | cons d earlier ih =>
    refine starts_apply ?_ htask
    have hearlier := ih fun d hd => hrecaps d (List.mem_of_mem_tail hd)
    cases earlier with
    | nil => exact hearlier
    | cons d' _ =>
      -- the distillation before this one is a recap
      rwa [List.head?_cons, Option.elim, pins, if_pos (hrecaps d' List.mem_cons_self)] at hearlier

/-- What a compaction puts around the two texts has one length. -/
theorem length_summaryTurn (htask : trimSpace task ≠ "") (summary : String) :
    (summaryTurn task summary).length = task.length + summary.length + 155 := by
  have hone : (summaryTurn "x" "").length = 156 := by decide +kernel
  have hx : trimSpace "x" ≠ "" ∧ "x".length = 1 ∧ "".length = 0 := by decide +kernel
  simp only [summaryTurn, if_pos hx.1, String.length_append, hx.2] at hone
  simp only [summaryTurn, if_pos htask, String.length_append]
  omega

/-- However often a conversation is distilled, as long as each distillation before the latest was
a recap: the history is not empty and starts with a user turn, whose text is that of the original
first turn, as it was or wrapped once with the latest summary. -/
theorem task_kept (first : Message) (rest : List Message) (huser : first.role = .user)
    (htask : trimSpace (messageText first) ≠ "") (ds : List Distillation)
    (hrecaps : ∀ d ∈ ds.tail, d.recap = true) :
    ∃ m out, run (first :: rest) ds = m :: out ∧ m.role = .user ∧
      messageText m = ds.head?.elim (messageText first) (pins (messageText first)) ∧
      (messageText m).length ≤
        (messageText first).length + (ds.head?.elim "" note).length + 155 := by
  obtain ⟨m, out, hrun, hrole, htext⟩ := starts_run htask ⟨first, rest, rfl, huser, rfl⟩ hrecaps
  refine ⟨m, out, hrun, hrole, htext, ?_⟩
  rw [htext]
  cases ds with
  | nil => exact Nat.le_add_right _ _
  | cons d earlier =>
    rw [List.head?_cons, Option.elim, Option.elim, pins]
    split
    · omega
    · exact (length_summaryTurn htask _).le

/-- A talk that is recapped twice and then compacted, and goes on. -/
theorem task_kept_sorting : ∃ ds m out, ds.map recap = [false, true, true] ∧
    run [userText "sort the files", assistantText "a b"] ds = m :: out ∧
    messageText m = summaryTurn "sort the files" "sorted" := by
  obtain ⟨m, out, hrun, -, htext, -⟩ := task_kept (userText "sort the files")
    [assistantText "a b"] rfl (by decide +kernel) [⟨false, "sorted", 1, [userText "rename them"]⟩,
      ⟨true, "", 3, []⟩, ⟨true, "two files", 2, [userText "and then?"]⟩] (by simp)
  exact ⟨_, m, out, rfl, hrun, htext⟩

theorem trimSpace_ne_empty {s : String} {c : Char} (hc : c ∈ s.toList)
    (hspace : isSpace c = false) : trimSpace s ≠ "" := by
  intro h
  have hmem : c ∈ (trimSpace s).toList := by
    rw [trimSpace, String.toList_ofList]
    exact mem_trimSpace hspace hc
  rw [h] at hmem
  cases hmem

/-- The loop does not decline the distillation: nothing is to be kept, no window is known. -/
def Taken (d : Distillation) (msgs : List Message) : Prop :=
  (if d.recap then maybeRecap msgs 0 0 (if d.note = "" then .drop else .recap d.note)
    else maybeAutoCompact msgs 0 true 0 d.note).map Prod.fst = some (d.apply msgs)

instance : Decidable (Taken d msgs) := inferInstanceAs (Decidable (_ = _))

section KeepsNothing
variable {text answer note : String} (rest more : List Message)

/-- A compaction that keeps nothing, of a history that ends on the assistant's turn. -/
theorem apply_compaction :
    apply ⟨false, note, rest.length + 2, more⟩ (userText text :: (rest ++ [assistantText answer])) =
      compactionMessages text note [] := by
  have hall : (userText text :: (rest ++ [assistantText answer])).drop (rest.length + 2) = [] :=
    List.drop_eq_nil_of_le (by simp)
  have hrole : (userText text :: (rest ++ [assistantText answer])).getLast?.map Message.role =
      some .assistant := by
    rw [← List.cons_append, List.getLast?_concat]
    rfl
  simp [apply, hall, endOnUserTurn, hrole, pinnedText, messageText_userText]

theorem taken_compaction (hnote : trimSpace note = note) (hne : note ≠ "")
    (hlong : (summaryTurn text note).utf8ByteSize + compactionAckText.utf8ByteSize + 4 ≤
      answer.utf8ByteSize) :
    Taken ⟨false, note, rest.length + 2, more⟩
      (userText text :: (rest ++ [assistantText answer])) := by
  have hsplit : windowSplit (userText text :: (rest ++ [assistantText answer])) 0 true
      (keptTailBudget 0) = ⟨1, rest.length + 2, true⟩ := by
    have hfresh : isFreshUserTurn (userText text) = true := rfl
    simp [windowSplit, splitOrCutToWindow, compactionSplit, pinnedTurns, hfresh, keptTailBudget,
      capKeptTailToWindow]
  have hsmaller : estimateMessageTokens (compactionMessages text note []) <
      estimateMessageTokens (userText text :: (rest ++ [assistantText answer])) := by
    simp only [estimateMessageTokens, compactionMessages, userText, assistantText, List.map_cons,
      List.map_append, List.map_nil, List.sum_cons, List.sum_append, List.sum_nil, Block.size,
      List.append_nil]
    omega
  have happly : apply ⟨false, note, rest.length + 2, more⟩
      (userText text :: (rest ++ [assistantText answer])) = _ := apply_compaction rest more
  simp only [apply, Bool.false_eq_true, if_false] at happly
  simp only [Taken, Bool.false_eq_true, if_false, maybeAutoCompact, hnote, hne, distil, hsplit,
    apply, Nat.zero_lt_one, decide_true, happly, hsmaller, and_self, if_true, Option.map_some]

end KeepsNothing

/-- The first of two compactions leaves its summary in the first turn, however long it is. And a
recap of a conversation whose first turn has no text can leave nothing at all. -/
theorem task_grows :
    (∀ bound, ∃ rest d d' m out, Taken d (userText "sort" :: rest) ∧
      Taken d' (run (userText "sort" :: rest) [d]) ∧ d'.note = "done" ∧
      run (userText "sort" :: rest) [d', d] = m :: out ∧
      "sort".length + "done".length + bound < (messageText m).length) ∧
    ∃ rest d, Taken d (userText " " :: rest) ∧ run (userText " " :: rest) [d] = [] := by
  refine ⟨fun bound => ?_, [assistantText "nothing to do"], ⟨true, "", 2, []⟩, by decide +kernel⟩
  obtain ⟨earlier, hlong, hearlier, hne⟩ : ∃ earlier : String,
      earlier.length = bound + 1 ∧ trimSpace earlier = earlier ∧ earlier ≠ "" :=
    ⟨String.ofList (List.replicate (bound + 1) 'x'), by simp,
      by simp [trimSpace, Lib.trimSpace, isSpace], by simp⟩
  have hsort : trimSpace "sort" ≠ "" := by decide +kernel
  have hwrapped : trimSpace (summaryTurn "sort" earlier) ≠ "" :=
    trimSpace_ne_empty (c := 's') (by simp [summaryTurn, hsort]) (by decide)
  -- an answer longer than either summary turn, so that both compactions make the history smaller
  obtain ⟨answer, hfirst, hsecond⟩ : ∃ answer : String,
      (summaryTurn "sort" earlier).utf8ByteSize + compactionAckText.utf8ByteSize + 4 ≤
        answer.utf8ByteSize ∧
      (summaryTurn (summaryTurn "sort" earlier) "done").utf8ByteSize +
        compactionAckText.utf8ByteSize + 4 ≤ answer.utf8ByteSize := by
    have hblanks : "\n\n\n\n".utf8ByteSize = 4 := by decide +kernel
    refine ⟨summaryTurn "sort" earlier ++ summaryTurn (summaryTurn "sort" earlier) "done" ++
      compactionAckText ++ "\n\n\n\n", ?_⟩
    simp only [String.utf8ByteSize_append, hblanks]
    omega
  let more := [userText "go on", assistantText answer]
  have hrun : run [userText "sort", assistantText answer] [⟨false, earlier, 2, more⟩] =
      compactionMessages "sort" earlier [] ++ more :=
    congrArg (· ++ more) (apply_compaction [] more)
  refine ⟨[assistantText answer], ⟨false, earlier, 2, more⟩, ⟨false, "done", 4, []⟩,
    userText (summaryTurn (summaryTurn "sort" earlier) "done"),
    [assistantText compactionAckText], ?_, ?_, rfl, ?_, ?_⟩
  · exact taken_compaction [] more hearlier hne hfirst
  · rw [hrun]
    exact taken_compaction [assistantText compactionAckText, userText "go on"] []
      (by decide +kernel) (by decide) hsecond
  · rw [run, hrun]
    exact congrArg (· ++ [])
      (apply_compaction [assistantText compactionAckText, userText "go on"] [])
  · rw [messageText_userText, length_summaryTurn hwrapped, length_summaryTurn hsort]
    omega

end Distillation

end Loomcycle.Conversation
