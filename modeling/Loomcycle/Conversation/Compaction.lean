import Loomcycle.Conversation.Messages
import Loomcycle.Lib.Space
import Mathlib.Algebra.GroupWithZero.Nat

/-! Compacting a conversation: where the history is cut, and what replaces the part before the
cut. The cut is chosen by two scans, backwards for the number of messages to keep and forwards
for what the window can hold; both only stop where a user's own turn begins, and from that alone
follows that no tool result is kept without its call. -/

namespace Loomcycle.Conversation
open Lib Lib.Encoding

/-! ## The size of a history -/

/-- `len(c.Text) + len(c.ToolInput)`, in bytes. -/
def Block.size : Block → Nat
  | .text t => t.utf8ByteSize
  | .image _ _ => 0
  | .toolUse _ _ input => input.length
  | .toolResult _ _ t _ => t.length

def estimateMessageTokens (msgs : List Message) : Nat :=
  (msgs.map fun m => (m.content.map Block.size).sum).sum / 4

/-! ## Where to cut -/

/-- `for i := target; i > firstIdx; i--`: the last fresh user turn in that range. -/
def lastFresh (msgs : List Message) (firstIdx : Nat) : Nat → Option Nat
  | 0 => none
  | i + 1 =>
    if firstIdx < i + 1 then
      if msgs[i + 1]?.any isFreshUserTurn then some (i + 1) else lastFresh msgs firstIdx i
    else none

/-- `for i := from; i < len(msgs); i++`: the first fresh user turn from there on. -/
def nextFresh (msgs : List Message) (i : Nat) : Option Nat :=
  ((msgs.drop i).findIdx? isFreshUserTurn).map (i + ·)

/-- Summarise `msgs[firstIdx:cut]` and keep `msgs[cut:]`; not `ok` when nothing is worth it. -/
structure Split where
  firstIdx : Nat
  cut : Nat
  ok : Bool
  deriving DecidableEq, Repr

/-- 1 when the first turn is pinned. -/
def pinnedTurns (msgs : List Message) (keepFirst : Bool) : Nat :=
  if keepFirst && msgs.head?.any isFreshUserTurn then 1 else 0

def compactionSplit (msgs : List Message) (keepLastN : Int) (keepFirst : Bool) : Split :=
  let n := msgs.length
  let firstIdx := pinnedTurns msgs keepFirst
  if keepLastN ≤ 0 then ⟨firstIdx, n, firstIdx < n⟩
  else
    let target := (n : Int) - keepLastN
    -- the messages to keep span everything after the pinned turn
    if target ≤ firstIdx then ⟨firstIdx, firstIdx, false⟩
    else
      let cut := (lastFresh msgs firstIdx target.toNat).getD n
      ⟨firstIdx, cut, firstIdx < cut⟩

/-- The loop of `capKeptTailToWindow`. A round moves the cut forward, so that as many rounds as
there are messages left suffice. -/
def capLoop (msgs : List Message) (budget : Int) : Nat → Nat → Nat
  | 0, cut => cut
  | fuel + 1, cut =>
    if cut < msgs.length ∧ budget < estimateMessageTokens (msgs.drop cut) then
      match nextFresh msgs (cut + 1) with
      | none => cut
      | some next => capLoop msgs budget fuel next
    else cut

def capKeptTailToWindow (msgs : List Message) (cut : Nat) (budget : Int) : Nat :=
  if budget ≤ 0 then cut else capLoop msgs budget (msgs.length - cut) cut

def splitOrCutToWindow (msgs : List Message) (keepLastN : Int) (keepFirst : Bool)
    (budget : Int) : Split :=
  let s := compactionSplit msgs keepLastN keepFirst
  if s.ok = true ∨ budget ≤ 0 then s
  else if (estimateMessageTokens (msgs.drop s.firstIdx) : Int) ≤ budget then { s with ok := false }
  else
    let forced := capKeptTailToWindow msgs s.firstIdx budget
    if forced ≤ s.firstIdx then { s with ok := false } else ⟨s.firstIdx, forced, true⟩

/-- The split an automatic distillation uses: the window is applied to the kept tail again,
whichever of the two scans chose the cut. -/
def windowSplit (msgs : List Message) (keepLastN : Int) (keepFirst : Bool) (budget : Int) :
    Split :=
  let s := splitOrCutToWindow msgs keepLastN keepFirst budget
  { s with cut := capKeptTailToWindow msgs s.cut budget }

/-! ## What replaces the history -/

def trimSpace (s : String) : String := String.ofList (Lib.trimSpace s.toList)

def compactionAckText : String := "Understood — I'll continue from the summary above."

def recapNotePrefix : String :=
  "[Progress recap — what I have done and concluded so far; established context for everything " ++
    "before the recent steps below:]"

def compactionContinueText : String :=
  "Continue the task from where the summary above leaves off."

/-- The text of the turn a summary is put in. -/
def summaryTurn (pinnedTask summary : String) : String :=
  (if trimSpace pinnedTask ≠ "" then
    "[Original task — preserved verbatim:]\n" ++ pinnedTask ++ "\n\n"
  else "") ++
    "[Conversation so far, compacted to a summary — treat it as established context for " ++
    "everything before this point:]\n\n" ++ summary

def compactionMessages (pinnedTask summary : String) (keptTail : List Message) : List Message :=
  [userText (summaryTurn pinnedTask summary), assistantText compactionAckText] ++ keptTail

def recapMessages (pinnedTask recap : String) (keptTail : List Message) : List Message :=
  (if trimSpace pinnedTask ≠ "" then [userText pinnedTask] else []) ++
    (if trimSpace recap ≠ "" then [assistantText (recapNotePrefix ++ "\n\n" ++ recap)] else []) ++
    keptTail

/-- A history that replaces one ending on a user turn ends on a user turn. -/
def endOnUserTurn (compacted before : List Message) : List Message :=
  if before.getLast?.map Message.role = some .user ∧
      compacted.getLast?.map Message.role = some .assistant then
    compacted ++ [userText compactionContinueText]
  else compacted

/-! ## The scans -/

section Scans

variable {msgs : List Message} {i j n firstIdx cut fuel : Nat} {budget keepLastN : Int}
  {keepFirst : Bool}

/-- The kept tail is empty or starts at a fresh user turn. -/
def Snapped (msgs : List Message) (cut : Nat) : Prop :=
  ∀ m ∈ (msgs.drop cut).head?, isFreshUserTurn m = true

theorem snapped_length : Snapped msgs msgs.length := by
  simp [Snapped]

theorem lastFresh_some (h : lastFresh msgs firstIdx n = some i) :
    firstIdx < i ∧ i ≤ n ∧ Snapped msgs i := by
  induction n with
  | zero => cases h
  | succ n ih =>
    rw [lastFresh] at h
    split at h
    · next hlt =>
      split at h
      · next hfresh =>
        cases h
        refine ⟨hlt, Nat.le_refl _, fun m hm => ?_⟩
        rw [List.head?_drop, Option.mem_def] at hm
        rw [hm] at hfresh
        exact hfresh
      · obtain ⟨hf, hn, hs⟩ := ih h
        exact ⟨hf, Nat.le_succ_of_le hn, hs⟩
    · cases h

theorem nextFresh_some (h : nextFresh msgs i = some j) :
    i ≤ j ∧ j < msgs.length ∧ Snapped msgs j := by
  obtain ⟨k, hk, rfl⟩ := Option.map_eq_some_iff.mp h
  obtain ⟨hlt, hfresh, -⟩ := List.findIdx?_eq_some_iff_getElem.mp hk
  rw [List.length_drop] at hlt
  refine ⟨Nat.le_add_right _ _, by omega, fun m hm => ?_⟩
  rw [List.head?_drop, Option.mem_def] at hm
  rw [List.getElem_drop] at hfresh
  rwa [List.getElem?_eq_some_iff.mp hm |>.2] at hfresh

theorem nextFresh_none (h : nextFresh msgs i = none) :
    ∀ m ∈ msgs.drop i, isFreshUserTurn m = false := by
  rw [nextFresh, Option.map_eq_none_iff, List.findIdx?_eq_none_iff] at h
  simpa using h

/-- What the forward scan leaves: the cut only moved to a fresh user turn, and the tail fits or
cannot be cut again. -/
structure Capped (msgs : List Message) (budget : Int) (cut cut' : Nat) : Prop where
  le : cut ≤ cut'
  le_length : cut' ≤ msgs.length
  snapped : cut' = cut ∨ Snapped msgs cut'
  fits : (estimateMessageTokens (msgs.drop cut') : Int) ≤ budget ∨
    ∀ m ∈ msgs.drop (cut' + 1), isFreshUserTurn m = false

theorem capped_capLoop (hbudget : 0 < budget) (hcut : cut ≤ msgs.length)
    (hfuel : msgs.length - cut ≤ fuel) : Capped msgs budget cut (capLoop msgs budget fuel cut) := by
  induction fuel generalizing cut with
  | zero =>
    have hempty : msgs.drop cut = [] := List.drop_eq_nil_of_le (by omega)
    refine ⟨Nat.le_refl _, hcut, .inl rfl, .inl ?_⟩
    rw [capLoop, hempty]
    exact Int.le_of_lt hbudget
  | succ fuel ih =>
    rw [capLoop]
    split
    · next hover =>
      cases hnext : nextFresh msgs (cut + 1) with
      | none =>
        exact ⟨Nat.le_refl _, hcut, .inl rfl, .inr (nextFresh_none hnext)⟩
      | some next =>
        obtain ⟨hle, hlt, hsnapped⟩ := nextFresh_some hnext
        have h := ih (Nat.le_of_lt hlt) (by omega)
        refine ⟨by have := h.le; dsimp only; omega, h.le_length, .inr ?_, h.fits⟩
        rcases h.snapped with heq | hs
        · dsimp only
          rw [heq]
          exact hsnapped
        · exact hs
    · next hunder =>
      refine ⟨Nat.le_refl _, hcut, .inl rfl, .inl ?_⟩
      by_cases hlt : cut < msgs.length
      · exact Int.not_lt.mp fun h => hunder ⟨hlt, h⟩
      · rw [List.drop_eq_nil_of_le (by omega)]
        exact Int.le_of_lt hbudget

theorem capped_capKeptTailToWindow (hbudget : 0 < budget) (hcut : cut ≤ msgs.length) :
    Capped msgs budget cut (capKeptTailToWindow msgs cut budget) := by
  rw [capKeptTailToWindow, if_neg (Int.not_le.mpr hbudget)]
  exact capped_capLoop hbudget hcut (Nat.le_refl _)

theorem pinnedTurns_le (msgs : List Message) (keepFirst : Bool) :
    pinnedTurns msgs keepFirst ≤ msgs.length := by
  unfold pinnedTurns
  split
  · next h =>
    cases msgs with
    | nil => simp at h
    | cons m rest => simp
  · exact Nat.zero_le _

/-- A split in order: the pinned turn is a fresh user turn at the start, and the kept tail starts
right behind it or at a fresh user turn. A split that is taken summarises something. -/
structure Split.Sound (s : Split) (msgs : List Message) (keepFirst : Bool) : Prop where
  firstIdx : s.firstIdx = pinnedTurns msgs keepFirst
  le : s.firstIdx ≤ s.cut
  le_length : s.cut ≤ msgs.length
  snapped : s.cut = s.firstIdx ∨ Snapped msgs s.cut
  nonempty : s.ok = true → s.firstIdx < s.cut

theorem sound_compactionSplit (msgs : List Message) (keepLastN : Int) (keepFirst : Bool) :
    (compactionSplit msgs keepLastN keepFirst).Sound msgs keepFirst := by
  have hpinned := pinnedTurns_le msgs keepFirst
  unfold compactionSplit
  dsimp only
  split
  · exact ⟨rfl, hpinned, Nat.le_refl _, .inr snapped_length, of_decide_eq_true⟩
  split
  · exact ⟨rfl, Nat.le_refl _, hpinned, .inl rfl, nofun⟩
  next hkeep htarget =>
  cases hlast : lastFresh msgs (pinnedTurns msgs keepFirst)
      ((msgs.length : Int) - keepLastN).toNat with
  | none => exact ⟨rfl, hpinned, Nat.le_refl _, .inr snapped_length, of_decide_eq_true⟩
  | some i =>
    obtain ⟨hlt, hle, hsnapped⟩ := lastFresh_some hlast
    exact ⟨rfl, Nat.le_of_lt hlt, by simp only [Option.getD_some]; omega, .inr hsnapped,
      of_decide_eq_true⟩

/-- Moving the cut of a sound split forward to a fresh user turn keeps it sound. -/
theorem Split.Sound.advance {s : Split} (h : s.Sound msgs keepFirst) {ok : Bool}
    (hle : s.cut ≤ cut) (hlen : cut ≤ msgs.length) (hsnapped : cut = s.cut ∨ Snapped msgs cut)
    (hok : ok = true → s.firstIdx < cut) : (Split.mk s.firstIdx cut ok).Sound msgs keepFirst := by
  refine ⟨h.firstIdx, Nat.le_trans h.le hle, hlen, ?_, hok⟩
  rcases hsnapped with rfl | hs
  · exact h.snapped
  · exact .inr hs

theorem sound_splitOrCutToWindow (msgs : List Message) (keepLastN : Int) (keepFirst : Bool)
    (budget : Int) : (splitOrCutToWindow msgs keepLastN keepFirst budget).Sound msgs keepFirst := by
  have h := sound_compactionSplit msgs keepLastN keepFirst
  unfold splitOrCutToWindow
  dsimp only
  split
  · exact h
  next hnot =>
  have hdeclined : (Split.mk _ _ false).Sound msgs keepFirst :=
    h.advance (Nat.le_refl _) h.le_length (.inl rfl) nofun
  split
  · exact hdeclined
  · split
    · exact hdeclined
    · next hforced =>
      have hfirst := Nat.le_trans h.le h.le_length
      have hcap := capped_capKeptTailToWindow (Int.not_le.mp fun hb => hnot (.inr hb)) hfirst
      exact ⟨h.firstIdx, hcap.le, hcap.le_length, hcap.snapped, fun _ => Nat.not_le.mp hforced⟩

theorem sound_windowSplit (msgs : List Message) (keepLastN : Int) (keepFirst : Bool)
    (budget : Int) : (windowSplit msgs keepLastN keepFirst budget).Sound msgs keepFirst := by
  have h := sound_splitOrCutToWindow msgs keepLastN keepFirst budget
  unfold windowSplit
  by_cases hbudget : 0 < budget
  · have hcap := capped_capKeptTailToWindow hbudget h.le_length
    exact h.advance hcap.le hcap.le_length hcap.snapped
      fun hok => Nat.lt_of_lt_of_le (h.nonempty hok) hcap.le
  · dsimp only
    rw [capKeptTailToWindow, if_pos (Int.not_lt.mp hbudget)]
    exact h

end Scans

/-! ## What a compaction keeps -/

section Keeps

variable {msgs compacted before tail : List Message} {cut : Nat} {pinned summary : String}
  {keepFirst : Bool}

theorem paired_compactionMessages (h : Paired tail) :
    Paired (compactionMessages pinned summary tail) :=
  CallReply.Paired.append (CallReply.Paired.append paired_userText paired_assistantText) h

/-- A user turn ends what replaces a history that ended on one, if anything replaces it. -/
theorem endsOnUser_endOnUserTurn (hbefore : EndsOnUser before) (hne : compacted ≠ []) :
    EndsOnUser (endOnUserTurn compacted before) := by
  unfold endOnUserTurn
  split
  · exact endsOnUser_snoc.mpr rfl
  next hnot =>
  cases hlast : compacted.getLast? with
  | none => exact absurd (List.getLast?_eq_none_iff.mp hlast) hne
  | some m =>
    cases hrole : m.role with
    | user => rw [EndsOnUser, hlast, Option.map_some, hrole]
    | assistant => exact absurd ⟨hbefore, by rw [hlast, Option.map_some, hrole]⟩ hnot

/-- A message with tool results starts with one, so that no scan stops at it. -/
def ResultsFirst (msgs : List Message) : Prop :=
  ∀ m ∈ msgs, toolResultIDs m ≠ [] → isFreshUserTurn m = false

instance (msgs : List Message) : Decidable (ResultsFirst msgs) :=
  inferInstanceAs (Decidable (∀ m ∈ msgs, _))

/-- A history that starts on a user turn and pairs every call with its results. -/
structure Turns (msgs : List Message) : Prop where
  starts : msgs.head?.map Message.role = some .user
  paired : Paired msgs
  resultsFirst : ResultsFirst msgs

/-- A tail that keeps no result at its start, where its call is cut off. -/
def Clean (tail : List Message) : Prop := ∀ m ∈ tail.head?, toolResultIDs m = []

instance (tail : List Message) : Decidable (Clean tail) :=
  inferInstanceAs (Decidable (∀ m ∈ tail.head?, _))

theorem Snapped.clean_drop (h : Snapped msgs cut) (hresults : ResultsFirst msgs) :
    Clean (msgs.drop cut) := by
  intro m hm
  by_contra hne
  have hstale := hresults m (List.mem_of_mem_drop (List.mem_of_mem_head? hm)) hne
  rw [h m hm] at hstale
  cases hstale

theorem Snapped.paired_drop (h : Snapped msgs cut) (hpaired : Paired msgs)
    (hresults : ResultsFirst msgs) : Paired (msgs.drop cut) :=
  hpaired.of_suffix (List.drop_suffix _ _) (h.clean_drop hresults)

theorem Split.Sound.clean_drop {s : Split} (hs : s.Sound msgs keepFirst) (hok : s.ok = true)
    (hresults : ResultsFirst msgs) : Clean (msgs.drop s.cut) :=
  (hs.snapped.resolve_left (hs.nonempty hok).ne').clean_drop hresults

/-- Nothing kept by a sound split is a tool result without its call. -/
theorem Split.Sound.paired_drop {s : Split} (hs : s.Sound msgs keepFirst) (h : Turns msgs) :
    Paired (msgs.drop s.cut) := by
  rcases hs.snapped with heq | hsnapped
  · rw [heq, hs.firstIdx]
    -- right behind the pinned turn, which is a user's and calls nothing
    unfold pinnedTurns
    split
    · cases msgs with
      | nil => exact .nil
      | cons m rest =>
        have hrole : m.role = .user := by simpa using h.starts
        exact h.paired.tail (toolUseIDs_of_role hrole)
    · exact h.paired
  · exact hsnapped.paired_drop h.paired h.resultsFirst

theorem turns_compactionMessages (hpaired : Paired tail) (hresults : ResultsFirst tail) :
    Turns (compactionMessages pinned summary tail) := by
  refine ⟨rfl, paired_compactionMessages hpaired, fun m hm hne => ?_⟩
  simp only [compactionMessages, List.mem_append, List.mem_cons, List.not_mem_nil, or_false] at hm
  rcases hm with (rfl | rfl) | hm
  · exact absurd rfl hne
  · exact absurd rfl hne
  · exact hresults m hm hne

theorem Turns.endOnUserTurn (h : Turns compacted) : Turns (endOnUserTurn compacted before) := by
  unfold Conversation.endOnUserTurn
  split
  · refine ⟨?_, h.paired.snoc_userText, fun m hm hne => ?_⟩
    · cases compacted with
      | nil => rfl
      | cons m rest => exact h.starts
    · rcases List.mem_append.mp hm with hm | hm
      · exact h.resultsFirst m hm hne
      · rw [List.mem_singleton.mp hm] at hne
        exact absurd rfl hne
  · exact h

/-- The pinned turn a sound split leaves out of the summary. -/
theorem Split.Sound.take_pinned {s : Split} (hs : s.Sound msgs keepFirst) :
    s.firstIdx = 0 ∨ ∃ m, msgs.take s.firstIdx = [m] ∧ isFreshUserTurn m = true := by
  rw [hs.firstIdx]
  unfold pinnedTurns
  split
  · next h =>
    cases msgs with
    | nil => simp at h
    | cons m rest => exact .inr ⟨m, rfl, (Bool.and_eq_true _ _ ▸ h).2⟩
  · exact .inl rfl

end Keeps

/-- An automatic compaction cuts the history into the pinned turn, the span it summarises and
the tail it keeps. What replaces the history is paired as it was and ends on a user turn if it
did, and the tail is within a window that is known unless it cannot be cut any further. -/
theorem windowSplit_keeps {msgs : List Message} (h : Turns msgs) (keepLastN : Int)
    (keepFirst : Bool) (budget : Int) (pinned summary : String) :
    let s := windowSplit msgs keepLastN keepFirst budget
    let span := (msgs.take s.cut).drop s.firstIdx
    let tail := msgs.drop s.cut
    let out := endOnUserTurn (compactionMessages pinned summary tail) msgs
    (s.firstIdx ≤ s.cut ∧ s.cut ≤ msgs.length) ∧
      (msgs.take s.firstIdx ++ span ++ tail = msgs ∧
        (s.firstIdx = 0 ∨ ∃ m, msgs.take s.firstIdx = [m] ∧ isFreshUserTurn m = true) ∧
        (s.ok = true → span ≠ [])) ∧
      Turns out ∧
      (EndsOnUser msgs → EndsOnUser out) ∧
      (0 < budget → (estimateMessageTokens tail : Int) ≤ budget ∨
        ∀ m ∈ msgs.drop (s.cut + 1), isFreshUserTurn m = false) := by
  intro s span tail out
  have hs : s.Sound msgs keepFirst := sound_windowSplit msgs keepLastN keepFirst budget
  have hout : compactionMessages pinned summary tail ≠ [] := nofun
  refine ⟨⟨hs.le, hs.le_length⟩, ⟨?_, hs.take_pinned, fun hok hempty => ?_⟩, ?_, ?_, ?_⟩
  · have htake : msgs.take s.firstIdx = (msgs.take s.cut).take s.firstIdx := by
      rw [List.take_take, Nat.min_eq_left hs.le]
    rw [htake, List.take_append_drop, List.take_append_drop]
  · have hlen := congrArg List.length hempty
    rw [List.length_drop, List.length_take, List.length_nil] at hlen
    have hlt := hs.nonempty hok
    have hle := hs.le_length
    omega
  · refine (turns_compactionMessages (hs.paired_drop h) fun m hm => ?_).endOnUserTurn
    exact h.resultsFirst m (List.mem_of_mem_drop hm)
  · exact fun hends => endsOnUser_endOnUserTurn hends hout
  · intro hbudget
    have hle := (sound_splitOrCutToWindow msgs keepLastN keepFirst budget).le_length
    exact (capped_capKeptTailToWindow hbudget hle).fits

/-- A turn with a tool call between two answered questions. -/
def talk : List Message :=
  [userText "sort the files", ⟨.assistant, [.toolUse "t1" "Bash" (ascii "\x7b\x7d")]⟩,
    ⟨.user, [.toolResult "t1" "Bash" (ascii "a b c") false]⟩, assistantText "they are sorted",
    userText "and now rename them", assistantText "done", userText "thank you"]

theorem turns_talk : Turns talk := by
  refine ⟨rfl, ?_, by decide⟩
  refine CallReply.Paired.append (l := [_]) paired_userText ?_
  refine CallReply.Paired.append (l := [_, _]) (.exchange rfl ⟨by decide, by decide, fun _ => rfl⟩ rfl) ?_
  exact CallReply.Paired.append (l := [_]) paired_assistantText <|
    CallReply.Paired.append (l := [_]) paired_userText <|
      CallReply.Paired.append (l := [_]) paired_assistantText paired_userText

theorem windowSplit_keeps_talk :
    windowSplit talk 3 true 5 = ⟨1, 6, true⟩ ∧
      Turns (endOnUserTurn (compactionMessages "sort the files" "sorted" (talk.drop 6)) talk) :=
  ⟨by decide +kernel, (windowSplit_keeps turns_talk 3 true 5 "sort the files" "sorted").2.2.1⟩

/-- A turn that puts a remark before the result it carries. -/
def remarked : List Message :=
  [userText "sort the files", ⟨.assistant, [.toolUse "t1" "Bash" (ascii "\x7b\x7d")]⟩,
    ⟨.user, [.text "quickly", .toolResult "t1" "Bash" (ascii "a b c") false]⟩]

theorem paired_remarked : Paired remarked :=
  CallReply.Paired.append (l := [_]) paired_userText
    (.exchange rfl ⟨by decide, by decide, fun _ => rfl⟩ rfl)

/-- Without a known window the kept tail is not cut to any size, and a result behind a remark is
taken for the start of a turn and kept without its call. -/
theorem windowSplit_exceptions :
    (Turns talk ∧ windowSplit talk 3 true 0 = ⟨1, 4, true⟩ ∧
      ¬((estimateMessageTokens (talk.drop 4) : Int) ≤ 0 ∨
        ∀ m ∈ talk.drop 5, isFreshUserTurn m = false)) ∧
    (Paired remarked ∧ windowSplit remarked 1 true 100 = ⟨1, 2, true⟩ ∧
      ¬Paired (endOnUserTurn (compactionMessages "" "sorted" (remarked.drop 2)) remarked)) := by
  refine ⟨⟨turns_talk, by decide +kernel, by decide +kernel⟩, paired_remarked, by decide +kernel,
    fun h => ?_⟩
  have hreplies := (List.isChain_cons_cons.mp (List.isChain_cons_cons.mp h.linked).2).1
  have hasked : "t1" ∈ toolUseIDs (assistantText compactionAckText) :=
    hreplies.asked (by decide)
  cases hasked

end Loomcycle.Conversation
