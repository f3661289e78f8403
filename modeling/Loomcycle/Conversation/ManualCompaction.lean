import Loomcycle.Conversation.ReplayLoop

/-! A compaction asked for from outside, beside the run it compacts. The server checks that the
run is parked, reads the transcript, has a span of it summarised and pushes the result as a
control, which the loop applies to the history it has by then. What the control keeps is counted
from the end of the snapshot, so it is right for the history that was read and for no other. -/

namespace Loomcycle.Conversation
open Lib Lib.Encoding

/-! ## A compaction's plan -/

/-- What the server read of the session and where it cuts it. -/
structure Plan where
  snapshot : List Message
  split : Split
  pin : Bool
  sound : split.Sound snapshot pin
  taken : split.ok = true
  deriving DecidableEq

def minCompactMessages : Nat := 4

namespace Plan

/-- The split of a history, unless it is too short or nothing of it is worth summarising. -/
def of? (msgs : List Message) (keepLastN : Int) (keepFirst : Bool) : Option Plan :=
  if h : minCompactMessages ≤ msgs.length ∧ (compactionSplit msgs keepLastN keepFirst).ok = true then
    some ⟨msgs, _, keepFirst, sound_compactionSplit msgs keepLastN keepFirst, h.2⟩
  else none

/-- The messages that are summarised. -/
def span (p : Plan) : List Message := (p.snapshot.take p.split.cut).drop p.split.firstIdx

def keepN (p : Plan) : Nat := p.snapshot.length - p.split.cut

def keepFirst (p : Plan) : Bool := 0 < p.split.firstIdx

/-- A compaction that would not make the history smaller is refused. -/
def shrinks (p : Plan) (summary : String) : Bool :=
  estimateMessageTokens (compactionMessages (pinnedText p.snapshot p.keepFirst) summary
    (p.snapshot.drop p.split.cut)) < estimateMessageTokens p.snapshot

end Plan

/-! ## The server -/

/-- A call of `compactRunWithSource` behind its parked check, before and after it has read the
transcript. -/
inductive Request
  | checked
  | planned (p : Plan)
  deriving DecidableEq

def Request.plan? : Request → Option Plan
  | .checked => none
  | .planned p => some p

/-- What waits in the run's steer queue. -/
inductive Queued
  | operator (text : String)
  | verdict (approved : Bool) (text : String)
  | compaction (p : Plan) (summary : String)
  deriving DecidableEq

def Queued.steer : Queued → Steer
  | .operator text => .operator text
  | .verdict true _ => .approve
  | .verdict false text => .reject text
  | .compaction p summary => .compact summary p.keepN p.keepFirst

def Queued.plan? : Queued → Option Plan
  | .compaction p _ => some p
  | _ => none

/-- `IsParked`: set by the event that announces a park, cleared by the next turn's first. -/
def isParked (log : List Event) : Bool :=
  log.foldl (fun parked e =>
    match e with
    | .awaiting => true
    | .userInput _ | .text _ | .toolCall _ => false
    | _ => parked) false

/-- A run, its steer queue and the compactions asked for. -/
structure Server where
  loop : Loop
  queueCap : Nat
  queue : List Queued
  requests : List Request
  deriving DecidableEq

namespace Server

def start (loop : Loop) (queueCap : Nat) : Server := ⟨loop, queueCap, [], []⟩

inductive Label
  | compact
  | readTranscript (i : Nat) (keepLastN : Int) (keepFirst : Bool)
  | push (i : Nat) (summary : String)
  /-- an operator's message or verdict -/
  | send (q : Queued)
  | take (stale : Bool)
  | loop (a : Loop.Label)
  deriving DecidableEq

/-- `offer`: a closed queue and a full one refuse. -/
def offer (s : Server) (q : Queued) : Server :=
  if s.loop.phase = .ended ∨ s.queueCap ≤ s.queue.length then s
  else { s with queue := s.queue ++ [q] }

/-- The request has read the transcript; one with nothing to compact is answered. -/
def readTranscript (s : Server) (i : Nat) (keepLastN : Int) (keepFirst : Bool) : Server :=
  match Plan.of? (replayTranscript s.loop.log) keepLastN keepFirst with
  | some p => { s with requests := s.requests.set i (.planned p) }
  | none => { s with requests := s.requests.eraseIdx i }

/-- The summary is there. A run that has ended meanwhile gets the marker in its transcript. -/
def push (s : Server) (i : Nat) (p : Plan) (summary : String) : Server :=
  let s' := { s with requests := s.requests.eraseIdx i }
  if summary = "" ∨ p.shrinks summary = false then s'
  else if s.loop.phase = .ended then
    { s' with loop := { s.loop with
        log := s.loop.log ++ [.contextCompaction summary p.keepN p.keepFirst] } }
  else s'.offer (.compaction p summary)

/-- The loop's own steps do not read the queue, and find it empty only when it is. -/
def allows (s : Server) : Loop.Label → Bool
  | .steer .. => false
  | .queueEmpty => s.queue.isEmpty
  | _ => true

def follow (s : Server) (next : Option Loop) : Option Server :=
  next.map fun l => { s with loop := l }

def step (s : Server) (a : Label) : Option Server :=
  match a with
  | .compact =>
    if isParked s.loop.log then some { s with requests := s.requests ++ [.checked] } else none
  | .readTranscript i keepLastN keepFirst =>
    match s.requests[i]? with
    | some .checked => some (s.readTranscript i keepLastN keepFirst)
    | _ => none
  | .push i summary =>
    match s.requests[i]? with
    | some (.planned p) => some (s.push i p (trimSpace summary))
    | _ => none
  | .send (.compaction ..) => none
  | .send q => some (s.offer q)
  | .take stale =>
    match s.queue with
    | [] => none
    | q :: rest => { s with queue := rest }.follow (s.loop.takeSteer q.steer stale)
  | .loop a => if s.allows a then s.follow (s.loop.step a) else none

/-- The plans that were read and are not applied yet. -/
def plans (s : Server) : List Plan :=
  s.requests.filterMap Request.plan? ++ s.queue.filterMap Queued.plan?

end Server

/-! ## What a compaction keeps -/

/-- The history is the pinned first turn, the span that was summarised and the tail that is kept,
and the tail is empty or starts at a fresh user turn, so that it keeps calls and results
together. -/
structure Plan.Keeps (p : Plan) (history : List Message) : Prop where
  covered : ∃ first span, history = first ++ span ++ keptTail history p.keepN ∧
    Agree p.span span ∧
    (first = [] ∨ p.keepFirst = true ∧ ∃ m, first = [m] ∧ isFreshUserTurn m = true)
  fresh : ∀ m ∈ (keptTail history p.keepN).head?, isFreshUserTurn m = true
  paired : Paired history → ResultsFirst history → Paired (keptTail history p.keepN)

section Keeps

variable {p : Plan} {history msgs : List Message} {cut : Nat}

theorem Snapped.agree (h : Snapped msgs cut) (hagree : Agree msgs history) :
    Snapped history cut := by
  have htail := List.forall₂_drop cut hagree
  intro m hm
  cases hlive : history.drop cut with
  | nil => rw [hlive] at hm; cases hm
  | cons m' rest =>
    rw [hlive] at hm htail
    cases hm
    cases hread : msgs.drop cut with
    | nil => rw [hread] at htail; cases htail
    | cons m₀ rest₀ =>
      rw [hread] at htail
      cases htail with
      | cons hm _ =>
        rw [← hm.isFreshUserTurn_eq]
        exact h m₀ (by rw [hread]; rfl)

theorem Plan.snapped (p : Plan) : Snapped p.snapshot p.split.cut := by
  have hlt := p.sound.nonempty p.taken
  rcases p.sound.snapped with heq | h
  · exact absurd heq (by omega)
  · exact h

theorem Plan.keptTail_eq (h : Agree p.snapshot history) :
    keptTail history p.keepN = history.drop p.split.cut := by
  have hle := p.sound.le_length
  rw [Plan.keepN, h.length_eq]
  exact Loop.keptTail_sub (h.length_eq ▸ hle)

/-- A plan is right for every history its snapshot agrees with. -/
theorem Plan.keeps_of_agree (h : Agree p.snapshot history) : p.Keeps history := by
  have hsnapped := p.snapped.agree h
  have hle := p.sound.le
  have htail := Plan.keptTail_eq h
  refine ⟨⟨history.take p.split.firstIdx, (history.take p.split.cut).drop p.split.firstIdx,
    ?_, ?_, ?_⟩, ?_, ?_⟩
  · have hfirst : history.take p.split.firstIdx =
        (history.take p.split.cut).take p.split.firstIdx := by
      rw [List.take_take, Nat.min_eq_left hle]
    rw [htail, hfirst, List.take_append_drop, List.take_append_drop]
  · exact List.forall₂_drop _ (List.forall₂_take _ h)
  · rcases p.sound.take_pinned with hzero | ⟨m, hm, hfresh⟩
    · exact .inl (by rw [hzero, List.take_zero])
    · have hpinned := List.forall₂_take p.split.firstIdx h
      rw [hm] at hpinned
      obtain ⟨m', rest, hsame, hrest, heq⟩ := List.forall₂_cons_left_iff.mp hpinned
      cases hrest
      refine .inr ⟨decide_eq_true (Nat.pos_of_ne_zero fun hzero => ?_), m', heq, ?_⟩
      · rw [hzero] at hm; cases hm
      · rw [← hsame.isFreshUserTurn_eq]; exact hfresh
  · rw [htail]; exact hsnapped
  · rw [htail]; exact hsnapped.paired_drop

end Keeps

/-! ## Runs -/

namespace Server

/-- The loop records what it keeps, a transcript is read between two turns, and the history
changes only when no plan that was read is left to be applied. -/
def Undisturbed (s : Server) (a : Label) : Prop :=
  (match a with
    | .loop a => s.loop.Recorded a
    | .readTranscript .. => s.loop.atBoundary = true
    | _ => True) ∧
  ∀ s' ∈ s.step a, s'.loop.messages = s.loop.messages ∨ s'.plans = []

instance (s : Server) (a : Label) : Decidable (s.Undisturbed a) := by
  unfold Undisturbed
  refine @instDecidableAnd _ _ ?_ inferInstance
  split <;> infer_instance

/-- The transcript replays to the history, and so did every plan that is not applied yet. -/
structure Current (s : Server) : Prop where
  recorded : Loop.recording.Holds s.loop
  agree : ∀ p ∈ s.plans, Agree p.snapshot s.loop.messages

section Steps

variable {s s' : Server} {a : Label} {q : Queued} {i : Nat} {p : Plan} {summary : String}

/-- A step that brings no plan along keeps the others current if it leaves the history alone. -/
theorem Current.move (h : s.Current) (hrecorded : Loop.recording.Holds s'.loop)
    (hplans : s'.plans ⊆ s.plans)
    (hquiet : s'.loop.messages = s.loop.messages ∨ s'.plans = []) : s'.Current := by
  refine ⟨hrecorded, fun p hp => ?_⟩
  rcases hquiet with hsame | hnone
  · rw [hsame]; exact h.agree p (hplans hp)
  · rw [hnone] at hp; cases hp

theorem loop_offer (s : Server) (q : Queued) : (s.offer q).loop = s.loop := by
  unfold offer
  split
  · rfl
  · rfl

theorem mem_plans_offer (h : p ∈ (s.offer q).plans) : p ∈ s.plans ∨ q.plan? = some p := by
  unfold offer at h
  split at h
  · exact .inl h
  · simp only [plans, List.filterMap_append, List.mem_append, List.mem_filterMap,
      List.mem_singleton] at h ⊢
    rcases h with h | h | ⟨q', rfl, hq⟩
    · exact .inl (.inl h)
    · exact .inl (.inr h)
    · exact .inr hq

theorem plans_eraseIdx_subset (s : Server) (i : Nat) :
    plans { s with requests := s.requests.eraseIdx i } ⊆ s.plans := by
  have hrequests := (List.eraseIdx_sublist s.requests i).filterMap Request.plan?
  exact (hrequests.append (List.Sublist.refl _)).subset

theorem mem_plans_of_request (h : s.requests[i]? = some (.planned p)) : p ∈ s.plans :=
  List.mem_append_left _ (List.mem_filterMap.mpr ⟨_, List.mem_of_getElem? h, rfl⟩)

theorem mem_plans_set {r : Request}
    (h : p ∈ plans { s with requests := s.requests.set i r }) : p ∈ s.plans ∨ r.plan? = some p := by
  simp only [plans, List.mem_append, List.mem_filterMap] at h ⊢
  rcases h with ⟨r', hr', hp⟩ | h
  · rcases List.mem_or_eq_of_mem_set hr' with hmem | rfl
    · exact .inl (.inl ⟨r', hmem, hp⟩)
    · exact .inr hp
  · exact .inl (.inr h)

theorem Current.offer (h : s.Current) (hq : ∀ p, q.plan? = some p → p ∈ s.plans) :
    (s.offer q).Current := by
  have hloop := s.loop_offer q
  refine h.move (by rw [hloop]; exact h.recorded) (fun p hp => ?_) (.inl (by rw [hloop]))
  rcases mem_plans_offer hp with hold | hnew
  · exact hold
  · exact hq p hnew

theorem Current.eraseIdx (h : s.Current) (i : Nat) :
    Current { s with requests := s.requests.eraseIdx i } :=
  h.move h.recorded (s.plans_eraseIdx_subset i) (.inl rfl)

theorem Current.readTranscript (h : s.Current) (hboundary : s.loop.atBoundary = true) (i : Nat)
    (keepLastN : Int) (keepFirst : Bool) : (s.readTranscript i keepLastN keepFirst).Current := by
  unfold Server.readTranscript
  split
  · next p hp =>
    refine ⟨h.recorded, fun p' hp' => ?_⟩
    rcases mem_plans_set hp' with hold | hnew
    · exact h.agree p' hold
    · cases hnew
      rw [Plan.of?] at hp
      split at hp
      · cases hp
        exact Loop.agree_of_holds h.recorded hboundary
      · cases hp
  · exact h.eraseIdx i

/-- The plan that is pushed was under way before. -/
theorem Current.push (h : s.Current) (hp : s.requests[i]? = some (.planned p))
    (hlive : s.loop.phase ≠ .ended) (summary : String) : (s.push i p summary).Current := by
  have herased := h.eraseIdx i
  unfold Server.push
  split
  · exact herased
  · have hloop := loop_offer { s with requests := s.requests.eraseIdx i } (.compaction p summary)
    refine h.move (by rw [hloop]; exact h.recorded) (fun p' hp' => ?_) (.inl (by rw [hloop]))
    rcases mem_plans_offer hp' with hold | hnew
    · exact s.plans_eraseIdx_subset i hold
    · cases hnew
      exact mem_plans_of_request hp

theorem follow_eq_some {next : Option Loop} (h : s.follow next = some s') :
    ∃ l, next = some l ∧ s' = { s with loop := l } := by
  obtain ⟨l, hl, rfl⟩ := Option.map_eq_some_iff.mp h
  exact ⟨l, hl, rfl⟩

theorem loop_readTranscript (s : Server) (i : Nat) (keepLastN : Int) (keepFirst : Bool) :
    (s.readTranscript i keepLastN keepFirst).loop = s.loop := by
  unfold Server.readTranscript
  split
  · rfl
  · rfl

theorem live_of_step {l l' : Loop} {a : Loop.Label} (h : l.step a = some l') :
    l.phase ≠ .ended := by
  intro hended
  rw [Loop.step_ended hended] at h
  cases h

/-- Nothing moves a run that has ended, and one that has not stays current. -/
theorem current_step (h : s.loop.phase = .ended ∨ s.Current) (hP : s.Undisturbed a)
    (hstep : s.step a = some s') : s'.loop.phase = .ended ∨ s'.Current := by
  obtain ⟨hfits, hquiet⟩ := hP
  have hquiet := hquiet s' hstep
  cases a with
  | compact =>
    rw [step] at hstep
    split at hstep
    · cases hstep
      refine h.imp_right fun h => h.move h.recorded (fun p hp => ?_) (.inl rfl)
      simpa [plans, Request.plan?] using hp
    · cases hstep
  | readTranscript i keepLastN keepFirst =>
    rw [step] at hstep
    split at hstep
    · cases hstep
      rw [loop_readTranscript]
      exact h.imp_right fun h => h.readTranscript hfits i keepLastN keepFirst
    · cases hstep
  | push i summary =>
    rw [step] at hstep
    split at hstep
    · next p hp =>
      cases hstep
      by_cases hended : s.loop.phase = .ended
      · refine .inl ?_
        unfold push
        split
        · exact hended
        · exact hended
      · exact .inr ((h.resolve_left hended).push hp hended _)
    · cases hstep
  | send q =>
    cases q with
    | compaction p summary => cases hstep
    | operator text | verdict approved text =>
      cases hstep
      rw [loop_offer]
      exact h.imp_right fun h => h.offer nofun
  | take stale =>
    rw [step] at hstep
    split at hstep
    · cases hstep
    next q rest hqueue =>
    obtain ⟨l, hl, rfl⟩ := follow_eq_some hstep
    have hsteer : s.loop.step (.steer q.steer stale) = some l := hl
    have hrecorded : s.loop.Recorded (.steer q.steer stale) := trivial
    have h := h.resolve_left (live_of_step hsteer)
    refine .inr (h.move (Loop.Assertion.holds_step Loop.kept_recording h.recorded hrecorded hsteer)
      (fun p hp => ?_) hquiet)
    have hrest : (rest.filterMap Queued.plan?).Sublist (s.queue.filterMap Queued.plan?) := by
      rw [hqueue]
      exact (List.sublist_cons_self q rest).filterMap _
    exact ((List.Sublist.refl _).append hrest).subset hp
  | loop a =>
    rw [step] at hstep
    split at hstep
    · obtain ⟨l, hl, rfl⟩ := follow_eq_some hstep
      have h := h.resolve_left (live_of_step hl)
      have hheld := Loop.Assertion.holds_step Loop.kept_recording h.recorded hfits hl
      exact .inr (h.move hheld (List.Subset.refl _) hquiet)
    · cases hstep

theorem current_of_run (h : s.Current) (hrun : Transition.Run step Undisturbed s s') :
    s'.loop.phase = .ended ∨ s'.Current :=
  hrun.invariant (I := fun s => s.loop.phase = .ended ∨ s.Current)
    (fun _ _ _ ht hP hstep => current_step ht hP hstep) (.inr h)

end Steps

/-- As long as the history does not change between the read of a transcript and the application
of what was made of it, a compaction loses nothing and splits nothing, whatever else is asked of
the run in between. -/
theorem compaction_keeps {steerQueue : Bool} {iterCap : Nat} {unboundedIters : Bool}
    {log : List Event} {segs : List PromptSegment} {extra : List String} {queueCap : Nat}
    {s s' : Server} {p : Plan} {summary : String} {rest : List Queued} {stale : Bool}
    (hrun : Transition.Run step Undisturbed
      (start (Loop.start steerQueue iterCap unboundedIters (replayTranscript log) log segs extra)
        queueCap) s)
    (hqueue : s.queue = .compaction p summary :: rest) (hstep : s.step (.take stale) = some s') :
    p.Keeps s.loop.messages := by
  have hstart := Loop.recorded_start steerQueue iterCap unboundedIters log segs extra
  rcases current_of_run ⟨hstart, fun _ hp => absurd hp List.not_mem_nil⟩ hrun with
    hended | hcurrent
  · rw [step, hqueue] at hstep
    obtain ⟨l, hl, -⟩ := follow_eq_some hstep
    exact absurd hended (live_of_step (a := .steer (Queued.compaction p summary).steer stale) hl)
  · refine Plan.keeps_of_agree (hcurrent.agree p (List.mem_append_right _ ?_))
    rw [hqueue]
    exact List.mem_cons_self

/-- The loop is about to apply the control made from this plan. -/
def applying (s : Server) : Option Plan :=
  match s.queue with
  | .compaction p _ :: _ => if (s.step (.take false)).isSome then some p else none
  | _ => none

theorem applying_eq_some {s : Server} {p : Plan} (h : s.applying = some p) :
    ∃ summary rest s', s.queue = .compaction p summary :: rest ∧
      s.step (.take false) = some s' := by
  unfold applying at h
  split at h
  · next p' summary rest hqueue =>
    split at h
    · next hsome =>
      obtain ⟨s', hstep⟩ := Option.isSome_iff_exists.mp hsome
      cases h
      exact ⟨summary, rest, s', hqueue, hstep⟩
    · cases h
  · cases h

def turn (labels : List Loop.Label) : List Label := (Loop.boundary ++ labels).map .loop

/-- An iteration that answers and parks the run. -/
def answer (text : String) : List Label :=
  turn [.stream, .text text, .done (.other "end_turn"), .close false true,
    .agentStop .allow false, .settle true false]

/-- Long enough for a summary to be worth it. -/
def inventory : String := String.ofList (List.replicate 400 'x')

/-- Two exchanges, and a compaction that has read them and keeps the second. -/
def planned : List Label :=
  answer inventory ++ [.send (.operator "and the hidden ones?"), .take false] ++
    answer ".git" ++ [.compact, .readTranscript 0 2 false]

/-- A run that waits while its first exchange is summarised. -/
theorem compaction_keeps_parked :
    ∃ s p, Transition.Run step Undisturbed (start (Loop.listing 16) 16) s ∧
      s.applying = some p ∧ p.span = [userText "list the files", assistantText inventory] ∧
      p.Keeps s.loop.messages := by
  obtain ⟨s, hrun, hs⟩ := Transition.exists_run_guarded step Undisturbed
    (start (Loop.listing 16) 16) (planned ++ [.push 0 "the files were listed"])
    (p := (·.applying.map Plan.span = some [userText "list the files", assistantText inventory]))
    (by decide +kernel)
  obtain ⟨p, hp, hspan⟩ := Option.map_eq_some_iff.mp hs
  obtain ⟨summary, rest, s', hqueue, hstep⟩ := applying_eq_some hp
  have hrun : Transition.Run step Undisturbed (start (Loop.start true 16 false
      (replayTranscript []) [] [⟨.user, [.text "list the files"]⟩] []) 16) s := hrun
  exact ⟨s, p, hrun, hp, hspan, compaction_keeps hrun hqueue hstep⟩

/-- The operator goes on while the summary is written: two messages and a turn that calls a tool
come before the control. -/
def goesOn : List Label :=
  planned ++ [.send (.operator "rename them"), .take false] ++
    turn [.stream, .toolCall "t1" "Bash" (ascii "\x7b\x7d"), .done .toolUse, .close false true,
      .dispatch [⟨ascii "moved", false⟩] [0] .proceed] ++
    [.send (.operator "quickly"), .push 0 "the files were listed", .loop .begin, .take false]

/-- What the control keeps is then a tool result without its call, and the operator's message
before it is neither kept nor summarised. -/
theorem compaction_loses_turn :
    ∃ s p, Transition.Run step Transition.Any (start (Loop.listing 16) 16) s ∧
      s.applying = some p ∧ userText "rename them" ∈ s.loop.messages ∧
      userText "rename them" ∉ p.span ++ keptTail s.loop.messages p.keepN ∧
      keptTail s.loop.messages p.keepN =
        [resultsTurn [.toolResult "t1" "Bash" (ascii "moved") false], userText "quickly"] ∧
      ¬p.Keeps s.loop.messages := by
  obtain ⟨s, hrun, p, hp, hmem, hlost, htail⟩ := Transition.exists_run step
    (start (Loop.listing 16) 16) goesOn
    (p := fun s => ∃ p ∈ s.applying, userText "rename them" ∈ s.loop.messages ∧
      userText "rename them" ∉ p.span ++ keptTail s.loop.messages p.keepN ∧
      keptTail s.loop.messages p.keepN =
        [resultsTurn [.toolResult "t1" "Bash" (ascii "moved") false], userText "quickly"])
    (by decide +kernel)
  refine ⟨s, p, hrun, hp, hmem, hlost, htail, fun hkeeps => ?_⟩
  have hfresh := hkeeps.fresh (resultsTurn [.toolResult "t1" "Bash" (ascii "moved") false])
    (by rw [htail]; rfl)
  cases hfresh

end Server

end Loomcycle.Conversation
