import Loomcycle.Steering.Queue

/-! What becomes of a message whose push was accepted: the run's loop and its entry in the
steer registry as one system. A message is appended, named in an error or applied when the
loop reads it; whether every accepted one is read depends on how the run ends. -/

namespace Loomcycle.Steering
open Conversation Lib.Transition

def clipRunes (s : String) (n : Nat) : String :=
  if s.toList.length ≤ n then s else String.ofList (s.toList.take n) ++ "…"

/-- The error `drainSteerUnanswerable` reports an operator's message with. -/
def unanswerable (text : String) : String :=
  "an operator message arrived after the final answer and the run has no iteration left " ++
    "to answer it: " ++ clipRunes text 200

/-- The errors a read emits: only the last read of a run with no iteration left does. -/
def readErrors (l : Loop) : Steer → List String
  | .operator text =>
    match l.phase with
    | .finishing _ => if l.begun < l.iterCap then [] else [unanswerable text]
    | _ => []
  | _ => []

/-- One read of the queue: the conversation before and after it, and the errors emitted. -/
structure Read where
  msg : Steer
  before : List Message
  after : List Message
  errors : List String
deriving DecidableEq, Repr

/-- An operator's message is appended or named in an error, not both; a compaction is
applied. -/
def Read.Kept (r : Read) : Prop :=
  match r.msg with
  | .operator text =>
    r.after = r.before ++ [userText text] ∧ r.errors = [] ∨
      r.after = r.before ∧ r.errors = [unanswerable text]
  | .compact summary keepN keepFirst =>
    r.after = applyCompactSummary r.before summary keepN keepFirst
  | _ => True

/-- The loop, its queue, and whether the registry still maps the run id to it. `accepted`
are the messages whose push returned without an error, `reads` what the loop did with those
it read. -/
structure SteeredRun where
  loop : Loop
  entry : Entry
  registered : Bool
  accepted : List Steer := []
  reads : List Read := []
deriving DecidableEq, Repr

namespace SteeredRun

def lookup (s : SteeredRun) : Option Entry :=
  if s.registered then some s.entry else none

inductive Label
  | push (m : Steer)
  | pushLocal (m : Steer)
  /-- the loop takes the oldest message of its queue -/
  | read (stale : Bool)
  /-- a drain found the queue empty -/
  | drained
  /-- a finishing run, or a park at its idle deadline, tries to close the queue -/
  | close
  /-- a park ends because the run is cancelled -/
  | gone
  /-- any step of the loop that does not touch the queue -/
  | loop (a : Loop.Label)
  | deregister
deriving DecidableEq, Repr

/-- The labels of the loop that are not about its queue. -/
def apart : Loop.Label → Bool
  | .steer _ _ | .queueEmpty | .parkEnd => false
  | _ => true

def read (s : SteeredRun) (stale : Bool) : Option SteeredRun :=
  match s.entry.ch with
  | [] => none
  | m :: rest =>
    (s.loop.takeSteer m stale).map fun l => { s with
      loop := l
      entry := { s.entry with ch := rest }
      reads := s.reads ++ [⟨m, s.loop.messages, l.messages, readErrors s.loop m⟩] }

/-- `CloseSteerIfEmpty`, which a verdict-only entry has none of, and the end it allows. -/
def close (s : SteeredRun) (a : Loop.Label) : Option SteeredRun :=
  if s.entry.verdictsOnly then (s.loop.step a).map fun l => { s with loop := l }
  else
    match closeIfEmpty s.lookup with
    | (false, _) => some s
    | (true, none) => (s.loop.step a).map fun l => { s with loop := l }
    | (true, some e) => (s.loop.step a).map fun l => { s with loop := l, entry := e }

def step (s : SteeredRun) : Label → Option SteeredRun
  | .push m =>
    match push s.lookup m with
    | .error _ => some s
    | .ok e => some { s with entry := e, accepted := s.accepted ++ [m] }
  | .pushLocal m =>
    match pushLocal s.lookup m with
    | (⟨true, _, _⟩, some e) => some { s with entry := e, accepted := s.accepted ++ [m] }
    | _ => some s
  | .read stale => s.read stale
  | .drained =>
    match s.loop.phase, s.entry.ch with
    | .steering, [] | .finishing true, [] =>
      (s.loop.step .queueEmpty).map fun l => { s with loop := l }
    | _, _ => none
  | .close =>
    match s.loop.phase with
    | .finishing false => s.close .queueEmpty
    | .parked => s.close .parkEnd
    | _ => none
  | .gone =>
    match s.loop.phase with
    | .parked => (s.loop.step .parkEnd).map fun l => { s with loop := l }
    | _ => none
  | .loop a => if apart a then (s.loop.step a).map fun l => { s with loop := l } else none
  | .deregister =>
    if s.loop.phase = .ended then some { s with registered := false } else none

/-- A run that starts, registered with an empty queue if it has one at all. -/
def init (l : Loop) (cap : Nat) (verdictsOnly : Bool) : SteeredRun :=
  { loop := l, entry := ⟨cap, verdictsOnly, false, []⟩, registered := l.steerQueue }

/-- The next message is an operator's and says nothing. -/
def blankNext (s : SteeredRun) : Bool :=
  match s.entry.ch with
  | .operator text :: _ => trimSpace text == ""
  | _ => false

/-- A run held for review reads no operator's message that says nothing. -/
def NoBlank (s : SteeredRun) : Label → Prop
  | .read _ => s.loop.phase = .held → s.blankNext = false
  | _ => True

instance (s : SteeredRun) : (a : Label) → Decidable (NoBlank s a)
  | .read _ => inferInstanceAs (Decidable (s.loop.phase = .held → s.blankNext = false))
  | .push _ | .pushLocal _ | .drained | .close | .gone | .loop _ | .deregister =>
    .isTrue trivial

/-! ## What a read does with its message -/

@[simp] theorem messages_next (l : Loop) : l.next.messages = l.messages := by
  rw [Loop.next]
  split <;> rfl

@[simp] theorem messages_revise (l : Loop) (text : String) :
    (l.revise text).messages = l.messages ++ [userText text] := by
  rw [Loop.revise]
  split
  · rfl
  · rw [messages_next]
    rfl

variable {l : Loop} {stale : Bool} {b : Loop.Label}

/-- An operator's message is appended, or named by the last read of a run that cannot
answer it. -/
theorem kept_operator {l' : Loop} {text : String} (h : l.takeSteer (.operator text) stale = some l')
    (hblank : l.phase = .held → trimSpace text ≠ "") :
    l'.messages = l.messages ++ [userText text] ∧ readErrors l (.operator text) = [] ∨
      l'.messages = l.messages ∧ readErrors l (.operator text) = [unanswerable text] := by
  rw [Loop.takeSteer] at h
  split at h
  · next hphase =>
    cases h
    exact .inl ⟨rfl, by simp only [readErrors, hphase]⟩
  · next hphase =>
    cases h
    refine .inl ⟨?_, by simp only [readErrors, hphase]⟩
    rw [Loop.parkForReview, if_neg (hblank hphase), messages_revise]
  · next hphase =>
    cases h
    refine .inl ⟨?_, by simp only [readErrors, hphase]⟩
    rw [Loop.parkForOperatorTurn, messages_next]
    rfl
  · next hphase =>
    cases h
    rw [Loop.finishSteer]
    split
    · next hleft => exact .inl ⟨rfl, by simp only [readErrors, hphase, if_pos hleft]⟩
    · next hleft => exact .inr ⟨rfl, by simp only [readErrors, hphase, if_neg hleft]⟩
  · cases h

/-! ## What a step does to the queue -/

/-- The steps, by what they do to the queue and its record. -/
inductive Effect (s : SteeredRun) : Label → SteeredRun → Prop
  | apart {a : Label} (l : Loop) (registered : Bool) :
      Effect s a { s with loop := l, registered := registered }
  | accept {a : Label} {m : Steer} (hopen : s.entry.closed = false)
      (hverdict : s.entry.verdictsOnly = true → isVerdict m = true) :
      Effect s a { s with
        entry := { s.entry with ch := s.entry.ch ++ [m] }
        accepted := s.accepted ++ [m] }
  | read {m : Steer} {rest : List Steer} {l : Loop} {stale : Bool}
      (hch : s.entry.ch = m :: rest) (htake : s.loop.takeSteer m stale = some l) :
      Effect s (.read stale) { s with
        loop := l
        entry := { s.entry with ch := rest }
        reads := s.reads ++ [⟨m, s.loop.messages, l.messages, readErrors s.loop m⟩] }
  | close {a : Label} {l : Loop} (hempty : s.entry.ch = []) :
      Effect s a { s with loop := l, entry := { s.entry with closed := true } }

variable {s s' : SteeredRun} {a : Label}

theorem effect_of_offer {m : Steer} {e : Entry} (h : s.entry.offer m = .ok e) :
    Effect s a { s with entry := e, accepted := s.accepted ++ [m] } := by
  obtain ⟨hopen, hverdict, rfl⟩ := Entry.offer_eq_ok h
  exact .accept hopen hverdict

theorem eq_of_lookup {e : Entry} (h : s.lookup = some e) : e = s.entry := by
  rw [lookup] at h
  split at h
  · exact (Option.some.inj h).symm
  · cases h

theorem effect_of_loop (h : (s.loop.step b).map (fun l => { s with loop := l }) = some s') :
    Effect s a s' := by
  obtain ⟨l, -, rfl⟩ := Option.map_eq_some_iff.mp h
  exact .apart l s.registered

theorem effect_of_close (h : s.close b = some s') : Effect s a s' := by
  rw [SteeredRun.close] at h
  split at h
  · exact effect_of_loop h
  split at h
  · cases h
    exact .apart s.loop s.registered
  · exact effect_of_loop h
  next e hclose =>
  obtain ⟨l, -, rfl⟩ := Option.map_eq_some_iff.mp h
  cases hlookup : s.lookup with
  | none =>
    rw [hlookup, closeIfEmpty] at hclose
    cases hclose
  | some e' =>
    obtain rfl := eq_of_lookup hlookup
    rw [hlookup, closeIfEmpty] at hclose
    split at hclose
    · cases hclose
    · next hempty =>
      cases hclose
      exact .close (not_not.mp hempty)

theorem effect_of_step (h : step s a = some s') : Effect s a s' := by
  cases a <;> rw [step] at h
  case push m =>
    split at h
    · cases h
      exact .apart s.loop s.registered
    next e hpush =>
    cases h
    cases hlookup : s.lookup with
    | none => rw [hlookup] at hpush; cases hpush
    | some e' =>
      rw [hlookup, eq_of_lookup hlookup] at hpush
      exact effect_of_offer hpush
  case pushLocal m =>
    obtain ⟨e, e', hlookup, hoffer, hpush⟩ | hrefused := pushLocal_cases s.lookup m
    · rw [hpush] at h
      cases h
      rw [eq_of_lookup hlookup] at hoffer
      exact effect_of_offer hoffer
    · split at h
      · next hpush =>
        rw [hpush] at hrefused
        cases hrefused
      · cases h
        exact .apart s.loop s.registered
  case read stale =>
    rw [read] at h
    split at h
    · cases h
    · next m rest hch =>
      obtain ⟨l, htake, rfl⟩ := Option.map_eq_some_iff.mp h
      exact .read hch htake
  case drained =>
    split at h
    · exact effect_of_loop h
    · exact effect_of_loop h
    · cases h
  case close =>
    split at h
    · exact effect_of_close h
    · exact effect_of_close h
    · cases h
  case gone | loop b =>
    split at h
    · exact effect_of_loop h
    · cases h
  case deregister =>
    split at h
    · cases h
      exact .apart s.loop false
    · cases h

/-! ## Whole runs -/

/-- Every accepted message was read or waits, a closed queue is empty, and what was read is
not lost. -/
structure Accounted (s : SteeredRun) : Prop where
  conserved : s.accepted = s.reads.map Read.msg ++ s.entry.ch
  closedEmpty : s.entry.closed = true → s.entry.ch = []
  verdicts : s.entry.verdictsOnly = true → ∀ m ∈ s.accepted, isVerdict m = true
  kept : ∀ r ∈ s.reads, r.Kept

theorem kept_of_read {m : Steer} {rest : List Steer} (hch : s.entry.ch = m :: rest)
    (htake : s.loop.takeSteer m stale = some l) (hblank : NoBlank s (.read stale)) :
    Read.Kept ⟨m, s.loop.messages, l.messages, readErrors s.loop m⟩ := by
  cases m with
  | operator text =>
    refine kept_operator htake fun hheld htrim => ?_
    have hnot := hblank hheld
    simp [blankNext, hch, htrim] at hnot
  | compact summary keepN keepFirst =>
    rw [Loop.takeSteer] at htake
    split at htake <;> try cases htake
    · rfl
    · rfl
    · rfl
    · change Loop.messages _ = _
      rw [Loop.finishSteer]
      split <;> rfl
  | approve => trivial
  | reject text => trivial

theorem accounted_step (hs : Accounted s) (hblank : NoBlank s a) (h : step s a = some s') :
    Accounted s' := by
  cases effect_of_step h with
  | apart => exact ⟨hs.conserved, hs.closedEmpty, hs.verdicts, hs.kept⟩
  | @accept _ m hopen hverdict =>
    refine ⟨?_, fun hclosed => ?_, fun hv => ?_, hs.kept⟩
    · rw [hs.conserved, List.append_assoc]
    · rw [hopen] at hclosed
      cases hclosed
    · exact List.forall_mem_append.mpr
        ⟨hs.verdicts hv, List.forall_mem_singleton.mpr (hverdict hv)⟩
  | read hch htake =>
    refine ⟨?_, fun hclosed => ?_, hs.verdicts, ?_⟩
    · rw [hs.conserved, hch, List.map_append, List.append_assoc]
      rfl
    · -- a closed queue has nothing to read
      have hempty := hs.closedEmpty hclosed
      rw [hch] at hempty
      cases hempty
    · have hkept := kept_of_read hch htake hblank
      exact List.forall_mem_append.mpr ⟨hs.kept, List.forall_mem_singleton.mpr hkept⟩
  | close hempty => exact ⟨hs.conserved, fun _ => hempty, hs.verdicts, hs.kept⟩

theorem push_of_closed (hclosed : s.entry.closed = true) (m : Steer) :
    push s.lookup m = .error .errRunNotFound := by
  rw [lookup]
  split
  · exact Entry.offer_of_closed hclosed m
  · rfl

theorem pushLocal_of_closed (hclosed : s.entry.closed = true) (m : Steer) :
    (pushLocal s.lookup m).1.delivered = false := by
  obtain ⟨e, e', hlookup, hoffer, -⟩ | hrefused := pushLocal_cases s.lookup m
  · rw [eq_of_lookup hlookup, Entry.offer_of_closed hclosed] at hoffer
    cases hoffer
  · exact hrefused

/-- Whatever a run does with its queue: each operator's message it read was appended or named
in an error, and each compaction applied; once the queue is closed it is empty, no push is
accepted, and the messages read are those accepted, each once and in their order; and a
verdict-only run, whose queue is not closed, accepts nothing but verdicts. -/
theorem acknowledged_not_lost {l : Loop} {cap : Nat} {verdictsOnly : Bool}
    (h : Run step NoBlank (init l cap verdictsOnly) s) :
    (∀ r ∈ s.reads, r.Kept) ∧
    (s.entry.closed = true → s.entry.ch = [] ∧ s.reads.map Read.msg = s.accepted ∧
      ∀ m, push s.lookup m = .error .errRunNotFound ∧
        (pushLocal s.lookup m).1.delivered = false) ∧
    (s.entry.verdictsOnly = true → ∀ m ∈ s.accepted, isVerdict m = true) := by
  have hs : Accounted s := h.invariant (fun _ _ _ hs hblank he => accounted_step hs hblank he)
    ⟨rfl, fun _ => rfl, fun _ => nofun, nofun⟩
  refine ⟨hs.kept, fun hclosed => ?_, hs.verdicts⟩
  have hempty := hs.closedEmpty hclosed
  refine ⟨hempty, ?_, fun m => ⟨push_of_closed hclosed m, pushLocal_of_closed hclosed m⟩⟩
  rw [hs.conserved, hempty, List.append_nil]

/-- An answer of the model, from the start of an iteration. -/
def answer (text : String) : List Label :=
  [.loop .begin, .drained, .loop .noNote, .loop .request, .loop .stream, .loop (.text text),
    .loop (.done (.other "end_turn")), .loop (.close false false)]

/-- Two messages, one answered in the run's last iteration and one named in an error after
it, and the run then closes its queue and ends. -/
theorem acknowledged_not_lost_two :
    ∃ s, Run step NoBlank (init (Loop.listing 2) 16 false) s ∧ s.loop.phase = .ended ∧
      s.entry.closed = true ∧ s.accepted = [.operator "and b", .operator "and c"] ∧
      s.reads.map Read.msg = s.accepted ∧ ∀ r ∈ s.reads, r.Kept := by
  obtain ⟨s, hrun, hphase, hclosed, haccepted⟩ := exists_run_guarded step NoBlank
    (init (Loop.listing 2) 16 false)
    (answer "a" ++ [.push (.operator "and b"), .loop (.agentStop .allow false),
      .loop (.settle false false), .read false, .drained] ++
    answer "a b" ++ [.loop (.agentStop .allow false), .loop (.settle false false),
      .pushLocal (.operator "and c"), .close, .read false, .close])
    (p := fun s => s.loop.phase = .ended ∧ s.entry.closed = true ∧
      s.accepted = [.operator "and b", .operator "and c"]) (by decide +kernel)
  obtain ⟨hkept, hall, -⟩ := acknowledged_not_lost hrun
  exact ⟨s, hrun, hphase, hclosed, haccepted, (hall hclosed).2.1, hkept⟩

/-- A run held for review is rejected while an operator's message waits behind the verdict:
it ends, neither failed nor cancelled, and the message was neither appended nor named. And a
blank message read by a held run is dropped. -/
theorem acknowledged_and_lost :
    (∃ s, Run step Any (init (Loop.listing 4) 16 false) s ∧ s.loop.phase = .ended ∧
      s.loop.log.getLast? = some .done ∧ .operator "and b" ∈ s.accepted ∧
      .operator "and b" ∉ s.reads.map Read.msg ∧
      userText "and b" ∉ s.loop.messages) ∧
    ∃ s, Run step Any (init (Loop.listing 4) 16 false) s ∧ .operator " " ∈ s.accepted ∧
      ∃ r ∈ s.reads, r.msg = .operator " " ∧ r.after = r.before ∧ r.errors = [] := by
  constructor
  · exact exists_run step _ (answer "a" ++ [.loop (.agentStop .allow true), .push (.reject ""),
      .push (.operator "and b"), .read false, .deregister]) (by decide +kernel)
  · exact exists_run step _ (answer "a" ++ [.loop (.agentStop .allow true), .push (.operator " "),
      .read false]) (by decide +kernel)

end SteeredRun

end Loomcycle.Steering
