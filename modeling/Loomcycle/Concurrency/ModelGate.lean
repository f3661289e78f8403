import Loomcycle.Lib.CountMap
import Loomcycle.Lib.Keyed
import Loomcycle.Lib.Transition

/-! # The cap on different models

`modelgate.go`: at most `max` different models compute at once on one provider, each in any
number of calls. Whoever has to wait does so in one queue. Every method is one critical
section; a call that waits is in the queue until a section lets it in or its ctx ends. -/

namespace Loomcycle.Concurrency
open Lib

/-- One queued `Enter`; `id` is the pointer, and the order of arrival. -/
structure GateWaiter where
  id : Nat
  model : String
  since : Int
  deriving DecidableEq, Repr

/-- A counted call that was let in and has not left. -/
structure GateCall where
  id : Nat
  model : String
  deriving DecidableEq, Repr

def GateWaiter.call (w : GateWaiter) : GateCall := ⟨w.id, w.model⟩

/-- The fields of the Go struct, then the calls in flight, the ids given out, the clock, and
the models in flight at the last `SetLimit` that lowered the limit, which nothing reads. -/
structure ModelGate where
  max : Int
  maxWait : Int
  inFlight : CountMap String := ∅
  waiters : List GateWaiter := []
  calls : List GateCall := []
  nextId : Nat := 0
  now : Int := 0
  atLowered : List String := []

def NewModelGate (maxModels maxWait : Int) : ModelGate := { max := maxModels, maxWait }

namespace ModelGate

/-- The models of the calls in flight. -/
def models (g : ModelGate) : List String := g.calls.map GateCall.model

/-- The oldest waiter has been overtaken for long enough. -/
def starving (g : ModelGate) : Bool :=
  0 < g.maxWait && g.waiters.head?.any fun w => g.maxWait ≤ g.now - w.since

/-- A new call to `model` may go ahead of the queue. -/
def admissible (g : ModelGate) (model : String) : Bool :=
  if 0 < g.inFlight.count model then !g.starving
  else g.waiters.isEmpty && g.inFlight.size < g.max

/-- Let in every waiter for `model`. -/
def admitModel (g : ModelGate) (model : String) : ModelGate :=
  let batch := g.waiters.filter fun w => w.model = model
  { g with
    inFlight := (batch.map GateWaiter.model).foldl CountMap.inc g.inFlight
    waiters := g.waiters.filter fun w => w.model ≠ model
    calls := g.calls ++ batch.map GateWaiter.call }

/-- The head of the queue has to go on waiting. -/
def held (g : ModelGate) (model : String) : Bool :=
  0 < g.max && g.inFlight.count model = 0 && g.max ≤ g.inFlight.size

/-- The loop of `admit`, for at most `fuel` rounds. -/
def admitLoop : Nat → ModelGate → ModelGate
  | 0, g => g
  | fuel + 1, g =>
    match g.waiters with
    | [] => g
    | w :: _ => if g.held w.model then g else admitLoop fuel (g.admitModel w.model)

/-- `admit`. Every round lets the head in, so there are no more rounds than waiters. -/
def admitHeads (g : ModelGate) : ModelGate := admitLoop g.waiters.length g

def exit (g : ModelGate) (model : String) : ModelGate :=
  if 1 < g.inFlight.count model then { g with inFlight := g.inFlight.dec model }
  else { g with inFlight := g.inFlight.erase model }.admitHeads

def unqueue (g : ModelGate) (w : GateWaiter) : ModelGate :=
  { g with waiters := g.waiters.filter fun x => x.id ≠ w.id }

inductive Entered
  | uncounted
  | ctx
  | admitted (id : Nat)
  | queueFull (queued : Nat) (limit : Int)
  | queued (id : Nat)
  deriving DecidableEq, Repr

/-- The call `nextId` starts at once. -/
def start (g : ModelGate) (model : String) : ModelGate :=
  { g with
    inFlight := g.inFlight.inc model
    calls := g.calls ++ [⟨g.nextId, model⟩]
    nextId := g.nextId + 1 }

/-- The call `nextId` joins the queue. -/
def enqueue (g : ModelGate) (model : String) : ModelGate :=
  { g with
    waiters := g.waiters ++ [⟨g.nextId, model, g.now⟩]
    nextId := g.nextId + 1 }

/-- The section of `enter`; `done` says that the ctx has ended already. -/
def enter (g : ModelGate) (model : String) (maxWaiting : Int) (done : Bool) : ModelGate × Entered :=
  if model = "" then (g, .uncounted)
  else if g.max ≤ 0 then (g, .uncounted)
  else if done then (g, .ctx)
  else if g.admissible model then (g.start model, .admitted g.nextId)
  else if 0 ≤ maxWaiting ∧ maxWaiting ≤ g.waiters.length then
    (g, .queueFull g.waiters.length maxWaiting)
  else (g.enqueue model, .queued g.nextId)

def callOf (g : ModelGate) (id : Nat) : Option GateCall := g.calls.find? fun c => c.id = id

/-- The call no longer counts. -/
def endCall (g : ModelGate) (c : GateCall) : ModelGate :=
  { g with calls := g.calls.filter fun x => x.id ≠ c.id }.exit c.model

/-- The closure of `leaveFn`: a call that has left is left alone. -/
def leave (g : ModelGate) (id : Nat) : ModelGate :=
  match g.callOf id with
  | none => g
  | some c => g.endCall c

/-- The `ctx.Done` arm of the wait of call `id`; one let in as it gave up gives the place back. -/
def cancel (g : ModelGate) (id : Nat) : Option ModelGate :=
  match g.callOf id with
  | some c => some (g.endCall c)
  | none => (g.waiters.find? fun w => w.id = id).map fun w => (g.unqueue w).admitHeads

/-- The new limit lets fewer models in than the old one; a limit of 0 lets all in. -/
def lowers (old new : Int) : Bool := 0 < new && (old ≤ 0 || new < old)

/-- `SetLimit` before its `admit`. -/
def setLimits (g : ModelGate) (maxModels maxWait : Int) : ModelGate :=
  { g with
    max := maxModels
    maxWait
    atLowered := if lowers g.max maxModels then g.models else g.atLowered }

def setLimit (g : ModelGate) (maxModels maxWait : Int) : ModelGate :=
  (g.setLimits maxModels maxWait).admitHeads

inductive Label
  | enter (model : String) (maxWaiting : Int) (done : Bool)
  | leave (id : Nat)
  | cancel (id : Nat)
  | setLimit (maxModels maxWait : Int)
  | tick (d : Nat)
  deriving DecidableEq, Repr

/-- The sections that are not a call's own. -/
def Label.ambient : Label → Bool
  | .setLimit .. | .tick _ => true
  | _ => false

def step (g : ModelGate) : Label → Option ModelGate
  | .enter model maxWaiting done => some (g.enter model maxWaiting done).1
  | .leave id => some (g.leave id)
  | .cancel id => g.cancel id
  | .setLimit maxModels maxWait => some (g.setLimit maxModels maxWait)
  | .tick d => some { g with now := g.now + d }

/-! ## Moves -/

variable {g g' : ModelGate} {w : GateWaiter} {c : GateCall} {model : String}

/-- The call no longer counts and nobody has been let in for it yet. -/
def drop (g : ModelGate) (c : GateCall) : ModelGate :=
  { g with
    calls := g.calls.filter fun x => x.id ≠ c.id
    inFlight := g.inFlight.dec c.model }

theorem endCall_eq (g : ModelGate) (c : GateCall) :
    g.endCall c = if 1 < g.inFlight.count c.model then g.drop c else (g.drop c).admitHeads := by
  unfold endCall exit drop CountMap.dec
  split <;> rfl

/-- What a section is made of. -/
inductive Move (g : ModelGate) : ModelGate → Prop
  | start {model : String} (enabled : 0 < g.max) (runs : g.admissible model = true) :
    Move g (g.start model)
  | enqueue {model : String} (enabled : 0 < g.max) (waits : g.admissible model = false) :
    Move g (g.enqueue model)
  | drop {c : GateCall} (mem : c ∈ g.calls) : Move g (g.drop c)
  | letIn {w : GateWaiter} {rest : List GateWaiter} (head : g.waiters = w :: rest)
    (fits : g.held w.model = false) : Move g (g.admitModel w.model)
  | unqueue {w : GateWaiter} (mem : w ∈ g.waiters) : Move g (g.unqueue w)
  | tick (d : Nat) : Move g { g with now := g.now + d }

abbrev Moves : ModelGate → ModelGate → Prop := Relation.ReflTransGen Move

/-- What every round of `admit` keeps. -/
theorem admitLoop_invariant {I : ModelGate → Prop} (hround : ∀ r w rest, r.waiters = w :: rest →
    r.held w.model = false → I r → I (r.admitModel w.model)) (fuel : Nat) (hg : I g) :
    I (admitLoop fuel g) := by
  induction fuel generalizing g with
  | zero => exact hg
  | succ fuel ih =>
    unfold admitLoop
    split
    · exact hg
    · next w rest hw =>
      split
      · exact hg
      · next hfits => exact ih (hround g w rest hw (Bool.not_eq_true _ |>.mp hfits) hg)

theorem moves_admitHeads (g : ModelGate) : Moves g g.admitHeads :=
  admitLoop_invariant (fun _ _ _ hw hfits hr => .tail hr (.letIn hw hfits)) _ .refl

theorem moves_endCall (hm : c ∈ g.calls) : Moves g (g.endCall c) := by
  rw [endCall_eq]
  split
  · exact .single (.drop hm)
  · exact .head (.drop hm) (moves_admitHeads _)

theorem mem_of_callOf {id : Nat} (h : g.callOf id = some c) : c ∈ g.calls ∧ c.id = id :=
  ⟨List.mem_of_find?_eq_some h, by simpa using List.find?_some h⟩

/-- Only `SetLimit` changes the limits, and it does so first. -/
inductive Retunes (g : ModelGate) : Label → ModelGate → Prop
  | same {a : Label} : Retunes g a g
  | setLimit {maxModels maxWait : Int} :
    Retunes g (.setLimit maxModels maxWait) (g.setLimits maxModels maxWait)

/-- What a section does, and when. -/
inductive Section (g : ModelGate) : Label → ModelGate → Prop
  | refused {model : String} {maxWaiting : Int} {done : Bool}
    (waits : model ≠ "" → 0 < g.max → done = false → g.admissible model = false) :
    Section g (.enter model maxWaiting done) g
  | start {model : String} {maxWaiting : Int} (named : model ≠ "") (enabled : 0 < g.max)
    (runs : g.admissible model = true) : Section g (.enter model maxWaiting false) (g.start model)
  | enqueue {model : String} {maxWaiting : Int} (enabled : 0 < g.max)
    (waits : g.admissible model = false) :
    Section g (.enter model maxWaiting false) (g.enqueue model)
  | gone {id : Nat} : Section g (.leave id) g
  | ended {c : GateCall} {a : Label} (mem : c ∈ g.calls) (own : a = .leave c.id ∨ a = .cancel c.id) :
    Section g a (g.endCall c)
  | givesUp {w : GateWaiter} (mem : w ∈ g.waiters) :
    Section g (.cancel w.id) (g.unqueue w).admitHeads
  | setLimit {maxModels maxWait : Int} :
    Section g (.setLimit maxModels maxWait) (g.setLimits maxModels maxWait).admitHeads
  | tick {d : Nat} : Section g (.tick d) { g with now := g.now + d }

theorem section_step {a : Label} (h : g.step a = some g') : g.Section a g' := by
  cases a with
  | enter model maxWaiting done =>
    cases h
    unfold enter
    split
    · next hempty => exact .refused fun hne => absurd hempty hne
    next hne =>
    split
    · next hmax => exact .refused fun _ hpos => absurd hmax (Int.not_le.mpr hpos)
    next hmax =>
    split
    · next hdone => exact .refused fun _ _ hd => by simp [hd] at hdone
    next hdone =>
    obtain rfl := Bool.not_eq_true _ |>.mp hdone
    split
    · next hruns => exact .start hne (Int.not_le.mp hmax) hruns
    · next hwaits =>
      have hwaits := Bool.not_eq_true _ |>.mp hwaits
      split
      · exact .refused fun _ _ _ => hwaits
      · exact .enqueue (Int.not_le.mp hmax) hwaits
  | leave id =>
    cases h
    unfold leave
    split
    · exact .gone
    · next hc =>
      obtain ⟨hm, rfl⟩ := mem_of_callOf hc
      exact .ended hm (.inl rfl)
  | cancel id =>
    simp only [step, cancel] at h
    split at h
    · next hc =>
      cases h
      obtain ⟨hm, rfl⟩ := mem_of_callOf hc
      exact .ended hm (.inr rfl)
    · obtain ⟨w, hw, he⟩ := Option.map_eq_some_iff.mp h
      cases he
      obtain rfl : w.id = id := by simpa using List.find?_some hw
      exact .givesUp (List.mem_of_find?_eq_some hw)
  | setLimit => cases h; exact .setLimit
  | tick => cases h; exact .tick

theorem step_moves {a : Label} (h : g.step a = some g') : ∃ g₀, Retunes g a g₀ ∧ Moves g₀ g' := by
  cases section_step h with
  | refused | gone => exact ⟨g, .same, .refl⟩
  | start _ henabled hruns => exact ⟨g, .same, .single (.start henabled hruns)⟩
  | enqueue henabled hwaits => exact ⟨g, .same, .single (.enqueue henabled hwaits)⟩
  | ended hm => exact ⟨g, .same, moves_endCall hm⟩
  | givesUp hm => exact ⟨g, .same, .head (.unqueue hm) (moves_admitHeads _)⟩
  | setLimit => exact ⟨_, .setLimit, moves_admitHeads _⟩
  | tick => exact ⟨g, .same, .single (.tick _)⟩

end ModelGate

end Loomcycle.Concurrency
