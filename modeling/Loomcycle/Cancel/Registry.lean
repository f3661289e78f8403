import Loomcycle.Lib.Transition
import Mathlib.Tactic.SplitIfs

/-! The in-memory registry that maps an agent id to the cancel function of the run that
holds it. Every method runs its map accesses under one lock and calls cancel functions
outside it, so a cancel is several steps: it takes its root out, fires it, and then, parent
by parent, takes the children out in one section and fires them one at a time. Other
methods' sections fall between any two of these. -/

namespace Loomcycle.Cancel
/-- One row of the registry. A cancel function is named by the run whose context it
cancels: a run has one, and no two runs share it. -/
structure Entry where
  agentID : String
  runID : String
  parentAgentID : String
  cancelFn : Nat
deriving DecidableEq, Repr

inductive RegisterError
  | agentIDRequired
  | errInUse
deriving DecidableEq, Repr

def RegisterError.message : RegisterError → String
  | .agentIDRequired => "registry: agent_id is required"
  | .errInUse => "agent_id already registered"

/-- A `cancelLocal` past its first section. `firing` holds the entries already taken out
of the map whose cancel functions are still to be called, `queue` the parents still to be
walked, `cascaded` the agent ids fired so far. `seen` records what the map held when the
root was taken out. -/
structure CancelCall where
  root : Entry
  seen : List Entry
  firing : List Entry
  queue : List String
  cascaded : List String
deriving DecidableEq, Repr

/-- The ids whose children this call has yet to collect. -/
def CancelCall.pending (c : CancelCall) : List String :=
  c.queue ++ c.firing.map Entry.agentID

/-- The loop of the cascade is over. -/
def CancelCall.returned (c : CancelCall) : Bool :=
  c.firing.isEmpty && c.queue.isEmpty

/-- Call the next cancel function. The root's id opens the queue; a child is reported as
cascaded as well. -/
def CancelCall.fire (c : CancelCall) (e : Entry) (rest : List Entry) : CancelCall :=
  { c with
    firing := rest
    queue := c.queue ++ [e.agentID]
    cascaded := if e.cancelFn = c.root.cancelFn then c.cascaded
      else c.cascaded ++ [e.agentID] }

/-- The map, and beside it the cancels in progress. The last three fields record what
happened: the runs that registered, those that called `Deregister`, and the cancel
functions in the order they were called. -/
structure Registry where
  entries : List Entry := []
  cancels : List CancelCall := []
  registered : List Entry := []
  ended : List Nat := []
  fired : List Nat := []
deriving DecidableEq, Repr

namespace Registry

def get (s : Registry) (agentID : String) : Option Entry :=
  s.entries.find? (·.agentID = agentID)

/-- `delete(r.entries, agentID)` -/
def delete (s : Registry) (agentID : String) : List Entry :=
  s.entries.filter (·.agentID ≠ agentID)

def register (s : Registry) (e : Entry) : Except RegisterError Registry :=
  if e.agentID = "" then .error .agentIDRequired
  else if (s.get e.agentID).isSome then .error .errInUse
  else .ok { s with entries := e :: s.entries, registered := e :: s.registered }

/-- `Deregister`, called by the run that registered `e`. -/
def deregister (s : Registry) (e : Entry) : Registry :=
  { s with entries := s.delete e.agentID, ended := e.cancelFn :: s.ended }

/-- The first section of `cancelLocal`: a miss changes nothing. -/
def cancelLocal (s : Registry) (agentID onlyRunID : String) : Registry :=
  match s.get agentID with
  | none => s
  | some root =>
    if onlyRunID ≠ "" ∧ root.runID ≠ onlyRunID then s
    else
      { s with
        entries := s.delete agentID
        cancels := s.cancels ++ [{
          root := root
          seen := s.delete agentID
          firing := [root]
          queue := []
          cascaded := [] }] }

def cancelLocalRun (s : Registry) (agentID runID : String) : Registry :=
  if runID = "" then s else s.cancelLocal agentID runID

/-- The children of `parent`, in an order the map's iteration picks. -/
def children (s : Registry) (parent : String) : List Entry :=
  s.entries.filter (·.parentAgentID = parent)

inductive Label
  | register (e : Entry)
  | deregister (e : Entry)
  /-- `Cancel` and `CancelLocal`: they differ on a miss, where the former asks the other
  replicas, which leaves this registry as it is. -/
  | cancel (agentID : String)
  | cancelLocalRun (agentID runID : String)
  /-- The cancel at position `i` calls its next cancel function. -/
  | fire (i : Nat)
  /-- The cancel at position `i` collects the children of the next parent. -/
  | walk (i : Nat) (found : List Entry)
deriving DecidableEq, Repr

/-- The sections of a cancel that has hit. -/
def Label.serves : Label → Bool
  | .fire _ | .walk _ _ => true
  | _ => false

/-- One step. A run registers at most once, and calls `Deregister` once, after that. -/
def step (s : Registry) : Label → Option Registry
  | .register e =>
    if e.cancelFn ∈ s.registered.map Entry.cancelFn then none
    else match s.register e with
      | .error _ => some s
      | .ok s' => some s'
  | .deregister e =>
    if e ∈ s.registered ∧ e.cancelFn ∉ s.ended then some (s.deregister e) else none
  | .cancel agentID => some (s.cancelLocal agentID "")
  | .cancelLocalRun agentID runID => some (s.cancelLocalRun agentID runID)
  | .fire i =>
    match s.cancels[i]? with
    | none => none
    | some c =>
      match c.firing with
      | [] => none
      | e :: rest =>
        some { s with
          cancels := s.cancels.set i (c.fire e rest)
          fired := s.fired ++ [e.cancelFn] }
  | .walk i found =>
    match s.cancels[i]? with
    | none => none
    | some c =>
      match c.firing, c.queue with
      | [], parent :: rest =>
        if found.Perm (s.children parent) then
          some { s with
            entries := s.entries.filter (·.parentAgentID ≠ parent)
            cancels := s.cancels.set i { c with firing := found, queue := rest } }
        else none
      | _, _ => none

/-- What a step does when it changes anything. -/
inductive Effect (s : Registry) : Label → Registry → Prop
  | register {e : Entry} (hfresh : e.cancelFn ∉ s.registered.map Entry.cancelFn)
      (hid : s.get e.agentID = none) :
      Effect s (.register e)
        { s with entries := e :: s.entries, registered := e :: s.registered }
  | deregister {e : Entry} (hreg : e ∈ s.registered) (hend : e.cancelFn ∉ s.ended) :
      Effect s (.deregister e) (s.deregister e)
  | hit {a : Label} {root : Entry} (ha : a.serves = false)
      (hget : s.get root.agentID = some root) :
      Effect s a { s with
        entries := s.delete root.agentID
        cancels := s.cancels ++ [⟨root, s.delete root.agentID, [root], [], []⟩] }
  | fire {i : Nat} {c : CancelCall} {e : Entry} {rest : List Entry}
      (hc : s.cancels[i]? = some c) (hf : c.firing = e :: rest) :
      Effect s (.fire i) { s with
        cancels := s.cancels.set i (c.fire e rest)
        fired := s.fired ++ [e.cancelFn] }
  | walk {i : Nat} {c : CancelCall} {parent : String} {rest : List String} {found : List Entry}
      (hc : s.cancels[i]? = some c) (hf : c.firing = []) (hq : c.queue = parent :: rest)
      (hfound : found.Perm (s.children parent)) :
      Effect s (.walk i found) { s with
        entries := s.entries.filter (·.parentAgentID ≠ parent)
        cancels := s.cancels.set i { c with firing := found, queue := rest } }

/-- A step changes nothing or has one of the five effects. -/
theorem effect_of_step {s s' : Registry} {a : Label} (h : step s a = some s') :
    s' = s ∨ Effect s a s' := by
  have hcancel : ∀ (b : Label) (agentID onlyRunID : String), b.serves = false →
      s.cancelLocal agentID onlyRunID = s' → s' = s ∨ Effect s b s' := by
    rintro b agentID onlyRunID hb rfl
    rw [cancelLocal]
    cases hget : s.get agentID with
    | none => exact .inl rfl
    | some root =>
      have hid : root.agentID = agentID := by simpa using List.find?_some hget
      dsimp only
      split
      · exact .inl rfl
      · rw [← hid] at hget ⊢
        exact .inr (.hit hb hget)
  cases a <;> rw [step] at h
  case register e =>
    split at h
    · cases h
    next hfresh =>
    rw [register] at h
    split_ifs at h with hempty hused
    · exact .inl (Option.some.inj h).symm
    · exact .inl (Option.some.inj h).symm
    · cases h
      exact .inr (.register hfresh (by simpa using hused))
  case deregister e =>
    split_ifs at h with hown
    cases h
    exact .inr (.deregister hown.1 hown.2)
  case cancel agentID => exact hcancel _ agentID "" rfl (Option.some.inj h)
  case cancelLocalRun agentID runID =>
    have heq : s.cancelLocalRun agentID runID = s' := Option.some.inj h
    rw [cancelLocalRun] at heq
    split_ifs at heq
    · exact .inl heq.symm
    · exact hcancel _ agentID runID rfl heq
  case fire i =>
    split at h
    · cases h
    · next c hc =>
      split at h
      · cases h
      · next e rest hf =>
        cases h
        exact .inr (.fire hc hf)
  case walk i found =>
    split at h
    · cases h
    next c hc =>
    split at h
    · next parent rest hf hq =>
      split_ifs at h with hfound
      cases h
      exact .inr (.walk hc hf hq hfound)
    · cases h

end Registry

end Loomcycle.Cancel
