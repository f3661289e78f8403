import Loomcycle.Conversation.Loop

/-! A run's entry in the steer registry: a bounded queue that a push on any goroutine fills
and the run's loop reads. Every access runs under the registry's lock, so each function here
is one step. A registry is looked at through one run id: `none` is a run that is not
registered. -/

namespace Loomcycle.Steering
open Conversation

inductive PushError
  | errRunNotFound
  | errQueueFull
deriving DecidableEq, Repr

def PushError.message : PushError → String
  | .errRunNotFound => "steer: no in-flight run for run_id"
  | .errQueueFull => "steer: run input queue full"

def isVerdict : Steer → Bool
  | .approve | .reject _ => true
  | _ => false

structure Entry where
  cap : Nat
  verdictsOnly : Bool
  closed : Bool := false
  ch : List Steer := []
deriving DecidableEq, Repr

namespace Entry

def offer (e : Entry) (m : Steer) : Except PushError Entry :=
  if e.closed || (e.verdictsOnly && !isVerdict m) then .error .errRunNotFound
  else if e.ch.length < e.cap then .ok { e with ch := e.ch ++ [m] }
  else .error .errQueueFull

theorem offer_eq_ok {e e' : Entry} {m : Steer} (h : e.offer m = .ok e') :
    e.closed = false ∧ (e.verdictsOnly = true → isVerdict m = true) ∧
      e' = { e with ch := e.ch ++ [m] } := by
  rw [offer] at h
  split at h
  · cases h
  · next hopen =>
    split at h
    · obtain ⟨hclosed, hverdict⟩ := by simpa using hopen
      exact ⟨hclosed, hverdict, (Except.ok.inj h).symm⟩
    · cases h

theorem offer_of_closed {e : Entry} (h : e.closed = true) (m : Steer) :
    e.offer m = .error .errRunNotFound := by
  rw [offer, h]
  rfl

end Entry

/-- `Push` on a replica without a route to others. -/
def push (r : Option Entry) (m : Steer) : Except PushError Entry :=
  match r with
  | none => .error .errRunNotFound
  | some e => e.offer m

/-- The queue takes the message. -/
def accepts (r : Option Entry) (m : Steer) : Bool :=
  (push r m).toOption.isSome

/-- What `PushLocal` answers. -/
structure LocalAnswer where
  delivered : Bool
  found : Bool
  closed : Bool
deriving DecidableEq, Repr

def pushLocal (r : Option Entry) (m : Steer) : LocalAnswer × Option Entry :=
  match r with
  | none => (⟨false, false, false⟩, none)
  | some e =>
    if e.verdictsOnly && !isVerdict m then (⟨false, false, false⟩, some e)
    else if e.closed then (⟨false, true, true⟩, some e)
    else
      match e.offer m with
      | .ok e' => (⟨true, true, false⟩, some e')
      | .error _ => (⟨false, true, false⟩, some e)

def closeIfEmpty (r : Option Entry) : Bool × Option Entry :=
  match r with
  | none => (true, none)
  | some e =>
    if e.ch ≠ [] then (false, some e)
    else (true, some { e with closed := true })

/-- A local push is delivered exactly when the queue takes the message. -/
theorem pushLocal_cases (r : Option Entry) (m : Steer) :
    (∃ e e', r = some e ∧ e.offer m = .ok e' ∧ pushLocal r m = (⟨true, true, false⟩, some e')) ∨
      (pushLocal r m).1.delivered = false := by
  cases r with
  | none => exact .inr rfl
  | some e =>
    rw [pushLocal]
    split
    · exact .inr rfl
    · split
      · exact .inr rfl
      · cases hoffer : e.offer m with
        | ok e' => exact .inl ⟨e, e', rfl, hoffer, rfl⟩
        | error _ => exact .inr rfl

theorem accepts_of_delivered {r : Option Entry} {m : Steer}
    (h : (pushLocal r m).1.delivered = true) : accepts r m = true := by
  obtain ⟨e, e', rfl, hoffer, -⟩ | hrefused := pushLocal_cases r m
  · rw [accepts, push, hoffer]
    rfl
  · rw [hrefused] at h
    cases h

end Loomcycle.Steering
