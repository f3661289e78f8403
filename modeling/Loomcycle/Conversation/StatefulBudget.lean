import Loomcycle.Lib.Transition

/-! The step calls of a stateful run (`loop/stateful.go`). A step is sent again after a fault of the
provider, on the same one or on another, and after a mistake of the model; each has a budget of its
own. -/

namespace Loomcycle.Conversation.Stateful
open Lib.Transition

inductive ErrorClass
  | retryable
  | deprecated
  | other
deriving DecidableEq

/-- The options of a run, with the defaults put in. -/
structure Options where
  maxIter : Nat
  failOnInvalid : Bool
  maxPatchRetries : Nat
  maxSameProviderRetries : Nat
  fallback : Bool
  maxAttempts : Nat
  pinAfterSuccess : Bool

/-- An answer the loop may have to send back. -/
inductive Reply
  | prose (text : String)
  | rejected
  | emptyFinal
  | usable

/-- What a step call comes to. A fault finds the run cancelled or not, and another provider ready to
take the step or not; an accepted step ends the run or not. -/
inductive Label
  | fault (cls : ErrorClass) (cancelled reResolved : Bool)
  | reply (r : Reply) (ends : Bool)

/-- `calls` counts the step calls, `sentBack` how often the step was sent back for the model's
mistakes. -/
structure Loop where
  iter : Nat := 0
  attempt : Int := 0
  sameProviderRetries : Nat := 0
  fallbackAttempts : Nat := 0
  firstStepSucceeded : Bool := false
  ended : Bool := false
  calls : Nat := 0
  sentBack : Nat := 0

namespace Loop

variable (o : Options)

def tryProviderFallback (l : Loop) (cls : ErrorClass) (reResolved : Bool) : Option Loop :=
  if !o.fallback ∨ cls = .other ∨ o.maxAttempts ≤ l.fallbackAttempts ∨
    (o.pinAfterSuccess ∧ l.firstStepSucceeded) ∨ !reResolved then none
  else some { l with fallbackAttempts := l.fallbackAttempts + 1 }

/-- The loop with the step to be sent again, if it is. -/
def recoverStatefulCall (l : Loop) (cls : ErrorClass) (cancelled reResolved : Bool) :
    Option Loop :=
  if cancelled then none
  else if l.sameProviderRetries < o.maxSameProviderRetries ∧ cls = .retryable then
    some { l with sameProviderRetries := l.sameProviderRetries + 1 }
  else (tryProviderFallback o l cls reResolved).map ({ · with sameProviderRetries := 0 })

/-- The next pass of the inner loop. -/
def continue_ (l : Loop) : Loop := { l with attempt := l.attempt + 1 }

def sendBack (l : Loop) : Loop := { l with sentBack := l.sentBack + 1 }.continue_

def stop (l : Loop) : Loop := { l with ended := true }

def accept (l : Loop) (ends : Bool) : Loop :=
  { l with
    iter := l.iter + 1, attempt := 0, sentBack := 0, firstStepSucceeded := true, ended := ends }

def reply (l : Loop) (r : Reply) (ends : Bool) : Loop :=
  let spent := o.failOnInvalid ∨ (o.maxPatchRetries : Int) ≤ l.attempt
  match r with
  | .prose text =>
    if spent then if !o.failOnInvalid ∧ text ≠ "" then l.accept ends else l.stop else l.sendBack
  | .rejected => if spent then l.stop else l.sendBack
  | .emptyFinal => if spent then l.accept ends else l.sendBack
  | .usable => l.accept ends

def step (l : Loop) (a : Label) : Option Loop :=
  if l.ended ∨ o.maxIter ≤ l.iter then none
  else
    let l := { l with calls := l.calls + 1 }
    match a with
    | .fault cls cancelled reResolved =>
      match recoverStatefulCall o l cls cancelled reResolved with
      -- a fault is no attempt
      | some l => some { l with attempt := l.attempt - 1 }.continue_
      | none => some l.stop
    | .reply r ends => some ({ l with sameProviderRetries := 0 }.reply o r ends)

end Loop

/-- The patch-retry budget. -/
def Options.retries (o : Options) : Nat := if o.failOnInvalid then 0 else o.maxPatchRetries

/-- Answers that end a series of retries on one provider: one for each time a step is sent, and one
for each switch to another provider. -/
def Loop.rounds (o : Options) (l : Loop) : Nat :=
  l.iter * (o.retries + 1) + l.sentBack + l.fallbackAttempts

variable {o : Options} {l l' : Loop} {a : Label}

structure Sound (o : Options) (l : Loop) : Prop where
  attempt : l.attempt = l.sentBack
  sent : l.sentBack ≤ o.retries
  room : l.iter * (o.retries + 1) + l.sentBack ≤ o.maxIter * (o.retries + 1)
  same : l.sameProviderRetries ≤ o.maxSameProviderRetries
  fallback : l.fallbackAttempts ≤ o.maxAttempts
  calls : l.ended = false →
    l.calls ≤ (o.maxSameProviderRetries + 1) * l.rounds o + l.sameProviderRetries
  total : l.calls ≤ (o.maxSameProviderRetries + 1) *
    (o.maxIter * (o.retries + 1) + o.maxAttempts + 1)

/-- One call more, in a later round. -/
theorem Sound.call (h : Sound o l) (hl : l.ended = false) {n : Nat} (hn : l.rounds o < n) :
    l.calls + 1 ≤ (o.maxSameProviderRetries + 1) * n := by
  have hcalls := h.calls hl
  have hsame := h.same
  have hround := Nat.mul_le_mul_left (o.maxSameProviderRetries + 1) hn
  rw [Nat.mul_succ] at hround
  omega

/-- A fault ends the run, or the step is sent again, on the same provider or on another. -/
theorem step_fault {cls : ErrorClass} {cancelled reResolved : Bool}
    (h : l.step o (.fault cls cancelled reResolved) = some l') :
    l' = { l with calls := l.calls + 1 }.stop ∨
    (l.sameProviderRetries < o.maxSameProviderRetries ∧ l' = { l with
      calls := l.calls + 1, sameProviderRetries := l.sameProviderRetries + 1 }) ∨
    (l.fallbackAttempts < o.maxAttempts ∧ l' = { l with
      calls := l.calls + 1, fallbackAttempts := l.fallbackAttempts + 1
      sameProviderRetries := 0 }) := by
  simp only [Loop.step, Loop.recoverStatefulCall, Loop.tryProviderFallback] at h
  split at h
  · cases h
  split at h
  · next hrec =>
    cases h
    right
    split at hrec
    · cases hrec
    split at hrec
    · next hsame =>
      cases hrec
      exact .inl ⟨hsame.1, by simp [Loop.continue_]⟩
    split at hrec
    · cases hrec
    · next hgo =>
      cases hrec
      simp only [not_or, Nat.not_le] at hgo
      exact .inr ⟨hgo.2.2.1, by simp [Loop.continue_]⟩
  · cases h
    exact .inl rfl

theorem sound_step (h : Sound o l) (hstep : l.step o a = some l') : Sound o l' := by
  have hnext := hstep
  rw [Loop.step] at hnext
  split at hnext
  · cases hnext
  next hgo =>
  obtain ⟨hl, hiter⟩ : l.ended = false ∧ l.iter < o.maxIter := by simpa using hgo
  have hroom : (l.iter + 1) * (o.retries + 1) ≤ o.maxIter * (o.retries + 1) :=
    Nat.mul_le_mul_right _ hiter
  have hround : l.iter * (o.retries + 1) + l.sentBack < (l.iter + 1) * (o.retries + 1) := by
    have := h.sent
    rw [Nat.succ_mul]
    omega
  have htotal := h.call hl (n := o.maxIter * (o.retries + 1) + o.maxAttempts + 1) (by
    have := h.fallback
    rw [Loop.rounds]
    omega)
  cases a with
  | fault cls cancelled reResolved =>
    obtain rfl | ⟨hsame, rfl⟩ | ⟨hmore, rfl⟩ := step_fault hstep
    · exact { h with calls := fun hended => (Bool.noConfusion hended), total := htotal }
    · exact { h with same := hsame, calls := fun _ => Nat.succ_le_succ (h.calls hl),
                     total := htotal }
    · exact { h with same := Nat.zero_le _, fallback := hmore,
                     calls := fun _ => h.call hl (Nat.lt_succ_self _), total := htotal }
  | reply r ends =>
    cases hnext
    have hstop : Sound o { l with calls := l.calls + 1, sameProviderRetries := 0 }.stop :=
      { h with same := Nat.zero_le _, calls := fun hended => (Bool.noConfusion hended),
               total := htotal }
    have haccept : Sound o
        ({ l with calls := l.calls + 1, sameProviderRetries := 0 }.accept ends) :=
      ⟨rfl, Nat.zero_le _, hroom, Nat.zero_le _, h.fallback,
        fun _ => h.call hl (Nat.add_lt_add_right hround _), htotal⟩
    have hsend (hmore : ¬ (o.failOnInvalid ∨ (o.maxPatchRetries : Int) ≤ l.attempt)) :
        Sound o { l with calls := l.calls + 1, sameProviderRetries := 0 }.sendBack := by
      rw [h.attempt, not_or, Bool.not_eq_true] at hmore
      refine ⟨congrArg (· + 1) h.attempt, ?_, Nat.le_trans hround hroom, Nat.zero_le _, h.fallback,
        fun _ => h.call hl (Nat.add_lt_add_right (Nat.lt_succ_self _) _), htotal⟩
      rw [Options.retries, if_neg (by simp [hmore.1])]
      exact Int.ofNat_lt.mp (Int.not_le.mp hmore.2)
    cases r <;> simp only [Loop.reply] <;> repeat' split
    all_goals first | exact haccept | exact hstop | exact hsend ‹_›

/-- The step calls of a run are bounded by its budgets, a step is sent back no more often than its
budget allows, and a fault takes nothing from that budget. -/
theorem step_calls_bounded (h : Run (Loop.step o) Any {} l) :
    l.calls ≤ (o.maxSameProviderRetries + 1) *
      (o.maxIter * (o.retries + 1) + o.maxAttempts + 1) ∧
    l.sentBack ≤ o.retries ∧
    ∀ cls cancelled reResolved l', l.step o (.fault cls cancelled reResolved) = some l' →
      l'.attempt = l.attempt ∧ l'.sentBack = l.sentBack ∧ l'.iter = l.iter := by
  have hsound : Sound o l := by
    refine h.invariant (fun _ _ _ hs _ hstep => sound_step hs hstep) ⟨rfl, Nat.zero_le _, ?_,
      Nat.zero_le _, Nat.zero_le _, fun _ => Nat.zero_le _, Nat.zero_le _⟩
    rw [Nat.zero_mul]
    exact Nat.zero_le _
  refine ⟨hsound.total, hsound.sent, fun cls cancelled reResolved l' hstep => ?_⟩
  obtain rfl | ⟨-, rfl⟩ | ⟨-, rfl⟩ := step_fault hstep <;> exact ⟨rfl, rfl, rfl⟩

/-- A run of one step with one retry of each kind. -/
theorem step_calls_bounded_one :
    ∃ l, Run (Loop.step ⟨1, false, 1, 1, true, 1, false⟩) Any {} l ∧ l.calls = 5 ∧
      l.calls ≤ (1 + 1) * (1 * (1 + 1) + 1 + 1) ∧ l.sentBack ≤ 1 := by
  obtain ⟨l, hrun, hcalls⟩ := exists_run (Loop.step ⟨1, false, 1, 1, true, 1, false⟩) {}
    [.fault .retryable false false, .fault .retryable false true, .reply .rejected false,
      .fault .retryable false false, .reply .usable true] (p := fun l => l.calls = 5) (by decide)
  obtain ⟨hbound, hsent, -⟩ := step_calls_bounded hrun
  exact ⟨l, hrun, hcalls, hbound, hsent⟩

end Loomcycle.Conversation.Stateful
