import Mathlib.Logic.Relation

/-! Executable transition systems: a partial step function on states and labels,
its runs, and the one induction every safety proof over whole runs uses. A run
carries a side condition on the state and label of each step, so that a result
about runs restricted to some of the operations is the same theorem at another
condition. -/

namespace Loomcycle.Lib.Transition

variable {σ α : Type*}

/-- Runs of `step` whose every step meets `P`. -/
inductive Run (step : σ → α → Option σ) (P : σ → α → Prop) : σ → σ → Prop
  | refl (s : σ) : Run step P s s
  | tail {s t u : σ} {a : α} : Run step P s t → P t a → step t a = some u → Run step P s u

/-- Every step is allowed. -/
def Any (_ : σ) (_ : α) : Prop := True

variable {step : σ → α → Option σ} {s t : σ} {P Q : σ → α → Prop}

/-- What one step preserves, a whole run preserves. -/
theorem Run.invariant {I : σ → Prop} (hstep : ∀ s a t, I s → P s a → step s a = some t → I t)
    (h : Run step P s t) (hs : I s) : I t := by
  induction h with
  | refl => exact hs
  | tail _ hp he ih => exact hstep _ _ _ ih hp he

theorem Run.mono (hPQ : ∀ s a, P s a → Q s a) (h : Run step P s t) : Run step Q s t := by
  induction h with
  | refl => exact .refl _
  | tail _ hp he ih => exact .tail ih (hPQ _ _ hp) he

theorem Run.trans {u : σ} (h : Run step P s t) (h' : Run step P t u) : Run step P s u := by
  induction h' with
  | refl => exact h
  | tail _ hp he ih => exact .tail ih hp he

/-- Execute a list of labels. -/
def exec (step : σ → α → Option σ) : σ → List α → Option σ
  | s, [] => some s
  | s, a :: rest => (step s a).bind fun t => exec step t rest

/-- An executed list of labels is a run, when every label is allowed everywhere. -/
theorem run_of_exec {l : List α} (hP : ∀ a ∈ l, ∀ u, P u a) (h : exec step s l = some t) :
    Run step P s t := by
  induction l generalizing s with
  | nil => cases h; exact .refl _
  | cons a rest ih =>
    simp only [exec] at h
    cases he : step s a with
    | none => rw [he] at h; cases h
    | some u =>
      rw [he] at h
      have hrun := ih (fun b hb => hP b (List.mem_cons_of_mem _ hb)) h
      exact .trans (.tail (.refl _) (hP a List.mem_cons_self s) he) hrun

/-- A run to a state with `p`, from an executed list of labels that are allowed everywhere. -/
theorem exists_run_of_exec (step : σ → α → Option σ) (s : σ) (l : List α) {p : σ → Prop}
    [DecidablePred p] (hP : ∀ a ∈ l, ∀ u, P u a)
    (h : (exec step s l).any (fun t => decide (p t)) = true) : ∃ t, Run step P s t ∧ p t := by
  obtain ⟨t, ht, hp⟩ := (Option.any_eq_true _ _).mp h
  exact ⟨t, run_of_exec hP ht, of_decide_eq_true hp⟩

theorem exists_run (step : σ → α → Option σ) (s : σ) (l : List α) {p : σ → Prop} [DecidablePred p]
    (h : (exec step s l).any (fun t => decide (p t)) = true) : ∃ t, Run step Any s t ∧ p t :=
  exists_run_of_exec step s l (fun _ _ _ => trivial) h

/-- `step`, refusing the labels that do not meet `P`. -/
def guarded (step : σ → α → Option σ) (P : σ → α → Prop) [∀ s a, Decidable (P s a)] (s : σ)
    (a : α) : Option σ :=
  if P s a then step s a else none

theorem Run.of_guarded [∀ s a, Decidable (P s a)] (h : Run (guarded step P) Q s t) :
    Run step P s t := by
  induction h with
  | refl => exact .refl _
  | tail _ _ he ih =>
    rw [guarded] at he
    split at he
    · next hp => exact .tail ih hp he
    · cases he

theorem exists_run_guarded (step : σ → α → Option σ) (P : σ → α → Prop)
    [∀ s a, Decidable (P s a)] (s : σ) (l : List α) {p : σ → Prop} [DecidablePred p]
    (h : (exec (guarded step P) s l).any (fun t => decide (p t)) = true) :
    ∃ t, Run step P s t ∧ p t :=
  have ⟨t, hrun, hp⟩ := exists_run (guarded step P) s l h
  ⟨t, hrun.of_guarded, hp⟩

/-! ## Moves without labels -/

/-- What one move preserves, any number of moves preserves. -/
theorem moves_invariant {move : σ → σ → Prop} (h : Relation.ReflTransGen move s t)
    {I : σ → Prop} (hmove : ∀ {s t}, I s → move s t → I t) (hs : I s) : I t := by
  induction h with
  | refl => exact hs
  | tail _ hm ih => exact hmove ih hm

end Loomcycle.Lib.Transition
