import Mathlib.Data.List.Basic

/-! Replaying a list of entries onto a state. An entry settles when its own step has run: from
then on taking it again would change nothing, as long as no entry that disturbs it comes after
it. So a second replay right after the first finds every entry settled. -/

namespace Loomcycle.Lib.Replay

variable {σ ε : Type*} {step : σ → ε → σ} {Settled : ε → σ → Prop} {Clear : ε → ε → Prop}
  {l : List ε} {s : σ} {e : ε}

/-- What settled stays so through entries that are clear of it. -/
theorem settled_of_clear (hkeep : ∀ s e e', Settled e s → Clear e e' → Settled e (step s e'))
    (hs : Settled e s) (hclear : ∀ e' ∈ l, Clear e e') : Settled e (l.foldl step s) := by
  induction l generalizing s with
  | nil => exact hs
  | cons e' l ih =>
    have hnext := hkeep s e e' hs (hclear e' List.mem_cons_self)
    exact ih hnext fun e'' he'' => hclear e'' (List.mem_cons_of_mem _ he'')

theorem settled_foldl (Settled : ε → σ → Prop) (hself : ∀ s, ∀ e ∈ l, Settled e (step s e))
    (hkeep : ∀ s e e', Settled e s → Clear e e' → Settled e (step s e'))
    (hclear : l.Pairwise Clear) (s : σ) : ∀ e ∈ l, Settled e (l.foldl step s) := by
  induction l generalizing s with
  | nil => nofun
  | cons e' l ih =>
    obtain ⟨hfirst, hrest⟩ := List.pairwise_cons.mp hclear
    intro e he
    obtain rfl | he := List.mem_cons.mp he
    · rw [List.foldl_cons]
      exact settled_of_clear hkeep (hself s e List.mem_cons_self) hfirst
    · exact ih (fun s e he => hself s e (List.mem_cons_of_mem _ he)) hrest _ e he

/-- Every entry is taken in a state that `P` allows for it. -/
def Along (step : σ → ε → σ) (P : σ → ε → Prop) : List ε → σ → Prop
  | [], _ => True
  | e :: l, s => P s e ∧ Along step P l (step s e)

end Loomcycle.Lib.Replay
