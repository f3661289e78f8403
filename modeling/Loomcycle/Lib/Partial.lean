import Mathlib.Data.List.Forall2

/-! Reading a partial computation backwards: what a guard that was passed and an updated table say
about the result. -/

namespace Loomcycle.Lib.Partial

variable {κ α : Type*}

theorem of_guard {c : Prop} [Decidable c] {x : Option α} {a : α}
    (h : ((guard c : Option Unit).bind fun _ => x) = some a) : c ∧ x = some a := by
  by_cases hc : c
  · rw [guard, if_pos hc] at h
    exact ⟨hc, h⟩
  · rw [guard, if_neg hc] at h
    cases h

theorem of_bind_guard {β : Type*} {x : Option β} {c : β → Prop} [∀ b, Decidable (c b)]
    {f : β → Option α} {a : α}
    (h : (x.bind fun b => (guard (c b) : Option Unit).bind fun _ => f b) = some a) :
    ∃ b, x = some b ∧ c b ∧ f b = some a := by
  obtain ⟨b, hb, h⟩ := Option.bind_eq_some_iff.mp h
  exact ⟨b, hb, of_guard h⟩

/-- An entry of an updated table is the new one, or an old one at another key. -/
theorem of_update [DecidableEq κ] {f : κ → Option α} {k k' : κ} {o : Option α} {a : α}
    (h : Function.update f k o k' = some a) : (k' = k ∧ o = some a) ∨ (k' ≠ k ∧ f k' = some a) := by
  by_cases hk : k' = k
  · subst hk
    rw [Function.update_self] at h
    exact .inl ⟨rfl, h⟩
  · rw [Function.update_of_ne hk] at h
    exact .inr ⟨hk, h⟩

/-- A map that succeeds does so at every element. -/
theorem forall₂_of_mapM {β : Type*} {f : α → Option β} {l : List α} {l' : List β}
    (h : l.mapM f = some l') : List.Forall₂ (fun a b => f a = some b) l l' := by
  induction l generalizing l' with
  | nil =>
    cases h
    exact .nil
  | cons a l ih =>
    rw [List.mapM_cons, Option.bind_eq_bind, Option.bind_eq_some_iff] at h
    obtain ⟨b, hb, h⟩ := h
    rw [Option.bind_eq_bind, Option.bind_eq_some_iff] at h
    obtain ⟨l'', hl, h⟩ := h
    cases h
    exact .cons hb (ih hl)

end Loomcycle.Lib.Partial
