import Mathlib.Data.Set.Subsingleton

/-! A pool of numbered processes that arrive one after another and move on their own, and rights
that at most one of several holders has: a step that takes rights away or hands one over leaves
each with at most one holder. -/

namespace Loomcycle.Lib.Pool

section Processes

variable {α : Type*} {l : List α} {i j : Nat} {p p' q : α}

theorem of_move (h : (l.set i p')[j]? = some q) : j = i ∧ q = p' ∨ j ≠ i ∧ l[j]? = some q := by
  rw [List.getElem?_set] at h
  split at h
  · next hij =>
    split at h
    · exact .inl ⟨hij.symm, (Option.some.inj h).symm⟩
    · cases h
  · next hij => exact .inr ⟨Ne.symm hij, h⟩

theorem move_self (hi : l[i]? = some p) : (l.set i p')[i]? = some p' :=
  List.getElem?_set_self (List.getElem?_eq_some_iff.mp hi).1

theorem of_arrive (h : (l ++ [p])[j]? = some q) :
    j = l.length ∧ q = p ∨ l[j]? = some q := by
  rw [List.getElem?_append] at h
  split at h
  · exact .inr h
  · next hge =>
    rw [List.getElem?_singleton] at h
    split at h
    · exact .inl ⟨by omega, (Option.some.inj h).symm⟩
    · cases h

theorem arrive_of (h : l[j]? = some q) : (l ++ [p])[j]? = some q := by
  rw [List.getElem?_append_left (List.getElem?_eq_some_iff.mp h).1, h]

end Processes

section Rights

variable {β : Type*} {A B : Set β}

/-- From the holders `A` to the holders `B`: some are gone, or one has handed its right over. -/
def Passes (A B : Set β) : Prop :=
  B ⊆ A ∨ ∃ old ∈ A, ∃ new, ∀ x ∈ B, x ∈ A ∧ x ≠ old ∨ x = new

/-- A holder hands over what it has, if it has it. -/
theorem Passes.hand (old new : β) (hnew : new ∈ B → old ∈ A)
    (h : ∀ x ∈ B, x ∈ A ∧ x ≠ old ∨ x = new) : Passes A B := by
  by_cases hmem : new ∈ B
  · exact .inr ⟨old, hnew hmem, new, h⟩
  · refine .inl fun x hx => ?_
    obtain ⟨hA, -⟩ | rfl := h x hx
    · exact hA
    · exact absurd hx hmem

theorem Passes.nonempty (h : Passes A B) (hB : B.Nonempty) : A.Nonempty := by
  rcases h with hsub | ⟨old, hold, -⟩
  · exact hB.mono hsub
  · exact ⟨old, hold⟩

/-- A right that one holder has is passed to one holder. -/
theorem Passes.subsingleton (h : Passes A B) (hA : A.Subsingleton) : B.Subsingleton := by
  rcases h with hsub | ⟨old, hold, new, hnew⟩
  · exact hA.anti hsub
  -- the old holder is gone, so every holder there is has it from the old one
  have honly : ∀ x ∈ B, x = new := by
    intro x hx
    rcases hnew x hx with ⟨hxA, hne⟩ | heq
    · exact absurd (hA hxA hold) hne
    · exact heq
  intro x hx y hy
  rw [honly x hx, honly y hy]

end Rights

end Loomcycle.Lib.Pool
