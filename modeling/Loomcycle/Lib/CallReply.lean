import Mathlib.Data.List.Chain

/-! Sequences in which some entries ask and the next entry replies: requests and their
responses, calls and their results. An entry asks a list of keys and replies to a list of keys;
a sequence is paired when each entry replies to exactly what the one before it asked, nothing is
replied to at its start and nothing is left open at its end. -/

namespace Loomcycle.Lib.CallReply

variable {α ι : Type*} {asks replies : α → List ι} {May : α → Prop} {l r : List α} {a b : α}

/-- `b` replies to what `a` asks and to nothing else, and is an entry that may reply. -/
structure Replies (asks replies : α → List ι) (May : α → Prop) (a b : α) : Prop where
  asked : replies b ⊆ asks a
  replied : asks a ⊆ replies b
  may : asks a ≠ [] → May b

structure Paired (asks replies : α → List ι) (May : α → Prop) (l : List α) : Prop where
  linked : l.IsChain (Replies asks replies May)
  head : ∀ b ∈ l.head?, replies b = []
  last : ∀ a ∈ l.getLast?, asks a = []

theorem Replies.eq_nil (h : Replies asks replies May a b) (ha : asks a = []) : replies b = [] := by
  have hasked := h.asked
  rw [ha] at hasked
  exact List.subset_nil.mp hasked

namespace Paired

theorem nil : Paired asks replies May [] := ⟨.nil, by simp, by simp⟩

theorem single (ha : asks a = []) (hr : replies a = []) : Paired asks replies May [a] :=
  ⟨.singleton _, by simpa using hr, by simpa using ha⟩

/-- A call and its reply. -/
theorem exchange (ha : replies a = []) (hab : Replies asks replies May a b) (hb : asks b = []) :
    Paired asks replies May [a, b] :=
  ⟨List.isChain_pair.mpr hab, by simpa using ha, by simpa using hb⟩

theorem append (hl : Paired asks replies May l) (hr : Paired asks replies May r) :
    Paired asks replies May (l ++ r) := by
  refine ⟨hl.linked.append hr.linked ?_, ?_, ?_⟩
  · intro x hx y hy
    have hasks := hl.last x hx
    exact ⟨by simp [hr.head y hy], by simp [hasks], fun h => absurd hasks h⟩
  · intro b hb
    rw [List.head?_append, Option.mem_def] at hb
    cases hh : l.head? with
    | none => rw [hh] at hb; exact hr.head b hb
    | some c => rw [hh] at hb; cases hb; exact hl.head b hh
  · intro a ha
    rw [List.getLast?_append, Option.mem_def] at ha
    cases hh : r.getLast? with
    | none => rw [hh] at ha; exact hl.last a ha
    | some c => rw [hh] at ha; cases ha; exact hr.last a hh

/-- Cut before an entry that replies to nothing, a paired sequence stays paired. -/
theorem of_suffix (h : Paired asks replies May l) (hs : r <:+ l)
    (hr : ∀ b ∈ r.head?, replies b = []) : Paired asks replies May r := by
  refine ⟨h.linked.suffix hs, hr, ?_⟩
  intro a ha
  obtain ⟨pre, rfl⟩ := hs
  refine h.last a ?_
  rw [List.getLast?_append, Option.mem_def, Option.mem_def.mp ha]
  rfl

/-- So it does behind an entry that asks nothing. -/
theorem tail (h : Paired asks replies May (a :: l)) (ha : asks a = []) :
    Paired asks replies May l :=
  h.of_suffix (List.suffix_cons _ _) fun _ hb => (h.linked.rel_head? hb).eq_nil ha

end Paired

end Loomcycle.Lib.CallReply
