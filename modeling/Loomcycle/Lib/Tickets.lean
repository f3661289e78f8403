import Mathlib.Data.List.Perm.Basic

/-! Queues seen through the numbers they give out. A queue serves some of its numbers and lets
the others wait; whoever holds a number claims it. When every number is claimed by one holder,
whatever is served or waits in the queue can be traced to the one who is behind it. -/

namespace Loomcycle.Lib

/-- The numbers that were given out and not taken back. -/
structure Tickets where
  served : List Nat
  waiting : List Nat

/-- A holder's number; `served` if the holder relies on being served. -/
structure Claim where
  number : Nat
  served : Bool
  deriving DecidableEq, Repr

namespace Tickets

variable {α : Type*} {t t' t'' : Tickets} {i : Nat}

def all (t : Tickets) : List Nat := t.served ++ t.waiting

/-- Waiting numbers may be served, and nothing else happens. -/
structure Serves (t t' : Tickets) : Prop where
  all : t.all.Perm t'.all
  served : t.served ⊆ t'.served

/-- A number is given out, too. -/
structure Adds (t : Tickets) (i : Nat) (t' : Tickets) : Prop where
  all : (i :: t.all).Perm t'.all
  served : t.served ⊆ t'.served

/-- A number is taken back, too. -/
structure Drops (t : Tickets) (i : Nat) (t' : Tickets) : Prop where
  all : t.all.Perm (i :: t'.all)
  served : ∀ j ∈ t.served, j ≠ i → j ∈ t'.served

theorem Serves.refl (t : Tickets) : t.Serves t := ⟨.refl _, List.Subset.refl _⟩

theorem Serves.trans (h : t.Serves t') (h' : t'.Serves t'') : t.Serves t'' :=
  ⟨h.all.trans h'.all, List.Subset.trans h.served h'.served⟩

theorem Adds.after (h : t'.Adds i t'') (h' : t.Serves t') : t.Adds i t'' :=
  ⟨(h'.all.cons i).trans h.all, List.Subset.trans h'.served h.served⟩

theorem Drops.before (h : t.Drops i t') (h' : t'.Serves t'') : t.Drops i t'' :=
  ⟨h.all.trans (h'.all.cons i), fun j hj hne => h'.served (h.served j hj hne)⟩

theorem adds_served (hs : t'.served = t.served ++ [i]) (hw : t'.waiting = t.waiting) :
    t.Adds i t' ∧ i ∈ t'.served := by
  refine ⟨⟨?_, ?_⟩, ?_⟩
  · rw [Tickets.all, Tickets.all, hs, hw, List.append_assoc]
    exact List.perm_middle.symm
  · rw [hs]
    exact List.subset_append_left _ _
  · rw [hs]
    exact List.mem_append_right _ List.mem_cons_self

theorem adds_waiting (hs : t'.served = t.served) (hw : t'.waiting.Perm (i :: t.waiting)) :
    t.Adds i t' := by
  refine ⟨?_, hs ▸ List.Subset.refl _⟩
  rw [Tickets.all, Tickets.all, hs]
  exact ((hw.append_left _).trans List.perm_middle).symm

theorem drops_served (hs : t.served.Perm (i :: t'.served)) (hw : t'.waiting = t.waiting) :
    t.Drops i t' := by
  refine ⟨?_, fun j hj hne => (List.mem_cons.mp (hs.mem_iff.mp hj)).resolve_left hne⟩
  rw [Tickets.all, Tickets.all, hw]
  exact hs.append_right _

theorem drops_waiting (hs : t'.served = t.served) (hw : t.waiting.Perm (i :: t'.waiting)) :
    t.Drops i t' := by
  refine ⟨?_, fun j hj _ => hs ▸ hj⟩
  rw [Tickets.all, Tickets.all, hs]
  exact (hw.append_left _).trans List.perm_middle

/-! ## Holders -/

/-- Each number is claimed by one holder, and who relies on being served is. -/
structure Owned (claim : α → Option Claim) (xs : List α) (t : Tickets) : Prop where
  all : (xs.filterMap fun x => (claim x).map Claim.number).Perm t.all
  served : ∀ x ∈ xs, ∀ c ∈ claim x, c.served = true → c.number ∈ t.served

namespace Owned

variable {claim : α → Option Claim} {xs ys rest : List α} {x x' : α} {c : Claim}

theorem cons (h : Owned claim rest t) (hx : claim x = none) : Owned claim (x :: rest) t where
  all := by
    rw [List.filterMap_cons, hx]
    exact h.all
  served y hy c hc := by
    rcases List.mem_cons.mp hy with rfl | hy
    · rw [hx] at hc; cases hc
    · exact h.served y hy c hc

section

variable (h : Owned claim xs t)
include h

theorem perm (hp : xs.Perm ys) : Owned claim ys t where
  all := (hp.filterMap _).symm.trans h.all
  served y hy := h.served y (hp.mem_iff.mpr hy)

theorem mem (hx : x ∈ xs) (hc : claim x = some c) : c.number ∈ t.all :=
  h.all.mem_iff.mp (List.mem_filterMap.mpr ⟨x, hx, by rw [hc]; rfl⟩)

theorem owner (hi : i ∈ t.all) :
    ∃ x ∈ xs, ∃ c, claim x = some c ∧ c.number = i := by
  obtain ⟨x, hx, hnumber⟩ := List.mem_filterMap.mp (h.all.mem_iff.mpr hi)
  obtain ⟨c, hclaim, he⟩ := Option.map_eq_some_iff.mp hnumber
  exact ⟨x, hx, c, hclaim, he⟩

theorem serves (ht : t.Serves t') : Owned claim xs t' where
  all := h.all.trans ht.all
  served x hx c hc hs := ht.served (h.served x hx c hc hs)

end

variable (h : Owned claim (x :: rest) t)
include h

/-- A holder goes on with the number it had, and may come to rely on being served. -/
theorem keep
    (hnumber : (claim x').map Claim.number = (claim x).map Claim.number)
    (hserved : ∀ c ∈ claim x', c.served = true → c.number ∈ t.served) :
    Owned claim (x' :: rest) t where
  all := by
    have hall := h.all
    rw [List.filterMap_cons] at hall ⊢
    rw [hnumber]
    exact hall
  served := List.forall_mem_cons.mpr ⟨hserved, (List.forall_mem_cons.mp h.served).2⟩

theorem same (hclaim : claim x' = claim x) :
    Owned claim (x' :: rest) t :=
  h.keep (by rw [hclaim]) fun c hc => h.served x List.mem_cons_self c (hclaim ▸ hc)

theorem tail (hx : claim x = none) : Owned claim rest t where
  all := by
    have hall := h.all
    rw [List.filterMap_cons, hx] at hall
    exact hall
  served y hy := h.served y (List.mem_cons_of_mem x hy)

/-- A holder is given a number. -/
theorem take (hx : claim x = none) (ht : t.Adds i t')
    (hx' : claim x' = some c) (hi : c.number = i) (hs : c.served = true → i ∈ t'.served) :
    Owned claim (x' :: rest) t' where
  all := by
    rw [List.filterMap_cons, hx']
    change (c.number :: _).Perm _
    rw [hi]
    exact ((h.tail hx).all.cons i).trans ht.all
  served y hy d hd hsd := by
    rcases List.mem_cons.mp hy with rfl | hy
    · rw [hx'] at hd
      cases hd
      rw [hi]
      exact hs hsd
    · exact ht.served (h.served y (List.mem_cons_of_mem x hy) d hd hsd)

/-- A holder's number is taken back. -/
theorem drop (hn : t.all.Nodup) (hx : claim x = some c)
    (ht : t.Drops c.number t') (hx' : claim x' = none) : Owned claim (x' :: rest) t' := by
  have hall := h.all
  rw [List.filterMap_cons, hx] at hall
  have hrest := (List.perm_cons _).mp (hall.trans ht.all)
  refine cons ⟨hrest, fun y hy d hd hs => ?_⟩ hx'
  refine ht.served _ (h.served y (List.mem_cons_of_mem x hy) d hd hs) fun he => ?_
  -- another holder of the same number would make it occur twice
  have hnodup := hall.nodup_iff.mpr hn
  refine (List.nodup_cons.mp hnodup).1 (List.mem_filterMap.mpr ⟨y, hy, ?_⟩)
  rw [show claim y = some d from hd, Option.map_some, he]

end Owned

/-! ## Many queues -/

section Shared

variable {κ : Type*} [DecidableEq κ]

/-- What `x` claims of the queue `k`. -/
def claimAt (queue : α → Option κ) (claim : α → Option Claim) (k : κ) (x : α) : Option Claim :=
  if queue x = some k then claim x else none

/-- Each holder stands in one of several queues, if it claims a number at all. -/
structure Shared (queue : α → Option κ) (claim : α → Option Claim) (xs : List α)
    (t : κ → Tickets) : Prop where
  owned : ∀ k, Owned (claimAt queue claim k) xs (t k)
  placed : ∀ x ∈ xs, claim x ≠ none → queue x ≠ none

variable {queue : α → Option κ} {claim : α → Option Claim} {xs ys rest : List α} {x x' : α}
  {c c' : Claim} {k : κ} {ts : κ → Tickets}

theorem claimAt_eq_some :
    claimAt queue claim k x = some c ↔ queue x = some k ∧ claim x = some c := by
  unfold claimAt
  split <;> simp [*]

theorem claimAt_of_none (h : claim x = none) (k : κ) : claimAt queue claim k x = none := by
  rw [claimAt, h, ite_self]

theorem claimAt_of_queue (h : queue x = some k) : claimAt queue claim k x = claim x :=
  if_pos h

theorem claimAt_of_ne {k' : κ} (h : queue x = some k) (hne : k' ≠ k) :
    claimAt queue claim k' x = none :=
  if_neg fun he => hne (Option.mem_unique he h)

namespace Shared

theorem cons (h : Shared queue claim rest ts) (hx : claim x = none) :
    Shared queue claim (x :: rest) ts :=
  ⟨fun k => (h.owned k).cons (claimAt_of_none hx k),
    List.forall_mem_cons.mpr ⟨fun hne => absurd hx hne, h.placed⟩⟩

section

variable (h : Shared queue claim xs ts)
include h

theorem perm (hp : xs.Perm ys) : Shared queue claim ys ts :=
  ⟨fun k => (h.owned k).perm hp, fun y hy => h.placed y (hp.mem_iff.mpr hy)⟩

/-- Something happens in one queue. -/
theorem update
    (hk : Owned (claimAt queue claim k) ys t)
    (hother : ∀ k', k' ≠ k → Owned (claimAt queue claim k') xs (ts k') →
      Owned (claimAt queue claim k') ys (ts k'))
    (hplaced : ∀ y ∈ ys, claim y ≠ none → queue y ≠ none) :
    Shared queue claim ys (Function.update ts k t) := by
  refine ⟨fun k' => ?_, hplaced⟩
  by_cases hk' : k' = k
  · subst hk'
    rw [Function.update_self]
    exact hk
  · rw [Function.update_of_ne hk']
    exact hother k' hk' (h.owned k')

theorem serves (ht : (ts k).Serves t) :
    Shared queue claim xs (Function.update ts k t) :=
  h.update ((h.owned k).serves ht) (fun _ _ => id) h.placed

/-- Who relies on being served is. -/
theorem mem_served (hx : x ∈ xs) (hk : queue x = some k)
    (hc : claim x = some c) (hs : c.served = true) : c.number ∈ (ts k).served :=
  (h.owned k).served x hx c ((claimAt_of_queue hk).trans hc) hs

theorem mem (hx : x ∈ xs) (hk : queue x = some k)
    (hc : claim x = some c) : c.number ∈ (ts k).all :=
  (h.owned k).mem hx ((claimAt_of_queue hk).trans hc)

/-- Behind every number there is a holder. -/
theorem owner (hi : i ∈ (ts k).all) :
    ∃ x ∈ xs, queue x = some k ∧ ∃ c, claim x = some c ∧ c.number = i := by
  obtain ⟨x, hx, c, hc, he⟩ := (h.owned k).owner hi
  obtain ⟨hk, hclaim⟩ := claimAt_eq_some.mp hc
  exact ⟨x, hx, hk, c, hclaim, he⟩

end

variable (h : Shared queue claim (x :: rest) ts)
include h

theorem head (hx' : claim x' ≠ none → queue x' ≠ none) :
    ∀ y ∈ x' :: rest, claim y ≠ none → queue y ≠ none :=
  List.forall_mem_cons.mpr ⟨hx', (List.forall_mem_cons.mp h.placed).2⟩

/-- A holder goes on as it was. -/
theorem same (hqueue : queue x' = queue x)
    (hclaim : claim x' = claim x) : Shared queue claim (x' :: rest) ts := by
  refine ⟨fun k => (h.owned k).same ?_, h.head ?_⟩
  · rw [claimAt, claimAt, hqueue, hclaim]
  · rw [hqueue, hclaim]
    exact h.placed x List.mem_cons_self

/-- A holder that claims nothing may turn to another queue. -/
theorem turn (hx : claim x = none) (hx' : claim x' = none) :
    Shared queue claim (x' :: rest) ts :=
  ⟨fun k => ((h.owned k).tail (claimAt_of_none hx k)).cons (claimAt_of_none hx' k),
    h.head fun hne => absurd hx' hne⟩

/-- A holder has found that it is served. -/
theorem served (hqueue : queue x' = queue x)
    (hk : queue x = some k) (hx : claim x = some c) (hx' : claim x' = some c')
    (hnumber : c'.number = c.number) (hserved : c.number ∈ (ts k).served) :
    Shared queue claim (x' :: rest) ts := by
  refine ⟨fun k' => ?_, h.head fun _ => by rw [hqueue, hk]; exact Option.some_ne_none k⟩
  by_cases hne : k' = k
  · subst hne
    have hat : claimAt queue claim k' x = claim x := claimAt_of_queue hk
    have hat' : claimAt queue claim k' x' = claim x' := claimAt_of_queue (hqueue.trans hk)
    refine (h.owned k').keep (by rw [hat, hat', hx, hx']; simp [hnumber]) fun d hd _ => ?_
    rw [hat', hx'] at hd
    cases hd
    rw [hnumber]
    exact hserved
  · exact (h.owned k').same
      ((claimAt_of_ne (hqueue.trans hk) hne).trans (claimAt_of_ne hk hne).symm)

theorem take (hx : claim x = none)
    (ht : (ts k).Adds i t) (hk : queue x' = some k) (hx' : claim x' = some c)
    (hi : c.number = i) (hs : c.served = true → i ∈ t.served) :
    Shared queue claim (x' :: rest) (Function.update ts k t) := by
  refine h.update ?_ (fun k' hne ho => ?_) (h.head fun _ => by rw [hk]; exact Option.some_ne_none k)
  · exact (h.owned k).take (claimAt_of_none hx k) ht ((claimAt_of_queue hk).trans hx') hi hs
  · exact (ho.tail (claimAt_of_none hx k')).cons (claimAt_of_ne hk hne)

theorem drop (hn : (ts k).all.Nodup)
    (hk : queue x = some k) (hx : claim x = some c) (ht : (ts k).Drops c.number t)
    (hx' : claim x' = none) : Shared queue claim (x' :: rest) (Function.update ts k t) := by
  refine h.update ?_ (fun k' hne ho => ?_) (h.head fun hne => absurd hx' hne)
  · exact (h.owned k).drop hn ((claimAt_of_queue hk).trans hx) ht (claimAt_of_none hx' k)
  · exact (ho.tail (claimAt_of_ne hk hne)).cons (claimAt_of_none hx' k')

end Shared

end Shared

end Tickets

end Loomcycle.Lib
