import Loomcycle.Concurrency.Lane
import Loomcycle.Lib.Keyed
import Loomcycle.Lib.Transition

/-! # The moves of a lane

A section of a lane is a sequence of moves: a reservation is dropped, a call starts on a
free slot or on its owner's reservation, a call ends, a call joins or leaves the queue.
Each move says when it is made. What every move keeps, every section keeps, apart from a
change of the config. After a section no waiter that could run is left beside a free slot. -/

namespace Loomcycle.Concurrency
open Lib Lib.RoundRobin

namespace LaneQueue

variable {q q' : LaneQueue} {w : LaneWaiter} {p : LaneWaiter → Bool}

theorem waiters_push (q : LaneQueue) (w : LaneWaiter) :
    (q.push w).waiters.Perm (q.waiters ++ [w]) :=
  q.2.waiters_push w

theorem pop_eq_some (h : q.pop p = some (w, q')) :
    p w = true ∧ q.waiters.Perm (w :: q'.waiters) := by
  unfold pop at h
  split at h
  · cases h
  · next x r hp =>
    cases h
    obtain ⟨hpw, k, l, t⟩ := Rotation.popWhere_took hp
    exact ⟨hpw, t.waiters q.2⟩

theorem pop_eq_none : q.pop p = none ↔ ∀ w ∈ q.waiters, p w = false := by
  rw [waiters, ← Rotation.popWhere_eq_none]
  unfold pop
  split
  · next h => simp [h]
  · next h => simp [h]

theorem hasEligible_eq_false : q.hasEligible p = false ↔ ∀ w ∈ q.waiters, p w = false := by
  simp [hasEligible]

theorem pop_ne_none (h : q.hasEligible p = true) : q.pop p ≠ none := by
  intro hnone
  rw [hasEligible_eq_false.mpr (pop_eq_none.mp hnone)] at h
  cases h

theorem waiters_remove (h : w ∈ q.waiters) : q.waiters.Perm (w :: (q.remove w).waiters) := by
  unfold remove
  split
  · next hr => exact absurd h (q.2.remove_eq_none.mp hr)
  · next r hr =>
    obtain ⟨l, t⟩ := q.2.remove_took hr
    exact t.waiters q.2

theorem remove_of_not_mem (h : w ∉ q.waiters) : q.remove w = q := by
  unfold remove
  split
  · rfl
  · next r hr =>
    rw [q.2.remove_eq_none.mpr h] at hr
    cases hr

theorem mem_of_mem_remove {x : LaneWaiter} (hx : x ∈ (q.remove w).waiters) : x ∈ q.waiters := by
  by_cases hw : w ∈ q.waiters
  · exact (waiters_remove hw).mem_iff.mpr (List.mem_cons_of_mem w hx)
  · rwa [remove_of_not_mem hw] at hx

end LaneQueue

namespace Lane

variable {l l' : Lane} {w : LaneWaiter} {c : CallInfo}

theorem queued_eq (l : Lane) : l.queued = l.waiters.length := by
  rw [queued, waiters, List.length_append, l.fg.2.count, l.bg.2.count]
  rfl

theorem waiters_enqueue (l : Lane) (c : CallInfo) :
    (l.enqueue c).waiters.Perm (⟨l.nextId, c⟩ :: l.waiters) := by
  unfold enqueue waiters
  split
  · refine ((LaneQueue.waiters_push _ _).append_left _).trans ?_
    rw [← List.append_assoc]
    exact List.perm_append_comm
  · refine ((LaneQueue.waiters_push _ _).append_right _).trans ?_
    rw [List.append_assoc]
    exact List.perm_middle

/-- The calls and waiters of the lane. -/
inductive Move (l : Lane) : Lane → Prop
  /-- counters that decide nothing here -/
  | tally (grants preemptions : Int) (bgCredit : ℚ) :
    Move l { l with grants, preemptions, bgCredit }
  | drop {ls : Lease} (mem : ls ∈ l.leases) (idle : ls.busy = false) : Move l (l.dropIdle ls)
  | grant {c : CallInfo} (free : l.active + l.reserved < l.cfg.maxConcurrent)
    (runs : l.modelBlocked c.model = false) :
    Move l ({ l with nextId := l.nextId + 1 }.grant l.nextId c)
  | serve {w : LaneWaiter} {l' : Lane} (free : l.active + l.reserved < l.cfg.maxConcurrent)
    (runs : l.modelBlocked w.info.model = false)
    (frame : l' = { l with fg := l'.fg, bg := l'.bg }) (perm : l.waiters.Perm (w :: l'.waiters))
    (kept : (∀ x ∈ l'.fg.waiters, x ∈ l.fg.waiters) ∧ ∀ x ∈ l'.bg.waiters, x ∈ l.bg.waiters) :
    Move l ((l'.decOwnerQueued w.info.owner).grant w.id w.info)
  | resume {ls : Lease} {c : CallInfo} (mem : ls ∈ l.leases) (idle : ls.busy = false)
    (owner : ls.owner = c.owner) (leased : c.noLease = false)
    (runs : l.modelBlocked c.model = false) : Move l (l.resume ls c)
  /-- the call has no lease, or `Done` ended it -/
  | free {call : LaneCall} (mem : call ∈ l.calls) (none : l.leaseHeld call = none) :
    Move l ((l.endCall call).freeSlot call.slot)
  | forgo {call : LaneCall} {ls : Lease} (mem : call ∈ l.calls)
    (held : l.leaseHeld call = some ls) :
    Move l (((l.endCall call).deleteLease ls.owner).freeSlot call.slot)
  | reserve {call : LaneCall} {ls : Lease} {now : Int} (mem : call ∈ l.calls)
    (held : l.leaseHeld call = some ls) (keeps : (l.endCall call).givesUp call false = false) :
    Move l ((l.endCall call).reserve ls.id now)
  | enqueue {c : CallInfo}
    (waits : l.active + l.reserved < l.cfg.maxConcurrent → l.modelBlocked c.model = true)
    (apart : ∀ ls ∈ l.leases, ls.busy = false → ls.owner = c.owner →
      c.noLease = true ∧ c.background = true) : Move l (l.enqueue c)
  | unqueue {w : LaneWaiter} (mem : w ∈ l.waiters) : Move l (l.unqueue w)
  /-- `Done` while the lease's call is in flight -/
  | forget {ls : Lease} (mem : ls ∈ l.leases) (busy : ls.busy = true) :
    Move l (l.deleteLease ls.owner)

/-- Any number of moves. -/
abbrev Moves : Lane → Lane → Prop := Relation.ReflTransGen Move

/-- Nobody who could run waits beside a free slot. -/
def WorkConserving (l : Lane) : Prop :=
  l.active + l.reserved < l.cfg.maxConcurrent → ∀ w ∈ l.waiters, l.modelBlocked w.info.model = true

/-! ## Dispatch -/

/-- `w` was taken out of the queue of `l`. -/
structure Took (l : Lane) (w : LaneWaiter) (l' : Lane) : Prop where
  runs : l.modelBlocked w.info.model = false
  frame : l' = { l with fg := l'.fg, bg := l'.bg, bgCredit := l'.bgCredit }
  perm : l.waiters.Perm (w :: l'.waiters)
  kept : (∀ x ∈ l'.fg.waiters, x ∈ l.fg.waiters) ∧ ∀ x ∈ l'.bg.waiters, x ∈ l.bg.waiters

theorem popFg_took (h : l.popFg = some (w, l')) : l.Took w l' := by
  obtain ⟨⟨x, q⟩, hp, he⟩ := Option.map_eq_some_iff.mp h
  cases he
  obtain ⟨hel, hperm⟩ := LaneQueue.pop_eq_some hp
  refine ⟨by simpa [eligible] using hel, rfl, hperm.append_right _, fun x hx => ?_, fun _ hx => hx⟩
  exact hperm.mem_iff.mpr (List.mem_cons_of_mem _ hx)

theorem popBg_took (h : l.popBg = some (w, l')) : l.Took w l' := by
  obtain ⟨⟨x, q⟩, hp, he⟩ := Option.map_eq_some_iff.mp h
  cases he
  obtain ⟨hel, hperm⟩ := LaneQueue.pop_eq_some hp
  refine ⟨by simpa [eligible] using hel, rfl, (hperm.append_left _).trans List.perm_middle,
    fun _ hx => hx, fun x hx => ?_⟩
  exact hperm.mem_iff.mpr (List.mem_cons_of_mem _ hx)

theorem popFg_ne_none (h : l.fg.hasEligible l.eligible = true) : l.popFg ≠ none :=
  mt Option.map_eq_none_iff.mp (LaneQueue.pop_ne_none h)

theorem popBg_ne_none (h : l.bg.hasEligible l.eligible = true) : l.popBg ≠ none :=
  mt Option.map_eq_none_iff.mp (LaneQueue.pop_ne_none h)

theorem next_took (h : l.next = some (w, l')) : l.Took w l' := by
  simp only [next] at h
  split at h
  · cases h
  split at h
  · exact popBg_took h
  split at h
  · exact popFg_took h
  · split at h
    · have ht := popBg_took h
      exact ⟨ht.runs, by rw [ht.frame], ht.perm, ht.kept⟩
    · have ht := popFg_took h
      exact ⟨ht.runs, by rw [ht.frame], ht.perm, ht.kept⟩

theorem next_eq_none (h : l.next = none) : ∀ w ∈ l.waiters, l.modelBlocked w.info.model = true := by
  have hnone : ¬ (0 < l.fg.1.n ∧ l.fg.hasEligible l.eligible = true) ∧
      ¬ (0 < l.bg.1.n ∧ l.bg.hasEligible l.eligible = true) := by
    simp only [next] at h
    split at h
    · next hn => exact hn
    next hn =>
    split at h
    · next hfg =>
      have hbg : 0 < l.bg.1.n ∧ l.bg.hasEligible l.eligible = true :=
        Classical.byContradiction fun hbg => hn ⟨hfg, hbg⟩
      exact absurd h (popBg_ne_none hbg.2)
    next hfg =>
    have hfg := Classical.not_not.mp hfg
    split at h
    · exact absurd h (popFg_ne_none hfg.2)
    · next hbg =>
      have hbg := Classical.not_not.mp hbg
      split at h
      · exact absurd h (popBg_ne_none hbg.2)
      · exact absurd h (popFg_ne_none hfg.2)
  have hq : ∀ q : LaneQueue, ¬ (0 < q.1.n ∧ q.hasEligible l.eligible = true) →
      ∀ w ∈ q.waiters, l.modelBlocked w.info.model = true := by
    intro q hq w hw
    have hpos : 0 < q.1.n := by
      rw [q.2.count]
      exact List.length_pos_of_mem hw
    have hfalse := LaneQueue.hasEligible_eq_false.mp
      (Bool.eq_false_iff.mpr fun ht => hq ⟨hpos, ht⟩) w hw
    simpa [eligible] using hfalse
  intro w hw
  rcases List.mem_append.mp hw with hw | hw
  · exact hq l.fg hnone.1 w hw
  · exact hq l.bg hnone.2 w hw

variable {model owner : String} {ls : Lease} {id : Nat} {call : LaneCall}

theorem modelBlocked_eq_true :
    l.modelBlocked model = true ↔
    ∃ c, capFor l.cfg.modelCaps model = some c ∧ c.2 ≤ l.modelInFlight c.1 := by
  unfold modelBlocked
  cases capFor l.cfg.modelCaps model <;> simp

/-- More calls in flight hold back no fewer. -/
theorem modelBlocked_mono (hcfg : l'.cfg.modelCaps = l.cfg.modelCaps)
    (hsub : l.modelActive.Sublist l'.modelActive) (h : l.modelBlocked model = true) :
    l'.modelBlocked model = true := by
  obtain ⟨c, hcap, hn⟩ := modelBlocked_eq_true.mp h
  refine modelBlocked_eq_true.mpr ⟨c, by rw [hcfg]; exact hcap, ?_⟩
  have hle : l.modelInFlight c.1 ≤ l'.modelInFlight c.1 := by
    unfold modelInFlight
    rw [hcfg]
    exact hsub.countP_le
  omega

theorem sublist_startModel (m : List String) (model : String) :
    m.Sublist (startModel m model) := by
  unfold startModel
  split
  · exact .refl m
  · exact List.sublist_append_left m _

/-- Dispatching is a sequence of moves. -/
theorem moves_dispatchLoop (fuel : Nat) (l : Lane) : Moves l (dispatchLoop fuel l) := by
  induction fuel generalizing l with
  | zero => exact .refl
  | succ fuel ih =>
    unfold dispatchLoop
    split
    · next hfree =>
      split
      · exact .refl
      next w l' hnext =>
      have ht := next_took hnext
      -- the credit first, then the waiter
      have htally : Move l { l with bgCredit := l'.bgCredit } := .tally _ _ _
      have hserve : Move { l with bgCredit := l'.bgCredit }
          ((l'.decOwnerQueued w.info.owner).grant w.id w.info) :=
        .serve hfree.1 ht.runs (by rw [ht.frame]) ht.perm ht.kept
      exact (Relation.ReflTransGen.single htally).trans
        (.head hserve (ih _))
    · exact .refl

theorem moves_dispatch (l : Lane) : Moves l l.dispatch := moves_dispatchLoop _ l

theorem workConserving_dispatchLoop {fuel : Nat} (h : l.waiters.length ≤ fuel) :
    (dispatchLoop fuel l).WorkConserving := by
  induction fuel generalizing l with
  | zero =>
    have hnil : l.waiters = [] := List.length_eq_zero_iff.mp (Nat.le_zero.mp h)
    intro _ w hw
    rw [dispatchLoop, hnil] at hw
    cases hw
  | succ fuel ih =>
    unfold dispatchLoop
    split
    · split
      · next hnext => exact fun _ => next_eq_none hnext
      · next w l' hnext =>
        refine ih ?_
        have hlen := (next_took hnext).perm.length_eq
        change l'.waiters.length ≤ fuel
        simp only [List.length_cons] at hlen
        omega
    · next hstop =>
      intro hfree w hw
      rw [queued_eq] at hstop
      exact absurd ⟨hfree, List.length_pos_of_mem hw⟩ hstop

theorem workConserving_dispatch (l : Lane) : l.dispatch.WorkConserving :=
  workConserving_dispatchLoop (Nat.le_of_eq l.queued_eq.symm)

/-! ## Leases by owner -/

/-- One lease for an owner, and none for a call without one. -/
structure Keyed (l : Lane) : Prop where
  owners : (l.leases.map Lease.owner).Nodup
  named : ∀ ls ∈ l.leases, ls.owner ≠ ""

theorem mem_of_leaseOf (h : l.leaseOf owner = some ls) : ls ∈ l.leases ∧ ls.owner = owner :=
  ⟨List.mem_of_find?_eq_some h, by simpa using List.find?_some h⟩

theorem Keyed.leaseOf (h : l.Keyed) (hm : ls ∈ l.leases) : l.leaseOf ls.owner = some ls :=
  Lib.Keyed.find?_key h.owners hm

theorem mem_deleteLease : ls ∈ (l.deleteLease owner).leases ↔ ls ∈ l.leases ∧ ls.owner ≠ owner := by
  simp [deleteLease]

theorem Keyed.delete (h : l.Keyed) (owner : String) : (l.deleteLease owner).Keyed where
  owners := h.owners.sublist (List.filter_sublist.map _)
  named ls hm := h.named ls (mem_deleteLease.mp hm).1

theorem Keyed.set (h : l.Keyed) (id : Nat) {f : Lease → Lease} (hf : ∀ ls, (f ls).owner = ls.owner) :
    (l.setLease id f).Keyed := by
  have howners : (l.setLease id f).leases.map Lease.owner = l.leases.map Lease.owner := by
    rw [setLease, List.map_map]
    refine List.map_congr_left fun ls _ => ?_
    simp only [Function.comp]
    split
    · exact hf ls
    · rfl
  refine ⟨by rw [howners]; exact h.owners, fun ls hm => ?_⟩
  have hm : ls.owner ∈ (l.setLease id f).leases.map Lease.owner := List.mem_map_of_mem hm
  rw [howners] at hm
  obtain ⟨ls', hm', he⟩ := List.mem_map.mp hm
  rw [← he]
  exact h.named ls' hm'

theorem Keyed.grant (h : l.Keyed) (id : Nat) (c : CallInfo) : (l.grant id c).Keyed := by
  unfold Lane.grant
  split
  · next hmay =>
    obtain ⟨⟨⟨hne, -⟩, -⟩, hnone⟩ : ((c.owner ≠ "" ∧ c.noLease = false) ∧
        0 < l.cfg.affinityHold) ∧ l.leaseOf c.owner = none := by simpa [mayLease] using hmay
    have hnot : ∀ ls ∈ l.leases, ls.owner ≠ c.owner := by
      simpa using List.find?_eq_none.mp hnone
    refine ⟨?_, fun ls hm => ?_⟩
    · rw [List.map_append, List.map_singleton, ← List.concat_eq_append]
      refine h.owners.concat fun hmem => ?_
      obtain ⟨ls, hm, howner⟩ := List.mem_map.mp hmem
      exact hnot ls hm howner
    · rcases List.mem_append.mp hm with hm | hm
      · exact h.named ls hm
      · rw [List.mem_singleton.mp hm]
        exact hne
  · exact ⟨h.owners, h.named⟩

theorem Keyed.move (h : l.Keyed) (hm : Move l l') : l'.Keyed := by
  cases hm with
  | tally | free | enqueue | unqueue => exact ⟨h.owners, h.named⟩
  | drop =>
    have hd := h.delete
    exact ⟨(hd _).owners, (hd _).named⟩
  | grant =>
    have hg : ({ l with nextId := l.nextId + 1 } : Lane).Keyed := ⟨h.owners, h.named⟩
    exact hg.grant _ _
  | @serve w l₁ _ _ frame =>
    have hl₁ : l₁.Keyed := by
      rw [frame]
      exact ⟨h.owners, h.named⟩
    have hdec : (l₁.decOwnerQueued w.info.owner).Keyed := ⟨hl₁.owners, hl₁.named⟩
    exact hdec.grant _ _
  | @resume ls c =>
    have hs := h.set ls.id (f := fun ls => { ls with busy := true, used := ls.used + 1 })
      fun _ => rfl
    exact ⟨hs.owners, hs.named⟩
  | @forgo call ls =>
    have hd := h.delete ls.owner
    exact ⟨hd.owners, hd.named⟩
  | @reserve call ls now =>
    have hs := h.set ls.id
      (f := fun ls => { ls with busy := false, deadline := now + l.cfg.affinityHold }) fun _ => rfl
    exact ⟨hs.owners, hs.named⟩
  | forget => exact h.delete _

/-! ## Sections as moves -/

theorem moves_admitOrQueue {maxQueued : Int}
    (apart : ¬ (l.active + l.reserved < l.cfg.maxConcurrent ∧ l.modelBlocked c.model = false) →
      ∀ ls ∈ l.leases, ls.busy = false → ls.owner = c.owner →
        c.noLease = true ∧ c.background = true) :
    Moves l (l.admitOrQueue c maxQueued).1 := by
  unfold admitOrQueue
  split
  · next hfree => exact .single (.grant hfree.1 (by simpa using hfree.2))
  next hwait =>
  split
  · exact .refl
  · have hwait : ¬ (l.active + l.reserved < l.cfg.maxConcurrent ∧
        l.modelBlocked c.model = false) := by simpa using hwait
    refine .single (.enqueue (fun hfree => ?_) (apart hwait))
    exact Bool.not_eq_false _ |>.mp fun hf => hwait ⟨hfree, hf⟩

/-- A lease starts with its call in flight. -/
theorem idle_of_grant (hm : ls ∈ (l.grant id c).leases) (hidle : ls.busy = false) :
    ls ∈ l.leases := by
  simp only [grant] at hm
  split at hm
  · rcases List.mem_append.mp hm with hm | hm
    · exact hm
    · rw [List.mem_singleton.mp hm] at hidle
      cases hidle
  · exact hm

/-- Serving waiters leaves no reservation behind. -/
theorem idle_of_dispatchLoop {fuel : Nat} (hm : ls ∈ (dispatchLoop fuel l).leases)
    (hidle : ls.busy = false) : ls ∈ l.leases := by
  induction fuel generalizing l with
  | zero => exact hm
  | succ fuel ih =>
    unfold dispatchLoop at hm
    split at hm
    · split at hm
      · exact hm
      · next w l' hnext =>
        have hl' : l'.leases = l.leases := by rw [(next_took hnext).frame]
        rw [← hl']
        exact idle_of_grant (l := l'.decOwnerQueued w.info.owner) (ih hm) hidle
    · exact hm

theorem Keyed.not_idle (hk : l.Keyed) (h : l.idleLease owner = none) :
    ∀ ls ∈ l.leases, ls.busy = false → ls.owner = owner → False := by
  intro ls hm hidle howner
  subst howner
  rw [idleLease, if_neg (hk.named ls hm), hk.leaseOf hm] at h
  simp [Option.filter, hidle] at h

theorem mem_of_idleLease (h : l.idleLease owner = some ls) :
    ls ∈ l.leases ∧ ls.busy = false ∧ ls.owner = owner := by
  unfold idleLease at h
  split at h
  · cases h
  · obtain ⟨hl, hidle⟩ := Option.filter_eq_some_iff.mp h
    obtain ⟨hm, howner⟩ := mem_of_leaseOf hl
    exact ⟨hm, by simpa using hidle, howner⟩

/-- A reservation that is left is given up, or kept for a call that needs none. -/
theorem leaveReservation_some {l₁ : Lane} (h : l.leaveReservation ls c = some l₁) :
    (∃ preemptions, l₁ = ({ l.dropIdle ls with preemptions } : Lane).dispatch) ∨
      l₁ = l ∧ c.noLease = true ∧ ¬ (!c.background ∧
        (l.cfg.maxConcurrent ≤ l.active + l.reserved ∨ l.modelBlocked c.model)) := by
  unfold leaveReservation at h
  split at h
  · next hno =>
    split at h
    · cases h
      exact .inl ⟨l.preemptions, rfl⟩
    · next hstay =>
      cases h
      exact .inr ⟨rfl, hno, hstay⟩
  · split at h
    · cases h
      exact .inl ⟨l.preemptions, rfl⟩
    · split at h <;> cases h
      exact .inl ⟨_, rfl⟩

theorem leaveReservation_none (h : l.leaveReservation ls c = none) :
    c.noLease = false ∧ l.modelBlocked c.model = false := by
  unfold leaveReservation at h
  split at h
  · split at h <;> cases h
  · next hno =>
    split at h
    · cases h
    · next hruns => exact ⟨by simpa using hno, by simpa using hruns⟩

theorem moves_acquire (hk : l.Keyed) (maxQueued : Int) : Moves l (l.acquire c maxQueued).1 := by
  unfold acquire
  cases hidle : l.idleLease c.owner with
  | none =>
    exact moves_admitOrQueue fun _ ls hm hi ho => (hk.not_idle hidle ls hm hi ho).elim
  | some ls =>
    obtain ⟨hm, hi, ho⟩ := mem_of_idleLease hidle
    dsimp only
    cases hleave : l.leaveReservation ls c with
    | none =>
      obtain ⟨hno, hruns⟩ := leaveReservation_none hleave
      exact .single (.resume hm hi ho hno hruns)
    | some l₁ =>
      obtain ⟨n, rfl⟩ | ⟨rfl, hno, hstay⟩ := leaveReservation_some hleave
      · have hdrop : Move l (l.dropIdle ls) := .drop hm hi
        have htally : Move (l.dropIdle ls) { l.dropIdle ls with preemptions := n } := .tally _ _ _
        refine ((Relation.ReflTransGen.single hdrop).tail htally).trans ((moves_dispatch _).trans ?_)
        -- nobody of this owner has a reservation after it was given up
        refine moves_admitOrQueue fun _ x hx hxi hxo => ?_
        have hidle := idle_of_dispatchLoop hx hxi
        exact absurd (hxo.trans ho.symm) (mem_deleteLease (l := l).mp hidle).2
      · refine moves_admitOrQueue fun hwait _ _ _ _ => ⟨hno, ?_⟩
        refine Bool.not_eq_false _ |>.mp fun hbg => hstay ⟨by simp [hbg], ?_⟩
        by_cases hfree : l₁.active + l₁.reserved < l₁.cfg.maxConcurrent
        · exact .inr (Bool.not_eq_false _ |>.mp fun hf => hwait ⟨hfree, hf⟩)
        · exact .inl (by omega)

theorem leaseHeld_eq_some (h : l.leaseHeld call = some ls) :
    ls ∈ l.leases ∧ ls.owner = call.info.owner ∧ call.lease = some ls.id := by
  obtain ⟨id, hid, hls⟩ := Option.bind_eq_some_iff.mp h
  obtain ⟨hl, he⟩ := Option.filter_eq_some_iff.mp hls
  obtain ⟨hm, howner⟩ := mem_of_leaseOf hl
  have he : ls.id = id := by simpa using he
  exact ⟨hm, howner, by rw [hid, he]⟩

theorem moves_finish (hm : call ∈ l.calls) (abandoned : Bool) (now : Int) :
    Moves l (l.finish call abandoned now) := by
  refine Relation.ReflTransGen.trans ?_ (moves_dispatch _)
  unfold settle
  have hheld : (l.endCall call).leaseHeld call = l.leaseHeld call := rfl
  rw [hheld]
  cases hls : l.leaseHeld call with
  | none => exact .single (.free hm hls)
  | some ls =>
    dsimp only
    split
    · exact .single (.forgo hm hls)
    next hkeep =>
    split
    · have htally : Move l { l with preemptions := l.preemptions + 1 } := .tally _ _ _
      have hforgo : Move { l with preemptions := l.preemptions + 1 }
          ((({ l with preemptions := l.preemptions + 1 } : Lane).endCall call
            |>.deleteLease ls.owner).freeSlot call.slot) := .forgo hm hls
      exact (Relation.ReflTransGen.single htally).tail hforgo
    · refine .single (.reserve hm hls ?_)
      cases abandoned with
      | true => simp [givesUp] at hkeep
      | false => simpa using hkeep

theorem mem_of_callOf (h : l.callOf id = some call) : call ∈ l.calls ∧ call.id = id :=
  ⟨List.mem_of_find?_eq_some h, by simpa using List.find?_some h⟩

theorem moves_endFn (l : Lane) (id : Nat) (abandoned : Bool) (now : Int) :
    Moves l (l.endFn id abandoned now) := by
  unfold endFn
  cases hc : l.callOf id with
  | none => exact .refl
  | some call =>
    have htally : Move l { l with grants := if abandoned then l.grants - 1 else l.grants } :=
      .tally _ _ _
    refine .head htally (moves_finish ?_ abandoned now)
    exact (mem_of_callOf hc).1

theorem moves_cancel {now : Int} (h : l.cancel id now = some l') : Moves l l' := by
  unfold cancel at h
  split at h
  · next call hc =>
    cases h
    have hend := moves_endFn l id true now
    rw [endFn, hc] at hend
    exact hend
  · obtain ⟨w, hw, he⟩ := Option.map_eq_some_iff.mp h
    cases he
    exact .single (.unqueue (List.mem_of_find?_eq_some hw))

variable {drop : Lane → Lease → Bool}

/-- What every drop keeps holds after the loop. -/
theorem forLeases_invariant {I : Lane → Prop}
    (hdrop : ∀ l ls, I l → ls ∈ l.leases → drop l ls = true → I (l.dropIdle ls))
    (order : List String) (hl : I l) : I (forLeases drop order l) := by
  induction order generalizing l with
  | nil => exact hl
  | cons owner order ih =>
    rw [forLeases, List.foldl_cons]
    cases hls : l.leaseOf owner with
    | none => exact ih hl
    | some ls =>
      dsimp only [Option.elim]
      split
      · next hd => exact ih (hdrop l ls hl (mem_of_leaseOf hls).1 hd)
      · exact ih hl

theorem forLeases_frame (drop : Lane → Lease → Bool) (order : List String) (l : Lane) :
    ∃ leases reserved inUse, forLeases drop order l = { l with leases, reserved, inUse } := by
  refine forLeases_invariant (I := fun r => ∃ leases reserved inUse,
    r = { l with leases, reserved, inUse }) ?_ order ⟨_, _, _, rfl⟩
  rintro _ ls ⟨_, _, _, rfl⟩ _ _
  exact ⟨_, _, _, rfl⟩

theorem moves_forLeases (hdrop : ∀ l ls, drop l ls = true → ls.busy = false)
    (order : List String) (l : Lane) : Moves l (forLeases drop order l) :=
  forLeases_invariant (I := Moves l) (fun r ls hr hm hd => hr.tail (.drop hm (hdrop r ls hd)))
    order .refl

/-- How a section starts: `Reconfigure` and `retire` set the config, and the rest of every
section is moves. -/
inductive Retunes (l : Lane) : Label → Lane → Prop
  | same {a : Label} : Retunes l a l
  | reconfigure {cfg : LaneConfig} {order order' : List String} :
    Retunes l (.reconfigure cfg order order') (l.setConfig (normalizeLaneConfig cfg))
  | retire {order : List String} :
    Retunes l (.retire order) { l with cfg := { l.cfg with affinityHold := 0 } }

theorem homeless_idle (l : Lane) (ls : Lease) (h : l.homeless ls = true) : ls.busy = false := by
  simp only [homeless, Bool.and_eq_true, Bool.not_eq_true'] at h
  exact h.1

theorem excess_idle (l : Lane) (ls : Lease) (h : l.excess ls = true) : ls.busy = false := by
  simp only [excess, Bool.and_eq_true, Bool.not_eq_true'] at h
  exact h.2

/-- A section that is not a call's own: reservations are dropped and what they free is handed
on, or the reservation a call runs on is forgotten. -/
inductive Ambient (l : Lane) (a : Label) : Lane → Prop
  | same : Ambient l a l
  | forget {ls : Lease} (mem : ls ∈ l.leases) (busy : ls.busy = true) :
    Ambient l a (l.deleteLease ls.owner)
  | dispatch {l₀ l₁ : Lane} (tunes : Retunes l a l₀) (moves : Moves l₀ l₁)
    (calls : l₁.calls = l.calls) (waiters : l₁.waiters = l.waiters) : Ambient l a l₁.dispatch

theorem ambient_step {a : Label} (ha : a.ambient = true) (h : l.step a = some l') :
    l.Ambient a l' := by
  have hdrop : ∀ ls ∈ l.leases, ls.busy = false → l.Ambient a (l.dropIdle ls).dispatch :=
    fun ls hm hi => .dispatch .same (.single (.drop hm hi)) rfl rfl
  cases a with
  | expire id now =>
    cases h
    unfold expire
    split
    · exact .same
    · next ls hls =>
      split
      · exact .same
      · next hi =>
        exact hdrop ls (List.mem_of_find?_eq_some hls) (by simpa using fun hb => hi (.inl hb))
  | done owner =>
    cases h
    unfold done
    split
    · exact .same
    split
    · exact .same
    · next ls hls =>
      obtain ⟨hm, rfl⟩ := mem_of_leaseOf hls
      split
      · next hb => exact .forget hm hb
      · next hb => exact hdrop ls hm (by simpa using hb)
  | yieldIdle owner =>
    cases h
    unfold yieldIdle
    split
    · exact .same
    · next ls hls =>
      split
      · exact .same
      · next hb => exact hdrop ls (mem_of_leaseOf hls).1 (by simpa using hb)
  | reconfigure cfg order order' =>
    simp only [step] at h
    split at h <;> cases h
    have hmoves := (moves_forLeases homeless_idle order (l.setConfig (normalizeLaneConfig cfg))).trans
      (moves_forLeases excess_idle order' _)
    obtain ⟨_, _, _, he⟩ := forLeases_frame homeless order (l.setConfig (normalizeLaneConfig cfg))
    obtain ⟨_, _, _, he'⟩ := forLeases_frame excess order'
      (forLeases homeless order (l.setConfig (normalizeLaneConfig cfg)))
    exact .dispatch .reconfigure hmoves (by rw [he', he]; rfl) (by rw [he', he]; rfl)
  | retire order =>
    simp only [step] at h
    split at h <;> cases h
    obtain ⟨_, _, _, he⟩ := forLeases_frame idle order
      { l with cfg := { l.cfg with affinityHold := 0 } }
    exact .dispatch .retire (moves_forLeases (fun l ls h => by simpa [idle] using h) order _)
      (by rw [he]) (by rw [he]; rfl)
  | acquire | release | giveBack | cancel => cases ha

theorem step_moves {a : Label} (hk : l.Keyed) (h : l.step a = some l') :
    ∃ l₀, Retunes l a l₀ ∧ Moves l₀ l' := by
  cases a with
  | acquire c maxQueued =>
    cases h
    exact ⟨l, .same, moves_acquire hk maxQueued⟩
  | release id now | giveBack id now =>
    cases h
    exact ⟨l, .same, moves_endFn l id _ now⟩
  | cancel id now => exact ⟨l, .same, moves_cancel h⟩
  | _ =>
    cases ambient_step rfl h with
    | same => exact ⟨l, .same, .refl⟩
    | forget hm hb => exact ⟨l, .same, .single (.forget hm hb)⟩
    | dispatch htunes hmoves => exact ⟨_, htunes, hmoves.trans (moves_dispatch _)⟩

/-! ## Work conservation -/

theorem WorkConserving.grant (h : l.WorkConserving) :
    ({ l with nextId := l.nextId + 1 }.grant id c).WorkConserving := by
  intro hfree w hw
  refine modelBlocked_mono (l := l) rfl (sublist_startModel _ _) (h ?_ w hw)
  simp only [Lane.grant] at hfree
  omega

theorem WorkConserving.admitOrQueue (h : l.WorkConserving) (maxQueued : Int) :
    (l.admitOrQueue c maxQueued).1.WorkConserving := by
  unfold Lane.admitOrQueue
  split
  · exact h.grant
  next hwait =>
  split
  · exact h
  · intro hfree w hw
    rcases List.mem_cons.mp ((waiters_enqueue l c).mem_iff.mp hw) with rfl | hw
    · have hblocked : l.modelBlocked c.model = true :=
        Bool.not_eq_false _ |>.mp fun hf => hwait ⟨hfree, by simpa using hf⟩
      exact hblocked
    · exact h hfree w hw

theorem WorkConserving.acquire (h : l.WorkConserving) (maxQueued : Int) :
    (l.acquire c maxQueued).1.WorkConserving := by
  unfold Lane.acquire
  split
  · exact h.admitOrQueue maxQueued
  next ls _ =>
  split
  · next hleave =>
    obtain ⟨n, rfl⟩ | ⟨rfl, -⟩ := leaveReservation_some hleave
    · exact (workConserving_dispatch _).admitOrQueue maxQueued
    · exact h.admitOrQueue maxQueued
  · intro hfree w hw
    refine modelBlocked_mono (l := l) rfl (sublist_startModel _ _) (h ?_ w hw)
    simp only [Lane.resume, setLease] at hfree
    omega

theorem WorkConserving.unqueue (h : l.WorkConserving) (w : LaneWaiter) :
    (l.unqueue w).WorkConserving := by
  refine fun hfree x hx => h hfree x ?_
  simp only [Lane.unqueue, decOwnerQueued, waiters] at hx ⊢
  rcases List.mem_append.mp hx with hx | hx
  · refine List.mem_append_left _ ?_
    split at hx
    · exact hx
    · exact LaneQueue.mem_of_mem_remove hx
  · refine List.mem_append_right _ ?_
    split at hx
    · exact LaneQueue.mem_of_mem_remove hx
    · exact hx

/-- Whatever a section frees, it hands on before it ends. -/
theorem workConserving_step {a : Label} (hl : l.WorkConserving) (h : l.step a = some l') :
    l'.WorkConserving := by
  cases a with
  | acquire c maxQueued =>
    cases h
    exact hl.acquire maxQueued
  | release id now | giveBack id now =>
    cases h
    show (l.endFn id _ now).WorkConserving
    unfold endFn
    split
    · exact hl
    · exact workConserving_dispatch _
  | cancel id now =>
    simp only [step, cancel] at h
    split at h
    · cases h
      exact workConserving_dispatch _
    · obtain ⟨w, -, rfl⟩ := Option.map_eq_some_iff.mp h
      exact hl.unqueue w
  | _ =>
    cases ambient_step rfl h with
    | same | forget => exact hl
    | dispatch => exact workConserving_dispatch _

end Lane

end Loomcycle.Concurrency
