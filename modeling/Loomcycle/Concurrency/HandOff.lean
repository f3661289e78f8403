import Loomcycle.Concurrency.UserCounts

/-! # Hand-offs

A waiter's token is sent under the mutex and received outside it. Whatever interleaves
in between, a waiter is still queued, or was handed what it waited for, or was withdrawn
by its own cancelled wait while it was queued: never two of these, never none. So a
cancel that does not find its waiter queued finds its token. -/

namespace Loomcycle.Concurrency
open Lib Lib.Transition

variable {s : Semaphore} {x : SemWaiter}

/-- In how many places `x` is queued. -/
def Semaphore.placesOf (s : Semaphore) (x : SemWaiter) : Nat :=
  s.admitted.count x + s.queue.waiters.count x + (s.userWait.get x.key).count x

/-- It is in exactly one queue and its channel is empty. -/
def Semaphore.StillQueued (s : Semaphore) (x : SemWaiter) : Prop :=
  s.placesOf x = 1 ∧ s.tokens.count x = 0

/-- It is in no queue, and its channel holds exactly one token or its goroutine has
received it. -/
def Semaphore.HandedOver (s : Semaphore) (x : SemWaiter) : Prop :=
  s.placesOf x = 0 ∧
    (s.tokens.count x = 1 ∧ s.received.count x = 0 ∨ s.tokens.count x = 0 ∧ s.received.count x = 1)

/-- Its own wait was cancelled while it was queued: it is in no queue, nothing was sent
to it and nobody waits on it. -/
def Semaphore.Withdrawn (s : Semaphore) (x : SemWaiter) : Prop :=
  s.placesOf x = 0 ∧ s.tokens.count x = 0 ∧ s.received.count x = 0 ∧ x ∈ s.withdrawn

variable {ps : List Proc}

/-- A waiter on a user's cap is in its key's list only. -/
theorem Accounts.count_userWait (h : Accounts s ps) (x : SemWaiter) :
    s.userWait.values.count x = (s.userWait.get x.key).count x := by
  rw [(s.userWait.values_perm x.key).count_eq, List.count_append]
  have hzero : (Multimap.values (s.userWait.erase x.key)).count x = 0 := by
    refine List.count_eq_zero.mpr fun hm => ?_
    obtain ⟨k, hk⟩ := Multimap.mem_values.mp hm
    by_cases hkey : k = x.key
    · rw [hkey, Multimap.get_erase_self] at hk
      cases hk
    · rw [Multimap.get_erase_of_ne _ hkey] at hk
      exact hkey (h.ok.cap k x hk).2.symm
  omega

/-- Every waiter ever made is counted once over queues, tokens and history. -/
theorem Accounts.count_created (h : Accounts s ps) (hx : x ∈ s.created) :
    s.placesOf x + s.tokens.count x + s.received.count x + s.withdrawn.count x = 1 := by
  have hone : s.created.count x = 1 := List.count_eq_one_of_mem h.ok.nodup hx
  have hhist : s.created.count x = _ := h.ok.history.count_eq x
  have hpend := h.ok.pending.count_eq x
  have huser := h.count_userWait x
  simp only [Waits.pending, List.count_append, Semaphore.waits, Semaphore.slotWaiters] at hhist hpend
  simp only [Semaphore.placesOf]
  omega

/-- The calls blocked on a waiter: one while it is queued or its token is unread, none
afterwards. -/
theorem Accounts.count_blocked (h : Accounts s ps) (x : SemWaiter) :
    (waitersOf ps).count x = s.placesOf x + s.tokens.count x := by
  have hpend := h.ok.pending.count_eq x
  have huser := h.count_userWait x
  simp only [Waits.pending, List.count_append, Semaphore.waits, Semaphore.slotWaiters] at hpend
  simp only [Semaphore.placesOf]
  omega

/-- In every reachable state, in either mode: each waiter ever made is still queued, handed
over or withdrawn, exactly one of the three; as many calls are blocked on it as it has
places and tokens; no cancel or receive was reached without its token; `active` counts each slot
once, with its holder or with the waiter it was handed to; and so does `perUser` each count of a
user, unless an `AcquireForUser` gave one back that it had not taken. -/
theorem handed_off_of_run {maxConcurrent maxQueue timeout : Int} {w : World}
    (h : Run step Any (World.init maxConcurrent maxQueue timeout) w) :
    (∀ x ∈ w.sem.created,
      w.sem.StillQueued x ∧ ¬ w.sem.HandedOver x ∧ ¬ w.sem.Withdrawn x ∨
      ¬ w.sem.StillQueued x ∧ w.sem.HandedOver x ∧ ¬ w.sem.Withdrawn x ∨
      ¬ w.sem.StillQueued x ∧ ¬ w.sem.HandedOver x ∧ w.sem.Withdrawn x) ∧
    (∀ x, (waitersOf w.procs).count x = w.sem.placesOf x + w.sem.tokens.count x) ∧
    w.sem.faults = [] ∧
    w.sem.active = w.procs.countP (Proc.holdsSlot w.sem) ∧
    (Run step AcquiresCounted (World.init maxConcurrent maxQueue timeout) w →
      ∀ k, w.sem.perUser k = tally (w.held k + w.sem.handed k)) := by
  have hacc := (balanced_of_run h).accounts
  refine ⟨fun x hx => ?_, hacc.count_blocked, hacc.ok.faults, hacc.active_eq, fun hrun k => ?_⟩
  rotate_left
  · have hw : w.Counts := hrun.invariant
      (fun _ _ _ hw hP hs => counts_step hw (paid_step hP hw.paid hs) hs) (counts_init _ _ _)
    exact (hw.tallies k).2
  have hone := hacc.count_created hx
  have hwith : x ∈ w.sem.withdrawn ↔ 0 < w.sem.withdrawn.count x := List.count_pos_iff.symm
  simp only [Semaphore.StillQueued, Semaphore.HandedOver, Semaphore.Withdrawn, hwith]
  omega

/-- After the lend one waiter has its token and the other is queued. -/
theorem handed_off_of_lend :
    ∃ w, Run step Any (World.init 1 2 0) w ∧
      w.sem.created.map (fun x => (w.sem.placesOf x, w.sem.tokens.count x)) = [(0, 1), (1, 0)] ∧
      w.sem.faults = [] ∧
      ∀ x, (waitersOf w.procs).count x = w.sem.placesOf x + w.sem.tokens.count x := by
  obtain ⟨w, hrun, hw⟩ := exists_run step (World.init 1 2 0) lendTrace
    (p := fun w => w.sem.created.map (fun x => (w.sem.placesOf x, w.sem.tokens.count x)) =
      [(0, 1), (1, 0)]) (by decide +kernel)
  obtain ⟨-, hblocked, hfaults, -, -⟩ := handed_off_of_run hrun
  exact ⟨w, hrun, hw, hfaults, hblocked⟩

/-- A run's only slot is taken, work that was already admitted waits for it and gives up. -/
def cancelTrace : List Label :=
  [.call .tryAcquire, .act 0 .proceed, .call .wait, .act 1 .proceed, .act 1 (.cancel .ctx)]

/-- Alice's first run is counted. With the cap off she acquires a slot and is not, and with the cap
on again her second run waits. The slot's end gives a count back, which moves that run on. -/
def uncountedTrace : List Label :=
  [.withQueuedPerUserCap 1, .withPerUserCap 1 [], .call (.admitRun { userID := "alice" }),
    .act 0 .proceed, .act 0 .proceed, .withPerUserCap 0 [],
    .call (.acquireForUser ⟨"", "alice"⟩), .act 1 .proceed, .act 1 .proceed, .withPerUserCap 1 [],
    .call (.admitRun { userID := "alice" }), .act 2 .proceed, .act 2 .proceed,
    .act 1 .release]

/-- A waiter withdrawn by its own cancelled wait is neither queued nor handed over. And two runs can
share one count. -/
theorem withdrawn_waiter_neither_queued_nor_handed :
    (∃ w, Run step Any (World.init 1 1 0) w ∧
      ∃ x ∈ w.sem.created, ¬ w.sem.StillQueued x ∧ ¬ w.sem.HandedOver x) ∧
    ∃ w, Run step Any (World.init 2 2 0) w ∧ w.sem.perUser ⟨"", "alice"⟩ = some 1 ∧
      w.held ⟨"", "alice"⟩ + w.sem.handed ⟨"", "alice"⟩ = 2 := by
  refine ⟨?_, exists_run step (World.init 2 2 0) uncountedTrace (by decide +kernel)⟩
  obtain ⟨w, hrun, x, hx, hplaces, htokens, hreceived⟩ := exists_run step (World.init 1 1 0)
    cancelTrace (p := fun w => ∃ x ∈ w.sem.created, w.sem.placesOf x = 0 ∧
      w.sem.tokens.count x = 0 ∧ w.sem.received.count x = 0) (by decide +kernel)
  refine ⟨w, hrun, x, hx, fun hq => ?_, fun hh => ?_⟩
  · have := hq.1
    omega
  · rcases hh.2 with ⟨ht, -⟩ | ⟨-, hr⟩ <;> omega

end Loomcycle.Concurrency
